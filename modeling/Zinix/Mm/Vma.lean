import Zinix.Mm.PageTable

/-!
# Virtual memory areas

Areas are values, and a method that changes its area returns the new one. Pages are denoted
by their frames. An inode carries the bytes of its file.
-/

namespace Zinix

/-- The bits of `VmFlags`. -/
abbrev VmFlags := BitVec 64

namespace VmFlags

def VM_READ : VmFlags := 1 <<< 0
def VM_WRITE : VmFlags := 1 <<< 1
def VM_EXEC : VmFlags := 1 <<< 2
def VM_USER : VmFlags := 1 <<< 3
def VM_ANON : VmFlags := 1 <<< 5
def VM_DIRTY : VmFlags := 1 <<< 6

def contains (f g : VmFlags) : Bool := f &&& g == g

/-- `VmFlags::from_mmap`, with the bits of `MmapFlags` and `MmapProt`. -/
def fromMmap (mmapFlags protFlags : BitVec 64) : VmFlags :=
  (if protFlags &&& 1 == 1 then VM_READ else 0) |||
    (if protFlags &&& 2 == 2 then VM_WRITE else 0) |||
    (if protFlags &&& 4 == 4 then VM_EXEC else 0) |||
    (if mmapFlags &&& 0x20 == 0x20 then VM_ANON else 0) ||| VM_USER

end VmFlags

/-- `_vma_flags_2_pte_flags`. -/
def vmaFlags2PteFlags (f : VmFlags) : BitVec 8 := ((f &&& 0b1111) <<< 1).setWidth 8 ||| PTEFlags.V

structure MappedFile where
  id : ℕ
  bytes : List (BitVec 8)
  deriving DecidableEq, Repr

/-- `read_off_exact`: the bytes that were read, or nothing if the offset is beyond
what a FAT file can have. -/
def MappedFile.readOffExact (file : MappedFile) (len off : ℕ) : Option (List (BitVec 8)) :=
  if 0 < len ∧ 2 ^ 32 ≤ off then none else some ((file.bytes.drop off).take len)

structure Vma where
  startVaddr : ℕ
  endVaddr : ℕ
  vmFlags : VmFlags
  pagesTree : OrdMap Frame
  pagetable : Option ℕ
  file : Option MappedFile
  fileOff : ℕ
  fileInVmaOff : ℕ
  fileLen : ℕ
  phyPgsCnt : ℕ
  cowWriteReservePgs : Option (OrdMap Frame)

structure FilePiece where
  pageOff : ℕ
  len : ℕ
  fileOff : ℕ

namespace Vma

open Phys PageTable

def empty (startVaddr endVaddr : ℕ) : Vma where
  startVaddr := startVaddr
  endVaddr := endVaddr
  vmFlags := 0
  pagesTree := ∅
  pagetable := none
  file := none
  fileOff := 0
  fileInVmaOff := 0
  fileLen := 0
  phyPgsCnt := 0
  cowWriteReservePgs := none

def writeable (self : Vma) : Bool := self.vmFlags.contains .VM_WRITE

def isAnon (self : Vma) : Bool := self.vmFlags.contains .VM_ANON

def inVma (self : Vma) (vaddr : ℕ) : Bool := self.startVaddr ≤ vaddr && vaddr < self.endVaddr

/-- `_vaddr_have_map`. -/
def vaddrHaveMap (self : Vma) (vaddr : ℕ) : Bool := self.pagesTree.contains vaddr

/-- `_find_page`. -/
def findPage (self : Vma) (vaddr : ℕ) : Option Frame := self.pagesTree.get? vaddr

/-- `__fast_alloc_one_page_and_get`. -/
def fastAllocOnePageAndGet (self : Vma) (vaddr : ℕ) : Program Phys (Frame × Vma) := do
  Checked.ensure (self.inVma vaddr) .assertion
  Checked.ensure (Vaddr.isAlign vaddr) .assertion
  if !self.vaddrHaveMap vaddr then
    let pg ← allocOrPanic
    let pt ← Checked.unwrap self.pagetable
    match ← mapOnePage pt vaddr pg (vmaFlags2PteFlags self.vmFlags) with
    | .error _ => throw .todo
    | .ok _ => return (pg, { self with pagesTree := self.pagesTree.insert vaddr pg })
  else
    return (← Checked.unwrap (self.findPage vaddr), self)

/-- The part of a page that lies in the mapped part of the file, as
`_do_alloc_one_page` computes it. -/
def filePiece (self : Vma) (vaddr : ℕ) : Checked (Option FilePiece) := do
  let fileMapStart ← addUsize self.startVaddr self.fileInVmaOff
  let fileMapEnd ← addUsize fileMapStart self.fileLen
  if vaddr < fileMapStart then
    let pageEnd ← addUsize vaddr pageSize
    if fileMapStart < pageEnd then
      let leftOff ← subUsize fileMapStart vaddr
      let rightOff ← if pageEnd ≤ fileMapEnd then pure pageSize else subUsize fileMapEnd vaddr
      let needRead ← subUsize rightOff leftOff
      return some ⟨leftOff, needRead, self.fileOff⟩
    else
      return none
  else if fileMapEnd ≤ vaddr then
    return none
  else
    let pageEnd ← addUsize vaddr pageSize
    let rightOff ← if pageEnd ≤ fileMapEnd then pure pageSize else subUsize fileMapEnd vaddr
    let inFile ← subUsize vaddr fileMapStart
    let realInFileOff ← addUsize inFile self.fileOff
    return some ⟨0, rightOff, realInFileOff⟩

def readPiece (self : Vma) (piece : FilePiece) : Checked (List (BitVec 8)) := do
  let file ← Checked.unwrap self.file
  let buf ← Checked.unwrap (file.readOffExact piece.len piece.fileOff)
  Checked.ensure (buf.length = piece.len) .assertion
  return buf

def setDirty (self : Vma) : Vma := { self with vmFlags := self.vmFlags ||| .VM_DIRTY }

/-- The two branches of `_do_alloc_one_page`. -/
def allocAndFill (self : Vma) (vaddr : ℕ) : Program Phys (Frame × Vma) := do
  if self.isAnon then
    self.fastAllocOnePageAndGet vaddr
  else
    let piece ← self.filePiece vaddr
    let (pg, self) ← self.fastAllocOnePageAndGet vaddr
    match piece with
    | none => return (pg, self)
    | some piece =>
      let buf ← self.readPiece piece
      modify fun p => p.setPage pg ((p.mem pg).setBytes piece.pageOff buf)
      return (pg, self)

/-- `_do_alloc_one_page`. -/
def doAllocOnePage (self : Vma) (vaddr : ℕ) : Program Phys (Except Unit Frame × Vma) := do
  if !Vaddr.isAlign vaddr || !self.inVma vaddr then
    return (.error (), self)
  else
    let (pg, self) ← self.allocAndFill vaddr
    return (.ok pg, if self.writeable then self.setDirty else self)

/-- `split`. The area keeps what lies below the address, the rest is returned. -/
def split (self : Vma) (vaddr : ℕ) : Checked (Option Vma × Vma) := do
  if self.inVma vaddr then
    return (none, self)
  else
    let self := { self with endVaddr := vaddr }
    if self.isAnon then
      let pt ← Checked.unwrap self.pagetable
      let new := { empty vaddr self.endVaddr with
        vmFlags := self.vmFlags
        pagetable := some pt
        pagesTree := self.pagesTree.filter (vaddr ≤ ·) }
      return (some new, { self with pagesTree := self.pagesTree.filter (· < vaddr) })
    else
      throw .todo

/-- `Drop for VMA`: the pages are unmapped, and their frames are given back. -/
def drop (self : Vma) : Program Phys Unit := do
  self.pagesTree.entries.foldlM (fun _ e => do
    let pt ← Checked.unwrap self.pagetable
    let _ ← unmapOnePage pt e.1) ()
  modify fun p => { p with
    live := p.live.filter fun f => f ∉ self.pagesTree.entries.map Prod.snd ∧
      f ∉ (self.cowWriteReservePgs.getD ∅).entries.map Prod.snd }

end Vma

end Zinix
