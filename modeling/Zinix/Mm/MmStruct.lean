import Zinix.Mm.Vma

/-!
# Address spaces

The functions of `MmStruct` for user address spaces, the memory system calls and the page
fault handler of the default build. Of an executable only the program headers count here,
and the block that `create_user_task` lays out on the stack is given as its bytes.
-/

namespace Zinix

def userSpaceStart : ℕ := 0x0
def userSpaceEnd : ℕ := 0x10000000
def userHeapVmaInitNrPages : ℕ := 1
def userStackSizeNrPages : ℕ := 16
def userStackMaxAddr : ℕ := 0x10000000
def mmapTop : ℕ := 0x8000000

structure Mm where
  pagetable : ℕ
  vmas : OrdMap Vma
  startBrk : ℕ
  brk : ℕ
  cowTarget : Option ℕ

/-- The fields of a program header that `new_from_elf` reads. -/
structure ProgramHeader where
  isLoad : Bool
  virtualAddr : ℕ
  memSize : ℕ
  fileSize : ℕ
  offset : ℕ
  isRead : Bool
  isWrite : Bool
  isExecute : Bool
  deriving DecidableEq, Repr

namespace Mm

open Phys PageTable

def newEmptyUserMmByPagetable (pagetable : ℕ) : Mm where
  pagetable := pagetable
  vmas := ∅
  startBrk := 0
  brk := 0
  cowTarget := none

def newEmptyUserMm : Program Phys Mm := do
  return newEmptyUserMmByPagetable (← newUser)

/-- `find_vma`, with the key of the area. -/
def findVma (self : Mm) (vaddr : ℕ) : Option (ℕ × Vma) :=
  self.vmas.entries.find? fun e => e.2.inVma vaddr

def setVma (self : Mm) (k : ℕ) (vma : Vma) : Mm := { self with vmas := self.vmas.insert k vma }

/-- `_insert_no_check`. An area that was there under the same key is dropped. -/
def insertNoCheck (self : Mm) (vma : Vma) : Program Phys Mm := do
  match self.vmas.get? vma.startVaddr with
  | none => pure ()
  | some old => old.drop
  return self.setVma vma.startVaddr vma

/-- `__alloc_unmapped_fixed`. -/
def allocUnmappedFixed (self : Mm) (vaddr len rangeEnd : ℕ) : Checked (Option Vma) := do
  match (self.vmas.range vaddr rangeEnd).head? with
  | some (k, _) =>
    if len ≤ (← subUsize k vaddr) then
      return some (.empty vaddr (← addUsize vaddr len))
    else
      return none
  | none => return some (.empty vaddr (← addUsize vaddr len))

/-- The loop of `__alloc_unmapped_core` upwards. -/
def fitHigh (len rangeEnd lastEnd : ℕ) : List (ℕ × Vma) → Checked (Option Vma)
  | [] => do
    if len ≤ (← subUsize rangeEnd lastEnd) then
      return some (.empty lastEnd (← addUsize lastEnd len))
    else
      return none
  | (_, v) :: rest => do
    if len ≤ (← subUsize v.startVaddr lastEnd) then
      return some (.empty lastEnd (← addUsize lastEnd len))
    else
      fitHigh len rangeEnd v.endVaddr rest

/-- The loop of `__alloc_unmapped_core` downwards. -/
def fitLow (len rangeStart lastStart : ℕ) : List (ℕ × Vma) → Checked (Option Vma)
  | [] => do
    if len ≤ (← subUsize lastStart rangeStart) then
      return some (.empty (← subUsize lastStart len) lastStart)
    else
      return none
  | (_, v) :: rest => do
    if len ≤ (← subUsize lastStart v.endVaddr) then
      return some (.empty (← subUsize lastStart len) lastStart)
    else
      fitLow len rangeStart v.startVaddr rest

/-- `__alloc_unmapped_core`. -/
def allocUnmappedCore (self : Mm) (vaddr : Option ℕ) (len : ℕ) (toHigh : Bool)
    (rangeStart rangeEnd : ℕ) : Checked (Option Vma) := do
  Checked.ensure (Vaddr.isAlign len) .assertion
  Checked.ensure (Vaddr.isAlign rangeStart) .assertion
  Checked.ensure (Vaddr.isAlign rangeEnd) .assertion
  Checked.ensure (rangeStart < rangeEnd) .assertion
  if (← subUsize rangeEnd rangeStart) ≤ len then
    return none
  else
    match vaddr with
    | some vi =>
      if rangeEnd < (← addUsize vi len) then
        return none
      else
        Checked.ensure (Vaddr.isAlign vi) .assertion
        Checked.ensure (rangeStart ≤ vi) .assertion
        Checked.ensure (vi < rangeEnd) .assertion
        self.allocUnmappedFixed vi len rangeEnd
    | none =>
      if toHigh then
        fitHigh len rangeEnd rangeStart (self.vmas.range rangeStart rangeEnd)
      else
        fitLow len rangeStart rangeEnd (self.vmas.range rangeStart rangeEnd).reverse

def allocMmapAnon (self : Mm) (vaddr : Option ℕ) (len : ℕ) (mapFlags protFlags : BitVec 64) :
    Checked (Option Vma) := do
  let ret ← self.allocUnmappedCore vaddr len false userSpaceStart mmapTop
  return ret.map fun vma => { vma with
    pagetable := some self.pagetable
    vmFlags := .fromMmap mapFlags protFlags }

def allocMmapFile (self : Mm) (vaddr : Option ℕ) (len : ℕ) (file : MappedFile) (fileOff fileLen : ℕ)
    (mapFlags protFlags : BitVec 64) : Checked (Option Vma) := do
  Checked.ensure (fileLen ≤ len) .assertion
  let ret ← self.allocUnmappedCore vaddr len false userSpaceStart mmapTop
  return ret.map fun vma => { vma with
    pagetable := some self.pagetable
    fileOff := fileOff
    file := some file
    vmFlags := .fromMmap mapFlags protFlags
    fileLen := fileLen
    fileInVmaOff := 0 }

/-- `sys_mmap`. The file is the one that is open under the descriptor, if it is an
inode and not a directory. -/
def sysMmap (self : Mm) (va len : ℕ) (prot flags : BitVec 64) (file : Option MappedFile)
    (offset : ℕ) :
    Program Phys (ℤ × Mm) := do
  let vaddr := if va ≠ 0 then some va else none
  if flags &&& 0x20 == 0x20 then
    match ← self.allocMmapAnon vaddr len flags prot with
    | none => return (-1, self)
    | some v => return (v.startVaddr, ← self.insertNoCheck v)
  else
    match file with
    | none => return (-1, self)
    | some inode =>
      match ← self.allocMmapFile vaddr len inode offset (min len inode.bytes.length) flags prot with
      | none => return (-1, self)
      | some v => return (v.startVaddr, ← self.insertNoCheck v)

/-- `_expand_brk`. A range whose start is beyond its end panics. -/
def expandBrk (self : Mm) (newBrk : ℕ) : Checked (Except Unit Unit × Mm) := do
  Checked.ensure (self.startBrk ≤ mmapTop) (.explicit "range start is greater than range end")
  let limit := match ((self.vmas.range self.startBrk mmapTop).drop 1).head? with
    | none => mmapTop
    | some (startVaddr, _) => startVaddr
  if newBrk ≤ limit then
    let (k, vma) ← Checked.unwrap (self.findVma self.startBrk)
    return (.ok (), { self.setVma k { vma with endVaddr := newBrk } with brk := newBrk })
  else
    return (.error (), self)

/-- `_shrink_brk`. The upper part of the area is dropped. -/
def shrinkBrk (self : Mm) (newBrk : ℕ) : Program Phys (Except Unit Unit × Mm) := do
  let (k, vma) ← Checked.unwrap (self.findVma self.startBrk)
  match ← vma.split newBrk with
  | (none, vma) => return (.error (), self.setVma k vma)
  | (some new, vma) =>
    new.drop
    return (.ok (), self.setVma k vma)

/-- `sys_brk`. -/
def sysBrk (self : Mm) (brk : ℕ) : Program Phys (ℤ × Mm) := do
  if brk = 0 then
    return (self.brk, self)
  else if brk < self.startBrk then
    return (-1, self)
  else if self.brk = brk then
    return (brk, self)
  else if brk < self.brk then
    match ← self.shrinkBrk brk with
    | (.ok _, mm) => return (brk, mm)
    | (.error _, mm) => return (-1, mm)
  else
    match ← self.expandBrk brk with
    | (.ok _, mm) => return (brk, mm)
    | (.error _, mm) => return (-1, mm)

end Mm

def ProgramHeader.vmFlags (ph : ProgramHeader) : VmFlags :=
  .VM_USER ||| (if ph.isRead then .VM_READ else 0) ||| (if ph.isWrite then .VM_WRITE else 0) |||
    (if ph.isExecute then .VM_EXEC else 0)

def anonVmFlags : VmFlags := .VM_READ ||| .VM_WRITE ||| .VM_EXEC ||| .VM_USER ||| .VM_ANON

namespace Mm

open Phys PageTable

/-- The loop over the program headers. The second component is `load_end`. -/
def loadSegment (file : MappedFile) (st : Mm × ℕ) (ph : ProgramHeader) : Program Phys (Mm × ℕ) := do
  let (mm, loadEnd) := st
  if ph.isLoad then
    let sAddr ← Vaddr.floor ph.virtualAddr
    let offset ← subUsize ph.virtualAddr sAddr
    let sizeAligned ← Vaddr.ceil (← addUsize ph.memSize offset)
    match ← mm.allocUnmappedCore (some sAddr) sizeAligned true userSpaceStart userSpaceEnd with
    | none => throw (.explicit "alloc vma fail")
    | some vma =>
      Checked.ensure (offset < pageSize) .assertion
      let mm ← mm.insertNoCheck { vma with
        fileInVmaOff := offset
        file := some file
        vmFlags := ph.vmFlags
        pagetable := some mm.pagetable
        fileLen := ph.fileSize
        fileOff := ph.offset }
      return (mm, max loadEnd vma.endVaddr)
  else
    return (mm, loadEnd)

def addHeap (self : Mm) (loadEnd : ℕ) : Program Phys Mm := do
  let heapStart ← addUsize (← Vaddr.ceil loadEnd) pageSize
  let brk ← addUsize heapStart (userHeapVmaInitNrPages * pageSize)
  let mm := { self with startBrk := heapStart, brk := brk }
  match ← mm.allocUnmappedCore (some heapStart) (userHeapVmaInitNrPages * pageSize) true
      userSpaceStart userSpaceEnd with
  | none => throw (.explicit "user heap alloc fail")
  | some v =>
    mm.insertNoCheck { v with vmFlags := anonVmFlags, pagetable := some mm.pagetable }

def stackTop : ℕ := userStackMaxAddr - userStackSizeNrPages * pageSize

/-- The stack, whose pages are all allocated before the area is inserted. -/
def addStack (self : Mm) : Program Phys Mm := do
  match ← self.allocUnmappedCore (some stackTop) (userStackSizeNrPages * pageSize) true
      userSpaceStart userSpaceEnd with
  | none => throw (.explicit "user stack alloc fail")
  | some v =>
    let v := { v with vmFlags := anonVmFlags, pagetable := some self.pagetable }
    let v ← (List.range userStackSizeNrPages).foldlM (fun v i => do
      let (_, v) ← v.doAllocOnePage (stackTop + i * pageSize)
      return v) v
    self.insertNoCheck v

def newFromElf (headers : List ProgramHeader) (file : MappedFile) : Program Phys Mm := do
  let mm ← newEmptyUserMm
  let (mm, loadEnd) ← headers.foldlM (loadSegment file) (mm, 0)
  let mm ← mm.addHeap loadEnd
  mm.addStack

end Mm

namespace Phys

def writeByte (p : Phys) (paddr : ℕ) (b : BitVec 8) : Phys :=
  let f := Frame.ofPaddr paddr
  p.setPage f ((p.mem f).setByte (paddr % pageSize) b)

def writeBytes (p : Phys) (paddr : ℕ) : List (BitVec 8) → Phys
  | [] => p
  | b :: bs => (p.writeByte paddr b).writeBytes (paddr + 1) bs

end Phys

namespace Mm

open Phys PageTable

/-- The address space that `create_user_task` makes. The bytes end at the top of the
highest page of the stack; nothing keeps them from reaching below that page. -/
def createUserTask (headers : List ProgramHeader) (file : MappedFile) (args : List (BitVec 8)) :
    Program Phys (Option Mm) := do
  let mm ← newFromElf headers file
  match mm.findVma (userStackMaxAddr - pageSize) with
  | none => return none
  | some (k, stackVma) =>
    let (stackArgsPg, stackVma) ←
      stackVma.fastAllocOnePageAndGet (userStackMaxAddr - pageSize)
    let userSp ← subUsize (stackArgsPg.paddr + pageSize) args.length
    modify fun p => p.writeBytes userSp args
    return some (mm.setVma k stackVma)

end Mm

def Vma.childOf (vma : Vma) (pagetable : ℕ) : Vma :=
  { vma with pagesTree := ∅, pagetable := some pagetable, cowWriteReservePgs := none }

namespace Mm

open Phys PageTable

/-- The inner loop of `new_mm_by_old`. -/
def copyPage (newVma : Vma) (e : ℕ × Frame) : Program Phys Vma := do
  let (newPg, newVma) ← newVma.fastAllocOnePageAndGet e.1
  copyOnePageDataFrom newPg e.2
  return newVma

/-- The outer loop of `new_mm_by_old`. -/
def copyVma (new : Mm) (e : ℕ × Vma) : Program Phys Mm := do
  let (vaddr, vma) := e
  let _ ← Checked.unwrap vma.pagetable
  let newVma ← vma.pagesTree.entries.foldlM copyPage (vma.childOf new.pagetable)
  Checked.ensure (!new.vmas.contains vaddr) .assertion
  return new.setVma vaddr newVma

/-- `new_mm_by_old` of the default build. -/
def newMmByOld (old : Mm) : Program Phys Mm := do
  let newPagetable ← newUser
  let new := { newEmptyUserMmByPagetable newPagetable with brk := old.brk, startBrk := old.startBrk }
  (old.vmas.range userSpaceStart userSpaceEnd).foldlM copyVma new

/-- `trap_page_fault_handler` of the default build, for a fault in user mode. -/
def trapPageFaultHandler (self : Mm) (vaddr : ℕ) : Program Phys Mm := do
  let v ← Vaddr.floor vaddr
  match self.findVma v with
  | none => throw (.explicit "error address access!")
  | some (k, vma) =>
    if (vma.findPage v).isSome then
      throw (.explicit "prot fault")
    else
      match ← vma.doAllocOnePage v with
      | (.error _, _) => throw .unwrapNone
      | (.ok _, vma) => return self.setVma k vma

/-- The frame that user code reaches at an address, unless it faults. Above the user
space only pages of the kernel are mapped, which user code may not touch. -/
def translate (self : Mm) (p : Phys) (vaddr : ℕ) (prot : PgFaultProt) : Option Frame :=
  if vaddr < userSpaceEnd then p.translate self.pagetable vaddr prot else none

/-- A user instruction that touches an address. It is tried again after each fault,
and one that keeps faulting does not end. -/
def access (vaddr : ℕ) (prot : PgFaultProt) : ℕ → Mm → Program Phys (Frame × Mm)
  | 0, _ => throw .diverges
  | n + 1, self => do
    let p ← get
    match self.translate p vaddr prot with
    | some pg => return (pg, self)
    | none => access vaddr prot n (← self.trapPageFaultHandler vaddr)

/-- In this build a second fault on the same page is a panic. -/
def accessTries : ℕ := 2

def userLoad (self : Mm) (vaddr : ℕ) (prot : PgFaultProt) : Program Phys (BitVec 8 × Mm) := do
  let (pg, mm) ← access vaddr prot accessTries self
  let p ← get
  return ((p.mem pg).byte (vaddr % pageSize), mm)

def userStore (self : Mm) (vaddr : ℕ) (b : BitVec 8) : Program Phys Mm := do
  let (pg, mm) ← access vaddr .write accessTries self
  modify fun p => p.setPage pg ((p.mem pg).setByte (vaddr % pageSize) b)
  return mm

/-- The drop of an address space: its areas go first, then its page table. -/
def drop (self : Mm) : Program Phys Unit := do
  self.vmas.entries.foldlM (fun _ e => e.2.drop) ()
  modify fun p => PageTable.drop p self.pagetable

end Mm

end Zinix
