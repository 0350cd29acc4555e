import Zinix.Mm.Phys

/-!
# Page tables

A page table is named by its place in the store of page tables, and its tables are frames
of physical memory. Locks and the flushing of the TLB are left out.
-/

namespace Zinix

def addrGetPpn0 (vaddr : ℕ) : Fin 512 := Fin.ofNat 512 (vaddr >>> 12)

def addrGetPpn1 (vaddr : ℕ) : Fin 512 := Fin.ofNat 512 (vaddr >>> 21)

def addrGetPpn2 (vaddr : ℕ) : Fin 512 := Fin.ofNat 512 (vaddr >>> 30)

def walkRetLevelLeaf : ℕ := 2

structure WalkRet where
  level : ℕ
  pteAddr : Frame × Fin 512

namespace PageTable

open Phys

/-- `_get_root_page_vaddr`. -/
def getRootPage (pt : ℕ) : Program Phys Frame := do
  let p ← get
  match (p.tables pt).head? with
  | none => throw .outOfBounds
  | some f => return f

/-- The step of a walk to the next table, which is made on demand. A valid entry is
written back as it was read. -/
def nextTable (pt : ℕ) (entryAddr : Frame × Fin 512) (pte : PTE) (alloc : Bool) :
    Program Phys (Option Frame) := do
  if pte.valid then
    setUsizeByAddr entryAddr pte.toWord
    return some pte.frame
  else if alloc then
    let pg ← allocOrPanic
    modify fun p => { p with tables := replaceAt p.tables pt (p.tables pt ++ [pg]) }
    setUsizeByAddr entryAddr (pte.dir pg).toWord
    return some pg
  else
    return none

/-- The loop of `_walk_common`, from level `i` on. -/
def walkFrom (pt : ℕ) (alloc : Bool) (pg : Frame) (i : ℕ) :
    List (Fin 512) → Program Phys (Option WalkRet)
  | [] => return none
  | index :: rest => do
    let entryAddr := (pg, index)
    let pte := PTE.ofWord (← getUsizeByAddr entryAddr)
    if pte.isLeaf then
      return some ⟨i, entryAddr⟩
    else if i = 2 then
      return some ⟨2, entryAddr⟩
    else
      match ← nextTable pt entryAddr pte alloc with
      | none => return none
      | some pg => walkFrom pt alloc pg (i + 1) rest

def walkCommon (pt vaddr : ℕ) (alloc : Bool) : Program Phys (Option WalkRet) := do
  let pg ← getRootPage pt
  walkFrom pt alloc pg 0 [addrGetPpn2 vaddr, addrGetPpn1 vaddr, addrGetPpn0 vaddr]

def walk (pt vaddr : ℕ) : Program Phys (Option WalkRet) := walkCommon pt vaddr false

def walkAlloc (pt vaddr : ℕ) : Program Phys WalkRet := do
  match ← walkCommon pt vaddr true with
  | none => return ⟨0, (0, 0)⟩
  | some ret => return ret

def changeMapFlags (pt vaddr : ℕ) (newFlags : BitVec 8) : Program Phys (Except Unit Unit) := do
  match ← walk pt vaddr with
  | none => return .error ()
  | some r =>
    if r.level = walkRetLevelLeaf then
      let pte := PTE.ofWord (← getUsizeByAddr r.pteAddr)
      if !pte.valid then
        return .error ()
      else
        setUsizeByAddr r.pteAddr (pte.withFlags newFlags).toWord
        return .ok ()
    else
      return .error ()

def mapOnePage (pt vaddr : ℕ) (pg : Frame) (flags : BitVec 8) :
    Program Phys (Except ℤ Unit) := do
  let r ← walkAlloc pt vaddr
  if r.level = walkRetLevelLeaf then
    let pte := PTE.ofWord (← getUsizeByAddr r.pteAddr)
    if pte.valid then
      return .error (-1)
    else
      setUsizeByAddr r.pteAddr (PTE.leaf pg flags).toWord
      return .ok ()
  else
    throw (.explicit "big page exist in mapped space,map fail")

/-- `_unmap_one_page`. -/
def unmapOnePage (pt vaddr : ℕ) : Program Phys (Except ℤ ℕ) := do
  let r ← walkAlloc pt vaddr
  if r.level = walkRetLevelLeaf then
    let pte := PTE.ofWord (← getUsizeByAddr r.pteAddr)
    setUsizeByAddr r.pteAddr pte.unmapped.toWord
    return .ok pte.getPointPaddr
  else
    throw (.explicit "big page exist in mapped space,unmap fail")

/-- `PageTable::new_user`. The first two entries of the root, which cover the low
2 GiB, are cleared; the others are those of the kernel. -/
def newUser : Program Phys ℕ := do
  let root ← allocOrPanic
  let kernel ← getRootPage kernelPagetable
  let p ← get
  let pt := p.tableCnt
  set { p with
    mem := replaceAt p.mem root (fun i => if i = 0 ∨ i = 1 then 0 else p.mem kernel i)
    tables := replaceAt p.tables pt [root]
    tableCnt := pt + 1 }
  return pt

/-- The frames of a page table are given back when the last handle to it goes. -/
def drop (p : Phys) (pt : ℕ) : Phys :=
  { p with live := p.live \ (p.tables pt).toFinset, tables := replaceAt p.tables pt [] }

end PageTable

/-- What a user instruction does to the byte it touches. -/
inductive PgFaultProt where
  | read
  | write
  | exec
  deriving DecidableEq, Repr

/-- Whether a leaf entry lets user code do that. An entry that is writable but not
readable is reserved. -/
def PTE.permits (e : PTE) (prot : PgFaultProt) : Bool :=
  e.valid && e.getBits PTEFlags.U && (e.getBits PTEFlags.R || !e.getBits PTEFlags.W) &&
    match prot with
    | .read => e.getBits PTEFlags.R
    | .write => e.getBits PTEFlags.W
    | .exec => e.getBits PTEFlags.X

namespace Phys

/-- The walk of the memory management unit from a table down, which ends in the
entry of a page if there is one. Pages larger than 4 KiB are not mapped below
`USER_SPACE_END` and do not count. -/
def mmuWalk (p : Phys) (pg : Frame) : List (Fin 512) → Option PTE
  | [] => none
  | [index] => some (PTE.ofWord (p.mem pg index))
  | index :: rest =>
    let e := PTE.ofWord (p.mem pg index)
    if e.valid && !e.isLeaf then mmuWalk p e.frame rest else none

/-- The frame that user code reaches at an address, unless it faults. The bits of an
entry that the unit may set on its own are not modelled. -/
def translate (p : Phys) (pt vaddr : ℕ) (prot : PgFaultProt) : Option Frame := do
  let root ← (p.tables pt).head?
  let e ← p.mmuWalk root [addrGetPpn2 vaddr, addrGetPpn1 vaddr, addrGetPpn0 vaddr]
  if e.permits prot then some e.frame else none

end Phys

end Zinix
