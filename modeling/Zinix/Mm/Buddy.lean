import Zinix.Mm.Addr
import Zinix.Mm.Bitmap

/-!
# The buddy allocator

Eleven free areas, one per order, each with a list of free blocks, a counter and a bitmap
with one bit for every pair of buddies. A block is the address of its first page.
-/

namespace Zinix

structure FreeArea where
  list : List ℕ
  bitmap : Bitmap
  startVaddr : ℕ
  freeCnt : ℕ
  order : ℕ
  deriving DecidableEq, Repr

namespace FreeArea

def default : FreeArea :=
  { list := [], bitmap := Bitmap.default, startVaddr := 0, freeCnt := 0, order := 0 }

def getBitmapIndex (fa : FreeArea) (vaddr : ℕ) : Checked (Option ℕ) := do
  let pgs := order2pages fa.order
  if vaddr < fa.startVaddr then return none
  let pg := (← subUsize vaddr fa.startVaddr) / pageSize
  let index ← divUsize pg pgs
  if (← remUsize pg pgs) ≠ 0 then return none
  else return some (index / 2)

def getBuddyVaddr (fa : FreeArea) (vaddr : ℕ) : Checked ℕ := do
  let pgs := order2pages fa.order
  let addrInterval ← mulUsize pgs pageSize
  let index ← divUsize (← subUsize vaddr fa.startVaddr) (← mulUsize pgs pageSize)
  if index % 2 = 0 then addUsize vaddr addrInterval
  else subUsize vaddr addrInterval

/-- The inner `none` is the error the caller answers by trying a larger order. -/
def allocArea (fa : FreeArea) : Checked (Option ℕ × FreeArea) := do
  if fa.freeCnt = 0 then return (none, fa)
  else
    let freeCnt ← subUsize fa.freeCnt 1
    let ret ← Checked.unwrap fa.list.getLast?
    let list := fa.list.dropLast
    match ← fa.getBitmapIndex ret with
    | some index =>
      let bitmap ← fa.bitmap.turnOver index
      return (some ret, { fa with list, bitmap, freeCnt })
    | none => throw (.explicit "get buddy item bitmap index fail..")

/-- `LinkedList::remove`, which panics past the end. -/
def removeAt (list : List ℕ) (index : ℕ) : Checked (ℕ × List ℕ) :=
  match list[index]? with
  | some item => .ok (item, list.eraseIdx index)
  | none => .error .outOfBounds

/-- A returned block is the pair of `item` and its buddy, to be inserted at
the next order. -/
def insertArea (fa : FreeArea) (item : ℕ) : Checked (Option ℕ × FreeArea) := do
  let freeCnt ← addUsize fa.freeCnt 1
  match ← fa.getBitmapIndex item with
  | some index =>
    let (isSet, bitmap) ← fa.bitmap.get index
    let isMax := fa.order == maxOrder - 1
    if isSet && !isMax then
      let buddyVaddr ← fa.getBuddyVaddr item
      let removedIndex := fa.list.findIdx (fun area => buddyVaddr == area)
      let (removedItem, list) ← removeAt fa.list removedIndex
      let freeCnt ← subUsize freeCnt 2
      let bitmap ← bitmap.clear index
      let newItem := if removedItem < item then removedItem else item
      return (some newItem, { fa with list, bitmap, freeCnt })
    else
      let list := fa.list ++ [item]
      let bitmap ← bitmap.turnOver index
      return (none, { fa with list, bitmap, freeCnt })
  | none => throw (.explicit "insert buddy item fail..")

end FreeArea

structure BuddyAllocator where
  freeAreas : List FreeArea
  startVaddr : ℕ
  deriving DecidableEq, Repr

namespace BuddyAllocator

def default : BuddyAllocator := { freeAreas := [], startVaddr := 0 }

def area (a : BuddyAllocator) (i : ℕ) : Checked FreeArea :=
  match a.freeAreas[i]? with
  | some fa => .ok fa
  | none => .error .outOfBounds

def setArea (a : BuddyAllocator) (i : ℕ) (fa : FreeArea) : BuddyAllocator :=
  { a with freeAreas := a.freeAreas.set i fa }

def getFreePagesCnt (a : BuddyAllocator) : Checked ℕ :=
  (List.range maxOrder).foldlM (fun pgsCnt i => do
    let pg ← mulUsize (← a.area i).freeCnt (order2pages i)
    addUsize pgsCnt pg) 0

/-- The inner loop of `initAreas`: insert a block for every item of the
iterator until what is left before `vaddrEnd` is shorter than a block. -/
def insertWhileFits (vaddrEnd : ℕ) (it : AddrIterator) (hstep : 0 < it.step) (fa : FreeArea)
    (cnt : ℕ) : Checked (FreeArea × ℕ) :=
  match hnext : it.next with
  | .error e => .error e
  | .ok (none, _) => .ok (fa, cnt)
  | .ok (some j, it') => do
    if (← subUsize vaddrEnd j) < it.step then return (fa, cnt)
    match ← fa.insertArea j with
    | (some _, _) => throw (.explicit "buddy init fail!")
    | (none, fa) =>
      insertWhileFits vaddrEnd it'
        ((AddrIterator.next_some hnext).2.2.1 ▸ hstep) fa (cnt + 1)
termination_by it.last - it.cur
decreasing_by
  obtain ⟨hlt, hcur, _, hlast⟩ := AddrIterator.next_some hnext
  omega

/-- One pass of the outer loop of `initAreas`, for one order. -/
def initArea (startVaddr pgCnt vaddrEnd : ℕ) (st : BuddyAllocator × ℕ) (i : Fin maxOrder) :
    Checked (BuddyAllocator × ℕ) := do
  let (a, vaddrProbe) := st
  let freeArea ← a.area i
  let pgs := order2pages i
  let bitmapLen ← divUsize pgCnt pgs
  let bitmapLen ← if pgCnt % pgs ≠ 0 then addUsize bitmapLen 1 else pure bitmapLen
  let freeArea := { freeArea with
    order := i, startVaddr := startVaddr, bitmap := Bitmap.new bitmapLen }
  let last ← addUsize vaddrProbe (← subUsize vaddrEnd vaddrProbe)
  let it : AddrIterator := { step := order2pages i * pageSize, cur := vaddrProbe, last := last }
  let (freeArea, cnt) ← insertWhileFits vaddrEnd it
    (Nat.mul_pos (order2pages_pos i.isLt) (by decide)) freeArea 0
  let vaddrProbe ← addUsize vaddrProbe (← mulUsize (pgs * pageSize) cnt)
  return (a.setArea i freeArea, vaddrProbe)

/-- The outer loop of `initAreas`, over the orders below `n` from the largest down. -/
def initOrders (startVaddr pgCnt vaddrEnd : ℕ) :
    (n : ℕ) → n ≤ maxOrder → BuddyAllocator × ℕ → Checked (BuddyAllocator × ℕ)
  | 0, _, st => return st
  | n + 1, hn, st => do
    initOrders startVaddr pgCnt vaddrEnd n (by omega)
      (← initArea startVaddr pgCnt vaddrEnd st ⟨n, hn⟩)

def initAreas (a : BuddyAllocator) (startVaddr pgCnt : ℕ) : Checked BuddyAllocator := do
  let vaddrEnd ← addUsize startVaddr (← mulUsize pgCnt pageSize)
  let a := { a with
    startVaddr := startVaddr
    freeAreas := a.freeAreas ++ List.replicate maxOrder FreeArea.default }
  let (a, _) ← initOrders startVaddr pgCnt vaddrEnd maxOrder le_rfl (a, startVaddr)
  return a

def init (a : BuddyAllocator) (sVaddr eVaddr : ℕ) : Checked BuddyAllocator := do
  let nsAddr ← Vaddr.ceil sVaddr
  let neAddr ← Vaddr.floor eVaddr
  let pgCnt := (← subUsize neAddr nsAddr) / pageSize
  a.initAreas nsAddr pgCnt

def new (sVaddr eVaddr : ℕ) : Checked BuddyAllocator := default.init sVaddr eVaddr

/-- `none` is the source's `Err(-1)`. -/
def allocArea (a : BuddyAllocator) (order : ℕ) : Checked (Option ℕ × BuddyAllocator) :=
  if maxOrder ≤ order then return (none, a)
  else do
    let freeArea ← a.area order
    match ← freeArea.allocArea with
    | (some vaddr, freeArea) => return (some vaddr, a.setArea order freeArea)
    | (none, freeArea) =>
      match ← allocArea (a.setArea order freeArea) (order + 1) with
      | (some vaddr, a) =>
        let pgs := order2pages order
        let reInsertVaddr ← addUsize vaddr (← mulUsize pageSize pgs)
        let (insertRet, freeArea) ← (← a.area order).insertArea reInsertVaddr
        Checked.ensure insertRet.isNone .assertion
        return (some vaddr, a.setArea order freeArea)
      | (none, a) => return (none, a)
termination_by maxOrder - order

/-- The loop of `freeArea`, which inserts `item` at order `i` and carries a
merged block to the next order. -/
def insertFrom (a : BuddyAllocator) (i item : ℕ) : Checked (Bool × BuddyAllocator) :=
  if maxOrder ≤ i then return (false, a)
  else do
    match ← (← a.area i).insertArea item with
    | (some n, freeArea) => insertFrom (a.setArea i freeArea) (i + 1) n
    | (none, freeArea) => return (true, a.setArea i freeArea)
termination_by maxOrder - i

/-- The flag tells `Ok(())` from `Err(-1)`. -/
def freeArea (a : BuddyAllocator) (vaddr order : ℕ) : Checked (Bool × BuddyAllocator) := do
  if maxOrder ≤ order then return (false, a)
  let start := (← a.area order).startVaddr
  if vaddr < start then return (false, a)
  let off ← remUsize (← subUsize vaddr start) (← mulUsize pageSize (order2pages order))
  if off ≠ 0 then return (false, a)
  a.insertFrom order vaddr

end BuddyAllocator

end Zinix
