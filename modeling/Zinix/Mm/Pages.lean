import Zinix.Lib.OrdMap
import Zinix.Lib.Trace
import Zinix.Mm.BuddyRun

/-!
# Page handles

An allocated block is one page object for each of its frames: a leader, which owns
references to the others, its friends. When the last reference to a leader is given up, its
block goes back to the buddy allocator, and the references to the friends are given up after
that. The locks, and the contents of the frames, are left out.
-/

namespace Zinix

structure Page where
  vaddr : ℕ
  isLeader : Bool
  order : ℕ
  friends : List ℕ
  leader : ℕ
  deriving DecidableEq

/-- The buddy allocator, the pages manager and all page objects, with the number of
references to each and how many of them are held outside of pages. -/
structure PageSys where
  buddy : BuddyAllocator
  startVaddr : ℕ
  cap : ℕ
  slots : ℕ → Option ℕ
  pages : ℕ → Page
  pageCnt : ℕ
  strong : ℕ → ℕ
  handles : ℕ → ℕ

/-- A number as the format `{:#X}` shows it. -/
def hexUpper (n : ℕ) : String :=
  "0x" ++ String.ofList ((Nat.toDigits 16 n).map Char.toUpper)

namespace PageSys

def live (s : PageSys) (i : ℕ) : Bool := decide (0 < s.strong i)

/-- `buddy_init` and `page_init` on the same range. -/
def init (sVaddr eVaddr : ℕ) : Checked PageSys := do
  let buddy ← BuddyAllocator.new sVaddr eVaddr
  let ns ← Vaddr.ceil sVaddr
  let ne ← Vaddr.floor eVaddr
  let pgs := (← subUsize ne ns) / pageSize
  return {
    buddy := buddy
    startVaddr := ns
    cap := pgs
    slots := fun _ => none
    pages := fun _ => ⟨0, false, 0, [], 0⟩
    pageCnt := 0
    strong := fun _ => 0
    handles := fun _ => 0 }

def getIndexNoCheck (s : PageSys) (vaddr : ℕ) : ℕ := (vaddr - s.startVaddr) / pageSize

def getIndexCheck (s : PageSys) (vaddr : ℕ) : Option ℕ :=
  if !Vaddr.isAlign vaddr then none
  else if vaddr < s.startVaddr then none
  else if s.cap ≤ (vaddr - s.startVaddr) / pageSize then none
  else some (s.getIndexNoCheck vaddr)

def addPage (s : PageSys) (index : ℕ) (page : Page) : PageSys :=
  { s with
    slots := replaceAt s.slots index (some s.pageCnt)
    pages := replaceAt s.pages s.pageCnt page
    pageCnt := s.pageCnt + 1
    strong := replaceAt s.strong s.pageCnt 1 }

def addFriend (s : PageSys) (leader friend : ℕ) : PageSys :=
  { s with
    pages := replaceAt s.pages leader
      { s.pages leader with friends := (s.pages leader).friends ++ [friend] } }

def checkSlot (s : PageSys) (index : ℕ) : Checked Unit :=
  match s.slots index with
  | some old =>
    Checked.ensure (s.live old = false)
      (.explicit ("page already in memory: " ++ hexUpper (s.pages old).vaddr))
  | none => .ok ()

/-- One pass of the loop of `new_pages_block_in_memory`, for the page at offset `i` of the
block whose leader is `leader`. -/
def newPage (vaddr order leader : ℕ) (s : PageSys) (i : ℕ) : Checked PageSys := do
  let index := s.getIndexNoCheck vaddr + i
  Checked.ensure (index < s.cap) .outOfBounds
  s.checkSlot index
  if i = 0 then
    return s.addPage index ⟨vaddr, true, order, [], leader⟩
  else
    return (s.addPage index ⟨vaddr + i * pageSize, false, 0, [], leader⟩).addFriend leader s.pageCnt

def newPagesBlockInMemory (s : PageSys) (vaddr order : ℕ) : Checked (ℕ × PageSys) := do
  let leader := s.pageCnt
  let s ← (List.range (order2pages order)).foldlM (newPage vaddr order leader) s
  return (leader, { s with handles := replaceAt s.handles leader 1 })

def allocPages (s : PageSys) (order : ℕ) : Checked (Option ℕ × PageSys) :=
  if maxOrder ≤ order then return (none, s)
  else do
    let (area, buddy) ← s.buddy.allocArea order
    let s := { s with buddy := buddy }
    match area with
    | some vaddr => do
      let (leader, s) ← s.newPagesBlockInMemory vaddr order
      return (some leader, s)
    | none => return (none, s)

def clone (s : PageSys) (i : ℕ) : PageSys :=
  { s with
    strong := replaceAt s.strong i (s.strong i + 1)
    handles := replaceAt s.handles i (s.handles i + 1) }

/-- Give up the reference of a leader to a friend, which has no friends of its own and
frees nothing. -/
def dropFriend (s : PageSys) (i : ℕ) : PageSys :=
  { s with strong := replaceAt s.strong i (s.strong i - 1) }

/-- `Drop for Page`, followed by the drop of its fields. -/
def dropPage (s : PageSys) (i : ℕ) : Checked PageSys := do
  let page := s.pages i
  let s ←
    if page.isLeader then do
      let (ok, buddy) ← s.buddy.freeArea page.vaddr page.order
      Checked.ensure (ok = true) (.explicit "page drop fail")
      pure { s with buddy := buddy }
    else
      pure s
  return page.friends.foldl dropFriend s

def giveUp (s : PageSys) (i : ℕ) : PageSys :=
  { s with
    strong := replaceAt s.strong i (s.strong i - 1)
    handles := replaceAt s.handles i (s.handles i - 1) }

def drop (s : PageSys) (i : ℕ) : Checked PageSys :=
  if (s.giveUp i).strong i = 0 then (s.giveUp i).dropPage i else return s.giveUp i

def getLeader (s : PageSys) (i : ℕ) : Checked (ℕ × PageSys) := do
  Checked.ensure (s.live (s.pages i).leader = true) .unwrapNone
  return ((s.pages i).leader, s.clone (s.pages i).leader)

/-- With no friends, `back` calls `get_leader` while it holds the lock that this takes. -/
def back (s : PageSys) (i : ℕ) : Checked (ℕ × PageSys) := do
  Checked.ensure ((s.pages i).isLeader = true) (.explicit "page get back fail")
  match (s.pages i).friends.getLast? with
  | none => throw (.explicit "Dead Lock!")
  | some friend => return (friend, s.clone friend)

def front (s : PageSys) (i : ℕ) : Checked (ℕ × PageSys) := do
  Checked.ensure ((s.pages i).isLeader = true) (.explicit "page get front fail")
  s.getLeader i

def getInMemoryPage (s : PageSys) (vaddr : ℕ) : Option ℕ × PageSys :=
  match s.getIndexCheck vaddr with
  | none => (none, s)
  | some index =>
    match s.slots index with
    | none => (none, s)
    | some i => if s.live i then (some i, s.clone i) else (none, s)

end PageSys

/-- What can be done with pages. All but `alloc` and `getInMemoryPage` go through a handle;
`friend` takes an entry of the list of friends. -/
inductive PageAction where
  | alloc (order : ℕ)
  | clone (i : ℕ)
  | drop (i : ℕ)
  | back (i : ℕ)
  | front (i : ℕ)
  | getLeader (i : ℕ)
  | friend (i k : ℕ)
  | getInMemoryPage (vaddr : ℕ)

namespace PageSys

def Enabled (s : PageSys) : PageAction → Prop
  | .alloc _ => True
  | .clone i => 0 < s.handles i
  | .drop i => 0 < s.handles i
  | .back i => 0 < s.handles i
  | .front i => 0 < s.handles i
  | .getLeader i => 0 < s.handles i
  | .friend i k => 0 < s.handles i ∧ k < (s.pages i).friends.length
  | .getInMemoryPage _ => True

instance (s : PageSys) (a : PageAction) : Decidable (s.Enabled a) := by
  cases a <;> unfold Enabled <;> infer_instance

def exec (s : PageSys) : PageAction → Checked PageSys
  | .alloc order => do
    let r ← s.allocPages order
    return r.2
  | .clone i => return s.clone i
  | .drop i => s.drop i
  | .back i => do
    let r ← s.back i
    return r.2
  | .front i => do
    let r ← s.front i
    return r.2
  | .getLeader i => do
    let r ← s.getLeader i
    return r.2
  | .friend i k =>
    match (s.pages i).friends[k]? with
    | some f => return s.clone f
    | none => throw .outOfBounds
  | .getInMemoryPage vaddr => return (s.getInMemoryPage vaddr).2

def Step (s : PageSys) (a : PageAction) (t : PageSys) : Prop := s.Enabled a ∧ s.exec a = .ok t

def block (s : PageSys) (i : ℕ) : Block := ((s.pages i).vaddr, (s.pages i).order)

/-- Frames with a live page are not free, the blocks of live leaders do not overlap, and
an allocation finds no live page in its block. -/
structure Safe (s : PageSys) : Prop where
  notFree : ∀ i, s.live i = true →
    ∀ b ∈ s.buddy.freeBlocks, Block.contains (s.pages i).vaddr b = false
  disjoint : ∀ i j, s.live i = true → (s.pages i).isLeader = true → s.live j = true →
    (s.pages j).isLeader = true → i ≠ j → ∀ x,
      ¬(Block.contains x (s.block i) = true ∧ Block.contains x (s.block j) = true)
  allocates : ∀ order, ∃ r, s.allocPages order = .ok r

/-- A leader whose last handle is given up is the only one left to refer to the pages of
its block. -/
def LastOfBlock (s : PageSys) : PageAction → Prop
  | .drop i => (s.pages i).isLeader = true → s.strong i = 1 →
      ∀ f ∈ (s.pages i).friends, s.strong f = 1
  | _ => True

end PageSys

end Zinix
