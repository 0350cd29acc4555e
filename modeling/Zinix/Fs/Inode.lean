import Zinix.Fs.InodeScan
import Zinix.Lib.Checked
import Zinix.Lib.OrdMap
import Zinix.Lib.Trace

/-!
# Inodes and their lookup

An inode is kept alive by the handles to it and by the inodes below it; a directory only
has weak references to its children. A lookup returns the live child of a name and creates
one if there is none.
-/

namespace Zinix

/-- The names of a path: its components but for the empty ones and the dots. -/
def components (path : String) : List String :=
  (path.splitToList (· == '/')).filter fun x => !(x.isEmpty || x == ".")

inductive InodeClass where
  | dir
  | file
  deriving DecidableEq

inductive DirEntry where
  | dir
  | file
  | other
  deriving DecidableEq

structure Inode where
  parent : Option ℕ
  name : String
  inodeClass : InodeClass
  children : List ℕ

/-- All inodes ever created, with the number of strong references to each and how many
of them are held outside of inodes. -/
structure InodeTable where
  nodes : ℕ → Inode
  cnt : ℕ
  strong : ℕ → ℕ
  handles : ℕ → ℕ

namespace InodeTable

def live (s : InodeTable) (i : ℕ) : Bool := decide (0 < s.strong i)

def setChildren (s : InodeTable) (i : ℕ) (children : List ℕ) : InodeTable :=
  { s with nodes := replaceAt s.nodes i { s.nodes i with children := children } }

def clone (s : InodeTable) (i : ℕ) : InodeTable :=
  { s with
    strong := replaceAt s.strong i (s.strong i + 1)
    handles := replaceAt s.handles i (s.handles i + 1) }

/-- Give up a strong reference. The last one to an inode drops the inode and with it
the reference to its parent, which is older. -/
def release (s : InodeTable) (strong : ℕ → ℕ) (i : ℕ) : ℕ → ℕ :=
  let strong := replaceAt strong i (strong i - 1)
  if strong i = 0 then
    match (s.nodes i).parent with
    | none => strong
    | some p => if p < i then release s strong p else strong
  else
    strong
termination_by i

def drop (s : InodeTable) (i : ℕ) : InodeTable :=
  { s with
    strong := s.release s.strong i
    handles := replaceAt s.handles i (s.handles i - 1) }

/-- `_new_dir_inode` and `_new_file_inode`. The new inode owns a reference to its parent
and the caller a handle to it. -/
def newInode (s : InodeTable) (i : ℕ) (inodeClass : InodeClass) (name : String) :
    Checked (ℕ × InodeTable) := do
  Checked.ensure (s.live i = true) .unwrapNone
  return (s.cnt,
    { nodes := replaceAt s.nodes s.cnt ⟨some i, name, inodeClass, []⟩
      cnt := s.cnt + 1
      strong := replaceAt (replaceAt s.strong i (s.strong i + 1)) s.cnt 1
      handles := replaceAt s.handles s.cnt 1 })

/-- The end of a lookup that has not found a child: the new inode becomes the last of
the children. -/
def createChild (s : InodeTable) (i : ℕ) (inodeClass : InodeClass) (name : String) :
    Checked (Option ℕ × InodeTable) := do
  let (node, s) ← s.newInode i inodeClass name
  return (some node, s.setChildren i ((s.nodes i).children ++ [node]))

/-- The entry is what the file system finds under the name in this directory. -/
def getSubNode (s : InodeTable) (i : ℕ) (name : String) (dentry : Option DirEntry) :
    Checked (Option ℕ × InodeTable) :=
  match (s.nodes i).inodeClass with
  | .file => return (none, s)
  | .dir =>
    let found := scan s.live (fun j => (s.nodes j).name == name) [] (s.nodes i).children
    let s := s.setChildren i found.2
    match found.1 with
    | some node => return (some node, s.clone node)
    | none =>
      match dentry with
      | none => return (none, s)
      | some .dir => s.createChild i .dir name
      | some .file => s.createChild i .file name
      | some .other => return (none, s)

/-- The loop of `get_node_by_path`, which owns a handle to the node it has come to. The
file system is asked for the names in the directory of that node. -/
def walkPath (dentries : InodeTable → ℕ → String → Option DirEntry) (s : InodeTable)
    (nodeProbe : ℕ) : List String → Checked (Option ℕ × InodeTable)
  | [] => return (some nodeProbe, s)
  | name :: names => do
    let (found, s) ← s.getSubNode nodeProbe name (dentries s nodeProbe name)
    let s := s.drop nodeProbe
    match found with
    | some node => walkPath dentries s node names
    | none => return (none, s)

def getNodeByPath (dentries : InodeTable → ℕ → String → Option DirEntry) (s : InodeTable)
    (i : ℕ) (path : String) : Checked (Option ℕ × InodeTable) := do
  Checked.ensure (s.live i = true) .unwrapNone
  walkPath dentries (s.clone i) i (components path)

def boot : InodeTable where
  nodes := fun _ => ⟨none, "", .dir, []⟩
  cnt := 1
  strong := fun i => if i = 0 then 1 else 0
  handles := fun _ => 0

end InodeTable

/-- What can be done with inodes. Every call but `get_root` is made through a handle. -/
inductive InodeAction where
  | getRoot
  | clone (i : ℕ)
  | getParent (i : ℕ)
  | drop (i : ℕ)
  | getSubNode (i : ℕ) (name : String) (dentry : Option DirEntry)

namespace InodeTable

variable {s : InodeTable} {i : ℕ}

/-- The caller has the handle that the action is made with. -/
def Enabled (s : InodeTable) : InodeAction → Prop
  | .getRoot => True
  | .clone i => 0 < s.handles i
  | .getParent i => 0 < s.handles i
  | .drop i => 0 < s.handles i
  | .getSubNode i _ _ => 0 < s.handles i

instance (s : InodeTable) (a : InodeAction) : Decidable (s.Enabled a) := by
  cases a <;> unfold Enabled <;> infer_instance

def exec (s : InodeTable) : InodeAction → Checked (Option ℕ × InodeTable)
  | .getRoot => return (some 0, s.clone 0)
  | .clone i => return (some i, s.clone i)
  | .getParent i =>
    match (s.nodes i).parent with
    | none => return (none, s)
    | some p => return (some p, s.clone p)
  | .drop i => return (none, s.drop i)
  | .getSubNode i name dentry => s.getSubNode i name dentry

def Step (s : InodeTable) (a : InodeAction) (t : InodeTable) : Prop :=
  s.Enabled a ∧ ∃ r, s.exec a = .ok (r, t)

def next (s : InodeTable) (a : InodeAction) : InodeTable :=
  match s.exec a with
  | .ok (_, t) => t
  | .error _ => s

/-- The inode is alive and the child of that name of the other one. -/
structure IsChild (s : InodeTable) (i : ℕ) (name : String) (c : ℕ) : Prop where
  alive : s.live c = true
  parent : (s.nodes c).parent = some i
  named : (s.nodes c).name = name

/-- The live inodes below `i`. -/
def owned (s : InodeTable) (strong : ℕ → ℕ) (i : ℕ) : Finset ℕ :=
  (Finset.range s.cnt).filter fun j => 0 < strong j ∧ (s.nodes j).parent = some i

/-- What holds whatever lookups do: the references are counted, and every live inode is
among the children of its parent. -/
structure Sound (s : InodeTable) : Prop where
  cnt_pos : 0 < s.cnt
  fresh : ∀ i, s.cnt ≤ i → s.strong i = 0
  older : ∀ c p, (s.nodes c).parent = some p → p < c
  counted : ∀ i, s.strong i =
    s.handles i + (if i = 0 then 1 else 0) + (s.owned s.strong i).card
  root : ∀ c, s.live c = true → (s.nodes c).parent = none → c = 0
  listed : ∀ c p, s.live c = true → (s.nodes c).parent = some p → c ∈ (s.nodes p).children
  child : ∀ p, ∀ c ∈ (s.nodes p).children,
    c < s.cnt ∧ (s.nodes c).parent = some p ∧ (s.nodes p).inodeClass = .dir
  nodup : ∀ p, (s.nodes p).children.Nodup

def Unique (s : InodeTable) : Prop :=
  ∀ c d, s.live c = true → s.live d = true → (s.nodes c).parent = (s.nodes d).parent →
    (s.nodes c).name = (s.nodes d).name → c = d

theorem live_iff : s.live i = true ↔ 0 < s.strong i := decide_eq_true_iff

theorem Sound.lt_cnt (h : s.Sound) (hi : s.live i = true) :
    i < s.cnt := by
  by_contra hge
  have hzero := h.fresh i (by omega)
  rw [live_iff] at hi
  omega

theorem mem_owned {strong : ℕ → ℕ} {j : ℕ} :
    j ∈ s.owned strong i ↔ j < s.cnt ∧ 0 < strong j ∧ (s.nodes j).parent = some i := by
  simp [owned]

theorem Sound.live_of_handle (h : s.Sound) (hi : 0 < s.handles i) :
    s.live i = true := by
  have hcount := h.counted i
  rw [live_iff]
  omega

theorem Sound.live_parent (h : s.Sound) {c p : ℕ} (hc : s.live c = true)
    (hp : (s.nodes c).parent = some p) : s.live p = true := by
  have hmem : c ∈ s.owned s.strong p := mem_owned.mpr ⟨h.lt_cnt hc, live_iff.mp hc, hp⟩
  have hpos := Finset.card_pos.mpr ⟨c, hmem⟩
  have hcount := h.counted p
  rw [live_iff]
  omega

theorem sound_boot : boot.Sound where
  cnt_pos := Nat.one_pos
  fresh := by
    intro i hi
    exact if_neg (Nat.one_le_iff_ne_zero.mp hi)
  older := by
    intro c p h
    cases h
  counted := by
    intro i
    simp [boot, owned]
  root := by
    intro c hc _
    by_contra hne
    simp [live, boot, hne] at hc
  listed := by
    intro c p _ h
    cases h
  child := by
    intro p c hc
    cases hc
  nodup := fun _ => List.nodup_nil

theorem unique_boot : boot.Unique := by
  intro c d hc hd _ _
  rw [sound_boot.root c hc rfl, sound_boot.root d hd rfl]

end InodeTable

end Zinix
