import Mathlib.Data.String.Basic
import Zinix.Fs.InodeUnique

/-!
# Where a path leads

The place of an inode is the list of the names from the root down to it. A walk along the
names of a path refines the lookup of the names on the disk, one after the other.
-/

namespace Zinix

abbrev Disk := List String → Option DirEntry

theorem components_eq (path : String) : components path =
    ((List.splitOnP (· == '/') path.toList).map String.ofList).filter
      fun x => !(x.isEmpty || x == ".") := by
  rw [components, String.splitToList_of_valid]

namespace Disk

variable (disk : Disk)

def isDir (place : List String) : Bool := place.isEmpty || disk place == some .dir

def holds (place : List String) : Bool :=
  disk place == some .dir || disk place == some .file

/-- Where the names lead from a place, component by component. -/
def lookup : List String → List String → Option (List String)
  | place, [] => some place
  | place, name :: names =>
    if disk.isDir place && disk.holds (place ++ [name]) then lookup (place ++ [name]) names
    else none

theorem lookup_eq_some {place names q : List String} (h : disk.lookup place names = some q) :
    q = place ++ names := by
  induction names generalizing place with
  | nil =>
    cases h
    simp
  | cons name names ih =>
    rw [lookup] at h
    split_ifs at h
    simpa using ih h

end Disk

def InodeClass.entry : InodeClass → DirEntry
  | .dir => .dir
  | .file => .file

namespace InodeTable

variable {s t : InodeTable} {i j : ℕ}
  {inodeClass : InodeClass} {name : String}

def place (s : InodeTable) (i : ℕ) : List String :=
  match (s.nodes i).parent with
  | none => []
  | some p => if p < i then place s p ++ [(s.nodes i).name] else [(s.nodes i).name]
termination_by i

/-- The entries that the disk has in the directory of an inode. -/
def dentriesOf (disk : Disk) (s : InodeTable) (i : ℕ) (name : String) : Option DirEntry :=
  disk (s.place i ++ [name])

theorem Sound.place_of_parent (hs : s.Sound) {p : ℕ} (hp : (s.nodes i).parent = some p) :
    s.place i = s.place p ++ [(s.nodes i).name] := by
  rw [place, hp]
  simp only [hs.older i p hp, if_true]

theorem place_of_root (hp : (s.nodes i).parent = none) : s.place i = [] := by
  rw [place, hp]

theorem Sound.parent_root (hs : s.Sound) : (s.nodes 0).parent = none := by
  cases hp : (s.nodes 0).parent with
  | none => rfl
  | some p => exact absurd (hs.older 0 p hp) (Nat.not_lt_zero p)

theorem Sound.place_root (hs : s.Sound) : s.place 0 = [] := place_of_root hs.parent_root

theorem Sound.place_eq_nil_iff (hs : s.Sound) (hi : s.live i = true) : s.place i = [] ↔ i = 0 := by
  constructor
  · intro h
    refine hs.root i hi ?_
    cases hp : (s.nodes i).parent with
    | none => rfl
    | some p =>
      rw [hs.place_of_parent hp] at h
      simp at h
  · rintro rfl
    exact hs.place_root

theorem place_congr (hparent : ∀ k ≤ i, (t.nodes k).parent = (s.nodes k).parent)
    (hname : ∀ k ≤ i, (t.nodes k).name = (s.nodes k).name) : t.place i = s.place i := by
  induction i using Nat.strong_induction_on with
  | h i ih =>
    rw [place, place, hparent i le_rfl, hname i le_rfl]
    cases (s.nodes i).parent with
    | none => rfl
    | some p =>
      dsimp only
      split_ifs with hlt
      · rw [ih p hlt (fun k hk => hparent k (hk.trans hlt.le))
          fun k hk => hname k (hk.trans hlt.le)]
      · rfl

@[simp] theorem place_setChildren (i : ℕ) (l : List ℕ) (j : ℕ) :
    (s.setChildren i l).place j = s.place j :=
  place_congr (fun _ _ => by simp) fun _ _ => by simp

@[simp] theorem place_clone (i j : ℕ) : (s.clone i).place j = s.place j :=
  place_congr (fun _ _ => rfl) fun _ _ => rfl

@[simp] theorem place_drop (i j : ℕ) : (s.drop i).place j = s.place j :=
  place_congr (fun _ _ => rfl) fun _ _ => rfl

theorem place_withChild_old (hj : j < s.cnt) :
    (s.withChild i inodeClass name).place j = s.place j :=
  place_congr (fun _ hk => parent_old inodeClass name (hk.trans_lt hj).ne)
    fun _ hk => name_old inodeClass name (hk.trans_lt hj).ne

theorem place_withChild_new (hs : s.Sound) (hi : s.live i = true)
    (hdir : (s.nodes i).inodeClass = .dir) :
    (s.withChild i inodeClass name).place s.cnt = s.place i ++ [name] := by
  have hnode := node_new inodeClass name hs hi
  have hparent : ((s.withChild i inodeClass name).nodes s.cnt).parent = some i := by rw [hnode]
  rw [(hs.withChild inodeClass name hi hdir).place_of_parent hparent, hnode,
    place_withChild_old (hs.lt_cnt hi)]

/-- The live inodes are what the disk has at their places. -/
structure Agrees (s : InodeTable) (disk : Disk) : Prop where
  root : (s.nodes 0).inodeClass = .dir
  entry : ∀ j p, s.live j = true → (s.nodes j).parent = some p →
    disk (s.place j) = some (s.nodes j).inodeClass.entry

variable {disk : Disk}

theorem agrees_boot (disk : Disk) : boot.Agrees disk :=
  ⟨rfl, fun _ _ _ hp => by cases hp⟩

theorem Agrees.isDir_iff (ha : s.Agrees disk) (hs : s.Sound) (hi : s.live i = true) :
    disk.isDir (s.place i) = true ↔ (s.nodes i).inodeClass = .dir := by
  cases hp : (s.nodes i).parent with
  | none =>
    rw [hs.root i hi hp, hs.place_root, ha.root]
    simp [Disk.isDir]
  | some p =>
    have hentry := ha.entry i p hi hp
    have hne : (s.place i).isEmpty = false := by simp [hs.place_of_parent hp]
    rw [Disk.isDir, hentry, hne]
    cases (s.nodes i).inodeClass <;> simp [InodeClass.entry]

theorem Agrees.of_live (ha : s.Agrees disk) (hlive : ∀ j, t.live j = true → s.live j = true)
    (hparent : ∀ j, (t.nodes j).parent = (s.nodes j).parent)
    (hname : ∀ j, (t.nodes j).name = (s.nodes j).name)
    (hclass : ∀ j, (t.nodes j).inodeClass = (s.nodes j).inodeClass) : t.Agrees disk where
  root := by rw [hclass, ha.root]
  entry := fun j p hj hp => by
    rw [place_congr (fun k _ => hparent k) fun k _ => hname k, hclass]
    exact ha.entry j p (hlive j hj) (hparent j ▸ hp)

theorem Agrees.setChildren (ha : s.Agrees disk) (i : ℕ) (l : List ℕ) :
    (s.setChildren i l).Agrees disk :=
  ha.of_live (fun _ hj => hj) (by simp) (by simp) (by simp)

theorem Agrees.clone (ha : s.Agrees disk) (hi : s.live i = true) : (s.clone i).Agrees disk :=
  ha.of_live (fun j hj => live_clone hi j ▸ hj) (fun _ => rfl) (fun _ => rfl) fun _ => rfl

theorem Agrees.drop (ha : s.Agrees disk) (hs : s.Sound) (i : ℕ) : (s.drop i).Agrees disk :=
  ha.of_live (fun _ hj => live_mono (release_le hs s.strong i) hj) (fun _ => rfl) (fun _ => rfl)
    fun _ => rfl

theorem class_old (hj : j ≠ s.cnt) :
    ((s.withChild i inodeClass name).nodes j).inodeClass = (s.nodes j).inodeClass := by
  by_cases hne : j = i
  · rw [hne, node_parent]
  · rw [node_old inodeClass name hj hne]

theorem Agrees.withChild (ha : s.Agrees disk) (hs : s.Sound) (hi : s.live i = true)
    (hdir : (s.nodes i).inodeClass = .dir)
    (hentry : disk (s.place i ++ [name]) = some inodeClass.entry) :
    (s.withChild i inodeClass name).Agrees disk where
  root := by rw [class_old hs.cnt_pos.ne, ha.root]
  entry := by
    intro j p hj hp
    by_cases hnew : j = s.cnt
    · subst hnew
      rw [place_withChild_new hs hi hdir, node_new inodeClass name hs hi, hentry]
    · rw [live_old inodeClass name hi hnew] at hj
      rw [parent_old inodeClass name hnew] at hp
      rw [place_withChild_old (hs.lt_cnt hj), class_old hnew]
      exact ha.entry j p hj hp

structure Looked (disk : Disk) (s t : InodeTable) : Prop where
  sound : t.Sound
  agrees : t.Agrees disk
  cnt : s.cnt ≤ t.cnt
  live : ∀ j < s.cnt, t.live j = true → s.live j = true
  place : ∀ j < s.cnt, t.place j = s.place j
  inodeClass : ∀ j < s.cnt, (t.nodes j).inodeClass = (s.nodes j).inodeClass

theorem Looked.refl (hs : s.Sound) (ha : s.Agrees disk) : Looked disk s s :=
  ⟨hs, ha, le_rfl, fun _ _ h => h, fun _ _ => rfl, fun _ _ => rfl⟩

theorem Looked.trans {u : InodeTable} (h : Looked disk s t) (h' : Looked disk t u) :
    Looked disk s u where
  sound := h'.sound
  agrees := h'.agrees
  cnt := h.cnt.trans h'.cnt
  live := fun j hj hlive => h.live j hj (h'.live j (hj.trans_le h.cnt) hlive)
  place := fun j hj => (h'.place j (hj.trans_le h.cnt)).trans (h.place j hj)
  inodeClass := fun j hj => (h'.inodeClass j (hj.trans_le h.cnt)).trans (h.inodeClass j hj)

/-- A lookup returns the inode at the place of the name, if the disk has something there,
with one more handle to it. -/
theorem getSubNode_spec (hs : s.Sound) (ha : s.Agrees disk) (hi : s.live i = true)
    (name : String) :
    ∃ r t, s.getSubNode i name (dentriesOf disk s i name) = .ok (r, t) ∧ Looked disk s t ∧
      r.map t.place = (if disk.isDir (s.place i) && disk.holds (s.place i ++ [name]) then
        some (s.place i ++ [name]) else none) ∧
      ∀ j, t.handles j = s.handles j + if r = some j then 1 else 0 := by
  have hkeep := hs.search_keeps i name
  have hakeep : (s.setChildren i (s.search i name).2).Agrees disk := ha.setChildren i _
  have hisDir := ha.isDir_iff hs hi
  cases hclass : (s.nodes i).inodeClass with
  | file =>
    rw [hclass] at hisDir
    refine ⟨none, s, by simp [getSubNode, hclass], .refl hs ha, ?_, by simp⟩
    simp at hisDir
    simp [hisDir]
  | dir =>
    have hisDir : disk.isDir (s.place i) = true := hisDir.mpr hclass
    rw [hisDir, Bool.true_and]
    cases hsearch : (s.search i name).1 with
    | some c =>
      have hchild := hs.search_isChild hsearch
      have hc : (s.setChildren i (s.search i name).2).live c = true := hchild.alive
      have hplace : s.place c = s.place i ++ [name] := by
        rw [hs.place_of_parent hchild.parent, hchild.named]
      have hholds : disk.holds (s.place i ++ [name]) = true := by
        rw [← hplace, Disk.holds, ha.entry c i hchild.alive hchild.parent]
        cases (s.nodes c).inodeClass <;> rfl
      refine ⟨_, _, getSubNode_found hclass hsearch, ⟨hkeep.clone hc, hakeep.clone hc, le_rfl,
        fun j _ hj => by rwa [live_clone hc] at hj, fun j _ => by simp,
        fun j _ => class_setChildren ..⟩, ?_, fun j => ?_⟩
      · simp [hplace, hholds]
      · show replaceAt s.handles c (s.handles c + 1) j = _
        rw [replaceAt_apply]
        by_cases hjc : j = c
        · simp [hjc]
        · simp [hjc, Ne.symm hjc]
    | none =>
      have hmissed := getSubNode_missed_eq (dentriesOf disk s i name) hs hi hclass hsearch
      have hnone : Looked disk s (s.setChildren i (s.search i name).2) :=
        ⟨hkeep, hakeep, le_rfl, fun _ _ hj => hj, fun j _ => place_setChildren ..,
          fun j _ => class_setChildren ..⟩
      have hnew : ∀ inodeClass : InodeClass, disk (s.place i ++ [name]) = some inodeClass.entry →
          Looked disk s ((s.setChildren i (s.search i name).2).withChild i inodeClass name) ∧
          ((s.setChildren i (s.search i name).2).withChild i inodeClass name).place s.cnt =
            s.place i ++ [name] := by
        intro inodeClass hentry
        have hdir : ((s.setChildren i (s.search i name).2).nodes i).inodeClass = .dir := by
          simpa using hclass
        refine ⟨⟨hkeep.withChild inodeClass name hi hdir, hakeep.withChild hkeep hi hdir ?_,
          Nat.le_succ _, fun j hj hlive => ?_, fun j hj => ?_, fun j hj => ?_⟩, ?_⟩
        · simpa using hentry
        · rwa [live_old (s := s.setChildren i _) inodeClass name hi hj.ne] at hlive
        · exact (place_withChild_old (s := s.setChildren i _) hj).trans (place_setChildren ..)
        · exact (class_old (s := s.setChildren i _) hj.ne).trans (class_setChildren ..)
        · exact (place_withChild_new hkeep hi hdir).trans (by simp)
      have hhandles : ∀ (inodeClass : InodeClass) (j : ℕ),
          ((s.setChildren i (s.search i name).2).withChild i inodeClass name).handles j =
            s.handles j + if some s.cnt = some j then 1 else 0 := by
        intro inodeClass j
        have hzero : s.handles s.cnt = 0 := by
          have hcount := hs.counted s.cnt
          rw [hs.fresh s.cnt le_rfl] at hcount
          omega
        show replaceAt s.handles s.cnt 1 j = _
        rw [replaceAt_apply]
        by_cases hj : j = s.cnt
        · simp [hj, hzero]
        · simp [hj, Ne.symm hj]
      simp only [dentriesOf] at hmissed
      cases hentry : disk (s.place i ++ [name]) with
      | none =>
        rw [hentry] at hmissed
        exact ⟨_, _, by rw [dentriesOf, hentry, hmissed], hnone, by simp [Disk.holds, hentry],
          fun j => by simp [InodeTable.setChildren]⟩
      | some entry =>
        rw [hentry] at hmissed
        cases entry with
        | dir =>
          obtain ⟨hlooked, hplace⟩ := hnew .dir hentry
          exact ⟨_, _, by rw [dentriesOf, hentry, hmissed], hlooked,
            by simp [Disk.holds, hentry, hplace], hhandles .dir⟩
        | file =>
          obtain ⟨hlooked, hplace⟩ := hnew .file hentry
          exact ⟨_, _, by rw [dentriesOf, hentry, hmissed], hlooked,
            by simp [Disk.holds, hentry, hplace], hhandles .file⟩
        | other =>
          exact ⟨_, _, by rw [dentriesOf, hentry, hmissed], hnone, by simp [Disk.holds, hentry],
            fun j => by simp [InodeTable.setChildren]⟩

theorem Looked.drop (h : Looked disk s t) (hi : 0 < t.handles i) : Looked disk s (t.drop i) where
  sound := h.sound.drop hi
  agrees := h.agrees.drop h.sound i
  cnt := h.cnt
  live := fun j hj hlive => h.live j hj (live_mono (release_le h.sound t.strong i) hlive)
  place := fun j hj => (place_drop i j).trans (h.place j hj)
  inodeClass := h.inodeClass

/-- A walk along names refines their lookup on the disk. The handle to the inode where it
begins is exchanged for one to the inode where it ends. -/
theorem walkPath_spec (hs : s.Sound) (ha : s.Agrees disk) (hi : 0 < s.handles i)
    (names : List String) :
    ∃ r t, walkPath (dentriesOf disk) s i names = .ok (r, t) ∧ Looked disk s t ∧
      r.map t.place = disk.lookup (s.place i) names ∧
      ∀ j, t.handles j + (if j = i then 1 else 0) = s.handles j + if r = some j then 1 else 0 := by
  induction names generalizing s i with
  | nil =>
    exact ⟨some i, s, rfl, .refl hs ha, rfl,
      fun j => by simp [eq_comm]⟩
  | cons name names ih =>
    obtain ⟨found, t, hfound, hlooked, hplace, hhandles⟩ :=
      getSubNode_spec hs ha (hs.live_of_handle hi) name
    have hti : 0 < t.handles i := by
      rw [hhandles]
      omega
    have hdropped : ∀ j, (t.drop i).handles j + (if j = i then 1 else 0) = t.handles j := by
      intro j
      show replaceAt t.handles i (t.handles i - 1) j + _ = _
      rw [replaceAt_apply]
      split_ifs with hji
      · subst hji
        omega
      · rfl
    rw [Disk.lookup]
    cases found with
    | none =>
      refine ⟨none, t.drop i, by simp [walkPath, hfound], hlooked.drop hti, ?_, fun j => ?_⟩
      · split_ifs at hplace ⊢
        · cases hplace
        · rfl
      · rw [hdropped, hhandles]
    | some c =>
      have hc : 0 < (t.drop i).handles c := by
        have hmore := hdropped c
        have hone := hhandles c
        rw [if_pos rfl] at hone
        split_ifs at hmore with hci
        · subst hci
          omega
        · omega
      have hdrop := hlooked.drop hti
      obtain ⟨r, u, hwalk, hlooked', hplace', hhandles'⟩ := ih hdrop.sound hdrop.agrees hc
      refine ⟨r, u, ?_, hdrop.trans hlooked', ?_, fun j => ?_⟩
      · simpa [walkPath, hfound] using hwalk
      · split_ifs at hplace ⊢
        · rw [hplace', place_drop, Option.some.inj hplace]
        · cases hplace
      · have h₁ := hhandles' j
        have h₂ := hdropped j
        have h₃ := hhandles j
        simp only [Option.some.injEq, eq_comm (a := c)] at h₃
        omega

theorem getNodeByPath_eq (dentries : InodeTable → ℕ → String → Option DirEntry) (s : InodeTable)
    (i : ℕ) (path : String) : s.getNodeByPath dentries i path = (do
      Checked.ensure (s.live i = true) .unwrapNone
      walkPath dentries (s.clone i) i (components path)) := rfl

/-- So does `get_node_by_path`, for which empty components and dots are skipped. -/
theorem getNodeByPath_spec (hs : s.Sound) (ha : s.Agrees disk) (hi : s.live i = true)
    (path : String) :
    ∃ r t, s.getNodeByPath (dentriesOf disk) i path = .ok (r, t) ∧ Looked disk s t ∧
      r.map t.place = disk.lookup (s.place i) (components path) ∧
      ∀ j, t.handles j = s.handles j + if r = some j then 1 else 0 := by
  have hclone : ∀ j, (s.clone i).handles j = s.handles j + if j = i then 1 else 0 := by
    intro j
    show replaceAt s.handles i (s.handles i + 1) j = _
    rw [replaceAt_apply]
    split_ifs with hji
    · rw [hji]
    · rfl
  obtain ⟨r, t, hwalk, hlooked, hplace, hhandles⟩ := walkPath_spec (hs.clone hi) (ha.clone hi)
    (i := i) (by rw [hclone, if_pos rfl]; omega) (components path)
  refine ⟨r, t, ?_, ⟨hlooked.sound, hlooked.agrees, hlooked.cnt, fun j hj hlive => ?_,
    fun j hj => ?_, hlooked.inodeClass⟩, ?_, fun j => ?_⟩
  · rw [getNodeByPath_eq, Checked.ensure_pos hi]
    exact hwalk
  · rw [← live_clone hi]
    exact hlooked.live j hj hlive
  · exact (hlooked.place j hj).trans (place_clone ..)
  · rw [hplace, place_clone]
  · have h₁ := hhandles j
    rw [hclone] at h₁
    omega

end InodeTable

end Zinix
