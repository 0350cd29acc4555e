import Zinix.Fs.Inode

/-!
# One live inode for each name

A lookup adds a second inode of a name exactly when its search misses the live one.
-/

namespace Zinix.InodeTable

variable {s : InodeTable}
  {t : InodeTable} {strong : ℕ → ℕ} {i x : ℕ} {a : InodeAction}

theorem owned_congr {f g : ℕ → ℕ} (hcnt : t.cnt = s.cnt)
    (hparent : ∀ j, (t.nodes j).parent = (s.nodes j).parent) (hlive : ∀ j, 0 < g j ↔ 0 < f j)
    (i : ℕ) : t.owned g i = s.owned f i := by
  ext j
  rw [mem_owned, mem_owned, hcnt, hparent, hlive]

theorem release_of_shared (h : strong i - 1 ≠ 0) :
    s.release strong i = replaceAt strong i (strong i - 1) := by
  rw [release]
  simp [h]

theorem release_of_root (hparent : (s.nodes i).parent = none) :
    s.release strong i = replaceAt strong i (strong i - 1) := by
  rw [release]
  simp [hparent]

theorem release_of_last (hs : s.Sound) {p : ℕ} (h : strong i - 1 = 0)
    (hparent : (s.nodes i).parent = some p) :
    s.release strong i = s.release (replaceAt strong i (strong i - 1)) p := by
  rw [release]
  simp [h, hparent, hs.older i p hparent]

theorem release_le (hs : s.Sound) (strong : ℕ → ℕ) (i j : ℕ) :
    s.release strong i j ≤ strong j := by
  induction i using Nat.strong_induction_on generalizing strong with
  | h i ih =>
  have hle : replaceAt strong i (strong i - 1) j ≤ strong j := by
    rw [replaceAt_apply]
    split_ifs with h
    · rw [h]
      omega
    · exact le_rfl
  by_cases hlast : strong i - 1 = 0
  · cases hparent : (s.nodes i).parent with
    | none => rwa [release_of_root hparent]
    | some p =>
      rw [release_of_last hs hlast hparent]
      exact (ih p (hs.older i p hparent) _).trans hle
  · rwa [release_of_shared hlast]

theorem card_owned_erase (hx : x < s.cnt) (hlive : 0 < strong x) (i : ℕ) :
    (s.owned strong i).card =
      (s.owned (replaceAt strong x 0) i).card + if (s.nodes x).parent = some i then 1 else 0 := by
  have herase : s.owned (replaceAt strong x 0) i = (s.owned strong i).erase x := by
    ext j
    rw [Finset.mem_erase, mem_owned, mem_owned, replaceAt_apply]
    by_cases h : j = x
    · simp [h]
    · simp [h]
  rw [herase]
  split_ifs with hp
  · exact (Finset.card_erase_add_one (mem_owned.mpr ⟨hx, hlive, hp⟩)).symm
  · rw [Finset.erase_eq_of_notMem (fun h => hp (mem_owned.mp h).2.2), Nat.add_zero]

/-- If the references to `x` are one too many, giving one up makes the count right. -/
theorem release_counted (hs : s.Sound) (base : ℕ → ℕ) (hfresh : ∀ i, s.cnt ≤ i → strong i = 0)
    (hcount : ∀ i, strong i =
      base i + (if i = x then 1 else 0) + (s.owned strong i).card) (i : ℕ) :
    s.release strong x i = base i + (s.owned (s.release strong x) i).card := by
  induction x using Nat.strong_induction_on generalizing strong with
  | h x ih =>
  have hx : 0 < strong x := by
    have := hcount x
    rw [if_pos rfl] at this
    omega
  have hlt : x < s.cnt := by
    by_contra hge
    have := hfresh x (by omega)
    omega
  by_cases hlast : strong x - 1 = 0
  · have hdead : ∀ j, replaceAt strong x (strong x - 1) j = base j +
        (if (s.nodes x).parent = some j then 1 else 0) +
          (s.owned (replaceAt strong x (strong x - 1)) j).card := by
      intro j
      have hj := hcount j
      have hcard := card_owned_erase hlt hx j
      rw [hlast, replaceAt_apply]
      by_cases hjx : j = x
      · subst hjx
        rw [if_pos rfl] at hj ⊢
        omega
      · rw [if_neg hjx] at hj ⊢
        omega
    cases hparent : (s.nodes x).parent with
    | none =>
      rw [release_of_root hparent]
      simpa [hparent] using hdead i
    | some p =>
      -- the reference to the parent is now one too many
      rw [release_of_last hs hlast hparent]
      refine ih p (hs.older x p hparent) (fun j hj => ?_) (fun j => ?_)
      · rw [replaceAt_of_ne (by omega), hfresh j hj]
      · have hj := hdead j
        simp only [hparent, Option.some.injEq] at hj
        simpa only [eq_comm] using hj
  · rw [release_of_shared hlast, owned_congr (f := strong) rfl (fun _ => rfl)]
    · have hi := hcount i
      rw [replaceAt_apply]
      by_cases hix : i = x
      · subst hix
        rw [if_pos rfl] at hi ⊢
        omega
      · rw [if_neg hix] at hi ⊢
        omega
    · intro j
      rw [replaceAt_apply]
      split_ifs with hjx
      · subst hjx
        omega
      · rfl

theorem live_mono (h : ∀ j, t.strong j ≤ s.strong j) {j : ℕ} (hj : t.live j = true) :
    s.live j = true :=
  live_iff.mpr ((live_iff.mp hj).trans_le (h j))

theorem Sound.drop (hs : s.Sound) (hi : 0 < s.handles i) : (s.drop i).Sound where
  cnt_pos := hs.cnt_pos
  fresh := fun j hj => Nat.le_zero.mp ((release_le hs s.strong i j).trans_eq (hs.fresh j hj))
  older := hs.older
  counted := by
    intro j
    refine release_counted hs (fun j =>
      replaceAt s.handles i (s.handles i - 1) j + if j = 0 then 1 else 0) hs.fresh ?_ j
    intro k
    have hk := hs.counted k
    by_cases hki : k = i
    · subst hki
      rw [replaceAt_self, if_pos rfl]
      omega
    · rw [replaceAt_of_ne hki, if_neg hki]
      omega
  root := fun c hc => hs.root c (live_mono (release_le hs s.strong i) hc)
  listed := fun c p hc => hs.listed c p (live_mono (release_le hs s.strong i) hc)
  child := hs.child
  nodup := hs.nodup

theorem strong_clone (s : InodeTable) (i : ℕ) :
    (s.clone i).strong = replaceAt s.strong i (s.strong i + 1) := rfl

theorem live_clone (hi : s.live i = true) (j : ℕ) : (s.clone i).live j = s.live j := by
  rw [Bool.eq_iff_iff, live_iff, live_iff, strong_clone, replaceAt_apply]
  rw [live_iff] at hi
  split_ifs with hj
  · subst hj
    omega
  · rfl

theorem Sound.clone (hs : s.Sound) (hi : s.live i = true) : (s.clone i).Sound where
  cnt_pos := hs.cnt_pos
  fresh := by
    intro j hj
    have hlt := hs.lt_cnt hi
    have hj : s.cnt ≤ j := hj
    exact (replaceAt_of_ne (by omega)).trans (hs.fresh j hj)
  older := hs.older
  counted := by
    intro j
    have howned : (s.clone i).owned (s.clone i).strong j = s.owned s.strong j :=
      owned_congr rfl (fun _ => rfl) (fun k => by
        rw [← live_iff (s := s.clone i), live_clone hi, live_iff]) j
    have hj := hs.counted j
    rw [howned]
    by_cases hji : j = i
    · subst hji
      simp only [InodeTable.clone, replaceAt_self]
      omega
    · simp only [InodeTable.clone, replaceAt_of_ne hji]
      exact hj
  root := fun c hc => hs.root c (live_clone hi c ▸ hc)
  listed := fun c p hc => hs.listed c p (live_clone hi c ▸ hc)
  child := hs.child
  nodup := hs.nodup

section SetChildren

variable (s) (i j : ℕ) (l : List ℕ)

theorem nodes_setChildren : (s.setChildren i l).nodes =
    replaceAt s.nodes i { s.nodes i with children := l } := rfl

@[simp] theorem parent_setChildren : ((s.setChildren i l).nodes j).parent = (s.nodes j).parent := by
  rw [nodes_setChildren, replaceAt_apply]
  split_ifs with h
  · rw [h]
  · rfl

@[simp] theorem name_setChildren : ((s.setChildren i l).nodes j).name = (s.nodes j).name := by
  rw [nodes_setChildren, replaceAt_apply]
  split_ifs with h
  · rw [h]
  · rfl

@[simp] theorem class_setChildren :
    ((s.setChildren i l).nodes j).inodeClass = (s.nodes j).inodeClass := by
  rw [nodes_setChildren, replaceAt_apply]
  split_ifs with h
  · rw [h]
  · rfl

theorem children_setChildren :
    ((s.setChildren i l).nodes j).children = if j = i then l else (s.nodes j).children := by
  rw [nodes_setChildren, replaceAt_apply]
  split_ifs <;> rfl

@[simp] theorem live_setChildren : (s.setChildren i l).live j = s.live j := rfl

end SetChildren

theorem Sound.setChildren (hs : s.Sound) {l : List ℕ} (hsub : l.Sublist (s.nodes i).children)
    (hkeep : ∀ c ∈ (s.nodes i).children, s.live c = true → c ∈ l) :
    (s.setChildren i l).Sound where
  cnt_pos := hs.cnt_pos
  fresh := hs.fresh
  older := by
    intro c p h
    exact hs.older c p (by simpa using h)
  counted := by
    intro j
    rw [owned_congr (t := s.setChildren i l) (s := s) rfl (by simp) (fun _ => Iff.rfl)]
    exact hs.counted j
  root := by
    intro c hc h
    exact hs.root c hc (by simpa using h)
  listed := by
    intro c p hc h
    have hmem := hs.listed c p hc (by simpa using h)
    rw [children_setChildren]
    split_ifs with hp
    · exact hkeep c (hp ▸ hmem) hc
    · exact hmem
  child := by
    intro p c hc
    rw [children_setChildren] at hc
    simp only [parent_setChildren, class_setChildren]
    split_ifs at hc with hp
    · exact hs.child p c (hp ▸ hsub.subset hc)
    · exact hs.child p c hc
  nodup := by
    intro p
    rw [children_setChildren]
    split_ifs
    · exact hsub.nodup (hs.nodup i)
    · exact hs.nodup p

/-- The table with a new inode as the last child of `i`. -/
def withChild (s : InodeTable) (i : ℕ) (inodeClass : InodeClass) (name : String) : InodeTable :=
  { nodes := replaceAt (replaceAt s.nodes s.cnt ⟨some i, name, inodeClass, []⟩) i
      { s.nodes i with children := (s.nodes i).children ++ [s.cnt] }
    cnt := s.cnt + 1
    strong := replaceAt (replaceAt s.strong i (s.strong i + 1)) s.cnt 1
    handles := replaceAt s.handles s.cnt 1 }

theorem createChild_eq (hs : s.Sound) (hi : s.live i = true) (inodeClass : InodeClass)
    (name : String) :
    s.createChild i inodeClass name = .ok (some s.cnt, s.withChild i inodeClass name) := by
  have hne : i ≠ s.cnt := (hs.lt_cnt hi).ne
  simp [createChild, newInode, hi, setChildren, withChild, replaceAt_of_ne hne]

section WithChild

variable {i : ℕ} (inodeClass : InodeClass) (name : String)
  {j : ℕ}

theorem nodes_withChild : (s.withChild i inodeClass name).nodes =
    replaceAt (replaceAt s.nodes s.cnt ⟨some i, name, inodeClass, []⟩) i
      { s.nodes i with children := (s.nodes i).children ++ [s.cnt] } := rfl

theorem strong_withChild : (s.withChild i inodeClass name).strong =
    replaceAt (replaceAt s.strong i (s.strong i + 1)) s.cnt 1 := rfl

theorem handles_withChild : (s.withChild i inodeClass name).handles =
    replaceAt s.handles s.cnt 1 := rfl

theorem cnt_withChild : (s.withChild i inodeClass name).cnt = s.cnt + 1 := rfl

theorem node_new (hs : s.Sound) (hi : s.live i = true) :
    (s.withChild i inodeClass name).nodes s.cnt = ⟨some i, name, inodeClass, []⟩ := by
  rw [nodes_withChild, replaceAt_of_ne (hs.lt_cnt hi).ne', replaceAt_self]

theorem node_old (hj : j ≠ s.cnt) (hne : j ≠ i) :
    (s.withChild i inodeClass name).nodes j = s.nodes j := by
  rw [nodes_withChild, replaceAt_of_ne hne, replaceAt_of_ne hj]

theorem node_parent : (s.withChild i inodeClass name).nodes i =
    { s.nodes i with children := (s.nodes i).children ++ [s.cnt] } := replaceAt_self

theorem parent_old (hj : j ≠ s.cnt) :
    ((s.withChild i inodeClass name).nodes j).parent = (s.nodes j).parent := by
  by_cases hne : j = i
  · rw [hne, node_parent]
  · rw [node_old inodeClass name hj hne]

theorem name_old (hj : j ≠ s.cnt) :
    ((s.withChild i inodeClass name).nodes j).name = (s.nodes j).name := by
  by_cases hne : j = i
  · rw [hne, node_parent]
  · rw [node_old inodeClass name hj hne]

theorem live_new : (s.withChild i inodeClass name).live s.cnt = true := by
  rw [live_iff, strong_withChild, replaceAt_self]
  exact Nat.one_pos

theorem live_old (hi : s.live i = true) (hj : j ≠ s.cnt) :
    (s.withChild i inodeClass name).live j = s.live j := by
  rw [Bool.eq_iff_iff, live_iff, live_iff, strong_withChild, replaceAt_of_ne hj, replaceAt_apply]
  rw [live_iff] at hi
  split_ifs with h
  · subst h
    omega
  · rfl

theorem owned_withChild (hs : s.Sound) (hi : s.live i = true) (j : ℕ) :
    (s.withChild i inodeClass name).owned (s.withChild i inodeClass name).strong j =
      if j = i then insert s.cnt (s.owned s.strong j) else s.owned s.strong j := by
  have hmem : ∀ k, k ∈ (s.withChild i inodeClass name).owned
      (s.withChild i inodeClass name).strong j ↔
        (k = s.cnt ∧ j = i) ∨ k ∈ s.owned s.strong j := by
    intro k
    rw [mem_owned, mem_owned, ← live_iff, ← live_iff]
    by_cases hk : k = s.cnt
    · subst hk
      rw [node_new inodeClass name hs hi, live_new, cnt_withChild]
      constructor
      · rintro ⟨-, -, h⟩
        exact Or.inl ⟨rfl, (Option.some.inj h).symm⟩
      · rintro (⟨-, rfl⟩ | ⟨h, -⟩)
        · exact ⟨Nat.lt_succ_self _, rfl, rfl⟩
        · exact absurd h (lt_irrefl _)
    · rw [live_old inodeClass name hi hk, parent_old inodeClass name hk]
      rw [cnt_withChild]
      constructor
      · rintro ⟨h₁, h₂⟩
        exact Or.inr ⟨by omega, h₂⟩
      · rintro (⟨h, -⟩ | ⟨h₁, h₂⟩)
        · exact absurd h hk
        · exact ⟨by omega, h₂⟩
  ext k
  rw [hmem]
  split_ifs with h <;> simp [h]

theorem Sound.withChild (hs : s.Sound) (hi : s.live i = true)
    (hdir : (s.nodes i).inodeClass = .dir) : (s.withChild i inodeClass name).Sound where
  cnt_pos := Nat.succ_pos _
  fresh := by
    intro j hj
    have hj : s.cnt + 1 ≤ j := hj
    have hlt := hs.lt_cnt hi
    rw [strong_withChild, replaceAt_of_ne (by omega), replaceAt_of_ne (by omega)]
    exact hs.fresh j (by omega)
  older := by
    intro c p h
    by_cases hc : c = s.cnt
    · subst hc
      rw [node_new inodeClass name hs hi] at h
      cases h
      exact hs.lt_cnt hi
    · rw [parent_old inodeClass name hc] at h
      exact hs.older c p h
  counted := by
    intro j
    have hlt := hs.lt_cnt hi
    have hnotin : s.cnt ∉ s.owned s.strong i := fun h => (mem_owned.mp h).1.false
    have hj := hs.counted j
    rw [owned_withChild inodeClass name hs hi, strong_withChild, handles_withChild]
    by_cases hcnt : j = s.cnt
    · have hzero := hs.fresh j hcnt.ge
      have hpos := hs.cnt_pos
      subst hcnt
      rw [if_neg (show s.cnt ≠ i by omega), replaceAt_self, replaceAt_self]
      omega
    · rw [replaceAt_of_ne hcnt, replaceAt_of_ne hcnt]
      by_cases hji : j = i
      · subst hji
        rw [if_pos rfl, replaceAt_self, Finset.card_insert_of_notMem hnotin]
        omega
      · rw [if_neg hji, replaceAt_of_ne hji]
        exact hj
  root := by
    intro c hc h
    by_cases hcnt : c = s.cnt
    · subst hcnt
      rw [node_new inodeClass name hs hi] at h
      cases h
    · rw [live_old inodeClass name hi hcnt] at hc
      rw [parent_old inodeClass name hcnt] at h
      exact hs.root c hc h
  listed := by
    intro c p hc h
    by_cases hcnt : c = s.cnt
    · subst hcnt
      rw [node_new inodeClass name hs hi] at h
      cases h
      simp [node_parent]
    · rw [live_old inodeClass name hi hcnt] at hc
      rw [parent_old inodeClass name hcnt] at h
      have hmem := hs.listed c p hc h
      by_cases hp : p = i
      · subst hp
        rw [node_parent]
        exact List.mem_append_left _ hmem
      · have hpcnt := (hs.lt_cnt (hs.live_parent hc h)).ne
        rwa [node_old inodeClass name hpcnt hp]
  child := by
    intro p c hc
    rw [cnt_withChild]
    by_cases hp : p = i
    · subst hp
      rw [node_parent] at hc ⊢
      rcases List.mem_append.mp hc with hc | hc
      · obtain ⟨hlt, hparent, hclass⟩ := hs.child p c hc
        rw [parent_old inodeClass name hlt.ne]
        exact ⟨by omega, hparent, hclass⟩
      · rw [List.mem_singleton.mp hc, node_new inodeClass name hs hi]
        exact ⟨by omega, rfl, hdir⟩
    · by_cases hpcnt : p = s.cnt
      · subst hpcnt
        rw [node_new inodeClass name hs hi] at hc
        cases hc
      · rw [node_old inodeClass name hpcnt hp] at hc ⊢
        obtain ⟨hlt, hparent, hclass⟩ := hs.child p c hc
        rw [parent_old inodeClass name hlt.ne]
        exact ⟨by omega, hparent, hclass⟩
  nodup := by
    intro p
    by_cases hp : p = i
    · subst hp
      rw [node_parent]
      refine List.Nodup.append (hs.nodup p) (List.nodup_singleton _) ?_
      intro c hc hcnt
      rw [List.mem_singleton] at hcnt
      have hlt := (hs.child p c hc).1
      omega
    · by_cases hpcnt : p = s.cnt
      · subst hpcnt
        rw [node_new inodeClass name hs hi]
        exact List.nodup_nil
      · rw [node_old inodeClass name hpcnt hp]
        exact hs.nodup p

theorem Unique.withChild (hu : s.Unique) (hs : s.Sound) (hi : s.live i = true)
    (hnone : ∀ c, ¬s.IsChild i name c) : (s.withChild i inodeClass name).Unique := by
  have hnew : ∀ d, d ≠ s.cnt → (s.withChild i inodeClass name).live d = true →
      ((s.withChild i inodeClass name).nodes d).parent = some i →
      ((s.withChild i inodeClass name).nodes d).name ≠ name := by
    intro d hd hlive hparent hname
    rw [live_old inodeClass name hi hd] at hlive
    rw [parent_old inodeClass name hd] at hparent
    rw [name_old inodeClass name hd] at hname
    exact hnone d ⟨hlive, hparent, hname⟩
  intro c d hc hd hparent hname
  by_cases hcc : c = s.cnt
  · by_cases hdc : d = s.cnt
    · rw [hcc, hdc]
    · rw [hcc, node_new inodeClass name hs hi] at hparent hname
      exact absurd hname.symm (hnew d hdc hd hparent.symm)
  · by_cases hdc : d = s.cnt
    · rw [hdc, node_new inodeClass name hs hi] at hparent hname
      exact absurd hname (hnew c hcc hc hparent)
    · rw [live_old inodeClass name hi hcc] at hc
      rw [live_old inodeClass name hi hdc] at hd
      rw [parent_old inodeClass name hcc, parent_old inodeClass name hdc] at hparent
      rw [name_old inodeClass name hcc, name_old inodeClass name hdc] at hname
      exact hu c d hc hd hparent hname

end WithChild

section Lookup

variable {i : ℕ} {name : String} {dentry : Option DirEntry}
  {c : ℕ} {a : InodeAction}

def search (s : InodeTable) (i : ℕ) (name : String) : Option ℕ × List ℕ :=
  scan s.live (fun j => (s.nodes j).name == name) [] (s.nodes i).children

theorem Sound.search_keeps (hs : s.Sound) (i : ℕ) (name : String) :
    (s.setChildren i (s.search i name).2).Sound :=
  hs.setChildren (scan_sublist [] _) (fun _ hc hlive => mem_scan hc hlive)

theorem Sound.search_isChild (hs : s.Sound) (h : (s.search i name).1 = some c) :
    s.IsChild i name c := by
  obtain ⟨hmem, hlive, hhit⟩ := scan_found h
  exact ⟨hlive, (hs.child i c (by simpa using hmem)).2.1, by simpa using hhit⟩

/-- In a directory with at most one live child of a name, the search finds it exactly
if a pass reaches it. -/
theorem Sound.search_eq_some_iff (hs : s.Sound) (hu : s.Unique) (hc : s.IsChild i name c) :
    (s.search i name).1 = some c ↔
      Reached (deadBefore s.live c (s.nodes i).children) (deadAtEnd s.live (s.nodes i).children) := by
  refine scan_eq_some_iff (hs.listed c i hc.alive hc.parent) (hs.nodup i) hc.alive
    (by simpa using hc.named) ?_
  intro x hx hne hlive
  have hparent := (hs.child i x hx).2.1
  by_contra hhit
  refine hne (hu x c hlive hc.alive (hparent.trans hc.parent.symm) ?_)
  rw [hc.named]
  simpa using hhit

theorem getSubNode_found (hdir : (s.nodes i).inodeClass = .dir) (h : (s.search i name).1 = some c) :
    s.getSubNode i name dentry =
      .ok (some c, (s.setChildren i (s.search i name).2).clone c) := by
  rw [getSubNode, hdir]
  simp only [search] at h
  simp [h, search]

theorem getSubNode_missed_eq (dentry : Option DirEntry) (hs : s.Sound) (hi : s.live i = true)
    (hdir : (s.nodes i).inodeClass = .dir) (h : (s.search i name).1 = none) :
    s.getSubNode i name dentry =
      match dentry with
      | some .dir =>
        .ok (some s.cnt, (s.setChildren i (s.search i name).2).withChild i .dir name)
      | some .file =>
        .ok (some s.cnt, (s.setChildren i (s.search i name).2).withChild i .file name)
      | _ => .ok (none, s.setChildren i (s.search i name).2) := by
  have hnew : ∀ inodeClass, (s.setChildren i (s.search i name).2).createChild i inodeClass name =
      .ok (some s.cnt, (s.setChildren i (s.search i name).2).withChild i inodeClass name) :=
    fun inodeClass => createChild_eq (hs.search_keeps i name) hi inodeClass name
  rw [getSubNode, hdir]
  simp only [search] at h hnew ⊢
  simp only [h]
  cases dentry with
  | none => rfl
  | some entry =>
    cases entry with
    | dir => exact hnew .dir
    | file => exact hnew .file
    | other => rfl

theorem getSubNode_missed (dentry : Option DirEntry) (hs : s.Sound) (hi : s.live i = true)
    (hdir : (s.nodes i).inodeClass = .dir) (h : (s.search i name).1 = none) :
    s.getSubNode i name dentry = .ok (none, s.setChildren i (s.search i name).2) ∨
      ∃ inodeClass, s.getSubNode i name dentry = .ok (some s.cnt,
        (s.setChildren i (s.search i name).2).withChild i inodeClass name) := by
  rw [getSubNode_missed_eq dentry hs hi hdir h]
  match dentry with
  | none => exact Or.inl rfl
  | some .dir => exact Or.inr ⟨.dir, rfl⟩
  | some .file => exact Or.inr ⟨.file, rfl⟩
  | some .other => exact Or.inl rfl

def ReturnsLive (s : InodeTable) : InodeAction → Prop
  | .getSubNode i name dentry =>
    ∀ c, s.IsChild i name c → ∃ t, s.getSubNode i name dentry = .ok (some c, t)
  | _ => True

/-- The dead entries among the children stand so that the search for a live inode
reaches it. -/
def InReach (s : InodeTable) : InodeAction → Prop
  | .getSubNode i name _ =>
    ∀ c, s.IsChild i name c → Reached (deadBefore s.live c (s.nodes i).children)
      (deadAtEnd s.live (s.nodes i).children)
  | _ => True

theorem Sound.isDir (hs : s.Sound) (hc : s.IsChild i name c) :
    (s.nodes i).inodeClass = .dir := (hs.child i c (hs.listed c i hc.alive hc.parent)).2.2

theorem Sound.returnsLive_iff (hs : s.Sound) (hu : s.Unique) (ha : s.Enabled a) :
    s.ReturnsLive a ↔ s.InReach a := by
  cases a with
  | getSubNode i name dentry =>
    refine forall_congr' fun c => forall_congr' fun hc => ?_
    have hi : s.live i = true := hs.live_of_handle ha
    rw [← hs.search_eq_some_iff hu hc]
    constructor
    · rintro ⟨t, ht⟩
      cases hsearch : (s.search i name).1 with
      | some d =>
        rw [getSubNode_found (hs.isDir hc) hsearch] at ht
        cases ht
        rfl
      | none =>
        rcases getSubNode_missed dentry hs hi (hs.isDir hc) hsearch with h | ⟨_, h⟩
        · rw [h] at ht
          cases ht
        · rw [h] at ht
          cases ht
          exact absurd (hs.lt_cnt hc.alive) (lt_irrefl _)
    · intro h
      exact ⟨_, getSubNode_found (hs.isDir hc) h⟩
  | getRoot => exact Iff.rfl
  | clone i => exact Iff.rfl
  | getParent i => exact Iff.rfl
  | drop i => exact Iff.rfl

theorem Unique.of_live {t : InodeTable} (hu : s.Unique)
    (hlive : ∀ j, t.live j = true → s.live j = true)
    (hparent : ∀ j, (t.nodes j).parent = (s.nodes j).parent)
    (hname : ∀ j, (t.nodes j).name = (s.nodes j).name) : t.Unique := by
  intro c d hc hd hp hn
  rw [hparent, hparent] at hp
  rw [hname, hname] at hn
  exact hu c d (hlive c hc) (hlive d hd) hp hn

/-- Every action returns, keeps the table sound, and keeps inodes unique if it returns
the live inode it looks for. -/
theorem Sound.exec (hs : s.Sound) (ha : s.Enabled a) :
    ∃ r t, s.exec a = .ok (r, t) ∧ t.Sound ∧ (s.Unique → s.ReturnsLive a → t.Unique) := by
  have hclone : ∀ j, s.live j = true → (s.clone j).Sound ∧ (s.Unique → (s.clone j).Unique) :=
    fun j hj => ⟨hs.clone hj, fun hu => hu.of_live (fun k hk => live_clone hj k ▸ hk)
      (fun _ => rfl) (fun _ => rfl)⟩
  cases a with
  | getRoot =>
    have hroot : s.live 0 = true := by
      have hcount := hs.counted 0
      rw [live_iff]
      simp only [if_pos] at hcount
      omega
    exact ⟨_, _, rfl, (hclone 0 hroot).1, fun hu _ => (hclone 0 hroot).2 hu⟩
  | clone i =>
    have hi := hs.live_of_handle ha
    exact ⟨_, _, rfl, (hclone i hi).1, fun hu _ => (hclone i hi).2 hu⟩
  | getParent i =>
    have hi := hs.live_of_handle ha
    cases hp : (s.nodes i).parent with
    | none => exact ⟨none, s, by simp [InodeTable.exec, hp], hs, fun hu _ => hu⟩
    | some p =>
      have hlive := hs.live_parent hi hp
      exact ⟨some p, s.clone p, by simp [InodeTable.exec, hp], (hclone p hlive).1,
        fun hu _ => (hclone p hlive).2 hu⟩
  | drop i =>
    refine ⟨_, _, rfl, hs.drop ha, fun hu _ => hu.of_live (fun j hj => ?_) (fun _ => rfl)
      (fun _ => rfl)⟩
    exact live_mono (release_le hs s.strong i) hj
  | getSubNode i name dentry =>
    have hi := hs.live_of_handle ha
    have hkeep := hs.search_keeps i name
    have hukeep : s.Unique → (s.setChildren i (s.search i name).2).Unique := fun hu =>
      hu.of_live (fun _ hj => hj) (by simp) (by simp)
    cases hclass : (s.nodes i).inodeClass with
    | file => exact ⟨none, s, by simp [InodeTable.exec, getSubNode, hclass], hs, fun hu _ => hu⟩
    | dir =>
      cases hsearch : (s.search i name).1 with
      | some c =>
        have hc : (s.setChildren i (s.search i name).2).live c = true :=
          (hs.search_isChild hsearch).alive
        refine ⟨_, _, getSubNode_found hclass hsearch, hkeep.clone hc, fun hu _ => ?_⟩
        exact (hukeep hu).of_live (fun j hj => live_clone hc j ▸ hj) (fun _ => rfl) (fun _ => rfl)
      | none =>
        rcases getSubNode_missed dentry hs hi hclass hsearch with h | ⟨inodeClass, h⟩
        · exact ⟨_, _, h, hkeep, fun hu _ => hukeep hu⟩
        · refine ⟨_, _, h, hkeep.withChild inodeClass name hi (by simpa using hclass), ?_⟩
          intro hu hreturns
          refine (hukeep hu).withChild inodeClass name hkeep hi ?_
          rintro c ⟨hlive, hparent, hname⟩
          obtain ⟨t, ht⟩ := hreturns c ⟨hlive, by simpa using hparent, by simpa using hname⟩
          rw [h] at ht
          cases ht
          exact absurd (hs.lt_cnt hlive) (lt_irrefl _)

end Lookup

theorem Sound.step (hs : s.Sound) (h : s.Step a t) : t.Sound := by
  obtain ⟨ha, r, hr⟩ := h
  obtain ⟨r', t', hr', ht', -⟩ := hs.exec ha
  rw [hr] at hr'
  cases hr'
  exact ht'

theorem Unique.step (hu : s.Unique) (hs : s.Sound) (h : s.Step a t) (hreturns : s.ReturnsLive a) :
    t.Unique := by
  obtain ⟨ha, r, hr⟩ := h
  obtain ⟨r', t', hr', -, ht'⟩ := hs.exec ha
  rw [hr] at hr'
  cases hr'
  exact ht' hu hreturns

theorem Sound.step_next (hs : s.Sound) (ha : s.Enabled a) :
    s.Step a (s.next a) := by
  obtain ⟨r, t, hr, -⟩ := hs.exec ha
  refine ⟨ha, r, ?_⟩
  rw [next, hr]

theorem Sound.isRun_record (hs : s.Sound) {as : List InodeAction}
    (h : ∀ x ∈ Trace.steps s (Trace.record next s as), x.1.Enabled x.2) :
    Trace.IsRun Step s (Trace.record next s as) := by
  induction as generalizing s with
  | nil => trivial
  | cons a as ih =>
    have hstep := hs.step_next (h (s, a) (List.mem_cons_self ..))
    exact ⟨hstep, ih (hs.step hstep) fun x hx => h x (List.mem_cons_of_mem _ hx)⟩

section Paths

variable {i : ℕ}

theorem handles_getSubNode (hs : s.Sound) (hi : 0 < s.handles i) {name : String}
    {dentry : Option DirEntry} {r : Option ℕ} {t : InodeTable}
    (h : s.getSubNode i name dentry = .ok (r, t)) :
    0 < t.handles i ∧ ∀ c, r = some c → c ≠ i ∧ 0 < t.handles c := by
  have hlive := hs.live_of_handle hi
  cases hclass : (s.nodes i).inodeClass with
  | file =>
    simp only [getSubNode, hclass] at h
    cases h
    exact ⟨hi, fun c hc => by cases hc⟩
  | dir =>
    cases hsearch : (s.search i name).1 with
    | some c =>
      have hlt : i < c := hs.older c i (hs.search_isChild hsearch).parent
      rw [getSubNode_found hclass hsearch] at h
      cases h
      refine ⟨?_, fun d hd => ?_⟩
      · show 0 < replaceAt s.handles c (s.handles c + 1) i
        rwa [replaceAt_of_ne hlt.ne]
      · cases hd
        refine ⟨hlt.ne', ?_⟩
        show 0 < replaceAt s.handles c (s.handles c + 1) c
        rw [replaceAt_self]
        omega
    | none =>
      have hne := (hs.lt_cnt hlive).ne
      rcases getSubNode_missed dentry hs hlive hclass hsearch with hr | ⟨inodeClass, hr⟩
      · rw [hr] at h
        cases h
        exact ⟨hi, fun c hc => by cases hc⟩
      · rw [hr] at h
        cases h
        refine ⟨?_, fun d hd => ?_⟩
        · show 0 < replaceAt s.handles s.cnt 1 i
          rwa [replaceAt_of_ne hne]
        · cases hd
          refine ⟨hne.symm, ?_⟩
          show 0 < replaceAt s.handles s.cnt 1 s.cnt
          rw [replaceAt_self]
          exact Nat.one_pos

theorem walkPath_isRun (dentries : InodeTable → ℕ → String → Option DirEntry) (names : List String)
    (hs : s.Sound) (hi : 0 < s.handles i) :
    ∃ found run, Trace.IsRun Step s run ∧
      walkPath dentries s i names = .ok (found, Trace.final s run) := by
  induction names generalizing s i with
  | nil => exact ⟨some i, [], trivial, rfl⟩
  | cons name names ih =>
    obtain ⟨r, t, hr, ht, -⟩ := hs.exec (a := .getSubNode i name (dentries s i name)) hi
    obtain ⟨hti, hfound⟩ := handles_getSubNode hs hi hr
    have hlookup : s.Step (.getSubNode i name (dentries s i name)) t := ⟨hi, r, hr⟩
    have hdrop : t.Step (.drop i) (t.drop i) := ⟨hti, none, rfl⟩
    have hr : s.getSubNode i name (dentries s i name) = .ok (r, t) := hr
    cases r with
    | none =>
      refine ⟨none, [(_, t), (_, t.drop i)], ⟨hlookup, hdrop, trivial⟩, ?_⟩
      simp [walkPath, hr, Trace.final]
    | some c =>
      obtain ⟨hne, hc⟩ := hfound c rfl
      have hhandle : 0 < (t.drop i).handles c := by
        show 0 < replaceAt t.handles i (t.handles i - 1) c
        rwa [replaceAt_of_ne hne]
      obtain ⟨found, run, hrun, hwalk⟩ := ih (ht.drop hti) hhandle
      refine ⟨found, (_, t) :: (_, t.drop i) :: run, ⟨hlookup, hdrop, hrun⟩, ?_⟩
      simpa [walkPath, hr, Trace.final] using hwalk

/-- So is a whole `get_node_by_path`, and what holds of the runs of single actions holds of
those with lookups of paths. -/
theorem getNodeByPath_isRun (dentries : InodeTable → ℕ → String → Option DirEntry) (path : String)
    (hs : s.Sound) (hi : 0 < s.handles i) :
    ∃ found run, Trace.IsRun Step s run ∧
      getNodeByPath dentries s i path = .ok (found, Trace.final s run) := by
  have hlive := hs.live_of_handle hi
  have hclone : s.Step (.clone i) (s.clone i) := ⟨hi, some i, rfl⟩
  have hhandle : 0 < (s.clone i).handles i := by
    show 0 < replaceAt s.handles i (s.handles i + 1) i
    rw [replaceAt_self]
    omega
  obtain ⟨found, run, hrun, hwalk⟩ :=
    walkPath_isRun dentries (components path) (hs.clone hlive) hhandle
  refine ⟨found, (_, s.clone i) :: run, ⟨hclone, hrun⟩, ?_⟩
  simpa [getNodeByPath, hlive, Trace.final] using hwalk

end Paths

/-- Inodes stay unique and every lookup of a live inode returns it exactly in the runs in
which the search of every lookup reaches the live inode of its name. -/
theorem unique_iff_inReach {r : List (InodeAction × InodeTable)}
    (hrun : Trace.IsRun Step boot r) :
    ((∀ t ∈ Trace.states boot r, t.Unique) ∧ ∀ x ∈ Trace.steps boot r, x.1.ReturnsLive x.2) ↔
      ∀ x ∈ Trace.steps boot r, x.1.InReach x.2 := by
  have hsound : ∀ t ∈ Trace.states boot r, t.Sound :=
    Trace.invariant Sound (fun _ _ _ hs hstep => hs.step hstep) sound_boot hrun
  have hiff : ∀ x ∈ Trace.steps boot r, x.1.Unique → (x.1.ReturnsLive x.2 ↔ x.1.InReach x.2) := by
    intro x hx hu
    obtain ⟨hstate, _, -, hstep⟩ := Trace.step_of_mem_steps hrun hx
    exact (hsound _ hstate).returnsLive_iff hu hstep.1
  constructor
  · rintro ⟨hunique, hreturns⟩ x hx
    exact (hiff x hx (hunique _ (Trace.step_of_mem_steps hrun hx).1)).mp (hreturns x hx)
  · intro hreach
    have hunique : ∀ t ∈ Trace.states boot r, t.Sound ∧ t.Unique := by
      refine Trace.invariant_of_steps (fun t => t.Sound ∧ t.Unique) InReach ?_
        ⟨sound_boot, unique_boot⟩ hrun hreach
      rintro s a t ⟨hs, hu⟩ ha hstep
      exact ⟨hs.step hstep, hu.step hs hstep ((hs.returnsLive_iff hu hstep.1).mpr ha)⟩
    refine ⟨fun t ht => (hunique t ht).2, fun x hx => ?_⟩
    exact (hiff x hx (hunique _ (Trace.step_of_mem_steps hrun hx).1).2).mpr (hreach x hx)

/-- Two files of the root are looked up, the handle to the first is given up, and the
second one is looked up again while the caller still has it. -/
def relookup : List InodeAction :=
  [.getRoot, .getSubNode 0 "a" (some .file), .getSubNode 0 "b" (some .file), .drop 1,
    .getSubNode 0 "b" (some .file)]

theorem relookup_isRun : Trace.IsRun Step boot (Trace.record next boot relookup) :=
  sound_boot.isRun_record (by decide +kernel)

theorem unique_iff_inReach_relookup :
    ((∀ t ∈ Trace.states boot (Trace.record next boot relookup), t.Unique) ∧
      ∀ x ∈ Trace.steps boot (Trace.record next boot relookup), x.1.ReturnsLive x.2) ↔
      ∀ x ∈ Trace.steps boot (Trace.record next boot relookup), x.1.InReach x.2 :=
  unique_iff_inReach relookup_isRun

/-- The dead entry in front hides the second file, and a second inode is made for it. -/
theorem relookup_duplicates :
    Trace.IsRun Step boot (Trace.record next boot relookup) ∧
      ¬(Trace.final boot (Trace.record next boot relookup)).Unique := by
  refine ⟨relookup_isRun, fun h => ?_⟩
  exact absurd (h 2 3 (by decide +kernel) (by decide +kernel) (by decide +kernel)
    (by decide +kernel)) (by decide)

end Zinix.InodeTable
