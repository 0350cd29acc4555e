import Zinix.Mm.PageBlocks

/-!
# Handles to the pages of a block

When the last handle to a leader is given up, the state stays safe exactly when no other
page of its block has a handle left.
-/

namespace Zinix.PageSys

variable {s t : PageSys} {start N : ℕ}
  {j f : ℕ} {out : List ℕ} {S : DyadicBlocks.Family} {a : PageAction}

/-- Changing the counts of references without bringing a page to life or dropping one. -/
theorem Sound.recount (h : s.Sound start N) {strong handles : ℕ → ℕ}
    (hlive : ∀ i, 0 < strong i ↔ 0 < s.strong i)
    (hcount : ∀ i < s.pageCnt, strong i = handles i + s.ownedBy i)
    (hheld : ∀ i, 0 < handles i → i < s.pageCnt) :
    Sound start N { s with strong := strong, handles := handles } := by
  have hsame : ∀ i, live { s with strong := strong, handles := handles } i = s.live i := by
    intro i
    rw [Bool.eq_iff_iff, live_iff, live_iff]
    exact hlive i
  have howned : ∀ i, ownedBy { s with strong := strong, handles := handles } i = s.ownedBy i := by
    intro i
    rw [ownedBy, ownedBy, hsame]
  obtain ⟨out, hnodup, hmem, hS⟩ := h.outstanding
  exact
    { toShape := { h.toShape with }
      startVaddr_eq := h.startVaddr_eq
      cap_eq := h.cap_eq
      fits := h.fits
      old := fun i hi => h.old i (hsame i ▸ hi)
      counted := fun i hi => by rw [howned]; exact hcount i hi
      held := hheld
      live_leader := fun i hi => by
        rw [hsame] at hi ⊢
        exact h.live_leader i hi
      outstanding := ⟨out, hnodup, fun i => by rw [hsame]; exact hmem i, hS⟩ }

theorem Sound.clone (h : s.Sound start N) {i : ℕ} (hi : s.live i = true) :
    (s.clone i).Sound start N := by
  refine h.recount (fun j => ?_) (fun j hj => ?_) (fun j hj => ?_)
  · rw [replaceAt_apply]
    split_ifs with hji
    · subst hji
      exact iff_of_true (Nat.succ_pos _) (live_iff.mp hi)
    · rfl
  · have hcount := h.counted j hj
    rw [replaceAt_apply, replaceAt_apply]
    split_ifs with hji
    · subst hji
      omega
    · exact hcount
  · rw [replaceAt_apply] at hj
    split_ifs at hj with hji
    · rw [hji]
      exact h.old i hi
    · exact h.held j hj

theorem Shape.mem_friends_iff (h : s.Shape start) {i : ℕ} (hi : i < s.pageCnt)
    (hil : (s.pages i).isLeader = true) (hj : j < s.pageCnt) :
    j ∈ (s.pages i).friends ↔ (s.pages j).leader = i ∧ j ≠ i := by
  constructor
  · intro hmem
    refine ⟨(h.members i hi j hmem).2, ?_⟩
    rintro rfl
    rw [h.friends j hi hil, List.mem_range'_1] at hmem
    omega
  · rintro ⟨hl, hne⟩
    have hle := h.leader_le j hj
    have hin := h.inBlock j hj
    rw [hl] at hle hin
    rw [h.friends i hi hil, List.mem_range'_1]
    omega

theorem strong_dropFriends (friends : List ℕ) (s : PageSys) (j : ℕ) :
    (friends.foldl dropFriend s).strong j = s.strong j - friends.count j := by
  induction friends generalizing s with
  | nil => simp
  | cons f friends ih =>
    rw [List.foldl_cons, ih, List.count_cons]
    show replaceAt s.strong f (s.strong f - 1) j - _ = _
    rw [replaceAt_apply]
    split_ifs with h₁ h₂ h₂
    · rw [h₁]
      omega
    · exact absurd (by simp [h₁]) h₂
    · exact absurd (by simpa using h₂) (Ne.symm h₁)
    · rw [Nat.add_zero]

theorem dropFriends_eq (friends : List ℕ) (s : PageSys) :
    friends.foldl dropFriend s =
      { s with strong := (friends.foldl dropFriend s).strong } := by
  induction friends generalizing s with
  | nil => rfl
  | cons f friends ih =>
    rw [List.foldl_cons, ih]
    rfl

theorem strong_giveUp (i : ℕ) : (s.giveUp i).strong i = s.strong i - 1 := replaceAt_self

theorem Sound.held_giveUp (h : s.Sound start N) {i : ℕ} (hj : 0 < (s.giveUp i).handles j) :
    j < s.pageCnt := by
  have hj : 0 < replaceAt s.handles i (s.handles i - 1) j := hj
  rw [replaceAt_apply] at hj
  split_ifs at hj with hji
  · exact h.held j (by rw [hji]; omega)
  · exact h.held j hj

theorem Sound.giveUp (h : s.Sound start N) {i : ℕ} (hi : 0 < s.handles i)
    (hmore : s.strong i - 1 ≠ 0) : (s.giveUp i).Sound start N := by
  refine h.recount (fun j => ?_) (fun j hj => ?_) (fun j hj => h.held_giveUp hj)
  · rw [replaceAt_apply]
    split_ifs with hji
    · subst hji
      omega
    · rfl
  · have hcount := h.counted j hj
    rw [replaceAt_apply, replaceAt_apply]
    split_ifs with hji
    · subst hji
      omega
    · exact hcount

theorem Sound.isLeader_of_last (h : s.Sound start N) {i : ℕ} (hi : 0 < s.handles i)
    (hlast : s.strong i - 1 = 0) : (s.pages i).isLeader = true ∧ s.strong i = 1 := by
  have hlt := h.held i hi
  have hcount := h.counted i hlt
  refine ⟨?_, by omega⟩
  rw [h.isLeader_iff i hlt]
  by_contra hne
  have howned : s.ownedBy i = 1 := if_pos ⟨hne, h.live_leader i (h.live_of_handle hi)⟩
  omega

/-- The system after the drop of a leader whose block the allocator has taken back. -/
def withoutLeader (s : PageSys) (buddy : BuddyAllocator) (i : ℕ) : PageSys :=
  (s.pages i).friends.foldl dropFriend { s.giveUp i with buddy := buddy }

theorem withoutLeader_eq (buddy : BuddyAllocator) (i : ℕ) :
    s.withoutLeader buddy i =
      { s.giveUp i with buddy := buddy, strong := (s.withoutLeader buddy i).strong } :=
  dropFriends_eq ..

theorem strong_withoutLeader (h : s.Sound start N) {i : ℕ} (hi : i < s.pageCnt)
    (hil : (s.pages i).isLeader = true) (hone : s.strong i = 1) (buddy : BuddyAllocator)
    (hj : j < s.pageCnt) :
    (s.withoutLeader buddy i).strong j =
      if (s.pages j).leader = i then s.strong j - 1 else s.strong j := by
  have hfriend := h.mem_friends_iff hi hil hj
  have hnodup : (s.pages i).friends.Nodup := by
    rw [h.friends i hi hil]
    exact List.nodup_range'
  rw [withoutLeader, strong_dropFriends]
  show replaceAt s.strong i (s.strong i - 1) j - _ = _
  by_cases hji : j = i
  · subst hji
    have hnot : j ∉ (s.pages j).friends := fun hmem => (hfriend.mp hmem).2 rfl
    rw [replaceAt_self, List.count_eq_zero_of_not_mem hnot,
      if_pos ((h.isLeader_iff j hi).mp hil), Nat.sub_zero]
  · rw [replaceAt_of_ne hji]
    by_cases hl : (s.pages j).leader = i
    · rw [List.count_eq_one_of_mem hnodup (hfriend.mpr ⟨hl, hji⟩), if_pos hl]
    · rw [List.count_eq_zero_of_not_mem (fun hmem => hl (hfriend.mp hmem).1), if_neg hl, Nat.sub_zero]

theorem Sound.drop_leader (h : s.Sound start N) {i : ℕ} (hi : 0 < s.handles i)
    (hlast : s.strong i - 1 = 0) :
    ∃ (buddy : BuddyAllocator) (out : List ℕ),
      s.drop i = .ok (s.withoutLeader buddy i) ∧ out.Nodup ∧
      (∀ j, j ∈ out ↔ s.live j = true ∧ (s.pages j).isLeader = true) ∧
        ∃ S, RunInv start N ⟨buddy, (out.erase i).map s.block⟩ S := by
  obtain ⟨hil, hone⟩ := h.isLeader_of_last hi hlast
  obtain ⟨out, hnodup, hmem, S, hS⟩ := h.outstanding
  have hin : i ∈ out := (hmem i).mpr ⟨h.live_of_handle hi, hil⟩
  obtain ⟨buddy, T, hfree, hT⟩ := hS.free_ok h.fits (b := s.block i) (List.mem_map_of_mem hin)
  refine ⟨buddy, out, ?_, hnodup, hmem, T, hT.perm ?_⟩
  · have hpages : (s.giveUp i).pages i = s.pages i := rfl
    have hbuddy : (s.giveUp i).buddy = s.buddy := rfl
    rw [drop, strong_giveUp, if_pos hlast, dropPage, hpages, hbuddy]
    simp only [hil, if_true]
    have hfree : s.buddy.freeArea (s.pages i).vaddr (s.pages i).order = .ok (true, buddy) := hfree
    rw [hfree]
    simp only [Checked.ok_bind, Checked.ensure_pos]
    rfl
  · have hperm := ((List.perm_cons_erase hin).map s.block).erase (s.block i)
    rwa [List.map_cons, List.erase_cons_head] at hperm

variable {buddy : BuddyAllocator} {i : ℕ}

theorem pages_withoutLeader : (s.withoutLeader buddy i).pages = s.pages := by
  rw [withoutLeader_eq]
  rfl

theorem handles_withoutLeader : (s.withoutLeader buddy i).handles = (s.giveUp i).handles := by
  rw [withoutLeader_eq]

theorem Sound.leader_leader (h : s.Sound start N) (hj : j < s.pageCnt) :
    (s.pages (s.pages j).leader).leader = (s.pages j).leader :=
  (h.isLeader_iff _ ((h.leader_le j hj).trans_lt hj)).mp (h.isLeader j hj)

/-- When the leader is the only one left to refer to its block, the drop leaves alive what
is not in the block. -/
theorem Sound.live_withoutLeader (h : s.Sound start N) (hi : i < s.pageCnt)
    (hil : (s.pages i).isLeader = true) (hone : s.strong i = 1)
    (hlast : ∀ f ∈ (s.pages i).friends, s.strong f = 1) (j : ℕ) :
    (s.withoutLeader buddy i).live j = true ↔ s.live j = true ∧ (s.pages j).leader ≠ i := by
  by_cases hj : j < s.pageCnt
  · rw [live_iff, live_iff, strong_withoutLeader h hi hil hone buddy hj]
    split_ifs with hl
    · have hsj : s.strong j = 1 := by
        by_cases hji : j = i
        · rw [hji]
          exact hone
        · exact hlast j ((h.mem_friends_iff hi hil hj).mpr ⟨hl, hji⟩)
      simp [hsj, hl]
    · simp [hl]
  · have hdead : ¬s.live j = true := fun hlive => hj (h.old j hlive)
    refine iff_of_false ?_ fun hlive => hdead hlive.1
    have hji : j ≠ i := fun hji => hj (hji ▸ hi)
    rw [live_iff] at hdead ⊢
    rw [withoutLeader, strong_dropFriends]
    show ¬0 < replaceAt s.strong i (s.strong i - 1) j - _
    rw [replaceAt_of_ne hji]
    omega

theorem Sound.withoutLeader (h : s.Sound start N) (hi : 0 < s.handles i)
    (hil : (s.pages i).isLeader = true) (hone : s.strong i = 1)
    (hlast : ∀ f ∈ (s.pages i).friends, s.strong f = 1) (hnodup : out.Nodup)
    (hmem : ∀ j, j ∈ out ↔ s.live j = true ∧ (s.pages j).isLeader = true)
    (hS : RunInv start N ⟨buddy, (out.erase i).map s.block⟩ S) :
    (s.withoutLeader buddy i).Sound start N := by
  have hlt := h.held i hi
  have hlive : ∀ j, (s.withoutLeader buddy i).live j = true ↔
      s.live j = true ∧ (s.pages j).leader ≠ i := h.live_withoutLeader hlt hil hone hlast
  have hself : (s.pages i).leader = i := (h.isLeader_iff i hlt).mp hil
  have hpages : (s.withoutLeader buddy i).pages = s.pages := pages_withoutLeader
  refine
    { toShape := ?_, startVaddr_eq := ?_, cap_eq := ?_, fits := h.fits, old := ?_, counted := ?_,
      held := ?_, live_leader := ?_, outstanding := ?_ }
  · rw [withoutLeader_eq]
    exact { h.toShape with }
  · rw [withoutLeader_eq]
    exact h.startVaddr_eq
  · rw [withoutLeader_eq]
    exact h.cap_eq
  · intro j hj
    rw [withoutLeader_eq]
    exact h.old j ((hlive j).mp hj).1
  · intro j hj
    have hj : j < s.pageCnt := by rwa [withoutLeader_eq] at hj
    have hcount := h.counted j hj
    have howned : (s.withoutLeader buddy i).ownedBy j =
        if (s.pages j).leader = i then 0 else s.ownedBy j := by
      simp only [ownedBy, hpages, hlive, h.leader_leader hj]
      split_ifs <;> first
        | rfl
        | tauto
    rw [strong_withoutLeader h hlt hil hone buddy hj, howned, handles_withoutLeader]
    show _ = replaceAt s.handles i (s.handles i - 1) j + _
    rw [replaceAt_apply]
    by_cases hji : j = i
    · subst hji
      rw [if_pos hself, if_pos rfl, if_pos hself]
      omega
    · rw [if_neg hji]
      split_ifs with hl
      · have hfriend := hlast j ((h.mem_friends_iff hlt hil hj).mpr ⟨hl, hji⟩)
        have howner : s.ownedBy j = 1 :=
          if_pos ⟨fun heq => hji (heq ▸ hl), hl ▸ h.live_of_handle hi⟩
        omega
      · exact hcount
  · intro j hj
    rw [handles_withoutLeader] at hj
    rw [withoutLeader_eq]
    exact h.held_giveUp hj
  · intro j hj
    obtain ⟨hjlive, hne⟩ := (hlive j).mp hj
    rw [hpages, hlive, h.leader_leader (h.old j hjlive)]
    exact ⟨h.live_leader j hjlive, hne⟩
  · refine ⟨out.erase i, hnodup.erase i, fun j => ?_, S, ?_⟩
    · rw [hnodup.mem_erase_iff, hmem, hlive, hpages]
      constructor
      · rintro ⟨hne, hjlive, hjl⟩
        refine ⟨⟨hjlive, ?_⟩, hjl⟩
        rwa [(h.isLeader_iff j (h.old j hjlive)).mp hjl]
      · rintro ⟨⟨hjlive, hne⟩, hjl⟩
        refine ⟨?_, hjlive, hjl⟩
        rwa [(h.isLeader_iff j (h.old j hjlive)).mp hjl] at hne
    · rw [withoutLeader_eq]
      exact hS

theorem Sound.free_of_outlives (h : s.Sound start N) (hil : (s.pages i).isLeader = true)
    (hnodup : out.Nodup) (hmem : ∀ j, j ∈ out ↔ s.live j = true ∧ (s.pages j).isLeader = true)
    (hS : RunInv start N ⟨buddy, (out.erase i).map s.block⟩ S) (hlive : s.live f = true)
    (hf : (s.pages f).leader = i) :
    ∃ b ∈ buddy.freeBlocks, Block.contains (s.pages f).vaddr b = true := by
  have hilive : s.live i = true := hf ▸ h.live_leader f hlive
  have hcontains : Block.contains (s.pages f).vaddr (s.block i) = true := hf ▸ h.contains_leader hlive
  -- the address is in the range of the allocator, and in no block that is still outstanding
  have hrange := h.range hlive
  have hnone : ((out.erase i).map s.block).countP (Block.contains (s.pages f).vaddr) = 0 := by
    rw [List.countP_eq_zero]
    intro b hb
    obtain ⟨j, hj, rfl⟩ := List.mem_map.mp hb
    obtain ⟨hne, hj⟩ := hnodup.mem_erase_iff.mp hj
    obtain ⟨hjlive, hjl⟩ := (hmem j).mp hj
    exact fun hcon => h.disjoint hjlive hjl hilive hil hne _ ⟨hcon, hcontains⟩
  have hpart := (hS.sound h.fits).partition (s.pages f).vaddr
  dsimp only at hpart
  rw [List.countP_append, hnone, if_pos hrange] at hpart
  exact List.countP_pos_iff.mp (by omega)

/-- Dropping a handle leads to a safe state exactly when no friend outlives its leader, and
then to a sound one. -/
theorem Sound.drop (h : s.Sound start N) (hi : 0 < s.handles i) (ht : s.drop i = .ok t) :
    (s.LastOfBlock (.drop i) → t.Sound start N) ∧ (t.Safe → s.LastOfBlock (.drop i)) := by
  by_cases hlast : s.strong i - 1 = 0
  · obtain ⟨hil, hone⟩ := h.isLeader_of_last hi hlast
    obtain ⟨buddy, out, heq, hnodup, hmem, S, hS⟩ := h.drop_leader hi hlast
    rw [heq] at ht
    cases ht
    refine ⟨fun hclean => h.withoutLeader hi hil hone (hclean hil hone) hnodup hmem hS, ?_⟩
    intro hsafe _ _ f hf
    have hlt := h.held i hi
    obtain ⟨hflt, hfl⟩ := h.members i hlt f hf
    have hne : f ≠ i := ((h.mem_friends_iff hlt hil hflt).mp hf).2
    have howned : s.ownedBy f = 1 :=
      if_pos ⟨fun heq => hne (heq ▸ hfl), hfl ▸ h.live_of_handle hi⟩
    have hcount := h.counted f hflt
    have hflive : s.live f = true := live_iff.mpr (by omega)
    by_contra hmore
    have hstays : (s.withoutLeader buddy i).live f = true := by
      rw [live_iff, strong_withoutLeader h hlt hil hone buddy hflt, if_pos hfl]
      omega
    obtain ⟨b, hb, hcon⟩ := h.free_of_outlives hil hnodup hmem hS hflive hfl
    have hnot := hsafe.notFree f hstays b (by rwa [withoutLeader_eq])
    rw [pages_withoutLeader, hcon] at hnot
    cases hnot
  · have heq : s.drop i = .ok (s.giveUp i) := by
      rw [PageSys.drop, strong_giveUp, if_neg hlast]
      rfl
    rw [heq] at ht
    cases ht
    exact ⟨fun _ => h.giveUp hi hlast, fun _ _ hone => absurd hone (by omega)⟩

theorem Sound.live_friend (h : s.Sound start N) (hi : s.live i = true)
    (hf : f ∈ (s.pages i).friends) : s.live f = true := by
  obtain ⟨hlt, hl⟩ := h.members i (h.old i hi) f hf
  have hcount := h.counted f hlt
  by_cases hself : f = i
  · rwa [hself]
  · have howned : s.ownedBy f = 1 := if_pos ⟨fun heq => hself (heq ▸ hl), hl ▸ hi⟩
    rw [live_iff]
    omega

theorem Sound.getLeader (h : s.Sound start N) (hi : s.live i = true) :
    s.getLeader i = .ok ((s.pages i).leader, s.clone (s.pages i).leader) ∧
      (s.clone (s.pages i).leader).Sound start N := by
  have hlive := h.live_leader i hi
  refine ⟨?_, h.clone hlive⟩
  rw [PageSys.getLeader, Checked.ensure_pos hlive]
  rfl

theorem Sound.exec (h : s.Sound start N) (hen : s.Enabled a) (hnot : ∀ i, a ≠ .drop i)
    (ht : s.exec a = .ok t) : t.Sound start N := by
  cases a with
  | alloc order =>
    obtain ⟨r, u, heq, hu⟩ := h.allocPages order
    rw [PageSys.exec, heq] at ht
    cases ht
    exact hu
  | clone i =>
    cases ht
    exact h.clone (h.live_of_handle hen)
  | drop i => exact absurd rfl (hnot i)
  | back i =>
    have hlive := h.live_of_handle hen
    simp only [PageSys.exec, back, Checked.ensure] at ht
    split_ifs at ht with hl
    · rw [Checked.ok_bind] at ht
      cases hf : (s.pages i).friends.getLast? with
      | none =>
        rw [hf] at ht
        cases ht
      | some f =>
        rw [hf] at ht
        cases ht
        exact h.clone (h.live_friend hlive (List.mem_of_getLast? hf))
    · cases ht
  | front i =>
    have hlive := h.live_of_handle hen
    obtain ⟨heq, hsound⟩ := h.getLeader hlive
    simp only [PageSys.exec, front, Checked.ensure, heq] at ht
    split_ifs at ht
    · cases ht
      exact hsound
    · cases ht
  | getLeader i =>
    obtain ⟨heq, hsound⟩ := h.getLeader (h.live_of_handle hen)
    rw [PageSys.exec, heq] at ht
    cases ht
    exact hsound
  | friend i k =>
    obtain ⟨hheld, hk⟩ := hen
    rw [PageSys.exec, List.getElem?_eq_getElem hk] at ht
    cases ht
    exact h.clone (h.live_friend (h.live_of_handle hheld) (List.getElem_mem hk))
  | getInMemoryPage vaddr =>
    simp only [PageSys.exec, getInMemoryPage] at ht
    cases ht
    split
    · exact h
    · split
      · exact h
      · split_ifs with hlive
        · exact h.clone hlive
        · exact h

theorem Sound.step (h : s.Sound start N) (hstep : Step s a t) :
    (s.LastOfBlock a → t.Sound start N) ∧ (t.Safe → s.LastOfBlock a) := by
  by_cases hdrop : ∃ i, a = .drop i
  · obtain ⟨i, rfl⟩ := hdrop
    exact h.drop hstep.1 hstep.2
  · have hnot : ∀ i, a ≠ .drop i := fun i heq => hdrop ⟨i, heq⟩
    refine ⟨fun _ => h.exec hstep.1 hnot hstep.2, fun _ => ?_⟩
    cases a with
    | drop i => exact absurd rfl (hnot i)
    | _ => trivial

theorem Sound.init {sVaddr eVaddr ns ne : ℕ} (hs : Vaddr.ceil sVaddr = .ok ns)
    (he : Vaddr.floor eVaddr = .ok ne) (hle : ns ≤ ne) (h : PageSys.init sVaddr eVaddr = .ok s) :
    s.Sound ns ((ne - ns) / pageSize) := by
  obtain ⟨N, rfl, hlt, hok, hover⟩ := BuddyAllocator.new_ok hs he hle
  rw [Nat.add_sub_cancel_left, Nat.mul_div_cancel N pageSize_pos]
  by_cases hwalk : WalkFits ns N (maxOrder - 1)
  · obtain ⟨a, hnew, ha⟩ := hok hwalk
    have hsub : subUsize (ns + N * pageSize) ns = .ok (N * pageSize) := by
      rw [subUsize, if_pos hle, Nat.add_sub_cancel_left]
    simp only [PageSys.init, hnew, hs, he, Checked.ok_bind, hsub,
      Nat.mul_div_cancel N pageSize_pos] at h
    cases h
    have hdead : ∀ i, ¬live ⟨a, ns, N, fun _ => none, fun _ => ⟨0, false, 0, [], 0⟩, 0, fun _ => 0,
        fun _ => 0⟩ i = true := fun i => by simp [live]
    exact
      { leader_le := fun i hi => absurd hi (Nat.not_lt_zero i)
        isLeader := fun i hi => absurd hi (Nat.not_lt_zero i)
        isLeader_iff := fun i hi => absurd hi (Nat.not_lt_zero i)
        inBlock := fun i hi => absurd hi (Nat.not_lt_zero i)
        vaddr := fun i hi => absurd hi (Nat.not_lt_zero i)
        order := fun i hi => absurd hi (Nat.not_lt_zero i)
        friends := fun i hi => absurd hi (Nat.not_lt_zero i)
        members := fun i hi => absurd hi (Nat.not_lt_zero i)
        slots := fun k j hk => by cases hk
        startVaddr_eq := rfl
        cap_eq := rfl
        fits := hlt
        old := fun i hi => absurd hi (hdead i)
        counted := fun i hi => absurd hi (Nat.not_lt_zero i)
        held := fun i hi => absurd hi (Nat.not_lt_zero 0)
        live_leader := fun i hi => absurd hi (hdead i)
        outstanding := ⟨[], List.nodup_nil, fun i => by simp [hdead i], _, RunInv.init ha⟩ }
  · rw [PageSys.init, hover hwalk] at h
    cases h

/-- Every state of a run is safe exactly when every leader whose last handle is given up is
the only one left to refer to the pages of its block. -/
theorem safe_iff_lastOfBlock {sVaddr eVaddr ns ne : ℕ} (hs : Vaddr.ceil sVaddr = .ok ns)
    (he : Vaddr.floor eVaddr = .ok ne) (hle : ns ≤ ne) {s₀ : PageSys}
    (h₀ : init sVaddr eVaddr = .ok s₀) {r : List (PageAction × PageSys)}
    (hrun : Trace.IsRun Step s₀ r) :
    (∀ s ∈ Trace.states s₀ r, s.Safe) ↔ ∀ x ∈ Trace.steps s₀ r, x.1.LastOfBlock x.2 := by
  have hsound := Sound.init hs he hle h₀
  refine Trace.all_states_iff_all_steps (Sound ns ((ne - ns) / pageSize)) Safe LastOfBlock
    (fun s a t h hclean hstep => (h.step hstep).1 hclean) (fun s a t h hstep => ?_) hsound
    hsound.safe hrun
  exact ⟨(h.step hstep).2, fun hclean => ((h.step hstep).1 hclean).safe⟩

def next (s : PageSys) (a : PageAction) : PageSys :=
  match s.exec a with
  | .ok s' => s'
  | .error _ => s

def ready (s : PageSys) (a : PageAction) : Bool := decide (s.Enabled a) && (s.exec a).isOk

theorem step_next (h : s.ready a = true) : s.Step a (s.next a) := by
  rw [ready, Bool.and_eq_true, decide_eq_true_iff] at h
  obtain ⟨s', hs'⟩ := Checked.exists_of_isOk h.2
  exact ⟨h.1, by rw [next, hs']⟩

/-- The system with the pages at the addresses 4096 and 8192. -/
def twoPages : PageSys := (init 1 12288).toOption.get (by decide +kernel)

theorem init_twoPages : init 1 12288 = .ok twoPages :=
  Checked.eq_ok_of_toOption (Option.some_get _).symm

/-- The second page of a block is taken with `back` and the leader is dropped. -/
def outlive : List PageAction := [.alloc 1, .back 0, .drop 0]

theorem outlive_isRun : Trace.IsRun Step twoPages (Trace.record next twoPages outlive) := by
  have hready : ∀ x ∈ Trace.steps twoPages (Trace.record next twoPages outlive),
      x.1.ready x.2 = true := by decide +kernel
  exact Trace.isRun_record fun x hx => step_next (hready x hx)

theorem safe_iff_lastOfBlock_twoPages :
    (∀ s ∈ Trace.states twoPages (Trace.record next twoPages outlive), s.Safe) ↔
      ∀ x ∈ Trace.steps twoPages (Trace.record next twoPages outlive), x.1.LastOfBlock x.2 := by
  have hs : Vaddr.ceil 1 = .ok 4096 := by decide
  have he : Vaddr.floor 12288 = .ok 12288 := by decide
  exact safe_iff_lastOfBlock hs he (by decide) init_twoPages outlive_isRun

/-- The page at 8192 still has a handle, but it is in a free block, and the next allocation
of the block finds it in memory. -/
theorem outlive_not_safe :
    init 1 12288 = .ok twoPages ∧
      Trace.IsRun Step twoPages (Trace.record next twoPages outlive) ∧
      0 < (Trace.final twoPages (Trace.record next twoPages outlive)).handles 1 ∧
      ¬(Trace.final twoPages (Trace.record next twoPages outlive)).Safe ∧
      (Trace.final twoPages (Trace.record next twoPages outlive)).exec (.alloc 1) =
        .error (.explicit "page already in memory: 0x2000") := by
  refine ⟨init_twoPages, outlive_isRun, by decide +kernel, fun hsafe => ?_, ?_⟩
  · exact absurd (hsafe.notFree 1 (by decide +kernel) (4096, 1) (by decide +kernel))
      (by decide +kernel)
  · have hpanic : (match (Trace.final twoPages (Trace.record next twoPages outlive)).exec
        (.alloc 1) with
      | .error e => some e
      | .ok _ => none) = some (.explicit "page already in memory: 0x2000") := by decide +kernel
    cases h : (Trace.final twoPages (Trace.record next twoPages outlive)).exec (.alloc 1) with
    | error e =>
      rw [h] at hpanic
      rw [Option.some.inj hpanic]
    | ok s =>
      rw [h] at hpanic
      cases hpanic

end Zinix.PageSys
