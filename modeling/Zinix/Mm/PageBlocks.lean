import Zinix.Mm.Pages

/-!
# Blocks of pages

In a sound state every live page lies in the block of a live leader, and the buddy
allocator has exactly the blocks of live leaders outstanding.
-/

namespace Zinix

theorem RunInv.perm {start N : ℕ} {a : BuddyAllocator} {out out' : List Block}
    {S : DyadicBlocks.Family} (h : RunInv start N ⟨a, out⟩ S) (hperm : out.Perm out') :
    RunInv start N ⟨a, out'⟩ S where
  alloc := h.alloc
  noSiblings := h.noSiblings
  outstanding := fun b hb => h.outstanding b (hperm.mem_iff.mpr hb)
  covered := fun x hx => by
    have hcov := h.covered x hx
    rwa [show List.countP (Block.contains x) out = List.countP (Block.contains x) out' from
      hperm.countP_eq _] at hcov
  weighed := by
    have hw := h.weighed
    rwa [show (out.map Block.pages).sum = (out'.map Block.pages).sum from
      (hperm.map _).sum_eq] at hw

namespace PageSys

variable {s t : PageSys} {start N : ℕ}
  {i j : ℕ} {b : Block} {out : List ℕ} {S : DyadicBlocks.Family}

theorem live_iff : s.live i = true ↔ 0 < s.strong i := decide_eq_true_iff

/-- The pages created so far, in blocks of consecutive numbers. -/
structure Shape (start : ℕ) (s : PageSys) : Prop where
  leader_le : ∀ i < s.pageCnt, (s.pages i).leader ≤ i
  isLeader : ∀ i < s.pageCnt, (s.pages (s.pages i).leader).isLeader = true
  isLeader_iff : ∀ i < s.pageCnt, (s.pages i).isLeader = true ↔ (s.pages i).leader = i
  inBlock : ∀ i < s.pageCnt, i < (s.pages i).leader + 2 ^ (s.pages (s.pages i).leader).order
  vaddr : ∀ i < s.pageCnt, (s.pages i).vaddr =
    (s.pages (s.pages i).leader).vaddr + (i - (s.pages i).leader) * pageSize
  order : ∀ i < s.pageCnt, (s.pages i).isLeader = true → (s.pages i).order < maxOrder
  friends : ∀ i < s.pageCnt, (s.pages i).isLeader = true →
    (s.pages i).friends = List.range' (i + 1) (2 ^ (s.pages i).order - 1)
  members : ∀ i < s.pageCnt, ∀ j ∈ (s.pages i).friends, j < s.pageCnt ∧ (s.pages j).leader = i
  slots : ∀ k j, s.slots k = some j → j < s.pageCnt ∧ (s.pages j).vaddr = start + k * pageSize

/-- The leader of a page owns a reference to it if it is not the leader itself. -/
def ownedBy (s : PageSys) (i : ℕ) : ℕ :=
  if (s.pages i).leader ≠ i ∧ s.live (s.pages i).leader = true then 1 else 0

/-- Every live page is in the block of a live leader, and these are the blocks that the
allocator has outstanding. -/
structure Sound (start N : ℕ) (s : PageSys) : Prop extends Shape start s where
  startVaddr_eq : s.startVaddr = start
  cap_eq : s.cap = N
  fits : start + N * pageSize < wordSize
  old : ∀ i, s.live i = true → i < s.pageCnt
  counted : ∀ i < s.pageCnt, s.strong i = s.handles i + s.ownedBy i
  held : ∀ i, 0 < s.handles i → i < s.pageCnt
  live_leader : ∀ i, s.live i = true → s.live (s.pages i).leader = true
  outstanding : ∃ out : List ℕ, out.Nodup ∧
    (∀ i, i ∈ out ↔ s.live i = true ∧ (s.pages i).isLeader = true) ∧
      ∃ S, RunInv start N ⟨s.buddy, out.map s.block⟩ S

theorem Sound.live_of_handle (h : s.Sound start N) (hi : 0 < s.handles i) :
    s.live i = true := by
  have hcount := h.counted i (h.held i hi)
  rw [live_iff]
  omega

theorem Sound.contains_leader (h : s.Sound start N) (hi : s.live i = true) :
    Block.contains (s.pages i).vaddr (s.block (s.pages i).leader) = true := by
  have hlt := h.old i hi
  have hle := h.leader_le i hlt
  have hin := h.inBlock i hlt
  have hL := h.old _ (h.live_leader i hi)
  have hpages : Block.pages (s.block (s.pages i).leader) =
      2 ^ (s.pages (s.pages i).leader).order :=
    order2pages_of_lt (h.order _ hL (h.isLeader i hlt))
  rw [Block.contains, decide_eq_true_iff, hpages, h.vaddr i hlt]
  refine ⟨Nat.le_add_right _ _, ?_⟩
  have hsub : i - (s.pages i).leader < 2 ^ (s.pages (s.pages i).leader).order := by omega
  exact Nat.add_lt_add_left (Nat.mul_lt_mul_of_pos_right hsub pageSize_pos) _

/-- Every address is in at most one of the outstanding blocks and the free blocks. -/
theorem Sound.partition (h : s.Sound start N) : ∃ out : List ℕ, out.Nodup ∧
    (∀ i, i ∈ out ↔ s.live i = true ∧ (s.pages i).isLeader = true) ∧
      ∀ x, (out.map s.block).countP (Block.contains x) +
        s.buddy.freeBlocks.countP (Block.contains x) ≤ 1 := by
  obtain ⟨out, hnodup, hmem, S, hS⟩ := h.outstanding
  refine ⟨out, hnodup, hmem, fun x => ?_⟩
  have hpart := (hS.sound h.fits).partition x
  rw [List.countP_append] at hpart
  dsimp only at hpart
  rw [hpart]
  split_ifs
  · exact le_rfl
  · exact Nat.zero_le _

theorem Sound.range (h : s.Sound start N) (hi : s.live i = true) :
    start ≤ (s.pages i).vaddr ∧ (s.pages i).vaddr < start + N * pageSize := by
  obtain ⟨out, -, hmem, S, hS⟩ := h.outstanding
  have hlt := h.old i hi
  have hpart := (hS.sound h.fits).partition (s.pages i).vaddr
  have hpos : 0 < (out.map s.block).countP (Block.contains (s.pages i).vaddr) :=
    List.countP_pos_iff.mpr ⟨_, List.mem_map_of_mem
      ((hmem _).mpr ⟨h.live_leader i hi, h.isLeader i hlt⟩), h.contains_leader hi⟩
  dsimp only at hpart
  rw [List.countP_append] at hpart
  split_ifs at hpart with hin
  · exact hin
  · omega

theorem Sound.not_free (h : s.Sound start N) (hi : s.live i = true) (hb : b ∈ s.buddy.freeBlocks) :
    Block.contains (s.pages i).vaddr b = false := by
  obtain ⟨out, -, hmem, hpart⟩ := h.partition
  have hlt := h.old i hi
  by_contra hcon
  have hfree : 0 < s.buddy.freeBlocks.countP (Block.contains (s.pages i).vaddr) :=
    List.countP_pos_iff.mpr ⟨b, hb, by simpa using hcon⟩
  have hout : 0 < (out.map s.block).countP (Block.contains (s.pages i).vaddr) := by
    refine List.countP_pos_iff.mpr ⟨_, List.mem_map_of_mem
      ((hmem _).mpr ⟨h.live_leader i hi, h.isLeader i hlt⟩), h.contains_leader hi⟩
  have hle := hpart (s.pages i).vaddr
  omega

theorem Sound.disjoint (h : s.Sound start N) (hi : s.live i = true)
    (hil : (s.pages i).isLeader = true) (hj : s.live j = true) (hjl : (s.pages j).isLeader = true)
    (hne : i ≠ j) (x : ℕ) :
    ¬(Block.contains x (s.block i) = true ∧ Block.contains x (s.block j) = true) := by
  rintro ⟨hxi, hxj⟩
  obtain ⟨out, -, hmem, hpart⟩ := h.partition
  have hperm := ((List.perm_cons_erase ((hmem i).mpr ⟨hi, hil⟩)).map s.block).countP_eq
    (Block.contains x)
  have hrest : 0 < ((out.erase i).map s.block).countP (Block.contains x) := by
    have hj : j ∈ out.erase i := (List.mem_erase_of_ne hne.symm).mpr ((hmem j).mpr ⟨hj, hjl⟩)
    exact List.countP_pos_iff.mpr ⟨_, List.mem_map_of_mem hj, hxj⟩
  rw [List.map_cons, List.countP_cons_of_pos hxi] at hperm
  have hle := hpart x
  omega

section Create

variable {vaddr order k : ℕ}

/-- The system after `k` passes of the loop that creates a block. -/
def withPages (s : PageSys) (vaddr order k : ℕ) : PageSys :=
  { s with
    slots := fun x =>
      if s.getIndexNoCheck vaddr ≤ x ∧ x < s.getIndexNoCheck vaddr + k then
        some (s.pageCnt + (x - s.getIndexNoCheck vaddr))
      else s.slots x
    pages := fun i =>
      if s.pageCnt ≤ i ∧ i < s.pageCnt + k then
        if i = s.pageCnt then ⟨vaddr, true, order, List.range' (s.pageCnt + 1) (k - 1), s.pageCnt⟩
        else ⟨vaddr + (i - s.pageCnt) * pageSize, false, 0, [], s.pageCnt⟩
      else s.pages i
    pageCnt := s.pageCnt + k
    strong := fun i => if s.pageCnt ≤ i ∧ i < s.pageCnt + k then 1 else s.strong i }

theorem withPages_zero (vaddr order : ℕ) : s.withPages vaddr order 0 = s := by
  have hnone : ∀ a x : ℕ, ¬(a ≤ x ∧ x < a + 0) := fun a x h => by omega
  simp only [withPages, hnone, if_false]
  rfl

theorem checkSlot_withPages
    (hdead : ∀ j, s.slots (s.getIndexNoCheck vaddr + k) = some j → j < s.pageCnt ∧ s.live j = false) :
    (s.withPages vaddr order k).checkSlot (s.getIndexNoCheck vaddr + k) = .ok () := by
  have hslot : (s.withPages vaddr order k).slots (s.getIndexNoCheck vaddr + k) =
      s.slots (s.getIndexNoCheck vaddr + k) := if_neg (by omega)
  rw [checkSlot, hslot]
  cases hs : s.slots (s.getIndexNoCheck vaddr + k) with
  | none => rfl
  | some old =>
    obtain ⟨hlt, hlive⟩ := hdead old hs
    have hsame : (s.withPages vaddr order k).strong old = s.strong old := if_neg (by omega)
    refine Checked.ensure_pos ?_
    rw [live, hsame]
    exact hlive

theorem addPage_withPages_zero (vaddr order : ℕ) :
    s.addPage (s.getIndexNoCheck vaddr) ⟨vaddr, true, order, [], s.pageCnt⟩ =
      s.withPages vaddr order 1 := by
  have hone : ∀ a x : ℕ, (a ≤ x ∧ x < a + 1) ↔ x = a := fun a x => by omega
  simp only [addPage, withPages, hone, PageSys.mk.injEq, true_and, and_true]
  refine ⟨?_, ?_, ?_⟩
  · funext x
    rw [replaceAt_apply]
    split_ifs with h
    · rw [h, Nat.sub_self, Nat.add_zero]
    · rfl
  · funext i
    rw [replaceAt_apply]
    split_ifs <;> rfl
  · funext i
    rw [replaceAt_apply]

theorem addPage_withPages_succ (hk : 0 < k) (vaddr order : ℕ) :
    ((s.withPages vaddr order k).addPage (s.getIndexNoCheck vaddr + k)
      ⟨vaddr + k * pageSize, false, 0, [], s.pageCnt⟩).addFriend s.pageCnt (s.pageCnt + k) =
      s.withPages vaddr order (k + 1) := by
  simp only [addPage, addFriend, withPages, PageSys.mk.injEq, true_and, and_true]
  refine ⟨?_, ?_, Nat.add_assoc _ _ _, ?_⟩
  · funext x
    rw [replaceAt_apply]
    split_ifs <;> first
      | rfl
      | omega
      | (congr 1; omega)
  · funext i
    obtain ⟨m, rfl⟩ : ∃ m, k = m + 1 := ⟨k - 1, by omega⟩
    have hfriends : List.range' (s.pageCnt + 1) m ++ [s.pageCnt + (m + 1)] =
        List.range' (s.pageCnt + 1) (m + 1) := by
      rw [List.range'_1_concat, Nat.add_assoc, Nat.add_comm 1 m]
    have hne : s.pageCnt ≠ s.pageCnt + (m + 1) := by omega
    have hfirst : ∀ n, s.pageCnt ≤ s.pageCnt ∧ s.pageCnt < s.pageCnt + (n + 1) := by omega
    rw [replaceAt_apply, replaceAt_of_ne hne, if_pos (hfirst m), if_pos rfl]
    by_cases hi : i = s.pageCnt
    · subst hi
      rw [if_pos rfl, if_pos (hfirst (m + 1)), if_pos rfl]
      simp only [Nat.add_sub_cancel, hfriends]
    · rw [if_neg hi, replaceAt_apply]
      by_cases hlast : i = s.pageCnt + (m + 1)
      · subst hlast
        rw [if_pos rfl, if_pos (by omega), if_neg (by omega), Nat.add_sub_cancel_left]
      · rw [if_neg hlast]
        split_ifs <;> first
          | rfl
          | omega
  · funext i
    rw [replaceAt_apply]
    split_ifs <;> first
      | rfl
      | omega

theorem newPage_withPages (hcap : s.getIndexNoCheck vaddr + k < s.cap)
    (hdead : ∀ j, s.slots (s.getIndexNoCheck vaddr + k) = some j → j < s.pageCnt ∧ s.live j = false) :
    newPage vaddr order s.pageCnt (s.withPages vaddr order k) k =
      .ok (s.withPages vaddr order (k + 1)) := by
  have hindex : (s.withPages vaddr order k).getIndexNoCheck vaddr = s.getIndexNoCheck vaddr := rfl
  have hcnt : (s.withPages vaddr order k).pageCnt = s.pageCnt + k := rfl
  unfold newPage
  rw [hindex]
  dsimp only
  rw [Checked.ensure_pos (by exact hcap), checkSlot_withPages hdead]
  simp only [Checked.ok_bind, hcnt]
  split_ifs with hk
  · subst hk
    rw [withPages_zero, Nat.add_zero, addPage_withPages_zero]
    rfl
  · rw [addPage_withPages_succ (Nat.pos_of_ne_zero hk)]
    rfl

theorem newPagesLoop {n : ℕ} (hcap : s.getIndexNoCheck vaddr + n ≤ s.cap)
    (hdead : ∀ k < n, ∀ j, s.slots (s.getIndexNoCheck vaddr + k) = some j →
      j < s.pageCnt ∧ s.live j = false) :
    (List.range n).foldlM (newPage vaddr order s.pageCnt) s = .ok (s.withPages vaddr order n) := by
  induction n with
  | zero =>
    rw [withPages_zero]
    rfl
  | succ n ih =>
    rw [List.range_succ, List.foldlM_append,
      ih (by omega) fun k hk => hdead k (by omega), Checked.ok_bind, List.foldlM_cons,
      newPage_withPages (by omega) (hdead n (by omega))]
    rfl

/-- The system with a new block of pages, to whose leader there is a handle. -/
def withBlock (s : PageSys) (buddy : BuddyAllocator) (vaddr order : ℕ) : PageSys :=
  { s.withPages vaddr order (2 ^ order) with
    buddy := buddy
    handles := replaceAt s.handles s.pageCnt 1 }

section WithBlock

variable (buddy : BuddyAllocator) (vaddr order : ℕ) {i : ℕ}

theorem pages_old (hi : i < s.pageCnt) : (s.withBlock buddy vaddr order).pages i = s.pages i :=
  if_neg (by omega)

theorem pages_leader : (s.withBlock buddy vaddr order).pages s.pageCnt =
    ⟨vaddr, true, order, List.range' (s.pageCnt + 1) (2 ^ order - 1), s.pageCnt⟩ := by
  have hpos : 0 < 2 ^ order := by positivity
  exact (if_pos ⟨le_rfl, by omega⟩).trans (if_pos rfl)

theorem pages_friend (hlt : s.pageCnt < i) (hi : i < s.pageCnt + 2 ^ order) :
    (s.withBlock buddy vaddr order).pages i =
      ⟨vaddr + (i - s.pageCnt) * pageSize, false, 0, [], s.pageCnt⟩ :=
  (if_pos ⟨hlt.le, hi⟩).trans (if_neg hlt.ne')

theorem strong_old (hi : i < s.pageCnt) : (s.withBlock buddy vaddr order).strong i = s.strong i :=
  if_neg (by omega)

theorem strong_new (hle : s.pageCnt ≤ i) (hi : i < s.pageCnt + 2 ^ order) :
    (s.withBlock buddy vaddr order).strong i = 1 := if_pos ⟨hle, hi⟩

theorem strong_beyond (hi : s.pageCnt + 2 ^ order ≤ i) :
    (s.withBlock buddy vaddr order).strong i = s.strong i := if_neg (by omega)

theorem pageCnt_withBlock : (s.withBlock buddy vaddr order).pageCnt = s.pageCnt + 2 ^ order := rfl

theorem live_old (hi : i < s.pageCnt) : (s.withBlock buddy vaddr order).live i = s.live i := by
  rw [live, live, strong_old buddy vaddr order hi]

theorem live_new (hle : s.pageCnt ≤ i) (hi : i < s.pageCnt + 2 ^ order) :
    (s.withBlock buddy vaddr order).live i = true := by
  rw [live_iff, strong_new buddy vaddr order hle hi]
  exact Nat.one_pos

theorem new_page (hle : s.pageCnt ≤ i) (hi : i < s.pageCnt + 2 ^ order) :
    ((s.withBlock buddy vaddr order).pages i).leader = s.pageCnt ∧
      ((s.withBlock buddy vaddr order).pages i).vaddr = vaddr + (i - s.pageCnt) * pageSize ∧
      (((s.withBlock buddy vaddr order).pages i).isLeader = true ↔ i = s.pageCnt) := by
  rcases Nat.eq_or_lt_of_le hle with rfl | hlt
  · rw [pages_leader]
    simp
  · rw [pages_friend buddy vaddr order hlt hi]
    simp [hlt.ne']

theorem Shape.withBlock (h : s.Shape start) (ho : order < maxOrder)
    (hvaddr : vaddr = start + s.getIndexNoCheck vaddr * pageSize) :
    (s.withBlock buddy vaddr order).Shape start := by
  have hpos : 0 < 2 ^ order := by positivity
  have hlead : ∀ i < s.pageCnt, (s.pages i).leader < s.pageCnt := fun i hi =>
    (h.leader_le i hi).trans_lt hi
  have hnew : ∀ i, ¬i < s.pageCnt → i < (s.withBlock buddy vaddr order).pageCnt →
      ((s.withBlock buddy vaddr order).pages i).leader = s.pageCnt ∧
        ((s.withBlock buddy vaddr order).pages i).vaddr = vaddr + (i - s.pageCnt) * pageSize ∧
        (((s.withBlock buddy vaddr order).pages i).isLeader = true ↔ i = s.pageCnt) :=
    fun i hold hi => new_page buddy vaddr order (Nat.not_lt.mp hold) hi
  refine ⟨?_, ?_, ?_, ?_, ?_, ?_, ?_, ?_, ?_⟩
  · intro i hi
    by_cases hold : i < s.pageCnt
    · rw [pages_old buddy vaddr order hold]
      exact h.leader_le i hold
    · rw [(hnew i hold hi).1]
      omega
  · intro i hi
    by_cases hold : i < s.pageCnt
    · rw [pages_old buddy vaddr order hold, pages_old buddy vaddr order (hlead i hold)]
      exact h.isLeader i hold
    · rw [(hnew i hold hi).1, pages_leader]
  · intro i hi
    by_cases hold : i < s.pageCnt
    · rw [pages_old buddy vaddr order hold]
      exact h.isLeader_iff i hold
    · obtain ⟨hl, -, hiff⟩ := hnew i hold hi
      rw [hl, hiff, eq_comm]
  · intro i hi
    by_cases hold : i < s.pageCnt
    · rw [pages_old buddy vaddr order hold, pages_old buddy vaddr order (hlead i hold)]
      exact h.inBlock i hold
    · rw [(hnew i hold hi).1, pages_leader]
      exact hi
  · intro i hi
    by_cases hold : i < s.pageCnt
    · rw [pages_old buddy vaddr order hold, pages_old buddy vaddr order (hlead i hold)]
      exact h.vaddr i hold
    · obtain ⟨hl, hv, -⟩ := hnew i hold hi
      rw [hv, hl, pages_leader]
  · intro i hi hleader
    by_cases hold : i < s.pageCnt
    · rw [pages_old buddy vaddr order hold] at hleader ⊢
      exact h.order i hold hleader
    · rw [(hnew i hold hi).2.2] at hleader
      subst hleader
      rw [pages_leader]
      exact ho
  · intro i hi hleader
    by_cases hold : i < s.pageCnt
    · rw [pages_old buddy vaddr order hold] at hleader ⊢
      exact h.friends i hold hleader
    · rw [(hnew i hold hi).2.2] at hleader
      subst hleader
      rw [pages_leader]
  · intro i hi j hj
    by_cases hold : i < s.pageCnt
    · rw [pages_old buddy vaddr order hold] at hj
      obtain ⟨hlt, hl⟩ := h.members i hold j hj
      rw [pages_old buddy vaddr order hlt, pageCnt_withBlock]
      exact ⟨by omega, hl⟩
    · rcases Nat.eq_or_lt_of_le (Nat.not_lt.mp hold) with rfl | hlt
      · rw [pages_leader, List.mem_range'_1] at hj
        rw [pages_friend buddy vaddr order (by omega) (by omega), pageCnt_withBlock]
        exact ⟨by omega, rfl⟩
      · rw [pages_friend buddy vaddr order hlt hi] at hj
        cases hj
  · intro k j hk
    have hk : (if s.getIndexNoCheck vaddr ≤ k ∧ k < s.getIndexNoCheck vaddr + 2 ^ order then
        some (s.pageCnt + (k - s.getIndexNoCheck vaddr)) else s.slots k) = some j := hk
    split_ifs at hk with hin
    · cases hk
      rw [(hnew (s.pageCnt + (k - s.getIndexNoCheck vaddr)) (by omega)
        (by rw [pageCnt_withBlock]; omega)).2.1, pageCnt_withBlock]
      refine ⟨by omega, ?_⟩
      rw [hvaddr, Nat.add_sub_cancel_left, Nat.add_assoc, ← Nat.add_mul]
      congr 2
      rw [← hvaddr]
      omega
    · obtain ⟨hlt, hv⟩ := h.slots k j hk
      rw [pages_old buddy vaddr order hlt, pageCnt_withBlock]
      exact ⟨by omega, hv⟩

end WithBlock

end Create

/-- What an allocation takes from the free blocks has no live page in it. -/
theorem Sound.dead_of_outstanding (h : s.Sound start N)
    (hmem : ∀ i, i ∈ out ↔ s.live i = true ∧ (s.pages i).isLeader = true) {a : BuddyAllocator}
    (hS : RunInv start N ⟨a, b :: out.map s.block⟩ S)
    (hj : Block.contains (s.pages j).vaddr b = true) : s.live j = false := by
  by_contra hlive
  have hlive : s.live j = true := by simpa using hlive
  have hpart := (hS.sound h.fits).partition (s.pages j).vaddr
  have hout : 0 < (out.map s.block).countP (Block.contains (s.pages j).vaddr) :=
    List.countP_pos_iff.mpr ⟨_, List.mem_map_of_mem
      ((hmem _).mpr ⟨h.live_leader j hlive, h.isLeader j (h.old j hlive)⟩), h.contains_leader hlive⟩
  dsimp only at hpart
  rw [List.countP_append, List.countP_cons_of_pos hj] at hpart
  split_ifs at hpart <;> omega

theorem Sound.withBlock (h : s.Sound start N) {buddy : BuddyAllocator} {vaddr order : ℕ}
    (ho : order < maxOrder) (hvaddr : vaddr = start + s.getIndexNoCheck vaddr * pageSize)
    (hnodup : out.Nodup) (hmem : ∀ i, i ∈ out ↔ s.live i = true ∧ (s.pages i).isLeader = true)
    (hS : RunInv start N ⟨buddy, (vaddr, order) :: out.map s.block⟩ S) :
    (s.withBlock buddy vaddr order).Sound start N := by
  have hpos : 0 < 2 ^ order := by positivity
  have hlead : ∀ i < s.pageCnt, (s.pages i).leader < s.pageCnt := fun i hi =>
    (h.leader_le i hi).trans_lt hi
  have hzero : ∀ i, s.pageCnt ≤ i → s.handles i = 0 := by
    intro i hi
    by_contra hne
    have := h.held i (Nat.pos_of_ne_zero hne)
    omega
  have hhandles : ∀ i ≠ s.pageCnt, (s.withBlock buddy vaddr order).handles i = s.handles i :=
    fun i hi => replaceAt_of_ne hi
  have hbeyond : ∀ i, s.pageCnt + 2 ^ order ≤ i →
      (s.withBlock buddy vaddr order).live i = false := by
    intro i hi
    rw [live, strong_beyond buddy vaddr order hi]
    by_contra hlive
    have := h.old i (live_iff.mpr (by simpa [Nat.pos_iff_ne_zero] using hlive))
    omega
  refine { h.toShape.withBlock buddy vaddr order ho hvaddr with
    startVaddr_eq := h.startVaddr_eq, cap_eq := h.cap_eq, fits := h.fits, old := ?_, counted := ?_,
    held := ?_, live_leader := ?_, outstanding := ?_ }
  · intro i hi
    by_contra hge
    rw [hbeyond i (Nat.not_lt.mp hge)] at hi
    cases hi
  · intro i hi
    have hi : i < s.pageCnt + 2 ^ order := hi
    by_cases hold : i < s.pageCnt
    · rw [strong_old buddy vaddr order hold, hhandles i hold.ne, ownedBy,
        pages_old buddy vaddr order hold, live_old buddy vaddr order (hlead i hold)]
      exact h.counted i hold
    · rw [strong_new buddy vaddr order (by omega) hi, ownedBy,
        (new_page buddy vaddr order (Nat.not_lt.mp hold) hi).1,
        live_new buddy vaddr order le_rfl (by omega)]
      by_cases heq : i = s.pageCnt
      · subst heq
        have hone : (s.withBlock buddy vaddr order).handles s.pageCnt = 1 := replaceAt_self
        simp [hone]
      · rw [hhandles i heq, hzero i (by omega)]
        simp [Ne.symm heq]
  · intro i hi
    rw [pageCnt_withBlock]
    by_cases heq : i = s.pageCnt
    · omega
    · rw [hhandles i heq] at hi
      have := h.held i hi
      omega
  · intro i hi
    by_cases hold : i < s.pageCnt
    · rw [live_old buddy vaddr order hold] at hi
      rw [pages_old buddy vaddr order hold, live_old buddy vaddr order (hlead i hold)]
      exact h.live_leader i hi
    · have hlt : i < s.pageCnt + 2 ^ order := by
        by_contra hge
        rw [hbeyond i (Nat.not_lt.mp hge)] at hi
        cases hi
      rw [(new_page buddy vaddr order (Nat.not_lt.mp hold) hlt).1]
      exact live_new buddy vaddr order le_rfl (by omega)
  · have hlt : ∀ i ∈ out, i < s.pageCnt := fun i hi => h.old i ((hmem i).mp hi).1
    refine ⟨s.pageCnt :: out, List.nodup_cons.mpr ⟨fun hin => (hlt _ hin).false, hnodup⟩, ?_, S, ?_⟩
    · intro i
      rw [List.mem_cons, hmem]
      by_cases hold : i < s.pageCnt
      · rw [live_old buddy vaddr order hold, pages_old buddy vaddr order hold]
        simp [hold.ne]
      · by_cases hnew : i < s.pageCnt + 2 ^ order
        · rw [live_new buddy vaddr order (Nat.not_lt.mp hold) hnew,
            (new_page buddy vaddr order (Nat.not_lt.mp hold) hnew).2.2]
          have hdead : ¬s.live i = true := fun hl => hold (h.old i hl)
          simp [hdead]
        · rw [hbeyond i (Nat.not_lt.mp hnew)]
          have hdead : ¬s.live i = true := fun hl => hold (h.old i hl)
          simp only [hdead, false_and, or_false, Bool.false_eq_true, iff_false]
          omega
    · have hblock : (s.withBlock buddy vaddr order).block s.pageCnt = (vaddr, order) := by
        rw [block, pages_leader]
      have hrest : out.map (s.withBlock buddy vaddr order).block = out.map s.block :=
        List.map_congr_left fun i hi => by rw [block, block, pages_old buddy vaddr order (hlt i hi)]
      rw [List.map_cons, hblock, hrest]
      exact hS

/-- An allocation makes the pages of a new block, or leaves the system as it is. -/
theorem Sound.allocPages_cases (h : s.Sound start N) (order : ℕ) :
    (∃ buddy vaddr, order < maxOrder ∧
      s.allocPages order = .ok (some s.pageCnt, s.withBlock buddy vaddr order) ∧
        (s.withBlock buddy vaddr order).Sound start N) ∨ s.allocPages order = .ok (none, s) := by
  by_cases ho : maxOrder ≤ order
  · exact Or.inr (by rw [PageSys.allocPages, if_pos ho]; rfl)
  · obtain ⟨out, hnodup, hmem, S, hS⟩ := h.outstanding
    have hlt : order < maxOrder := Nat.not_le.mp ho
    rcases hS.alloc.allocArea_cases h.fits order with ⟨k, a, T, heq, hsplit, ha⟩ | ⟨heq, -⟩
    · have hT := hS.split hsplit ha
      have hin : (k + 1) * 2 ^ order ≤ N := hsplit.bounded hS.alloc.inside
      have hindex : s.getIndexNoCheck (blockAddr start order k) = k * 2 ^ order := by
        rw [getIndexNoCheck, h.startVaddr_eq, blockAddr, Nat.add_sub_cancel_left,
          Nat.mul_div_cancel _ pageSize_pos]
      have hvaddr : blockAddr start order k =
          start + s.getIndexNoCheck (blockAddr start order k) * pageSize := by
        rw [hindex, blockAddr]
      have hdead : ∀ m < 2 ^ order, ∀ j,
          s.slots (s.getIndexNoCheck (blockAddr start order k) + m) = some j →
            j < s.pageCnt ∧ s.live j = false := by
        intro m hm j hj
        obtain ⟨hjlt, hjv⟩ := h.slots _ j hj
        refine ⟨hjlt, h.dead_of_outstanding hmem hT ?_⟩
        rw [hjv, Block.contains_blockAddr hlt (Nat.le_add_right _ _), Nat.add_sub_cancel_left,
          Nat.mul_div_cancel _ pageSize_pos, hindex, decide_eq_true_iff,
          Nat.mul_comm k, Nat.mul_add_div (by positivity), Nat.div_eq_of_lt hm, Nat.add_zero]
      have hcap : s.getIndexNoCheck (blockAddr start order k) + 2 ^ order ≤ s.cap := by
        rw [hindex, h.cap_eq]
        nlinarith
      have hloop : (List.range (2 ^ order)).foldlM
          (newPage (blockAddr start order k) order s.pageCnt) { s with buddy := a } =
            .ok ({ s with buddy := a }.withPages (blockAddr start order k) order (2 ^ order)) :=
        newPagesLoop (s := { s with buddy := a }) hcap hdead
      refine Or.inl ⟨a, blockAddr start order k, hlt, ?_,
        h.withBlock hlt hvaddr hnodup hmem hT⟩
      rw [PageSys.allocPages, if_neg ho, heq]
      simp only [Checked.ok_bind, newPagesBlockInMemory, order2pages_of_lt hlt]
      rw [hloop]
      rfl
    · refine Or.inr ?_
      rw [PageSys.allocPages, if_neg ho, heq]
      rfl

theorem Sound.allocPages (h : s.Sound start N) (order : ℕ) :
    ∃ r t, s.allocPages order = .ok (r, t) ∧ t.Sound start N := by
  rcases h.allocPages_cases order with ⟨buddy, vaddr, -, heq, hsound⟩ | heq
  · exact ⟨_, _, heq, hsound⟩
  · exact ⟨_, _, heq, h⟩

theorem Sound.safe (h : s.Sound start N) : s.Safe where
  notFree := fun _ hi _ hb => h.not_free hi hb
  disjoint := fun _ _ hi hil hj hjl hne x => h.disjoint hi hil hj hjl hne x
  allocates := fun order => by
    obtain ⟨r, t, heq, -⟩ := h.allocPages order
    exact ⟨_, heq⟩

end PageSys

end Zinix
