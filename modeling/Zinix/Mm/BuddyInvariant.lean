import Zinix.Mm.BuddyArea

/-!
# The allocator as a family of blocks

The eleven areas hold a family of blocks. Freeing coalesces a block into the family and
allocating splits one out of it.
-/

namespace Zinix

open DyadicBlocks Function

namespace BuddyAllocator

theorem area_setArea {a : BuddyAllocator} {i : ℕ} (hi : i < a.freeAreas.length) (fa : FreeArea)
    (j : ℕ) : (a.setArea i fa).area j = if j = i then .ok fa else a.area j := by
  unfold area setArea
  by_cases h : j = i
  · subst j
    simp [hi]
  · simp [h, Ne.symm h]

theorem setArea_self {a : BuddyAllocator} {i : ℕ} {fa : FreeArea} (h : a.area i = .ok fa) :
    a.setArea i fa = a := by
  unfold area at h
  cases hget : a.freeAreas[i]? with
  | none => simp [hget] at h
  | some fa' =>
    simp only [hget, Except.ok.injEq] at h
    subst fa'
    obtain ⟨hlt, rfl⟩ := List.getElem?_eq_some_iff.mp hget
    unfold setArea
    rw [List.set_getElem_self]

end BuddyAllocator

/-- The areas of the allocator hold the blocks of the family `S`. -/
structure AllocInv (start N : ℕ) (a : BuddyAllocator) (S : Family) : Prop where
  startVaddr_eq : a.startVaddr = start
  length_eq : a.freeAreas.length = maxOrder
  area : ∀ i < maxOrder, ∃ fa, a.area i = .ok fa ∧ AreaInv start N i fa (S i)

namespace AllocInv

variable {start N : ℕ} {a : BuddyAllocator} {S : Family}

theorem inside (h : AllocInv start N a S) : ∀ i < maxOrder, ∀ k ∈ S i, (k + 1) * 2 ^ i ≤ N := by
  intro i hi k hk
  obtain ⟨fa, _, hfa⟩ := h.area i hi
  exact hfa.inside k hk

theorem setArea (h : AllocInv start N a S) {i : ℕ} (hi : i < maxOrder) {fa : FreeArea}
    {T : Finset ℕ} (hfa : AreaInv start N i fa T) :
    AllocInv start N (a.setArea i fa) (update S i T) where
  startVaddr_eq := h.startVaddr_eq
  length_eq := by simpa [BuddyAllocator.setArea] using h.length_eq
  area := by
    intro j hj
    rw [BuddyAllocator.area_setArea (h.length_eq ▸ hi)]
    by_cases hji : j = i
    · subst j
      exact ⟨fa, if_pos rfl, by rwa [update_self]⟩
    · rw [if_neg hji, update_of_ne hji]
      exact h.area j hj

theorem pair_inside {i k : ℕ} (hk : (k + 1) * 2 ^ i ≤ N) (hs : (sibling k + 1) * 2 ^ i ≤ N) :
    (k / 2 + 1) * 2 ^ (i + 1) ≤ N := by
  have hmax : (k / 2 + 1) * 2 = k + 1 ∨ (k / 2 + 1) * 2 = sibling k + 1 := by
    unfold sibling
    split_ifs <;> omega
  rw [pow_succ, Nat.mul_comm (2 ^ i) 2, ← Nat.mul_assoc]
  rcases hmax with h | h
  · rwa [h]
  · rwa [h]

theorem insertFrom_eq {a : BuddyAllocator} {S : Family} (h : AllocInv start N a S)
    (hfit : start + N * pageSize < wordSize) (hsep : Separate maxOrder S) {i k : ℕ}
    (hi : i < maxOrder) (hin : (k + 1) * 2 ^ i ≤ N)
    (hfree : ∀ q, q / 2 ^ i = k → cover maxOrder S q = 0) :
    ∃ a', a.insertFrom i (blockAddr start i k) = .ok (true, a') ∧
      AllocInv start N a' (coalesce maxOrder S i k) := by
  obtain ⟨fa, hget, hfa⟩ := h.area i hi
  have hk := not_mem_of_uncovered hi hfree
  by_cases hmerge : i + 1 < maxOrder ∧ sibling k ∈ S i
  · obtain ⟨fa', hins, hfa'⟩ := hfa.insertArea_merge hfit hk hmerge.1 hin hmerge.2
    obtain ⟨a', hrest, ha'⟩ := insertFrom_eq (h.setArea hi hfa') hfit (hsep.remove hi hmerge.2)
      hmerge.1 (pair_inside hin (hfa.inside _ hmerge.2))
      (uncovered_parent hsep hmerge.1 hmerge.2 hfree)
    refine ⟨a', ?_, ?_⟩
    · rw [BuddyAllocator.insertFrom, if_neg (by omega)]
      simp only [hget, Checked.ok_bind, hins]
      exact hrest
    · rwa [coalesce_merge hmerge.1 hmerge.2]
  · obtain ⟨fa', hins, hfa'⟩ := hfa.insertArea_add hfit hk hi hin hmerge
    refine ⟨a.setArea i fa', ?_, ?_⟩
    · rw [BuddyAllocator.insertFrom, if_neg (by omega)]
      simp only [hget, Checked.ok_bind, hins, Checked.pure_eq]
    · rw [coalesce_insert hmerge]
      exact h.setArea hi hfa'
termination_by maxOrder - i

theorem pageSize_mul_order2pages {order : ℕ} (hi : order < maxOrder) :
    pageSize * order2pages order < wordSize := by
  have hpow : order2pages order ≤ 2 ^ 10 := by
    rw [order2pages_of_lt hi]
    exact Nat.pow_le_pow_right (by omega) (by unfold maxOrder at hi; omega)
  simp only [pageSize, wordSize]
  omega

theorem freeArea_eq (h : AllocInv start N a S)
    (hfit : start + N * pageSize < wordSize) (hsep : Separate maxOrder S) {i k : ℕ}
    (hi : i < maxOrder) (hin : (k + 1) * 2 ^ i ≤ N)
    (hfree : ∀ q, q / 2 ^ i = k → cover maxOrder S q = 0) :
    ∃ a', a.freeArea (blockAddr start i k) i = .ok (true, a') ∧
      AllocInv start N a' (coalesce maxOrder S i k) := by
  obtain ⟨fa, hget, hfa⟩ := h.area i hi
  obtain ⟨a', hins, ha'⟩ := h.insertFrom_eq hfit hsep hi hin hfree
  refine ⟨a', ?_, ha'⟩
  have hle : start ≤ blockAddr start i k := by
    unfold blockAddr
    omega
  have hne : pageSize * order2pages i ≠ 0 :=
    (Nat.mul_pos pageSize_pos (order2pages_pos hi)).ne'
  have hoff : (blockAddr start i k - start) % (pageSize * order2pages i) = 0 := by
    rw [blockAddr, Nat.add_sub_cancel_left, order2pages_of_lt hi, Nat.mul_assoc,
      Nat.mul_comm (2 ^ i) pageSize]
    exact Nat.mul_mod_left _ _
  unfold BuddyAllocator.freeArea
  simp only [show ¬maxOrder ≤ i by omega, if_false, hget, Checked.ok_bind, hfa.start_eq,
    show ¬blockAddr start i k < start by omega, subUsize_ok hle,
    mulUsize_ok (pageSize_mul_order2pages hi), remUsize_ok hne, hoff, ne_eq, not_true_eq_false]
  exact hins

/-- The two outcomes of an allocation: a block split out of the family, or an
untouched allocator without blocks of that order or above. -/
theorem allocArea_cases {a : BuddyAllocator} {S : Family} (h : AllocInv start N a S)
    (hfit : start + N * pageSize < wordSize) (order : ℕ) :
    (∃ k a' T, a.allocArea order = .ok (some (blockAddr start order k), a') ∧
      Splits maxOrder S order k T ∧ AllocInv start N a' T) ∨
    (a.allocArea order = .ok (none, a) ∧ ∀ j < maxOrder, order ≤ j → S j = ∅) := by
  by_cases ho : maxOrder ≤ order
  · right
    refine ⟨?_, fun j hj hle => by omega⟩
    rw [BuddyAllocator.allocArea, if_pos ho]
    rfl
  · have hi : order < maxOrder := by omega
    obtain ⟨fa, hget, hfa⟩ := h.area order hi
    by_cases hS : S order = ∅
    · have hempty := (hS ▸ hfa).allocArea_empty
      have hself := BuddyAllocator.setArea_self hget
      rcases allocArea_cases h hfit (order + 1) with ⟨k, a', T, hrec, hsplit, ha'⟩ | ⟨hrec, hnone⟩
      · left
        have hT := hsplit.lower_empty hS
        have hpair := hsplit.bounded h.inside
        have hin : (2 * k + 1 + 1) * 2 ^ order ≤ N := by
          rw [pow_succ] at hpair
          nlinarith
        obtain ⟨fb, hgetb, hfb⟩ := ha'.area order hi
        have hsib : sibling (2 * k + 1) ∉ T order := by simp [hT]
        obtain ⟨fb', hins, hfb'⟩ := hfb.insertArea_add hfit (k := 2 * k + 1) (by simp [hT]) hi hin
          (fun hand => hsib hand.2)
        have hend := blockAddr_le start hin
        have hadd : addUsize (blockAddr start order (2 * k)) (pageSize * order2pages order) =
            .ok (blockAddr start order (2 * k + 1)) := by
          rw [blockAddr_succ] at hend ⊢
          rw [order2pages_of_lt hi, Nat.mul_comm pageSize, addUsize_ok (by omega)]
        refine ⟨2 * k, a'.setArea order fb', _, ?_, .split hS hsplit, ha'.setArea hi hfb'⟩
        rw [BuddyAllocator.allocArea, if_neg ho]
        simp only [hget, Checked.ok_bind, hempty, hself, hrec, blockAddr_pair,
          mulUsize_ok (pageSize_mul_order2pages hi), hadd, hgetb, hins, Option.isNone_none,
          Checked.ensure_pos, Checked.pure_eq]
      · right
        refine ⟨?_, ?_⟩
        · rw [BuddyAllocator.allocArea, if_neg ho]
          simp only [hget, Checked.ok_bind, hempty, hself, hrec, Checked.pure_eq]
        · intro j hj hle
          rcases Nat.eq_or_lt_of_le hle with rfl | hlt
          · exact hS
          · exact hnone j hj hlt
    · left
      obtain ⟨k, fa', hk, halloc, hfa'⟩ := hfa.allocArea_take hi hS
      refine ⟨k, a.setArea order fa', _, ?_, .take hi hk, h.setArea hi hfa'⟩
      rw [BuddyAllocator.allocArea, if_neg ho]
      simp only [hget, Checked.ok_bind, halloc, Checked.pure_eq]
termination_by maxOrder - order

theorem weight_succ (n : ℕ) (S : Family) :
    weight (n + 1) S = weight n S + (S n).card * 2 ^ n := by
  unfold weight
  rw [Finset.sum_range_succ]

theorem getFreePagesCnt_eq (h : AllocInv start N a S) (hw : weight maxOrder S < wordSize) :
    a.getFreePagesCnt = .ok (weight maxOrder S) := by
  have hprefix : ∀ n ≤ maxOrder, weight n S < wordSize →
      (List.range n).foldlM (fun pgsCnt i => do
        let pg ← mulUsize (← a.area i).freeCnt (order2pages i)
        addUsize pgsCnt pg) 0 = (.ok (weight n S) : Checked ℕ) := by
    intro n
    induction n with
    | zero => intro _ _; rfl
    | succ n ih =>
      intro hn hlt
      obtain ⟨fa, hget, hfa⟩ := h.area n (by omega)
      rw [weight_succ] at hlt ⊢
      rw [List.range_succ, List.foldlM_append, ih (by omega) (by omega)]
      simp only [Checked.ok_bind, List.foldlM_cons, List.foldlM_nil, hget, hfa.freeCnt_card,
        order2pages_of_lt (show n < maxOrder by omega)]
      rw [mulUsize_ok (by omega), Checked.ok_bind, addUsize_ok hlt]
      rfl
  exact hprefix maxOrder le_rfl hw

end AllocInv

end Zinix
