import Zinix.Mm.BuddyInvariant

/-!
# Initialising the allocator

`initAreas` walks the orders from the largest down and takes every block that still fits.
The iterator of the inner loop advances past the block it returns before the loop looks at
it, and at the largest order this sum can leave the address space.
-/

namespace Zinix

open DyadicBlocks Function

variable {N i start : ℕ}

namespace BuddyAllocator

variable {vaddrEnd : ℕ} {it : AddrIterator} {hstep : 0 < it.step} {fa fa' : FreeArea} {cnt : ℕ}

theorem insertWhileFits_done (h : it.last ≤ it.cur) :
    insertWhileFits vaddrEnd it hstep fa cnt = .ok (fa, cnt) := by
  have hnext := AddrIterator.next_done h
  rw [insertWhileFits]
  split
  · rename_i heq
    rw [hnext] at heq
    cases heq
  · rfl
  · rename_i heq
    rw [hnext] at heq
    cases heq

theorem insertWhileFits_overflow (h : it.cur < it.last) (hfit : wordSize ≤ it.cur + it.step) :
    insertWhileFits vaddrEnd it hstep fa cnt = .error .overflow := by
  have hnext := AddrIterator.next_overflow h hfit
  rw [insertWhileFits]
  split
  · rename_i heq
    rw [hnext] at heq
    cases heq
    rfl
  · rename_i heq
    rw [hnext] at heq
    cases heq
  · rename_i heq
    rw [hnext] at heq
    cases heq

theorem insertWhileFits_item (h : it.cur < it.last) (hfit : it.cur + it.step < wordSize) :
    insertWhileFits vaddrEnd it hstep fa cnt = (do
      if (← subUsize vaddrEnd it.cur) < it.step then return (fa, cnt)
      match ← fa.insertArea it.cur with
      | (some _, _) => throw (.explicit "buddy init fail!")
      | (none, fa) =>
        insertWhileFits vaddrEnd { it with cur := it.cur + it.step } hstep fa (cnt + 1)) := by
  have hnext := AddrIterator.next_item h hfit
  rw [insertWhileFits]
  split
  · rename_i heq
    rw [hnext] at heq
    cases heq
  · rename_i heq
    rw [hnext] at heq
    cases heq
  · rename_i heq
    rw [hnext] at heq
    cases heq
    rfl

theorem insertWhileFits_break (h : it.cur < it.last) (hfit : it.cur + it.step < wordSize)
    (hle : it.cur ≤ vaddrEnd) (hshort : vaddrEnd - it.cur < it.step) :
    insertWhileFits vaddrEnd it hstep fa cnt = .ok (fa, cnt) := by
  rw [insertWhileFits_item h hfit, subUsize_ok hle]
  simp [hshort]

theorem insertWhileFits_insert (h : it.cur < it.last) (hfit : it.cur + it.step < wordSize)
    (hroom : it.cur + it.step ≤ vaddrEnd) (hins : fa.insertArea it.cur = .ok (none, fa')) :
    insertWhileFits vaddrEnd it hstep fa cnt =
      insertWhileFits vaddrEnd { it with cur := it.cur + it.step } hstep fa' (cnt + 1) := by
  have hlong : ¬vaddrEnd - it.cur < it.step := by omega
  rw [insertWhileFits_item h hfit, subUsize_ok (by omega)]
  simp only [Checked.ok_bind, hlong, if_false, hins]

end BuddyAllocator

/-- The first index of order `i` that the larger orders leave over. -/
def initLow (N i : ℕ) : ℕ := 2 * (if i + 1 < maxOrder then N / 2 ^ (i + 1) else 0)

theorem initLow_le (N i : ℕ) : initLow N i ≤ N / 2 ^ i := by
  unfold initLow
  split_ifs
  · rw [div_pow_succ]
    omega
  · exact Nat.zero_le _

/-- Below the last order at most one block is taken, so no buddy of a taken
block is present when it is inserted. -/
theorem sibling_not_taken {m : ℕ} (hm : m < N / 2 ^ i) :
    ¬(i + 1 < maxOrder ∧ sibling m ∈ Finset.Ico (initLow N i) m) := by
  rintro ⟨hi, hs⟩
  rw [initLow, if_pos hi, div_pow_succ, Finset.mem_Ico] at hs
  unfold sibling at hs
  split_ifs at hs <;> omega

/-- The walk over the blocks of order `i` stays inside the address space. -/
def WalkFits (start N i : ℕ) : Prop :=
  N % 2 ^ i = 0 ∨ blockAddr start i (N / 2 ^ i + 1) < wordSize

instance (start N i : ℕ) : Decidable (WalkFits start N i) :=
  inferInstanceAs (Decidable (_ ∨ _))

section Walk

variable {start N i : ℕ} {fa : FreeArea}

/-- The iterator of the inner loop when it stands at the block with index `m`. -/
def walkAt (start N i m : ℕ) : AddrIterator :=
  { step := order2pages i * pageSize, cur := blockAddr start i m, last := start + N * pageSize }

theorem walkAt_step_pos (hi : i < maxOrder) (m : ℕ) : 0 < (walkAt start N i m).step :=
  Nat.mul_pos (order2pages_pos hi) pageSize_pos

theorem walkAt_next (hi : i < maxOrder) (m : ℕ) :
    { walkAt start N i m with cur := (walkAt start N i m).cur + (walkAt start N i m).step } =
      walkAt start N i (m + 1) := by
  simp only [walkAt, blockAddr_succ, order2pages_of_lt hi]

theorem walk_reaches (hi : i < maxOrder) (hfit : start + N * pageSize < wordSize) (cnt : ℕ) {m : ℕ}
    (hm : m ≤ N / 2 ^ i) (hlow : initLow N i ≤ m)
    (h : AreaInv start N i fa (Finset.Ico (initLow N i) m)) :
    ∃ fa', AreaInv start N i fa' (greedy maxOrder N i) ∧
      BuddyAllocator.insertWhileFits (start + N * pageSize) (walkAt start N i m)
          (walkAt_step_pos hi m) fa cnt =
        BuddyAllocator.insertWhileFits (start + N * pageSize) (walkAt start N i (N / 2 ^ i))
          (walkAt_step_pos hi _) fa' (cnt + (N / 2 ^ i - m)) := by
  induction hd : N / 2 ^ i - m generalizing m fa cnt with
  | zero =>
    obtain rfl : m = N / 2 ^ i := by omega
    exact ⟨fa, h, rfl⟩
  | succ d ih =>
    have hin : (m + 1) * 2 ^ i ≤ N :=
      (Nat.le_div_iff_mul_le (by positivity)).mp (show m + 1 ≤ N / 2 ^ i by omega)
    have hend := blockAddr_le start hin
    have hpow : 0 < 2 ^ i * pageSize := Nat.mul_pos (by positivity) pageSize_pos
    obtain ⟨fa₁, hins, hfa₁⟩ := h.insertArea_add hfit (k := m) (by simp) hi hin
      (sibling_not_taken (by omega))
    rw [Finset.insert_Ico_right_eq_Ico_add_one hlow] at hfa₁
    obtain ⟨fa', hfa', heq⟩ := @ih fa₁ (cnt + 1) (m + 1) (by omega) (by omega) hfa₁
      (by omega)
    refine ⟨fa', hfa', ?_⟩
    have hsum : (walkAt start N i m).cur + (walkAt start N i m).step ≤ start + N * pageSize := by
      simpa only [walkAt, order2pages_of_lt hi] using hend
    have hcur : (walkAt start N i m).cur < (walkAt start N i m).last := by
      simp only [walkAt] at hsum ⊢
      rw [order2pages_of_lt hi] at hsum
      omega
    rw [BuddyAllocator.insertWhileFits_insert hcur (by omega) hsum hins]
    simp only [walkAt_next hi]
    rw [heq, show cnt + 1 + d = cnt + (d + 1) by omega]

theorem blockAddr_last_lt (start : ℕ) {N i : ℕ} (h : N % 2 ^ i ≠ 0) :
    blockAddr start i (N / 2 ^ i) < start + N * pageSize := by
  have hdiv := Nat.div_add_mod' N (2 ^ i)
  have hlt : N / 2 ^ i * 2 ^ i < N := by omega
  have := Nat.mul_lt_mul_of_pos_right hlt pageSize_pos
  unfold blockAddr
  omega

theorem blockAddr_last_eq (start : ℕ) {N i : ℕ} (h : N % 2 ^ i = 0) :
    blockAddr start i (N / 2 ^ i) = start + N * pageSize := by
  rw [blockAddr, Nat.div_mul_cancel (Nat.dvd_of_mod_eq_zero h)]

theorem lt_blockAddr_last_succ (start N i : ℕ) :
    start + N * pageSize < blockAddr start i (N / 2 ^ i + 1) := by
  have hlt : N < (N / 2 ^ i + 1) * 2 ^ i := by
    rw [Nat.add_mul, Nat.one_mul]
    exact Nat.lt_div_mul_add (by positivity)
  have := Nat.mul_lt_mul_of_pos_right hlt pageSize_pos
  unfold blockAddr
  omega

theorem walk_ok (hi : i < maxOrder) (hfit : start + N * pageSize < wordSize)
    (hwalk : WalkFits start N i) (h : AreaInv start N i fa ∅) :
    ∃ fa', AreaInv start N i fa' (greedy maxOrder N i) ∧
      BuddyAllocator.insertWhileFits (start + N * pageSize) (walkAt start N i (initLow N i))
        (walkAt_step_pos hi _) fa 0 = .ok (fa', N / 2 ^ i - initLow N i) := by
  obtain ⟨fa', hfa', heq⟩ := walk_reaches hi hfit 0 (initLow_le N i) le_rfl
    (by simpa using h)
  refine ⟨fa', hfa', ?_⟩
  rw [heq, Nat.zero_add]
  by_cases hmod : N % 2 ^ i = 0
  · exact BuddyAllocator.insertWhileFits_done (blockAddr_last_eq start hmod).ge
  · have hlt := blockAddr_last_lt start hmod
    have hbound := hwalk.resolve_left hmod
    have hpast := lt_blockAddr_last_succ start N i
    rw [blockAddr_succ] at hbound hpast
    apply BuddyAllocator.insertWhileFits_break
    · exact hlt
    · simpa only [walkAt, order2pages_of_lt hi] using hbound
    · exact hlt.le
    · simp only [walkAt, order2pages_of_lt hi]
      omega

theorem walk_overflow (hi : i < maxOrder) (hfit : start + N * pageSize < wordSize)
    (hwalk : ¬WalkFits start N i) (h : AreaInv start N i fa ∅) :
    BuddyAllocator.insertWhileFits (start + N * pageSize) (walkAt start N i (initLow N i))
      (walkAt_step_pos hi _) fa 0 = .error .overflow := by
  obtain ⟨fa', _, heq⟩ := walk_reaches hi hfit 0 (initLow_le N i) le_rfl
    (by simpa using h)
  unfold WalkFits at hwalk
  push Not at hwalk
  obtain ⟨hmod, hover⟩ := hwalk
  rw [blockAddr_succ] at hover
  rw [heq]
  apply BuddyAllocator.insertWhileFits_overflow
  · exact blockAddr_last_lt start hmod
  · simpa only [walkAt, order2pages_of_lt hi] using hover

end Walk

theorem fresh_areaInv (start N : ℕ) {len : ℕ} (hlen : N / 2 ^ i ≤ len) :
    AreaInv start N i { FreeArea.default with
      order := i, startVaddr := start, bitmap := Bitmap.new len } ∅ where
  nodup := List.nodup_nil
  mem_list := by simp [FreeArea.default]
  freeCnt_eq := rfl
  order_eq := rfl
  start_eq := rfl
  inside := by simp
  cap_lt := by
    intro k hk
    have hle : k + 1 ≤ N / 2 ^ i := (Nat.le_div_iff_mul_le (by positivity)).mpr hk
    have := Bitmap.le_cap_new len
    change k / 2 < (Bitmap.new len).cap
    omega
  bit_eq := by
    intro j
    rw [Bitmap.bit_new]
    rfl

/-- The state of the outer loop before order `n - 1`: larger orders are filled
and the others still hold the default area. -/
structure InitInv (start N n : ℕ) (a : BuddyAllocator) : Prop where
  startVaddr_eq : a.startVaddr = start
  length_eq : a.freeAreas.length = maxOrder
  filled : ∀ i < maxOrder, n ≤ i →
    ∃ fa, a.area i = .ok fa ∧ AreaInv start N i fa (greedy maxOrder N i)
  fresh : ∀ i < n, a.area i = .ok FreeArea.default

namespace InitInv

variable {start N n : ℕ} {a : BuddyAllocator}

theorem setArea (h : InitInv start N (n + 1) a) (hn : n < maxOrder) {fa : FreeArea}
    (hfa : AreaInv start N n fa (greedy maxOrder N n)) : InitInv start N n (a.setArea n fa) where
  startVaddr_eq := h.startVaddr_eq
  length_eq := by simpa [BuddyAllocator.setArea] using h.length_eq
  filled := by
    intro i hi hle
    rw [BuddyAllocator.area_setArea (h.length_eq ▸ hn)]
    split_ifs with heq
    · subst i
      exact ⟨fa, rfl, hfa⟩
    · exact h.filled i hi (by omega)
  fresh := by
    intro i hi
    rw [BuddyAllocator.area_setArea (h.length_eq ▸ hn), if_neg (by omega)]
    exact h.fresh i (by omega)

theorem allocInv (h : InitInv start N 0 a) : AllocInv start N a (greedy maxOrder N) where
  startVaddr_eq := h.startVaddr_eq
  length_eq := h.length_eq
  area := fun i hi => h.filled i hi (Nat.zero_le i)

end InitInv

theorem blockAddr_le_end {k : ℕ} (h : k ≤ N / 2 ^ i) :
    blockAddr start i k ≤ start + N * pageSize := by
  have hle : k * 2 ^ i ≤ N := (Nat.le_div_iff_mul_le (by positivity)).mp h
  have := Nat.mul_le_mul_right pageSize hle
  unfold blockAddr
  omega

theorem WalkFits.mono {j : ℕ} (h : WalkFits start N i) (hji : j ≤ i) : WalkFits start N j := by
  obtain ⟨d, rfl⟩ := Nat.exists_eq_add_of_le hji
  unfold WalkFits at h ⊢
  rcases h with h | h
  · left
    have hdvd : 2 ^ j ∣ 2 ^ (j + d) := Nat.pow_dvd_pow 2 (by omega)
    exact Nat.mod_eq_zero_of_dvd (hdvd.trans (Nat.dvd_of_mod_eq_zero h))
  · right
    have hle : (N / 2 ^ j + 1) * 2 ^ j ≤ (N / 2 ^ (j + d) + 1) * 2 ^ (j + d) := by
      rw [div_pow_add, pow_add, Nat.mul_comm (2 ^ j) (2 ^ d), ← Nat.mul_assoc]
      apply Nat.mul_le_mul_right
      rw [Nat.add_mul, Nat.one_mul]
      exact Nat.lt_div_mul_add (by positivity)
    have := Nat.mul_le_mul_right pageSize hle
    unfold blockAddr at h ⊢
    omega

namespace BuddyAllocator

variable {start N i : ℕ} {a : BuddyAllocator}
  {sVaddr eVaddr ns ne : ℕ}

/-- What is left of one pass of the outer loop once its bookkeeping is evaluated. -/
theorem initArea_eq (h : InitInv start N (i + 1) a) (hi : i < maxOrder)
    (hfit : start + N * pageSize < wordSize) :
    ∃ fa, AreaInv start N i fa ∅ ∧
      initArea start N (start + N * pageSize) (a, blockAddr start i (initLow N i)) ⟨i, hi⟩ = (do
        let (fa, cnt) ← insertWhileFits (start + N * pageSize) (walkAt start N i (initLow N i))
          (walkAt_step_pos hi _) fa 0
        let probe ← addUsize (blockAddr start i (initLow N i))
          (← mulUsize (order2pages i * pageSize) cnt)
        return (a.setArea i fa, probe)) := by
  have hpow := order2pages_of_lt hi
  have hne : 2 ^ i ≠ 0 := by positivity
  have hprobe : blockAddr start i (initLow N i) ≤ start + N * pageSize :=
    blockAddr_le_end (initLow_le N i)
  have hsum : blockAddr start i (initLow N i) +
      (start + N * pageSize - blockAddr start i (initLow N i)) = start + N * pageSize := by omega
  have hdiv : N / 2 ^ i ≤ N := Nat.div_le_self _ _
  have hlen : N / 2 ^ i + 1 < wordSize := by
    simp only [pageSize, wordSize] at hfit ⊢
    omega
  by_cases hmod : N % 2 ^ i ≠ 0
  · refine ⟨_, fresh_areaInv start N (show N / 2 ^ i ≤ N / 2 ^ i + 1 by omega), ?_⟩
    simp only [initArea, h.fresh i (by omega), Checked.ok_bind, hpow, divUsize_ok hne, if_pos hmod,
      addUsize_ok hlen, subUsize_ok hprobe, addUsize_ok (hsum ▸ hfit), hsum, walkAt]
  · refine ⟨_, fresh_areaInv start N (le_refl (N / 2 ^ i)), ?_⟩
    simp only [initArea, h.fresh i (by omega), Checked.ok_bind, hpow, divUsize_ok hne, if_neg hmod,
      Checked.pure_eq, subUsize_ok hprobe, addUsize_ok (hsum ▸ hfit), hsum, walkAt]

theorem initArea_ok (h : InitInv start N (i + 1) a) (hi : i < maxOrder)
    (hfit : start + N * pageSize < wordSize) (hwalk : WalkFits start N i) :
    ∃ a', initArea start N (start + N * pageSize) (a, blockAddr start i (initLow N i)) ⟨i, hi⟩ =
        .ok (a', blockAddr start i (N / 2 ^ i)) ∧ InitInv start N i a' := by
  obtain ⟨fa, hfa, heq⟩ := initArea_eq h hi hfit
  obtain ⟨fa', hfa', hloop⟩ := walk_ok hi hfit hwalk hfa
  have hlow := initLow_le N i
  have hend : blockAddr start i (N / 2 ^ i) ≤ start + N * pageSize := blockAddr_le_end le_rfl
  have hstep : blockAddr start i (initLow N i) +
      order2pages i * pageSize * (N / 2 ^ i - initLow N i) = blockAddr start i (N / 2 ^ i) := by
    rw [order2pages_of_lt hi]
    unfold blockAddr
    obtain ⟨d, hd⟩ := Nat.exists_eq_add_of_le hlow
    rw [hd, Nat.add_sub_cancel_left]
    ring
  refine ⟨a.setArea i fa', ?_, h.setArea hi hfa'⟩
  rw [heq, hloop, Checked.ok_bind]
  simp only
  rw [mulUsize_ok (by omega), Checked.ok_bind, addUsize_ok (by omega), hstep]
  rfl

theorem initArea_overflow (h : InitInv start N (i + 1) a) (hi : i < maxOrder)
    (hfit : start + N * pageSize < wordSize) (hwalk : ¬WalkFits start N i) :
    initArea start N (start + N * pageSize) (a, blockAddr start i (initLow N i)) ⟨i, hi⟩ =
      .error .overflow := by
  obtain ⟨fa, hfa, heq⟩ := initArea_eq h hi hfit
  rw [heq, walk_overflow hi hfit hwalk hfa, Checked.error_bind]

theorem initOrders_ok {n : ℕ} (hn : n ≤ maxOrder) {a : BuddyAllocator}
    (h : InitInv start N n a) (hfit : start + N * pageSize < wordSize)
    (hwalk : WalkFits start N (maxOrder - 1)) {probe : ℕ}
    (hprobe : probe = blockAddr start n (if n < maxOrder then N / 2 ^ n else 0)) :
    ∃ a' probe', initOrders start N (start + N * pageSize) n hn (a, probe) = .ok (a', probe') ∧
      InitInv start N 0 a' := by
  induction n generalizing a probe with
  | zero => exact ⟨a, probe, rfl, h⟩
  | succ n ih =>
    rw [blockAddr_pair] at hprobe
    obtain ⟨a₁, hstep, h₁⟩ := initArea_ok h (by omega) hfit (hwalk.mono (by omega))
    obtain ⟨a', probe', hrest, h'⟩ := ih (by omega) h₁ (by rw [if_pos (by omega)])
    refine ⟨a', probe', ?_, h'⟩
    rw [initOrders, hprobe]
    exact (congrArg (· >>= _) hstep).trans hrest

theorem initOrders_overflow {a : BuddyAllocator} (h : InitInv start N maxOrder a)
    (hfit : start + N * pageSize < wordSize) (hwalk : ¬WalkFits start N (maxOrder - 1)) :
    initOrders start N (start + N * pageSize) maxOrder le_rfl (a, start) = .error .overflow := by
  have hprobe : start = blockAddr start (maxOrder - 1) (initLow N (maxOrder - 1)) := by
    simp [blockAddr, initLow, maxOrder]
  have hstep := initArea_overflow (i := maxOrder - 1) h (by decide) hfit hwalk
  rw [← hprobe] at hstep
  exact congrArg (· >>= _) hstep

theorem initInv_start (start N : ℕ) : InitInv start N maxOrder
    { freeAreas := List.replicate maxOrder FreeArea.default, startVaddr := start } where
  startVaddr_eq := rfl
  length_eq := List.length_replicate
  filled := by omega
  fresh := by
    intro i hi
    simp [area, hi]

theorem new_eq (hs : Vaddr.ceil sVaddr = .ok ns) (he : Vaddr.floor eVaddr = .ok ne)
    (hle : ns ≤ ne) :
    ∃ N, ns + N * pageSize = ne ∧ ne < wordSize ∧ new sVaddr eVaddr = (do
      let (a, _) ← initOrders ns N ne maxOrder le_rfl
        ({ freeAreas := List.replicate maxOrder FreeArea.default, startVaddr := ns }, ns)
      return a) := by
  obtain ⟨_, rfl⟩ := Vaddr.ceil_eq_ok hs
  obtain ⟨hfit, rfl⟩ := Vaddr.floor_eq_ok he
  have hsmod := Vaddr.up_mod sVaddr
  have hemod := Vaddr.down_mod eVaddr
  have hdown := Vaddr.down_le eVaddr
  have hexact : Vaddr.up sVaddr +
      (Vaddr.down eVaddr - Vaddr.up sVaddr) / pageSize * pageSize = Vaddr.down eVaddr := by
    simp only [pageSize] at hsmod hemod ⊢
    omega
  refine ⟨(Vaddr.down eVaddr - Vaddr.up sVaddr) / pageSize, hexact, by omega, ?_⟩
  unfold new init initAreas
  simp only [hs, he, Checked.ok_bind, subUsize_ok hle]
  rw [mulUsize_ok (by omega)]
  simp only [Checked.ok_bind]
  rw [addUsize_ok (by omega), hexact]
  rfl

/-- Initialisation returns exactly when the walk at the largest order fits. -/
theorem new_ok (hs : Vaddr.ceil sVaddr = .ok ns) (he : Vaddr.floor eVaddr = .ok ne)
    (hle : ns ≤ ne) :
    ∃ N, ns + N * pageSize = ne ∧ ne < wordSize ∧
      (WalkFits ns N (maxOrder - 1) →
        ∃ a, new sVaddr eVaddr = .ok a ∧ AllocInv ns N a (greedy maxOrder N)) ∧
      (¬WalkFits ns N (maxOrder - 1) → new sVaddr eVaddr = .error .overflow) := by
  obtain ⟨N, hN, hlt, heq⟩ := new_eq hs he hle
  refine ⟨N, hN, hlt, ?_, ?_⟩
  · intro hwalk
    obtain ⟨a, probe, hrun, ha⟩ := initOrders_ok le_rfl (initInv_start ns N) (hN ▸ hlt) hwalk
      (show ns = blockAddr ns maxOrder (if maxOrder < maxOrder then N / 2 ^ maxOrder else 0) by
        simp [blockAddr])
    rw [hN] at hrun
    refine ⟨a, ?_, ha.allocInv⟩
    rw [heq, hrun]
    rfl
  · intro hwalk
    have hrun := initOrders_overflow (initInv_start ns N) (hN ▸ hlt) hwalk
    rw [hN] at hrun
    rw [heq, hrun]
    rfl

end BuddyAllocator

end Zinix
