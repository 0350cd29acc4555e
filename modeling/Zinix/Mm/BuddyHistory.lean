import Zinix.Mm.BuddyRun

/-!
# History independence

The free blocks of a reachable state are the maximal blocks made of pages that are not
outstanding, whatever calls led there.
-/

namespace Zinix

open DyadicBlocks

namespace RunInv

variable {start N : ℕ} {s t : BuddyState} {S T : Family}

theorem outstanding_nodup (h : RunInv start N s S) : s.outstanding.Nodup := by
  rw [List.nodup_iff_count_le_one]
  intro b
  by_cases hb : b ∈ s.outstanding
  · obtain ⟨ho, k, hk, _⟩ := h.outstanding b hb
    have hpos : 0 < b.pages := order2pages_pos ho
    have hin : Block.contains b.1 b = true := by
      have := Nat.mul_pos hpos pageSize_pos
      simp only [Block.contains, decide_eq_true_eq]
      omega
    have hle : s.outstanding.count b ≤ s.outstanding.countP (Block.contains b.1) := by
      rw [List.count_eq_countP]
      apply List.countP_mono_left
      intro c _ hc
      rw [beq_iff_eq.mp hc]
      exact hin
    have hcov := h.covered b.1 (by rw [hk, blockAddr]; omega)
    split_ifs at hcov <;> omega
  · rw [List.count_eq_zero_of_not_mem hb]
    omega

theorem cover_congr (hs : RunInv start N s S) (ht : RunInv start N t T)
    (hsame : ∀ b, b ∈ s.outstanding ↔ b ∈ t.outstanding) (q : ℕ) :
    cover maxOrder S q = cover maxOrder T q := by
  have hperm : s.outstanding.Perm t.outstanding :=
    (List.perm_ext_iff_of_nodup hs.outstanding_nodup ht.outstanding_nodup).mpr hsame
  have hcount := hperm.countP_eq (Block.contains (start + q * pageSize))
  have hsq := hs.covered_page q
  have htq := ht.covered_page q
  omega

theorem freeBlocks_congr (hs : RunInv start N s S) (ht : RunInv start N t T)
    (hsame : ∀ b, b ∈ s.outstanding ↔ b ∈ t.outstanding) (b : Block) :
    b ∈ s.allocator.freeBlocks ↔ b ∈ t.allocator.freeBlocks := by
  rw [hs.mem_freeBlocks, ht.mem_freeBlocks]
  apply and_congr_right
  intro hi
  rw [eq_of_cover_eq hs.separate hs.noSiblings ht.separate ht.noSiblings
    (hs.cover_congr ht hsame) hi]

theorem mem_freeBlocksAt (h : RunInv start N s S) {i : ℕ} (hi : i < maxOrder) (b : Block) :
    b ∈ s.allocator.freeBlocksAt i ↔ b.2 = i ∧ b ∈ s.allocator.freeBlocks := by
  obtain ⟨fa, hget, hfa⟩ := h.alloc.area i hi
  rw [h.mem_freeBlocks, BuddyAllocator.freeBlocksAt_eq hget, List.mem_map]
  constructor
  · rintro ⟨v, hv, rfl⟩
    exact ⟨rfl, hi, (hfa.mem_list v).mp hv⟩
  · rintro ⟨rfl, _, hk⟩
    exact ⟨b.1, (hfa.mem_list b.1).mpr hk, rfl⟩

theorem buddy_not_free (h : RunInv start N s S) {i m : ℕ} (hi : i + 1 < maxOrder)
    (hlo : (blockAddr start i (2 * m), i) ∈ s.allocator.freeBlocks) :
    (blockAddr start i (2 * m + 1), i) ∉ s.allocator.freeBlocks := by
  rw [h.mem_freeBlocks] at hlo ⊢
  obtain ⟨_, k, hk, hmk⟩ := hlo
  rintro ⟨_, k', hk', hmk'⟩
  simp only at hk hmk hk' hmk'
  rw [← blockAddr_injective start i hmk] at hk
  rw [← blockAddr_injective start i hmk'] at hk'
  have hsib : sibling (2 * m) = 2 * m + 1 := by simp [sibling]
  exact h.noSiblings i hi (2 * m) hk (hsib ▸ hk')

theorem contains_freeBlocks_iff (h : RunInv start N s S) (q : ℕ) :
    (∃ b ∈ s.allocator.freeBlocks, Block.contains (start + q * pageSize) b) ↔
      0 < cover maxOrder S q := by
  have hcount := h.countP_freeBlocks (Nat.le_add_right start (q * pageSize))
  rw [Nat.add_sub_cancel_left, Nat.mul_div_cancel q pageSize_pos] at hcount
  rw [← hcount, List.countP_pos_iff]

/-- An allocation succeeds exactly when the cells of some block are covered. -/
theorem allocArea_isSome_iff (h : RunInv start N s S) (hfit : start + N * pageSize < wordSize)
    (order : ℕ) :
    (∃ v a', s.allocator.allocArea order = .ok (some v, a')) ↔
      order < maxOrder ∧ ∃ k, ∀ q, q / 2 ^ order = k → 0 < cover maxOrder S q := by
  rcases h.alloc.allocArea_cases hfit order with ⟨k, a', T, heq, hsplit, -⟩ | ⟨heq, hnone⟩
  · refine iff_of_true ⟨_, a', heq⟩ ⟨hsplit.order_lt, k, fun q hq => ?_⟩
    have hcover := hsplit.cover_eq q
    rw [if_pos hq] at hcover
    omega
  · refine iff_of_false ?_ ?_
    · rintro ⟨v, a', hsome⟩
      cases heq.symm.trans hsome
    · rintro ⟨ho, k, hk⟩
      obtain ⟨d, hd, hmem⟩ := exists_containing h.noSiblings ho hk
      rw [hnone _ hd (Nat.le_add_right ..)] at hmem
      exact absurd hmem (Finset.notMem_empty _)

end RunInv

theorem BuddyAllocator.allocInv_of_new {sVaddr eVaddr ns ne : ℕ} {a₀ : BuddyAllocator}
    (hs : Vaddr.ceil sVaddr = .ok ns) (he : Vaddr.floor eVaddr = .ok ne) (hle : ns ≤ ne)
    (hnew : BuddyAllocator.new sVaddr eVaddr = .ok a₀) :
    ∃ N, ns + N * pageSize < wordSize ∧ AllocInv ns N a₀ (greedy maxOrder N) := by
  obtain ⟨N, rfl, hlt, hok, hover⟩ := BuddyAllocator.new_ok hs he hle
  refine ⟨N, hlt, ?_⟩
  by_cases hwalk : WalkFits ns N (maxOrder - 1)
  · obtain ⟨a, heq, ha⟩ := hok hwalk
    rw [heq] at hnew
    cases hnew
    exact ha
  · rw [hover hwalk] at hnew
    cases hnew

/-- The blocks `b` and `c` are the lower and the upper half of a block of the
next order. -/
def Buddies (start : ℕ) (b c : Block) : Prop :=
  b.2 = c.2 ∧ ∃ m, b.1 = start + m * (2 ^ (b.2 + 1) * pageSize) ∧
    c.1 = b.1 + 2 ^ b.2 * pageSize

theorem Buddies.blockAddr {start : ℕ} {b c : Block} (h : Buddies start b c) :
    ∃ m, b = (Zinix.blockAddr start b.2 (2 * m), b.2) ∧
      c = (Zinix.blockAddr start b.2 (2 * m + 1), b.2) := by
  obtain ⟨ho, m, hb, hc⟩ := h
  have hlo : b.1 = Zinix.blockAddr start b.2 (2 * m) := by
    rw [hb, ← blockAddr_pair, Zinix.blockAddr, Nat.mul_assoc]
  refine ⟨m, Prod.ext hlo rfl, Prod.ext ?_ ho.symm⟩
  rw [hc, hlo, ← blockAddr_succ]

/-- The free blocks of a state are those of any state with the same outstanding
blocks, those right after initialisation once nothing is outstanding, and never
two buddies of an order below the largest. -/
theorem freeBlocks_history_independent {sVaddr eVaddr ns ne : ℕ} {a₀ : BuddyAllocator}
    (hs : Vaddr.ceil sVaddr = .ok ns) (he : Vaddr.floor eVaddr = .ok ne) (hle : ns ≤ ne)
    (hnew : BuddyAllocator.new sVaddr eVaddr = .ok a₀) {s : BuddyState}
    (hreach : BuddyReaches a₀ s) :
    (∀ t, BuddyReaches a₀ t → (∀ b, b ∈ s.outstanding ↔ b ∈ t.outstanding) →
      ∀ i < maxOrder, ∀ b, b ∈ s.allocator.freeBlocksAt i ↔ b ∈ t.allocator.freeBlocksAt i) ∧
    (s.outstanding = [] →
      ∀ i < maxOrder, ∀ b, b ∈ s.allocator.freeBlocksAt i ↔ b ∈ a₀.freeBlocksAt i) ∧
    ∀ i, i + 1 < maxOrder → ∀ b ∈ s.allocator.freeBlocksAt i,
      ∀ c ∈ s.allocator.freeBlocksAt i, ¬Buddies ns b c := by
  obtain ⟨N, hlt, ha₀⟩ := BuddyAllocator.allocInv_of_new hs he hle hnew
  obtain ⟨S, hS⟩ := RunInv.reaches ha₀ hlt hreach
  refine ⟨?_, ?_, ?_⟩
  · intro t ht hsame i hi b
    obtain ⟨T, hT⟩ := RunInv.reaches ha₀ hlt ht
    rw [hS.mem_freeBlocksAt hi, hT.mem_freeBlocksAt hi, hS.freeBlocks_congr hT hsame]
  · intro hempty i hi b
    have hinit := RunInv.init ha₀
    have hsame : ∀ c, c ∈ s.outstanding ↔ c ∈ (⟨a₀, []⟩ : BuddyState).outstanding := by
      simp [hempty]
    have hat := hinit.mem_freeBlocksAt hi b
    rw [hS.mem_freeBlocksAt hi, hat, hS.freeBlocks_congr hinit hsame]
  · intro i hi b hb c hc hbud
    rw [hS.mem_freeBlocksAt (by omega)] at hb hc
    obtain ⟨m, hbm, hcm⟩ := hbud.blockAddr
    obtain ⟨rfl, hb⟩ := hb
    rw [hbm] at hb
    rw [hcm] at hc
    exact hS.buddy_not_free hi hb hc.2

theorem BuddyAllocator.new_three_pages :
    ∃ a₀, BuddyAllocator.new 0 12288 = .ok a₀ ∧ 0 + 3 * pageSize < wordSize ∧
      AllocInv 0 3 a₀ (greedy maxOrder 3) := by
  have hs : Vaddr.ceil 0 = .ok 0 := by decide
  have he : Vaddr.floor 12288 = .ok 12288 := by decide
  obtain ⟨N, hN, hlt, hok, _⟩ := BuddyAllocator.new_ok hs he (by decide)
  have hthree : N = 3 := by
    simp only [pageSize] at hN
    omega
  subst hthree
  obtain ⟨a₀, hnew, ha₀⟩ := hok (by decide)
  exact ⟨a₀, hnew, hlt, ha₀⟩

/-- A run over three pages that allocates a page and frees it again ends with
the free blocks it started with. -/
theorem freeBlocks_alloc_free_three_pages :
    ∃ a₀ a₁ a₂ vaddr, BuddyAllocator.new 0 12288 = .ok a₀ ∧
      a₀.allocArea 0 = .ok (some vaddr, a₁) ∧ a₁.freeArea vaddr 0 = .ok (true, a₂) ∧
      ∀ i < maxOrder, ∀ b, b ∈ a₂.freeBlocksAt i ↔ b ∈ a₀.freeBlocksAt i := by
  have hs : Vaddr.ceil 0 = .ok 0 := by decide
  have he : Vaddr.floor 12288 = .ok 12288 := by decide
  obtain ⟨a₀, hnew, hlt, ha₀⟩ := BuddyAllocator.new_three_pages
  rcases ha₀.allocArea_cases hlt 0 with ⟨k, a₁, T, halloc, hsplit, ha₁⟩ | ⟨_, hnone⟩
  · have hinv := (RunInv.init ha₀).split hsplit ha₁
    obtain ⟨a₂, _, hfree, _⟩ := hinv.free_ok hlt (List.mem_cons_self ..)
    refine ⟨a₀, a₁, a₂, _, hnew, halloc, hfree, ?_⟩
    have hreach : BuddyReaches a₀ ⟨a₂, []⟩ := by
      have hrun := (Relation.ReflTransGen.single (@BuddyStep.alloc a₀ a₁ [] 0 _ halloc)).tail
        (BuddyStep.free (List.mem_cons_self ..) hfree)
      rwa [List.erase_cons_head] at hrun
    exact (freeBlocks_history_independent hs he (by decide) hnew hreach).2.1 rfl
  · exact absurd (hnone 0 (by decide) le_rfl) (by decide)

/-- All pages of the block at `v` are free. -/
def BuddyAllocator.AllFree (a : BuddyAllocator) (v order : ℕ) : Prop :=
  ∀ j < 2 ^ order, ∃ b ∈ a.freeBlocks, Block.contains (v + j * pageSize) b

/-- An allocation returns. It finds a block exactly if the pages of some aligned block are
free, and without one it leaves the allocator as it is. -/
theorem allocArea_ok_iff_allFree {sVaddr eVaddr ns ne : ℕ} {a₀ : BuddyAllocator}
    (hs : Vaddr.ceil sVaddr = .ok ns) (he : Vaddr.floor eVaddr = .ok ne) (hle : ns ≤ ne)
    (hnew : BuddyAllocator.new sVaddr eVaddr = .ok a₀) {s : BuddyState}
    (hreach : BuddyReaches a₀ s) (order : ℕ) :
    (∃ r, s.allocator.allocArea order = .ok r) ∧
    ((∃ v a', s.allocator.allocArea order = .ok (some v, a')) ↔
      order < maxOrder ∧ ∃ v, ns ≤ v ∧ (v - ns) % (2 ^ order * pageSize) = 0 ∧
        s.allocator.AllFree v order) ∧
    ∀ a', s.allocator.allocArea order = .ok (none, a') → a' = s.allocator := by
  obtain ⟨N, hlt, ha₀⟩ := BuddyAllocator.allocInv_of_new hs he hle hnew
  obtain ⟨S, hS⟩ := RunInv.reaches ha₀ hlt hreach
  have hblock : (∃ k, ∀ q, q / 2 ^ order = k → 0 < cover maxOrder S q) ↔
      ∃ v, ns ≤ v ∧ (v - ns) % (2 ^ order * pageSize) = 0 ∧ s.allocator.AllFree v order := by
    constructor
    · rintro ⟨k, hk⟩
      refine ⟨blockAddr ns order k, Nat.le_add_right .., ?_, fun j hj => ?_⟩
      · rw [blockAddr, Nat.add_sub_cancel_left, Nat.mul_assoc]
        exact Nat.mul_mod_left _ _
      · have haddr : blockAddr ns order k + j * pageSize = ns + (k * 2 ^ order + j) * pageSize := by
          rw [blockAddr]
          ring
        rw [haddr, hS.contains_freeBlocks_iff]
        apply hk
        rw [Nat.mul_comm, Nat.mul_add_div (by positivity), Nat.div_eq_of_lt hj, Nat.add_zero]
    · rintro ⟨v, hv, hmod, hfree⟩
      obtain ⟨k, hk⟩ := Nat.dvd_of_mod_eq_zero hmod
      refine ⟨k, fun q hq => ?_⟩
      have hj : q % 2 ^ order < 2 ^ order := Nat.mod_lt _ (by positivity)
      have haddr : v + q % 2 ^ order * pageSize = ns + q * pageSize := by
        have hvk : v = ns + 2 ^ order * pageSize * k := by omega
        have hdiv := Nat.div_add_mod q (2 ^ order)
        rw [hq] at hdiv
        rw [hvk]
        nth_rewrite 2 [← hdiv]
        ring
      have hin := hfree _ hj
      rwa [haddr, hS.contains_freeBlocks_iff] at hin
  refine ⟨?_, ?_, ?_⟩
  · exact (hS.sound hlt).alloc_returns order
  · rw [hS.allocArea_isSome_iff hlt, hblock]
  · intro a' hnone
    rcases hS.alloc.allocArea_cases hlt order with ⟨k, a₁, T, heq, -, -⟩ | ⟨heq, -⟩
    · cases heq.symm.trans hnone
    · cases heq.symm.trans hnone
      rfl

/-- Of three free pages, none of the blocks of four. -/
theorem allocArea_ok_iff_allFree_three_pages :
    ∃ a₀, BuddyAllocator.new 0 12288 = .ok a₀ ∧
      (∃ r, a₀.allocArea 2 = .ok r) ∧
      ((∃ v a', a₀.allocArea 2 = .ok (some v, a')) ↔
        2 < maxOrder ∧ ∃ v, 0 ≤ v ∧ (v - 0) % (2 ^ 2 * pageSize) = 0 ∧ a₀.AllFree v 2) ∧
      ∀ a', a₀.allocArea 2 = .ok (none, a') → a' = a₀ := by
  have hs : Vaddr.ceil 0 = .ok 0 := by decide
  have he : Vaddr.floor 12288 = .ok 12288 := by decide
  obtain ⟨a₀, hnew, -, -⟩ := BuddyAllocator.new_three_pages
  exact ⟨a₀, hnew, allocArea_ok_iff_allFree hs he (by decide) hnew .refl 2⟩

end Zinix
