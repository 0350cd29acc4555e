import Mathlib.Tactic
import Mathlib.Algebra.BigOperators.Group.Finset.Basic
import Mathlib.Data.Finset.Basic

/-!
# Families of dyadic blocks

A block of order `o` and index `k` is the set of cells `q` with `q / 2 ^ o = k`. The moves
of a buddy system split a block out of a family and coalesce a block into it; a family
without overlaps and without sibling pairs is determined by the cells it covers.
-/

namespace Zinix.DyadicBlocks

open Finset Function

def sibling (k : ℕ) : ℕ := if k % 2 = 0 then k + 1 else k - 1

theorem sibling_ne (k : ℕ) : sibling k ≠ k := by
  unfold sibling
  split_ifs <;> omega

theorem sibling_sibling (k : ℕ) : sibling (sibling k) = k := by
  unfold sibling
  split_ifs <;> omega

theorem sibling_div (k : ℕ) : sibling k / 2 = k / 2 := by
  unfold sibling
  split_ifs <;> omega

theorem div_two_eq_iff (m k : ℕ) : m / 2 = k / 2 ↔ m = k ∨ m = sibling k := by
  unfold sibling
  split_ifs <;> omega

theorem div_pow_succ (q o : ℕ) : q / 2 ^ (o + 1) = q / 2 ^ o / 2 := by
  rw [pow_succ, Nat.div_div_eq_div_mul]

theorem div_pow_add (q o j : ℕ) : q / 2 ^ (o + j) = q / 2 ^ o / 2 ^ j := by
  rw [pow_add, Nat.div_div_eq_div_mul]

theorem first_div (o k : ℕ) : k * 2 ^ o / 2 ^ o = k :=
  Nat.mul_div_cancel k (by positivity)

abbrev Family := ℕ → Finset ℕ

/-- The number of blocks of orders below `n` that contain a cell. -/
def cover (n : ℕ) (S : Family) (q : ℕ) : ℕ :=
  ∑ i ∈ range n, if q / 2 ^ i ∈ S i then 1 else 0

/-- The number of cells of all blocks, counted with multiplicity. -/
def weight (n : ℕ) (S : Family) : ℕ := ∑ i ∈ range n, (S i).card * 2 ^ i

def Separate (n : ℕ) (S : Family) : Prop := ∀ q, cover n S q ≤ 1

/-- Two siblings never occur together below the last order. -/
def NoSiblings (n : ℕ) (S : Family) : Prop :=
  ∀ i, i + 1 < n → ∀ k ∈ S i, sibling k ∉ S i

variable {n : ℕ} {S : Family}

theorem cover_update {i : ℕ} (hi : i < n) (T : Finset ℕ) (q : ℕ) :
    cover n (update S i T) q + (if q / 2 ^ i ∈ S i then 1 else 0) =
      cover n S q + (if q / 2 ^ i ∈ T then 1 else 0) := by
  have hmem : i ∈ range n := mem_range.mpr hi
  have hrest : ∑ j ∈ (range n).erase i, (if q / 2 ^ j ∈ update S i T j then 1 else 0) =
      ∑ j ∈ (range n).erase i, (if q / 2 ^ j ∈ S j then 1 else 0) := by
    apply sum_congr rfl
    intro j hj
    rw [update_of_ne (ne_of_mem_erase hj)]
  unfold cover
  rw [← add_sum_erase _ _ hmem, ← add_sum_erase (range n) (fun j => if q / 2 ^ j ∈ S j then 1 else 0)
    hmem, hrest, update_self]
  omega

theorem weight_update {i : ℕ} (hi : i < n) (T : Finset ℕ) :
    weight n (update S i T) + (S i).card * 2 ^ i = weight n S + T.card * 2 ^ i := by
  have hmem : i ∈ range n := mem_range.mpr hi
  have hrest : ∑ j ∈ (range n).erase i, (update S i T j).card * 2 ^ j =
      ∑ j ∈ (range n).erase i, (S j).card * 2 ^ j := by
    apply sum_congr rfl
    intro j hj
    rw [update_of_ne (ne_of_mem_erase hj)]
  unfold weight
  rw [← add_sum_erase _ _ hmem, ← add_sum_erase (range n) (fun j => (S j).card * 2 ^ j) hmem,
    hrest, update_self]
  omega

theorem cover_pos_of_mem {i q : ℕ} (hi : i < n) (h : q / 2 ^ i ∈ S i) : 1 ≤ cover n S q := by
  have hle := single_le_sum (f := fun j => if q / 2 ^ j ∈ S j then 1 else 0)
    (fun j _ => Nat.zero_le _) (mem_range.mpr hi)
  simpa [cover, h] using hle

theorem exists_mem_of_cover_pos {q : ℕ} (h : 0 < cover n S q) : ∃ i < n, q / 2 ^ i ∈ S i := by
  by_contra hnone
  push Not at hnone
  have hzero : cover n S q = 0 := by
    apply sum_eq_zero
    intro i hi
    simp [hnone i (mem_range.mp hi)]
  omega

theorem Separate.order_unique (hS : Separate n S) {i j q : ℕ} (hi : i < n) (hj : j < n)
    (hiq : q / 2 ^ i ∈ S i) (hjq : q / 2 ^ j ∈ S j) : i = j := by
  by_contra hne
  have hsub : ({i, j} : Finset ℕ) ⊆ range n := by
    intro x hx
    simp only [mem_insert, mem_singleton] at hx
    rcases hx with rfl | rfl
    · exact mem_range.mpr hi
    · exact mem_range.mpr hj
  have hle := sum_le_sum_of_subset (f := fun x => if q / 2 ^ x ∈ S x then 1 else 0) hsub
  rw [sum_pair hne] at hle
  simp only [hiq, hjq, if_true] at hle
  have hone := hS q
  unfold cover at hone
  omega

theorem not_mem_of_uncovered {i k : ℕ} (hi : i < n)
    (h : ∀ q, q / 2 ^ i = k → cover n S q = 0) : k ∉ S i := by
  intro hk
  have hq := first_div i k
  have hpos := cover_pos_of_mem (S := S) (q := k * 2 ^ i) hi (hq.symm ▸ hk)
  have := h _ hq
  omega

/-- Put a block into the family, first merging it with its sibling as long as
the sibling is there and a larger order exists. -/
def coalesce (n : ℕ) (S : Family) (i k : ℕ) : Family :=
  if i + 1 < n ∧ sibling k ∈ S i then
    coalesce n (update S i ((S i).erase (sibling k))) (i + 1) (k / 2)
  else update S i (insert k (S i))
termination_by n - i

theorem coalesce_merge {i k : ℕ} (hi : i + 1 < n) (hk : sibling k ∈ S i) :
    coalesce n S i k = coalesce n (update S i ((S i).erase (sibling k))) (i + 1) (k / 2) := by
  rw [coalesce, if_pos ⟨hi, hk⟩]

theorem coalesce_insert {i k : ℕ} (h : ¬(i + 1 < n ∧ sibling k ∈ S i)) :
    coalesce n S i k = update S i (insert k (S i)) := by
  rw [coalesce, if_neg h]

theorem cover_erase {i k : ℕ} (hi : i < n) (hk : k ∈ S i) (q : ℕ) :
    cover n (update S i ((S i).erase k)) q + (if q / 2 ^ i = k then 1 else 0) = cover n S q := by
  have h := cover_update (S := S) hi ((S i).erase k) q
  by_cases hq : q / 2 ^ i = k
  · simp [hq, hk] at h ⊢
    omega
  · simp only [mem_erase, hq, ne_eq, not_false_eq_true, true_and, if_false] at h ⊢
    omega

theorem cover_insert {i k : ℕ} (hi : i < n) (hk : k ∉ S i) (q : ℕ) :
    cover n (update S i (insert k (S i))) q = cover n S q + (if q / 2 ^ i = k then 1 else 0) := by
  have h := cover_update (S := S) hi (insert k (S i)) q
  by_cases hq : q / 2 ^ i = k
  · simp only [hq, hk, mem_insert_self, if_true, if_false] at h ⊢
    omega
  · simp only [mem_insert, hq, false_or, if_false] at h ⊢
    omega

theorem Separate.remove (hS : Separate n S) {i k : ℕ} (hi : i < n) (hk : k ∈ S i) :
    Separate n (update S i ((S i).erase k)) := by
  intro q
  have h := cover_erase hi hk q
  have := hS q
  omega

theorem NoSiblings.remove (hS : NoSiblings n S) (i k : ℕ) :
    NoSiblings n (update S i ((S i).erase k)) := by
  intro j hj m hm
  by_cases h : j = i
  · subst j
    rw [update_self] at hm ⊢
    intro hs
    exact hS i hj m (mem_of_mem_erase hm) (mem_of_mem_erase hs)
  · rw [update_of_ne h] at hm ⊢
    exact hS j hj m hm

theorem NoSiblings.add (hS : NoSiblings n S) {i k : ℕ}
    (h : i + 1 < n → sibling k ∉ S i) : NoSiblings n (update S i (insert k (S i))) := by
  intro j hj m hm
  by_cases hji : j = i
  · subst j
    rw [update_self] at hm ⊢
    have hk := h hj
    rcases mem_insert.mp hm with rfl | hmem
    · simp [hk, sibling_ne]
    · intro hs
      rcases mem_insert.mp hs with hs | hs
      · rw [← hs, sibling_sibling] at hk
        exact hk hmem
      · exact hS i hj m hmem hs
  · rw [update_of_ne hji] at hm ⊢
    exact hS j hj m hm

theorem indicator_parent (q i k : ℕ) :
    (if q / 2 ^ (i + 1) = k / 2 then 1 else 0) =
      (if q / 2 ^ i = k then 1 else 0) + (if q / 2 ^ i = sibling k then 1 else 0) := by
  have hne := sibling_ne k
  rw [div_pow_succ]
  simp only [div_two_eq_iff]
  by_cases h : q / 2 ^ i = k
  · simp [h, hne.symm]
  · simp [h]

theorem uncovered_parent (hS : Separate n S) {i k : ℕ} (hi : i + 1 < n) (hk : sibling k ∈ S i)
    (hfree : ∀ q, q / 2 ^ i = k → cover n S q = 0) (q : ℕ) (hq : q / 2 ^ (i + 1) = k / 2) :
    cover n (update S i ((S i).erase (sibling k))) q = 0 := by
  have h := cover_erase (n := n) (by omega : i < n) hk q
  rw [div_pow_succ, div_two_eq_iff] at hq
  rcases hq with hq | hq
  · have := hfree q hq
    omega
  · have := hS q
    simp only [hq, if_true] at h
    omega

theorem cover_coalesce {S : Family} {i k : ℕ} (hi : i < n) (hS : Separate n S)
    (hfree : ∀ q, q / 2 ^ i = k → cover n S q = 0) (q : ℕ) :
    cover n (coalesce n S i k) q = cover n S q + (if q / 2 ^ i = k then 1 else 0) := by
  by_cases h : i + 1 < n ∧ sibling k ∈ S i
  · rw [coalesce_merge h.1 h.2,
      cover_coalesce h.1 (hS.remove hi h.2) (uncovered_parent hS h.1 h.2 hfree) q,
      indicator_parent, ← cover_erase hi h.2 q]
    omega
  · rw [coalesce_insert h]
    exact cover_insert hi (not_mem_of_uncovered hi hfree) q
termination_by n - i

theorem noSiblings_coalesce {S : Family} {i k : ℕ} (hS : NoSiblings n S) :
    NoSiblings n (coalesce n S i k) := by
  by_cases h : i + 1 < n ∧ sibling k ∈ S i
  · rw [coalesce_merge h.1 h.2]
    exact noSiblings_coalesce (hS.remove i (sibling k))
  · rw [coalesce_insert h]
    exact hS.add (fun hi hk => h ⟨hi, hk⟩)
termination_by n - i

theorem weight_coalesce {S : Family} {i k : ℕ} (hi : i < n) (hS : Separate n S)
    (hfree : ∀ q, q / 2 ^ i = k → cover n S q = 0) :
    weight n (coalesce n S i k) = weight n S + 2 ^ i := by
  by_cases h : i + 1 < n ∧ sibling k ∈ S i
  · rw [coalesce_merge h.1 h.2,
      weight_coalesce h.1 (hS.remove hi h.2) (uncovered_parent hS h.1 h.2 hfree)]
    have hw := weight_update (S := S) hi ((S i).erase (sibling k))
    have hcard := card_erase_add_one h.2
    rw [← hcard, Nat.add_mul] at hw
    rw [pow_succ]
    omega
  · rw [coalesce_insert h]
    have hw := weight_update (S := S) hi (insert k (S i))
    rw [card_insert_of_notMem (not_mem_of_uncovered hi hfree), Nat.add_mul] at hw
    omega
termination_by n - i

/-- A block leaves the family, either directly or as the lower half of a block
that leaves at the next order and whose upper half stays. -/
inductive Splits (n : ℕ) (S : Family) : ℕ → ℕ → Family → Prop
  | take {o k : ℕ} : o < n → k ∈ S o → Splits n S o k (update S o ((S o).erase k))
  | split {T : Family} {o k : ℕ} : S o = ∅ → Splits n S (o + 1) k T →
      Splits n S o (2 * k) (update T o (insert (2 * k + 1) (T o)))

namespace Splits

variable {T : Family} {o k : ℕ}

theorem order_lt (h : Splits n S o k T) : o < n := by
  induction h with
  | take ho _ => exact ho
  | split _ _ ih => omega

theorem lower (h : Splits n S o k T) : ∀ j < o, T j = S j := by
  induction h with
  | take ho hk => intro j hj; rw [update_of_ne (by omega)]
  | split hempty _ ih => intro j hj; rw [update_of_ne (by omega), ih j (by omega)]

theorem lower_empty (h : Splits n S (o + 1) k T) (hempty : S o = ∅) :
    T o = ∅ := by rw [h.lower o (by omega), hempty]

theorem bounded {N : ℕ} (h : Splits n S o k T)
    (hS : ∀ i < n, ∀ m ∈ S i, (m + 1) * 2 ^ i ≤ N) : (k + 1) * 2 ^ o ≤ N := by
  induction h with
  | take ho hk => exact hS _ ho _ hk
  | @split T o k hempty hrest ih =>
    have hle : (2 * k + 1) * 2 ^ o ≤ (k + 1) * 2 ^ (o + 1) := by
      rw [pow_succ]
      nlinarith [Nat.one_le_two_pow (n := o)]
    exact hle.trans ih

theorem cover_eq (h : Splits n S o k T) (q : ℕ) :
    cover n S q = cover n T q + (if q / 2 ^ o = k then 1 else 0) := by
  induction h with
  | take ho hk => exact (cover_erase ho hk q).symm
  | @split T o k hempty hrest ih =>
    have ho := hrest.order_lt
    have hT := hrest.lower_empty hempty
    have hins := cover_insert (S := T) (k := 2 * k + 1) (by omega : o < n) (by simp [hT]) q
    have hpar := indicator_parent q o (2 * k)
    have hsib : sibling (2 * k) = 2 * k + 1 := by simp [sibling]
    rw [hsib, Nat.mul_div_cancel_left k (by omega)] at hpar
    omega

theorem weight_eq (h : Splits n S o k T) : weight n S = weight n T + 2 ^ o := by
  induction h with
  | @take o k ho hk =>
    have hw := weight_update (S := S) ho ((S o).erase k)
    have hcard := card_erase_add_one hk
    rw [← hcard, Nat.add_mul] at hw
    omega
  | @split T o k hempty hrest ih =>
    have ho := hrest.order_lt
    have hT := hrest.lower_empty hempty
    have hw := weight_update (S := T) (by omega : o < n) (insert (2 * k + 1) (T o))
    simp only [hT, card_empty, card_insert_of_notMem (notMem_empty _)] at hw
    rw [pow_succ] at ih
    simp only [hT]
    omega

theorem noSiblings (h : Splits n S o k T) (hS : NoSiblings n S) : NoSiblings n T := by
  induction h with
  | take _ _ => exact hS.remove _ _
  | @split T o k hempty hrest ih =>
    apply ih.add
    intro _
    simp [hrest.lower_empty hempty]

end Splits

/-- A block all of whose cells are covered lies inside a block of the family. -/
theorem exists_containing (hS : NoSiblings n S) {j m : ℕ} (hj : j < n)
    (hcov : ∀ q, q / 2 ^ j = m → 0 < cover n S q) :
    ∃ d, j + d < n ∧ m / 2 ^ d ∈ S (j + d) := by
  induction j generalizing m with
  | zero =>
    obtain ⟨i, hi, hmem⟩ := exists_mem_of_cover_pos (hcov m (by simp))
    exact ⟨i, by omega, by simpa using hmem⟩
  | succ j ih =>
    have hhalf : ∀ b < 2, ∃ d, j + d < n ∧ (2 * m + b) / 2 ^ d ∈ S (j + d) := by
      intro b hb
      apply ih (by omega)
      intro q hq
      apply hcov
      rw [div_pow_succ, hq]
      omega
    obtain ⟨d, hd, hmem⟩ := hhalf 0 (by omega)
    obtain ⟨e, he, hmem'⟩ := hhalf 1 (by omega)
    cases d with
    | succ d =>
      refine ⟨d, by omega, ?_⟩
      rw [show j + 1 + d = j + (d + 1) by omega]
      rwa [add_comm d 1, div_pow_add, pow_one, show (2 * m + 0) / 2 = m by omega,
        add_comm 1 d] at hmem
    | zero =>
      cases e with
      | succ e =>
        refine ⟨e, by omega, ?_⟩
        rw [show j + 1 + e = j + (e + 1) by omega]
        rwa [add_comm e 1, div_pow_add, pow_one, show (2 * m + 1) / 2 = m by omega,
          add_comm 1 e] at hmem'
      | zero =>
        simp only [pow_zero, Nat.div_one, add_zero] at hmem hmem'
        have hsib : sibling (2 * m) = 2 * m + 1 := by simp [sibling]
        exact absurd (hsib ▸ hmem') (hS j hj _ hmem)

/-- The blocks of a separated family without sibling pairs are the maximal
covered blocks, hence a function of the covered cells alone. -/
theorem mem_iff_maximal (hS : Separate n S) (hns : NoSiblings n S) {i k : ℕ} (hi : i < n) :
    k ∈ S i ↔ (∀ q, q / 2 ^ i = k → 0 < cover n S q) ∧
      (i + 1 < n → ∃ q, q / 2 ^ (i + 1) = k / 2 ∧ cover n S q = 0) := by
  constructor
  · intro hk
    have hown : ∀ q, q / 2 ^ i = k → 0 < cover n S q := fun q hq =>
      cover_pos_of_mem hi (hq ▸ hk)
    refine ⟨hown, fun hi1 => ?_⟩
    by_contra hall
    push Not at hall
    obtain ⟨d, hd, hmem⟩ := exists_containing hns hi1
      (fun q hq => Nat.pos_of_ne_zero (hall q hq))
    have hfirst := first_div i k
    have hlarge : k * 2 ^ i / 2 ^ (i + 1 + d) ∈ S (i + 1 + d) := by
      rwa [div_pow_add, div_pow_succ, hfirst]
    have := hS.order_unique hi hd (hfirst.symm ▸ hk) hlarge
    omega
  · rintro ⟨hcov, hparent⟩
    obtain ⟨d, hd, hmem⟩ := exists_containing hns hi hcov
    cases d with
    | zero => simpa using hmem
    | succ d =>
      obtain ⟨q, hq, hzero⟩ := hparent (by omega)
      have hpos : 1 ≤ cover n S q := by
        apply cover_pos_of_mem hd
        rw [add_comm d 1, div_pow_add, pow_one] at hmem
        rw [show i + (d + 1) = i + 1 + d by omega, div_pow_add, hq]
        rwa [show i + (1 + d) = i + 1 + d by omega] at hmem
      omega

theorem eq_of_cover_eq {T : Family} (hS : Separate n S) (hSn : NoSiblings n S)
    (hT : Separate n T) (hTn : NoSiblings n T) (h : ∀ q, cover n S q = cover n T q)
    {i : ℕ} (hi : i < n) : S i = T i := by
  ext k
  rw [mem_iff_maximal hS hSn hi, mem_iff_maximal hT hTn hi]
  simp only [h]

/-- The decomposition of the first `N` cells that takes, from the largest order
down, every block that fits in what is left. -/
def greedy (n N : ℕ) : Family := fun i =>
  Ico (2 * (if i + 1 < n then N / 2 ^ (i + 1) else 0)) (N / 2 ^ i)

theorem mem_greedy {N i k : ℕ} (hi : i + 1 < n) :
    k ∈ greedy n N i ↔ ¬k / 2 < N / 2 ^ (i + 1) ∧ k < N / 2 ^ i := by
  rw [greedy, if_pos hi, mem_Ico]
  omega

theorem mem_greedy_last {N k : ℕ} : k ∈ greedy (n + 1) N n ↔ k < N / 2 ^ n := by
  simp [greedy]

theorem greedy_noSiblings (n N : ℕ) : NoSiblings n (greedy n N) := by
  intro i hi k hk hs
  rw [mem_greedy hi] at hk hs
  have hdiv := div_pow_succ N i
  rw [sibling_div] at hs
  unfold sibling at hs
  split_ifs at hs <;> omega

theorem div_pow_lt_mono {q N i : ℕ} (h : q / 2 ^ i < N / 2 ^ i) : q < N := by
  by_contra hle
  have := Nat.div_le_div_right (c := 2 ^ i) (Nat.le_of_not_lt hle)
  omega

theorem cover_greedy (n N q : ℕ) :
    cover (n + 1) (greedy (n + 1) N) q = if q < N then 1 else 0 := by
  have hprefix : ∀ m ≤ n, ∑ i ∈ range m, (if q / 2 ^ i ∈ greedy (n + 1) N i then 1 else 0) =
      if q < N ∧ ¬q / 2 ^ m < N / 2 ^ m then 1 else 0 := by
    intro m hm
    induction m with
    | zero => simp
    | succ m ih =>
      have hdown : q / 2 ^ (m + 1) < N / 2 ^ (m + 1) → q / 2 ^ m < N / 2 ^ m := by
        rw [div_pow_succ, div_pow_succ]
        omega
      have hlow : q / 2 ^ m < N / 2 ^ m → q < N := div_pow_lt_mono
      rw [sum_range_succ, ih (by omega)]
      simp only [mem_greedy (show m + 1 < n + 1 by omega), ← div_pow_succ]
      by_cases h1 : q / 2 ^ m < N / 2 ^ m
      · simp [h1, hlow h1]
      · have h2 : ¬q / 2 ^ (m + 1) < N / 2 ^ (m + 1) := fun h => h1 (hdown h)
        simp [h1, h2]
  unfold cover
  rw [sum_range_succ, hprefix n le_rfl]
  simp only [mem_greedy_last]
  by_cases h : q / 2 ^ n < N / 2 ^ n
  · simp [h, div_pow_lt_mono h]
  · simp [h]

theorem weight_greedy (n N : ℕ) : weight (n + 1) (greedy (n + 1) N) = N := by
  have hprefix : ∀ m ≤ n, ∑ i ∈ range m, (greedy (n + 1) N i).card * 2 ^ i +
      N / 2 ^ m * 2 ^ m = N := by
    intro m hm
    induction m with
    | zero => simp
    | succ m ih =>
      have hprev := ih (by omega)
      have hle : 2 * (N / 2 ^ (m + 1)) ≤ N / 2 ^ m := by
        rw [div_pow_succ]
        omega
      have hmul : (N / 2 ^ m - 2 * (N / 2 ^ (m + 1))) * 2 ^ m + N / 2 ^ (m + 1) * 2 ^ (m + 1) =
          N / 2 ^ m * 2 ^ m := by
        rw [pow_succ, ← Nat.mul_assoc, Nat.mul_right_comm _ (2 ^ m) 2, ← Nat.add_mul]
        congr 1
        rw [← pow_succ]
        omega
      rw [sum_range_succ]
      have hcard : (greedy (n + 1) N m).card = N / 2 ^ m - 2 * (N / 2 ^ (m + 1)) := by
        rw [greedy, if_pos (show m + 1 < n + 1 by omega), Nat.card_Ico]
      rw [hcard]
      omega
  have hcard : (greedy (n + 1) N n).card = N / 2 ^ n := by simp [greedy]
  unfold weight
  rw [sum_range_succ, hcard]
  exact hprefix n le_rfl

end Zinix.DyadicBlocks
