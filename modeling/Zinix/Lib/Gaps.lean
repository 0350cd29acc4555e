import Mathlib.Order.Bounds.Basic
import Mathlib.Tactic

/-!
# Gaps between intervals

The search for a gap of a given length in a list of intervals, from the lowest one upwards
and from the highest one downwards, finds the lowest or the highest place.
-/

namespace Zinix.Gaps

variable {lo hi len a b : ℕ} {l : List (ℕ × ℕ)}
  {e : ℕ × ℕ} {s t : ℕ}

def Ascending (hi : ℕ) : ℕ → List (ℕ × ℕ) → Prop
  | lo, [] => lo ≤ hi
  | lo, (s, t) :: l => lo ≤ s ∧ s < t ∧ Ascending hi t l

def Descending (lo : ℕ) : ℕ → List (ℕ × ℕ) → Prop
  | hi, [] => lo ≤ hi
  | hi, (s, t) :: l => t ≤ hi ∧ s < t ∧ Descending lo s l

def fits (l : List (ℕ × ℕ)) (lo hi len : ℕ) : Set ℕ :=
  {a | lo ≤ a ∧ a + len ≤ hi ∧ ∀ e ∈ l, e.2 ≤ a ∨ a + len ≤ e.1}

def firstFit (len hi : ℕ) : ℕ → List (ℕ × ℕ) → Option ℕ
  | lo, [] => if lo + len ≤ hi then some lo else none
  | lo, (s, t) :: l => if lo + len ≤ s then some lo else firstFit len hi t l

def lastFit (len lo : ℕ) : ℕ → List (ℕ × ℕ) → Option ℕ
  | hi, [] => if lo + len ≤ hi then some (hi - len) else none
  | hi, (s, t) :: l => if t + len ≤ hi then some (hi - len) else lastFit len lo s l

theorem Ascending.le (h : Ascending hi lo l) : lo ≤ hi := by
  induction l generalizing lo with
  | nil => exact h
  | cons e l ih =>
    obtain ⟨hs, ht, hl⟩ := h
    have hle := ih hl
    omega

theorem Ascending.le_start (h : Ascending hi lo l) (he : e ∈ l) : lo ≤ e.1 := by
  induction l generalizing lo with
  | nil => cases he
  | cons e' l ih =>
    obtain ⟨hs, ht, hl⟩ := h
    rcases List.mem_cons.mp he with rfl | he
    · exact hs
    · have hle := ih hl he
      omega

theorem Descending.le (h : Descending lo hi l) : lo ≤ hi := by
  induction l generalizing hi with
  | nil => exact h
  | cons e l ih =>
    obtain ⟨hs, ht, hl⟩ := h
    have hle := ih hl
    omega

theorem Descending.end_le (h : Descending lo hi l) (he : e ∈ l) : e.2 ≤ hi := by
  induction l generalizing hi with
  | nil => cases he
  | cons e' l ih =>
    obtain ⟨hs, ht, hl⟩ := h
    rcases List.mem_cons.mp he with rfl | he
    · exact hs
    · have hle := ih hl he
      omega

theorem ascending_of_pairwise (hle : lo ≤ hi) (hlow : ∀ e ∈ l, lo ≤ e.1)
    (hne : ∀ e ∈ l, e.1 < e.2) (hhigh : ∀ e ∈ l, e.2 ≤ hi)
    (hsorted : l.Pairwise fun d e => d.2 ≤ e.1) : Ascending hi lo l := by
  induction l generalizing lo with
  | nil => exact hle
  | cons e l ih =>
    obtain ⟨hfirst, hrest⟩ := List.pairwise_cons.mp hsorted
    refine ⟨hlow e List.mem_cons_self, hne e List.mem_cons_self, ?_⟩
    exact ih (hhigh e List.mem_cons_self) hfirst (fun d hd => hne d (List.mem_cons_of_mem e hd))
      (fun d hd => hhigh d (List.mem_cons_of_mem e hd)) hrest

theorem descending_of_pairwise (hle : lo ≤ hi) (hlow : ∀ e ∈ l, lo ≤ e.1)
    (hne : ∀ e ∈ l, e.1 < e.2) (hhigh : ∀ e ∈ l, e.2 ≤ hi)
    (hsorted : l.Pairwise fun d e => e.2 ≤ d.1) : Descending lo hi l := by
  induction l generalizing hi with
  | nil => exact hle
  | cons e l ih =>
    obtain ⟨hfirst, hrest⟩ := List.pairwise_cons.mp hsorted
    refine ⟨hhigh e List.mem_cons_self, hne e List.mem_cons_self, ?_⟩
    exact ih (hlow e List.mem_cons_self) (fun d hd => hlow d (List.mem_cons_of_mem e hd))
      (fun d hd => hne d (List.mem_cons_of_mem e hd)) hfirst hrest

/-- A length that does not fit below the first interval fits above it or not at all. -/
theorem fits_cons_above (h : Ascending hi lo ((s, t) :: l)) (hlo : ¬lo + len ≤ s) :
    fits ((s, t) :: l) lo hi len = fits l t hi len := by
  obtain ⟨hs, ht, -⟩ := h
  ext a
  constructor
  · rintro ⟨ha, hend, hclear⟩
    rcases hclear (s, t) List.mem_cons_self with hle | hle
    · exact ⟨hle, hend, fun e he => hclear e (List.mem_cons_of_mem _ he)⟩
    · exact absurd hle (by simp only; omega)
  · rintro ⟨ha, hend, hclear⟩
    refine ⟨by omega, hend, fun e he => ?_⟩
    rcases List.mem_cons.mp he with rfl | he
    · exact .inl ha
    · exact hclear e he

/-- A length that does not fit above the last interval fits below it or not at all. -/
theorem fits_cons_below (h : Descending lo hi ((s, t) :: l)) (hhi : ¬t + len ≤ hi) :
    fits ((s, t) :: l) lo hi len = fits l lo s len := by
  obtain ⟨ht, hs, -⟩ := h
  ext a
  constructor
  · rintro ⟨ha, hend, hclear⟩
    rcases hclear (s, t) List.mem_cons_self with hle | hle
    · exact absurd hle (by simp only; omega)
    · exact ⟨ha, hle, fun e he => hclear e (List.mem_cons_of_mem _ he)⟩
  · rintro ⟨ha, hend, hclear⟩
    refine ⟨ha, by omega, fun e he => ?_⟩
    rcases List.mem_cons.mp he with rfl | he
    · exact .inr hend
    · exact hclear e he

theorem firstFit_isLeast (h : Ascending hi lo l) (ha : firstFit len hi lo l = some a) :
    IsLeast (fits l lo hi len) a := by
  induction l generalizing lo with
  | nil =>
    rw [firstFit] at ha
    split_ifs at ha with hfit
    cases ha
    exact ⟨⟨le_rfl, hfit, by simp⟩, fun b hb => hb.1⟩
  | cons e l ih =>
    obtain ⟨s, t⟩ := e
    rw [firstFit] at ha
    split_ifs at ha with hfit
    · cases ha
      have hs : s ≤ hi := by
        obtain ⟨-, ht, hl⟩ := h
        exact ht.le.trans hl.le
      refine ⟨⟨le_rfl, hfit.trans hs, fun e he => .inr ?_⟩, fun b hb => hb.1⟩
      rcases List.mem_cons.mp he with rfl | he
      · exact hfit
      · have hstart := h.2.2.le_start he
        have ht := h.2.1
        omega
    · rw [fits_cons_above h hfit]
      exact ih h.2.2 ha

theorem fits_eq_empty_of_firstFit (h : Ascending hi lo l) (hnone : firstFit len hi lo l = none) :
    fits l lo hi len = ∅ := by
  induction l generalizing lo with
  | nil =>
    rw [firstFit] at hnone
    split_ifs at hnone with hfit
    refine Set.eq_empty_of_forall_notMem ?_
    rintro a ⟨ha, hend, -⟩
    omega
  | cons e l ih =>
    obtain ⟨s, t⟩ := e
    rw [firstFit] at hnone
    split_ifs at hnone with hfit
    rw [fits_cons_above h hfit]
    exact ih h.2.2 hnone

theorem lastFit_isGreatest (h : Descending lo hi l) (ha : lastFit len lo hi l = some a) :
    IsGreatest (fits l lo hi len) a := by
  induction l generalizing hi with
  | nil =>
    rw [lastFit] at ha
    split_ifs at ha with hfit
    cases ha
    refine ⟨⟨by omega, by omega, by simp⟩, ?_⟩
    rintro b ⟨-, hb, -⟩
    omega
  | cons e l ih =>
    obtain ⟨s, t⟩ := e
    rw [lastFit] at ha
    split_ifs at ha with hfit
    · cases ha
      obtain ⟨ht, hs, hl⟩ := h
      have hlow := hl.le
      refine ⟨⟨by omega, by omega, fun e he => .inl ?_⟩, ?_⟩
      · rcases List.mem_cons.mp he with rfl | he
        · simp only
          omega
        · have hend := hl.end_le he
          omega
      · rintro b ⟨-, hb, -⟩
        omega
    · rw [fits_cons_below h hfit]
      exact ih h.2.2 ha

theorem fits_eq_empty_of_lastFit (h : Descending lo hi l) (hnone : lastFit len lo hi l = none) :
    fits l lo hi len = ∅ := by
  induction l generalizing hi with
  | nil =>
    rw [lastFit] at hnone
    split_ifs at hnone with hfit
    refine Set.eq_empty_of_forall_notMem ?_
    rintro a ⟨ha, hend, -⟩
    omega
  | cons e l ih =>
    obtain ⟨s, t⟩ := e
    rw [lastFit] at hnone
    split_ifs at hnone with hfit
    rw [fits_cons_below h hfit]
    exact ih h.2.2 hnone

end Zinix.Gaps
