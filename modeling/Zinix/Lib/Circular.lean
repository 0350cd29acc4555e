import Mathlib.Tactic

/-!
# Windows of a circular array

The window of length `len` that starts at `head` lists the cells met by walking forward and
wrapping at the end.
-/

namespace Zinix.Circular

variable {α : Type} {n : ℕ}
  {i head : Fin n} {j k len : ℕ} {arr : Fin n → α}

/-- The cell `k` places after `i`, wrapping at the end. -/
def advance (i : Fin n) (k : ℕ) : Fin n := ⟨(i + k) % n, Nat.mod_lt _ i.pos⟩

@[simp] theorem advance_zero (i : Fin n) : advance i 0 = i :=
  Fin.ext (Nat.mod_eq_of_lt i.isLt)

theorem advance_advance (i : Fin n) (j k : ℕ) : advance (advance i j) k = advance i (j + k) := by
  apply Fin.ext
  simp only [advance, Nat.mod_add_mod, Nat.add_assoc]

@[simp] theorem advance_size (i : Fin n) : advance i n = i := by
  apply Fin.ext
  simp only [advance, Nat.add_mod_right, Nat.mod_eq_of_lt i.isLt]

theorem advance_ne (hjk : j < k) (hk : k < j + n) :
    advance i j ≠ advance i k := by
  intro h
  have hmod : (i + j) % n = (i + k) % n := congrArg Fin.val h
  have hdvd := (Nat.modEq_iff_dvd' (by omega)).mp hmod
  rw [show (i : ℕ) + k - (i + j) = k - j by omega] at hdvd
  have := Nat.le_of_dvd (by omega) hdvd
  omega

theorem advance_injOn (hj : j < n) (hk : k < n) (h : advance i j = advance i k) : j = k := by
  rcases Nat.lt_trichotomy j k with hlt | heq | hgt
  · exact absurd h (advance_ne hlt (by omega))
  · exact heq
  · exact absurd h.symm (advance_ne hgt (by omega))

/-- The cells from `head` on, in order. -/
def window (arr : Fin n → α) (head : Fin n) : ℕ → List α
  | 0 => []
  | len + 1 => arr head :: window arr (advance head 1) len

@[simp] theorem length_window (arr : Fin n → α) (head : Fin n) (len : ℕ) :
    (window arr head len).length = len := by
  induction len generalizing head with
  | zero => rfl
  | succ len ih => rw [window, List.length_cons, ih]

theorem window_congr {arr' : Fin n → α}
    (h : ∀ k < len, arr (advance head k) = arr' (advance head k)) :
    window arr head len = window arr' head len := by
  induction len generalizing head with
  | zero => rfl
  | succ len ih =>
    have hfirst := h 0 (by omega)
    rw [advance_zero] at hfirst
    rw [window, window, hfirst, ih]
    intro k hk
    rw [advance_advance, Nat.add_comm]
    exact h (k + 1) (by omega)

theorem window_succ (arr : Fin n → α) (head : Fin n) (len : ℕ) :
    window arr head (len + 1) = window arr head len ++ [arr (advance head len)] := by
  induction len generalizing head with
  | zero => simp [window]
  | succ len ih =>
    rw [window, ih (advance head 1), advance_advance, window, List.cons_append, Nat.add_comm 1 len]

/-- Writing the cell just past a window that is not full appends the value. -/
theorem window_update (hlen : len < n) (a : α) :
    window (Function.update arr (advance head len) a) head (len + 1) =
      window arr head len ++ [a] := by
  rw [window_succ, Function.update_self]
  congr 1
  apply window_congr
  intro k hk
  exact Function.update_of_ne (advance_ne hk (by omega)) _ _

end Zinix.Circular
