import Mathlib.Data.Finset.Insert

/-!
# Taking one after the other

A supply hands out an element that is not in use, or none. What is in use after a number of
elements have been taken depends on the number alone.
-/

namespace Zinix

variable {α : Type} [DecidableEq α] {pick : Finset α → Option α} {m n : ℕ} {used : Finset α}

/-- What is in use after `n` more elements have been taken. -/
def takeMany (pick : Finset α → Option α) : ℕ → Finset α → Option (Finset α)
  | 0, used => some used
  | n + 1, used => (pick used).bind fun a => takeMany pick n (insert a used)

theorem takeMany_add (m n : ℕ) (used : Finset α) :
    takeMany pick (m + n) used = (takeMany pick m used).bind (takeMany pick n) := by
  induction m generalizing used with
  | zero =>
    rw [Nat.zero_add]
    rfl
  | succ m ih =>
    rw [Nat.succ_add, takeMany, takeMany, Option.bind_assoc]
    congr
    funext a
    exact ih _

theorem takeMany_eq_none_of_le (hle : m ≤ n) (h : takeMany pick m used = none) :
    takeMany pick n used = none := by
  obtain ⟨k, rfl⟩ := Nat.exists_eq_add_of_le hle
  rw [takeMany_add, h, Option.bind_none]

theorem subset_takeMany {used' : Finset α} (h : takeMany pick n used = some used') :
    used ⊆ used' := by
  induction n generalizing used with
  | zero => exact (Option.some.inj h).subset
  | succ n ih =>
    obtain ⟨a, -, h⟩ := Option.bind_eq_some_iff.mp h
    exact (Finset.subset_insert a used).trans (ih h)

end Zinix
