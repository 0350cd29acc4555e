import Mathlib.Data.List.TakeDrop
import Mathlib.Tactic

/-!
# Cursors into a linked list

A cursor stands on an entry of a list, or on the end marker, from which it moves on to the
first entry. The removal of an entry leaves the cursor on the one that followed it.
-/

namespace Zinix

variable {α : Type*}

/-- The entries in front of a cursor, and those from the cursor on. -/
structure Cursor (α : Type*) where
  before : List α
  after : List α
  deriving DecidableEq

inductive Visit where
  | stop
  | remove
  | pass
  deriving DecidableEq

namespace Cursor

def front (l : List α) : Cursor α := ⟨[], l⟩

def toList (c : Cursor α) : List α := c.before ++ c.after

def current (c : Cursor α) : Option α := c.after.head?

def moveNext : Cursor α → Cursor α
  | ⟨before, []⟩ => ⟨[], before⟩
  | ⟨before, x :: after⟩ => ⟨before ++ [x], after⟩

def removeCurrent : Cursor α → Option α × Cursor α
  | ⟨before, []⟩ => (none, ⟨before, []⟩)
  | ⟨before, x :: after⟩ => (some x, ⟨before, after⟩)

/-- A loop that goes on while it stands on an entry. It moves to the next place after every
entry, also after one that it has removed. -/
def seek (visit : α → Visit) : ℕ → Cursor α → Option (Cursor α)
  | 0, _ => none
  | n + 1, c =>
    match c.current with
    | none => some c
    | some x =>
      match visit x with
      | .stop => some c
      | .remove => seek visit n c.removeCurrent.2.moveNext
      | .pass => seek visit n c.moveNext

variable (visit : α → Visit)

def removable (c : Cursor α) : ℕ := c.toList.countP (visit · = .remove)

@[simp] theorem toList_moveNext (c : Cursor α) : c.moveNext.toList = c.toList := by
  obtain ⟨before, _ | ⟨x, after⟩⟩ := c <;> simp [moveNext, toList]

theorem length_after_le (c : Cursor α) : c.after.length ≤ c.toList.length := by
  simp [toList]

variable {visit}

theorem removable_removeCurrent {before after : List α} {x : α} (hx : visit x = .remove) :
    removable visit ⟨before, x :: after⟩ = removable visit ⟨before, after⟩ + 1 := by
  simp only [removable, toList, List.countP_append, List.countP_cons, hx, decide_true, if_true]
  omega

/-- Each turn of the loop removes an entry or comes closer to the end marker. -/
theorem isSome_seek {L n : ℕ} (c : Cursor α) (hL : c.toList.length ≤ L)
    (hn : removable visit c * (L + 1) + c.after.length < n) : (seek visit n c).isSome := by
  induction n generalizing c with
  | zero => omega
  | succ n ih =>
    obtain ⟨before, _ | ⟨x, after⟩⟩ := c
    · rfl
    · simp only [seek, current, List.head?_cons]
      cases hx : visit x with
      | stop => rfl
      | pass =>
        have hsame := toList_moveNext (⟨before, x :: after⟩ : Cursor α)
        apply ih
        · rwa [hsame]
        · rw [removable, hsame]
          exact Nat.lt_of_succ_lt_succ hn
      | remove =>
        have hsame := toList_moveNext (⟨before, after⟩ : Cursor α)
        have hshort : (moveNext (⟨before, after⟩ : Cursor α)).toList.length ≤ L := by
          rw [hsame]
          simp only [toList, List.length_append, List.length_cons] at hL ⊢
          omega
        -- the move may go round to the front, at the price of the entry removed
        have hround := (length_after_le (moveNext ⟨before, after⟩)).trans hshort
        apply ih _ hshort
        have hrest : removable visit (moveNext ⟨before, after⟩) =
            removable visit ⟨before, after⟩ := by
          rw [removable, hsame, removable]
        rw [removable_removeCurrent hx, Nat.succ_mul] at hn
        rw [hrest]
        omega

theorem seek_front (visit : α → Visit) (l : List α) :
    (seek visit ((l.countP (visit · = .remove) + 1) * (l.length + 1)) (front l)).isSome := by
  refine isSome_seek (L := l.length) (front l) le_rfl ?_
  simp only [removable, toList, front, List.nil_append]
  rw [Nat.succ_mul]
  omega

theorem seek_stop {n : ℕ} {before A B : List α} {x : α} (hA : ∀ a ∈ A, visit a = .pass)
    (hx : visit x = .stop) (hn : A.length < n) :
    seek visit n ⟨before, A ++ x :: B⟩ = some ⟨before ++ A, x :: B⟩ := by
  induction A generalizing before n with
  | nil =>
    cases n with
    | zero => omega
    | succ n => simp [seek, current, hx]
  | cons a A ih =>
    cases n with
    | zero => omega
    | succ n =>
      have hrest : ∀ a ∈ A, visit a = .pass := fun b hb => hA b (List.mem_cons_of_mem a hb)
      have hpass := hA a (List.mem_cons_self ..)
      simp only [List.cons_append, seek, current, List.head?_cons, hpass, moveNext]
      rw [ih hrest (Nat.lt_of_succ_lt_succ hn), List.append_assoc, List.singleton_append]

end Cursor

end Zinix
