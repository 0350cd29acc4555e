import Mathlib.Tactic

/-!
# Checked machine arithmetic

A computation either returns a value or stops with a panic. The word operations panic on
overflow, as the development profile of the compiler makes them do.
-/

namespace Zinix

variable {a b c : ℕ}

/-- The ways in which a computation stops without returning. -/
inductive Panic where
  | overflow
  | divByZero
  | outOfBounds
  | unwrapNone
  | assertion
  | todo
  | outOfMemory
  | diverges
  | explicit (msg : String)
  deriving DecidableEq, Repr

/-- Either a returned value or the panic that ended the computation. -/
abbrev Checked (α : Type) := Except Panic α

namespace Checked

variable {α β : Type}
  {x : Checked α} {f : α → Checked β} {b : β} {e : Panic} {p : Prop} {a : α}

@[simp] theorem ok_bind (a : α) (f : α → Checked β) : (Except.ok a >>= f) = f a := rfl

@[simp] theorem error_bind (e : Panic) (f : α → Checked β) :
    ((Except.error e : Checked α) >>= f) = Except.error e := rfl

@[simp] theorem pure_eq (a : α) : (pure a : Checked α) = Except.ok a := rfl

@[simp] theorem throw_eq (e : Panic) : (throw e : Checked α) = Except.error e := rfl

theorem bind_eq_ok :
    (x >>= f) = .ok b ↔ ∃ a, x = .ok a ∧ f a = .ok b := by
  cases x with
  | error e => simp
  | ok a => simp

theorem bind_eq_error :
    (x >>= f) = .error e ↔ x = .error e ∨ ∃ a, x = .ok a ∧ f a = .error e := by
  cases x with
  | error e' => simp
  | ok a => simp

theorem map_eq_ok {f : α → β} :
    x.map f = .ok b ↔ ∃ a, x = .ok a ∧ f a = b := by
  cases x with
  | error e => simp [Except.map]
  | ok a => simp [Except.map]

/-- Stop with the given panic unless the condition holds. -/
def ensure (p : Prop) [Decidable p] (e : Panic) : Checked Unit :=
  if p then .ok () else .error e

@[simp] theorem ensure_pos [Decidable p] (h : p) :
    ensure p e = .ok () := if_pos h

@[simp] theorem ensure_neg [Decidable p] (h : ¬p) :
    ensure p e = .error e := if_neg h

theorem ensure_eq_ok [Decidable p] {u : Unit} :
    ensure p e = .ok u ↔ p := by
  unfold ensure
  split_ifs with h <;> simp [h]

/-- The content of an option, or the panic of an `unwrap`. -/
def unwrap : Option α → Checked α
  | some a => .ok a
  | none => .error .unwrapNone

@[simp] theorem unwrap_some (a : α) : unwrap (some a) = .ok a := rfl

@[simp] theorem unwrap_none : (unwrap none : Checked α) = .error .unwrapNone := rfl

theorem unwrap_eq_ok {o : Option α} : unwrap o = .ok a ↔ o = some a := by
  cases o <;> simp

theorem exists_of_isOk (h : x.isOk = true) : ∃ a, x = .ok a := by
  cases x with
  | error e => cases h
  | ok a => exact ⟨a, rfl⟩

theorem eq_ok_of_toOption (h : x.toOption = some a) : x = .ok a := by
  cases x with
  | error e => cases h
  | ok b => rw [Option.some.inj h]

def Avoids (x : Checked α) (e : Panic) : Prop := ∀ e', x = .error e' → e' ≠ e

section Avoids

variable {e e' : Panic}

theorem avoids_ok (a : α) : Avoids (.ok a) e := nofun

theorem avoids_error (h : e' ≠ e) : Avoids (.error e' : Checked α) e := by
  rintro _ ⟨⟩
  exact h

theorem Avoids.bind {x : Checked α} {f : α → Checked β} (hx : Avoids x e)
    (hf : ∀ a, Avoids (f a) e) : Avoids (x >>= f) e := by
  cases x with
  | error e' => exact avoids_error (hx e' rfl)
  | ok a => exact hf a

theorem avoids_ensure {p : Prop} [Decidable p] (h : e' ≠ e) : Avoids (ensure p e') e := by
  unfold ensure
  split_ifs
  · exact avoids_ok ()
  · exact avoids_error h

theorem avoids_unwrap (o : Option α) (h : .unwrapNone ≠ e) : Avoids (unwrap o) e := by
  cases o with
  | none => exact avoids_error h
  | some a => exact avoids_ok a

end Avoids

end Checked

def wordSize : ℕ := 2 ^ 64

def addUsize (a b : ℕ) : Checked ℕ :=
  if a + b < wordSize then .ok (a + b) else .error .overflow

def subUsize (a b : ℕ) : Checked ℕ :=
  if b ≤ a then .ok (a - b) else .error .overflow

def mulUsize (a b : ℕ) : Checked ℕ :=
  if a * b < wordSize then .ok (a * b) else .error .overflow

def divUsize (a b : ℕ) : Checked ℕ :=
  if b = 0 then .error .divByZero else .ok (a / b)

def remUsize (a b : ℕ) : Checked ℕ :=
  if b = 0 then .error .divByZero else .ok (a % b)

theorem addUsize_ok (h : a + b < wordSize) : addUsize a b = .ok (a + b) := if_pos h

theorem addUsize_overflow (h : wordSize ≤ a + b) :
    addUsize a b = .error .overflow := if_neg (by omega)

theorem addUsize_eq_ok : addUsize a b = .ok c ↔ a + b < wordSize ∧ c = a + b := by
  unfold addUsize
  split_ifs with h <;> simp [h, eq_comm]

theorem subUsize_ok (h : b ≤ a) : subUsize a b = .ok (a - b) := if_pos h

theorem subUsize_eq_ok : subUsize a b = .ok c ↔ b ≤ a ∧ c = a - b := by
  unfold subUsize
  split_ifs with h <;> simp [h, eq_comm]

theorem mulUsize_ok (h : a * b < wordSize) : mulUsize a b = .ok (a * b) := if_pos h

theorem divUsize_ok (h : b ≠ 0) : divUsize a b = .ok (a / b) := if_neg h

theorem remUsize_ok (h : b ≠ 0) : remUsize a b = .ok (a % b) := if_neg h

section Avoids

variable {a b : ℕ} {e : Panic} (h : .overflow ≠ e)

include h

theorem avoids_addUsize : (addUsize a b).Avoids e := by
  unfold addUsize
  split_ifs
  · exact Checked.avoids_ok _
  · exact Checked.avoids_error h

theorem avoids_subUsize : (subUsize a b).Avoids e := by
  unfold subUsize
  split_ifs
  · exact Checked.avoids_ok _
  · exact Checked.avoids_error h

theorem avoids_mulUsize : (mulUsize a b).Avoids e := by
  unfold mulUsize
  split_ifs
  · exact Checked.avoids_ok _
  · exact Checked.avoids_error h

end Avoids

end Zinix
