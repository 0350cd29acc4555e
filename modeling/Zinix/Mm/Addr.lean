import Zinix.Lib.Checked

/-!
# Addresses and page arithmetic

`floor` computes a sum that it never uses, and `AddrIterator.next` advances its cursor
before the caller looks at the item; both overflow near the top of the address space.
-/

namespace Zinix

variable {order : ℕ}

def pageSize : ℕ := 4096

def maxOrder : ℕ := 11

def order2pages (order : ℕ) : ℕ := if order < maxOrder then 1 <<< order else 0

theorem order2pages_of_lt (h : order < maxOrder) : order2pages order = 2 ^ order := by
  rw [order2pages, if_pos h, Nat.one_shiftLeft]

theorem order2pages_pos (h : order < maxOrder) : 0 < order2pages order := by
  rw [order2pages_of_lt h]
  positivity

namespace Vaddr

variable {a b : ℕ} {e : Panic}

def isAlign (a : ℕ) : Bool := a % pageSize == 0

def floor (a : ℕ) : Checked ℕ := do
  let _m ← addUsize a pageSize
  mulUsize (a / pageSize) pageSize

def ceil (a : ℕ) : Checked ℕ := do
  if isAlign a then floor a
  else addUsize (← floor a) pageSize

def down (a : ℕ) : ℕ := a / pageSize * pageSize

def up (a : ℕ) : ℕ := (a + (pageSize - 1)) / pageSize * pageSize

theorem floor_eq (h : a + pageSize < wordSize) : floor a = .ok (down a) := by
  have hle : a / pageSize * pageSize ≤ a := Nat.div_mul_le_self a pageSize
  rw [floor, addUsize_ok h, Checked.ok_bind, mulUsize_ok (by omega), down]

theorem floor_overflow (h : wordSize ≤ a + pageSize) :
    floor a = .error .overflow := by
  rw [floor, addUsize_overflow h, Checked.error_bind]

theorem down_le (a : ℕ) : down a ≤ a := Nat.div_mul_le_self a pageSize

theorem le_up (a : ℕ) : a ≤ up a := by
  simp only [up, pageSize]
  omega

theorem down_mod (a : ℕ) : down a % pageSize = 0 := Nat.mul_mod_left _ _

theorem up_mod (a : ℕ) : up a % pageSize = 0 := Nat.mul_mod_left _ _

theorem up_of_aligned (h : a % pageSize = 0) : up a = down a := by
  simp only [down, up, pageSize] at h ⊢
  omega

theorem up_of_unaligned (h : a % pageSize ≠ 0) : up a = down a + pageSize := by
  simp only [down, up, pageSize] at h ⊢
  omega

theorem ceil_eq (h : a + pageSize < wordSize) : ceil a = .ok (up a) := by
  unfold ceil isAlign
  by_cases ha : a % pageSize = 0
  · simp only [ha, beq_self_eq_true, if_true]
    rw [floor_eq h, up_of_aligned ha]
  · have hb : (a % pageSize == 0) = false := by simpa using ha
    have hle := down_le a
    simp only [hb, Bool.false_eq_true, if_false]
    rw [floor_eq h, Checked.ok_bind, addUsize_ok (by omega), up_of_unaligned ha]

theorem floor_eq_ok (h : floor a = .ok b) : a + pageSize < wordSize ∧ b = down a := by
  by_cases hfit : a + pageSize < wordSize
  · rw [floor_eq hfit] at h
    exact ⟨hfit, (Except.ok.inj h).symm⟩
  · rw [floor_overflow (by omega)] at h
    cases h

theorem ceil_eq_ok (h : ceil a = .ok b) : a + pageSize < wordSize ∧ b = up a := by
  by_cases hfit : a + pageSize < wordSize
  · rw [ceil_eq hfit] at h
    exact ⟨hfit, (Except.ok.inj h).symm⟩
  · unfold ceil at h
    rw [floor_overflow (by omega), Checked.error_bind] at h
    split_ifs at h

theorem avoids_floor (h : .overflow ≠ e) : (floor a).Avoids e :=
  (avoids_addUsize h).bind fun _ => avoids_mulUsize h

theorem avoids_ceil (h : .overflow ≠ e) : (ceil a).Avoids e := by
  unfold ceil
  split_ifs
  · exact avoids_floor h
  · exact (avoids_floor h).bind fun _ => avoids_addUsize h

end Vaddr

/-- The cursor of a stepwise walk over an address range. -/
structure AddrIterator where
  step : ℕ
  cur : ℕ
  last : ℕ
  deriving DecidableEq, Repr

namespace AddrIterator

variable {it : AddrIterator}

def next (it : AddrIterator) : Checked (Option ℕ × AddrIterator) :=
  if it.cur < it.last then do
    let cur ← addUsize it.cur it.step
    return (some it.cur, { it with cur := cur })
  else return (none, it)

theorem next_done (h : it.last ≤ it.cur) : it.next = .ok (none, it) := by
  rw [next, if_neg (by omega)]
  rfl

theorem next_item (h : it.cur < it.last) (hfit : it.cur + it.step < wordSize) :
    it.next = .ok (some it.cur, { it with cur := it.cur + it.step }) := by
  rw [next, if_pos h, addUsize_ok hfit]
  rfl

theorem next_overflow (h : it.cur < it.last) (hfit : wordSize ≤ it.cur + it.step) :
    it.next = .error .overflow := by
  rw [next, if_pos h, addUsize_overflow hfit]
  rfl

theorem next_some {it' : AddrIterator} {j : ℕ} (h : it.next = .ok (some j, it')) :
    it.cur < it.last ∧ it'.cur = it.cur + it.step ∧ it'.step = it.step ∧ it'.last = it.last := by
  unfold next at h
  split_ifs at h with hlt
  · obtain ⟨c, hc, hret⟩ := Checked.bind_eq_ok.mp h
    have hcur := (addUsize_eq_ok.mp hc).2
    simp only [Checked.pure_eq, Except.ok.injEq, Prod.mk.injEq, Option.some.injEq] at hret
    obtain ⟨_, rfl⟩ := hret
    exact ⟨hlt, hcur, rfl, rfl⟩
  · simp at h

end AddrIterator

namespace Vaddr

end Vaddr

end Zinix
