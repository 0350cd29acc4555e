import Zinix.Lib.Checked

/-!
# Transfers in parts

A loop that is to fill or to empty a buffer asks again and again for the part that is
missing, until an answer is zero. What is kept by every answer holds of the whole.
-/

namespace Zinix.Transfer

inductive Ending where
  | full
  | dry
  | failed
  deriving DecidableEq

section Loop

variable {τ : Type} (ask : ℕ → τ → Checked (Option ℕ × τ)) (len : ℕ)
  {s : τ}

/-- The loop that has transferred `k` of `len` items; the first argument is the number of
rounds it may still take. -/
def loop : ℕ → ℕ → τ → Checked (Ending × ℕ × τ)
  | 0, _, _ => throw .diverges
  | n + 1, k, s =>
    if k < len then do
      match ← ask k s with
      | (none, s) => return (.failed, k, s)
      | (some m, s) =>
        if m = 0 then
          return (.dry, k, s)
        else
          let k ← addUsize k m
          loop n k s
    else
      return (.full, k, s)

variable (P Dry Failed : ℕ → τ → Prop)

/-- What an answer may be after `k` items, if `P` is to hold after each part. -/
inductive Answered (k : ℕ) : Option ℕ × τ → Prop where
  | failed {s : τ} (h : Failed k s) : Answered k (none, s)
  | dry {s : τ} (h : Dry k s) : Answered k (some 0, s)
  | part {s : τ} {m : ℕ} (hpos : 0 < m) (hle : k + m ≤ len) (hfit : k + m < wordSize)
      (h : P (k + m) s) : Answered k (some m, s)

inductive Ended : Ending × ℕ × τ → Prop where
  | full {s : τ} (h : P len s) : Ended (.full, len, s)
  | dry {k : ℕ} {s : τ} (hlt : k < len) (h : Dry k s) : Ended (.dry, k, s)
  | failed {k : ℕ} {s : τ} (hlt : k < len) (h : Failed k s) : Ended (.failed, k, s)

variable {ask len P Dry Failed}

/-- The loop ends, since every round transfers something or is the last one. -/
theorem loop_spec {k : ℕ}
    (hask : ∀ k s, k < len → P k s → ∃ r, ask k s = .ok r ∧ Answered len P Dry Failed k r)
    (hP : P k s) (hk : k ≤ len) {rounds : ℕ} (hrounds : len - k < rounds) :
    ∃ e, loop ask len rounds k s = .ok e ∧ Ended len P Dry Failed e := by
  induction rounds generalizing k s with
  | zero => omega
  | succ n ih =>
    rw [loop]
    by_cases hlt : k < len
    · obtain ⟨r, hr, hans⟩ := hask k s hlt hP
      rw [if_pos hlt, hr, Checked.ok_bind]
      cases hans with
      | failed h => exact ⟨_, rfl, .failed hlt h⟩
      | dry h => exact ⟨_, rfl, .dry hlt h⟩
      | part hpos hle hfit h =>
        obtain ⟨e, he, hended⟩ := ih h hle (by omega)
        refine ⟨e, ?_, hended⟩
        rw [← he]
        simp only [hpos.ne', if_false, addUsize_ok hfit, Checked.ok_bind]
    · obtain rfl : k = len := by omega
      rw [if_neg hlt]
      exact ⟨_, rfl, .full hP⟩

theorem loop_spec_zero
    (hask : ∀ k s, k < len → P k s → ∃ r, ask k s = .ok r ∧ Answered len P Dry Failed k r)
    (hP : P 0 s) : ∃ e, loop ask len (len + 1) 0 s = .ok e ∧ Ended len P Dry Failed e :=
  loop_spec hask hP (Nat.zero_le _) (by omega)

end Loop

section PutAt

variable {α : Type*}

/-- The items `ys` in place of those from `i` on. -/
def putAt (xs : List α) (i : ℕ) (ys : List α) : List α :=
  xs.take i ++ ys ++ xs.drop (i + ys.length)

variable {xs ys zs : List α} {i : ℕ}

@[simp] theorem putAt_nil (xs : List α) (i : ℕ) : putAt xs i [] = xs := by
  simp [putAt]

theorem length_putAt (h : i ≤ xs.length) :
    (putAt xs i ys).length = max xs.length (i + ys.length) := by
  simp only [putAt, List.length_append, List.length_take, List.length_drop]
  omega

theorem getElem?_putAt (h : i ≤ xs.length) (j : ℕ) : (putAt xs i ys)[j]? =
    if i ≤ j ∧ j < i + ys.length then ys[j - i]? else xs[j]? := by
  have hlen : (xs.take i).length = i := by
    rw [List.length_take, min_eq_left h]
  rw [putAt, List.append_assoc, List.getElem?_append, hlen]
  by_cases hlt : j < i
  · rw [if_pos hlt, if_neg (by omega), List.getElem?_take_of_lt hlt]
  · rw [if_neg hlt, List.getElem?_append]
    by_cases hin : j - i < ys.length
    · rw [if_pos hin, if_pos (by omega)]
    · rw [if_neg hin, if_neg (by omega), List.getElem?_drop,
        show i + ys.length + (j - i - ys.length) = j by omega]

theorem putAt_eq_self_iff (h : i ≤ xs.length) : putAt xs i ys = xs ↔
    i + ys.length ≤ xs.length ∧ ∀ j < ys.length, xs[i + j]? = ys[j]? := by
  constructor
  · intro heq
    have hlen : (putAt xs i ys).length = max xs.length (i + ys.length) := length_putAt h
    rw [heq] at hlen
    refine ⟨by omega, fun j hj => ?_⟩
    calc xs[i + j]? = (putAt xs i ys)[i + j]? := by rw [heq]
      _ = ys[j]? := by rw [getElem?_putAt h, if_pos (by omega), Nat.add_sub_cancel_left]
  · rintro ⟨-, hsame⟩
    apply List.ext_getElem?
    intro j
    rw [getElem?_putAt h]
    split_ifs with hin
    · rw [← hsame (j - i) (by omega), Nat.add_sub_cancel' hin.1]
    · rfl

theorem putAt_eq_set {j : ℕ} {y : α} (h : i + ys.length ≤ xs.length) (hy : ys[j]? = some y)
    (hsame : ∀ k < ys.length, k ≠ j → xs[i + k]? = ys[k]?) :
    putAt xs i ys = xs.set (i + j) y := by
  obtain ⟨hj, -⟩ := List.getElem?_eq_some_iff.mp hy
  apply List.ext_getElem?
  intro k
  rw [getElem?_putAt (by omega), List.getElem?_set]
  by_cases hk : i + j = k
  · rw [if_pos hk, if_pos (by omega), if_pos (by omega), ← hk, Nat.add_sub_cancel_left, hy]
  · rw [if_neg hk]
    split_ifs with hin
    · rw [← hsame (k - i) (by omega) (by omega), Nat.add_sub_cancel' hin.1]
    · rfl

theorem putAt_putAt (h : i ≤ xs.length) :
    putAt (putAt xs i ys) (i + ys.length) zs = putAt xs i (ys ++ zs) := by
  have hlen : (xs.take i ++ ys).length = i + ys.length := by
    rw [List.length_append, List.length_take]
    omega
  rw [putAt, putAt, putAt, ← hlen, List.take_left, List.drop_append,
    List.drop_of_length_le (Nat.le_add_right _ _), List.nil_append, Nat.add_sub_cancel_left,
    List.drop_drop, hlen, List.length_append, Nat.add_assoc, List.append_assoc (xs.take i)]

end PutAt

end Zinix.Transfer
