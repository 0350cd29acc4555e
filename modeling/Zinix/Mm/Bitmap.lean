import Zinix.Lib.Checked

/-!
# The growing bitmap

The bitmap grows by doubling when a position past its capacity is touched. Doubling never
ends on a bitmap without words, which the model records as a computation that does not
return.
-/

namespace Zinix

structure Bitmap where
  inner : List (BitVec 64)
  len : ℕ
  deriving DecidableEq, Repr

namespace Bitmap

variable {pos : ℕ} {b : Bitmap}

def default : Bitmap := { inner := [], len := 0 }

def init (b : Bitmap) (len : ℕ) : Bitmap :=
  let cnt := if len % 64 ≠ 0 then len / 64 + 1 else len / 64
  { inner := b.inner.take cnt ++ List.replicate (cnt - b.inner.length) 0#64, len := len }

def new (len : ℕ) : Bitmap := default.init len

def cap (b : Bitmap) : ℕ := b.inner.length * 64

def expandCapDouble (b : Bitmap) : Bitmap :=
  { b with inner := b.inner ++ List.replicate b.inner.length 0#64 }

theorem cap_expandCapDouble (b : Bitmap) : b.expandCapDouble.cap = 2 * b.cap := by
  simp only [cap, expandCapDouble, List.length_append, List.length_replicate]
  omega

def expandCapFor (b : Bitmap) (pos : ℕ) : Checked Bitmap :=
  if pos < b.cap then .ok b
  else if b.cap = 0 then .error .diverges
  else expandCapFor b.expandCapDouble pos
termination_by pos + 1 - b.cap
decreasing_by
  rw [cap_expandCapDouble]
  omega

def adjustLen (b : Bitmap) (pos : ℕ) : Bitmap :=
  if b.len < pos then { b with len := pos } else b

def word (b : Bitmap) (pos : ℕ) : Checked (BitVec 64) :=
  match b.inner[pos / 64]? with
  | some bits => .ok bits
  | none => .error .outOfBounds

def mask (pos : ℕ) : BitVec 64 := 1#64 <<< (pos % 64)

def set (b : Bitmap) (pos : ℕ) : Checked Bitmap := do
  let b ← if pos < b.cap then .ok b else b.expandCapFor pos
  let bits ← b.word pos
  let b := if bits &&& mask pos = 0#64 then
      { b with inner := b.inner.set (pos / 64) (bits + mask pos) } else b
  return b.adjustLen pos

def clear (b : Bitmap) (pos : ℕ) : Checked Bitmap := do
  let b := b.adjustLen pos
  if b.cap ≤ pos then b.expandCapFor pos
  else
    let bits ← b.word pos
    return { b with inner := b.inner.set (pos / 64) (bits &&& ~~~mask pos) }

/-- Reading may grow the bitmap as well, so the new bitmap is returned. -/
def get (b : Bitmap) (pos : ℕ) : Checked (Bool × Bitmap) := do
  let b := b.adjustLen pos
  if pos < b.cap then
    let bits ← b.word pos
    return (decide (bits &&& mask pos ≠ 0#64), b)
  else
    return (false, ← b.expandCapFor pos)

def turnOver (b : Bitmap) (pos : ℕ) : Checked Bitmap := do
  let b := b.adjustLen pos
  let (isSet, b) ← b.get pos
  if isSet then b.clear pos else b.set pos

/-- The bit at a position; positions past the capacity read as unset. -/
def bit (b : Bitmap) (pos : ℕ) : Bool := (b.inner[pos / 64]?.getD 0#64).getLsbD (pos % 64)

theorem getLsbD_mask (pos i : ℕ) : (mask pos).getLsbD i = decide (i = pos % 64) := by
  have hlt : pos % 64 < 64 := Nat.mod_lt _ (by omega)
  unfold mask
  rw [BitVec.getLsbD_shiftLeft, BitVec.getLsbD_one]
  by_cases h : i = pos % 64
  · subst i
    simp [hlt]
  · by_cases hi : i < pos % 64
    · simp [h, hi]
    · have : i - pos % 64 ≠ 0 := by omega
      simp [h, this]

theorem and_mask_eq_zero (bits : BitVec 64) (pos : ℕ) :
    bits &&& mask pos = 0#64 ↔ bits.getLsbD (pos % 64) = false := by
  have hlt : pos % 64 < 64 := Nat.mod_lt _ (by omega)
  constructor
  · intro h
    have hb := congrArg (fun x => BitVec.getLsbD x (pos % 64)) h
    simpa [getLsbD_mask] using hb
  · intro h
    apply BitVec.eq_of_getLsbD_eq
    intro i hi
    by_cases heq : i = pos % 64
    · subst i
      simp [h]
    · simp [getLsbD_mask, heq]

theorem getLsbD_add_mask {bits : BitVec 64} (h : bits &&& mask pos = 0#64) (i : ℕ) :
    (bits + mask pos).getLsbD i = (bits.getLsbD i || decide (i = pos % 64)) := by
  rw [BitVec.add_eq_or_of_and_eq_zero _ _ h, BitVec.getLsbD_or, getLsbD_mask]

theorem getLsbD_and_not_mask (bits : BitVec 64) (pos i : ℕ) :
    (bits &&& ~~~mask pos).getLsbD i = (bits.getLsbD i && !decide (i = pos % 64)) := by
  rw [BitVec.getLsbD_and, BitVec.getLsbD_not, getLsbD_mask]
  by_cases hi : i < 64
  · simp [hi]
  · have hout : bits.getLsbD i = false := BitVec.getLsbD_of_ge bits i (by omega)
    simp [hout]

@[simp] theorem adjustLen_inner (b : Bitmap) (pos : ℕ) : (b.adjustLen pos).inner = b.inner := by
  unfold adjustLen
  split_ifs <;> rfl

@[simp] theorem adjustLen_cap (b : Bitmap) (pos : ℕ) : (b.adjustLen pos).cap = b.cap := by
  simp [cap]

@[simp] theorem adjustLen_bit (b : Bitmap) (pos p : ℕ) : (b.adjustLen pos).bit p = b.bit p := by
  simp [bit]

theorem word_eq (b : Bitmap) (pos : ℕ) (h : pos < b.cap) :
    ∃ bits, b.inner[pos / 64]? = some bits ∧ b.word pos = .ok bits ∧
      b.bit pos = bits.getLsbD (pos % 64) := by
  have hlt : pos / 64 < b.inner.length := by
    unfold cap at h
    omega
  refine ⟨b.inner[pos / 64], List.getElem?_eq_getElem hlt, ?_, ?_⟩
  · simp [word, List.getElem?_eq_getElem hlt]
  · simp [bit, List.getElem?_eq_getElem hlt]

theorem bit_set_word (h : pos < b.cap) (bits : BitVec 64) (len p : ℕ) :
    (Bitmap.mk (b.inner.set (pos / 64) bits) len).bit p =
      if p / 64 = pos / 64 then bits.getLsbD (p % 64) else b.bit p := by
  have hlt : pos / 64 < b.inner.length := by
    unfold cap at h
    omega
  unfold bit
  by_cases hp : p / 64 = pos / 64
  · simp [hp, hlt]
  · simp [hp, Ne.symm hp]

theorem get_eq (b : Bitmap) (pos : ℕ) (h : pos < b.cap) :
    b.get pos = .ok (b.bit pos, b.adjustLen pos) := by
  obtain ⟨bits, _, hword, hbit⟩ := word_eq (b.adjustLen pos) pos (by simpa using h)
  rw [adjustLen_bit] at hbit
  simp only [get, adjustLen_cap, h, if_true, hword, Checked.ok_bind, Checked.pure_eq, hbit]
  congr 2
  rw [← Bool.coe_iff_coe]
  simp only [decide_eq_true_eq]
  rw [Ne, and_mask_eq_zero, Bool.not_eq_false]

theorem split_pos (p pos : ℕ) : p = pos ↔ p / 64 = pos / 64 ∧ p % 64 = pos % 64 := by omega

theorem clear_spec (h : pos < b.cap) :
    ∃ b', b.clear pos = .ok b' ∧ b'.cap = b.cap ∧
      ∀ p, b'.bit p = if p = pos then false else b.bit p := by
  obtain ⟨bits, hget, hword, _⟩ := word_eq (b.adjustLen pos) pos (by simpa using h)
  refine ⟨⟨(b.adjustLen pos).inner.set (pos / 64) (bits &&& ~~~mask pos), (b.adjustLen pos).len⟩,
    ?_, ?_, ?_⟩
  · simp only [clear, adjustLen_cap, show ¬b.cap ≤ pos by omega, if_false, hword,
      Checked.ok_bind, Checked.pure_eq]
  · simp [cap]
  · intro p
    rw [bit_set_word (by simpa using h), adjustLen_bit, getLsbD_and_not_mask]
    simp only [split_pos p pos]
    by_cases hp : p / 64 = pos / 64
    · by_cases hm : p % 64 = pos % 64
      · simp [hp, hm]
      · simp only [hp, hm, if_true, and_false, if_false, decide_false, Bool.not_false,
          Bool.and_true]
        rw [← adjustLen_bit b pos p, bit, hp, hget]
        rfl
    · simp [hp]

theorem set_spec (h : pos < b.cap) :
    ∃ b', b.set pos = .ok b' ∧ b'.cap = b.cap ∧
      ∀ p, b'.bit p = if p = pos then true else b.bit p := by
  obtain ⟨bits, hget, hword, hbit⟩ := word_eq b pos h
  by_cases hz : bits &&& mask pos = 0#64
  · refine ⟨adjustLen ⟨b.inner.set (pos / 64) (bits + mask pos), b.len⟩ pos, ?_, ?_, ?_⟩
    · simp only [set, h, if_true, Checked.ok_bind, hword, hz, Checked.pure_eq]
    · simp [cap]
    · intro p
      rw [adjustLen_bit, bit_set_word h, getLsbD_add_mask hz]
      simp only [split_pos p pos]
      by_cases hp : p / 64 = pos / 64
      · by_cases hm : p % 64 = pos % 64
        · simp [hp, hm]
        · simp only [hp, hm, if_true, and_false, if_false, decide_false, Bool.or_false]
          rw [bit, hp, hget]
          rfl
      · simp [hp]
  · refine ⟨b.adjustLen pos, ?_, by simp, ?_⟩
    · simp only [set, h, if_true, Checked.ok_bind, hword, hz, if_false, Checked.pure_eq]
    · intro p
      rw [adjustLen_bit]
      split_ifs with hp
      · subst p
        rw [and_mask_eq_zero, Bool.not_eq_false] at hz
        rw [hbit, hz]
      · rfl

theorem turnOver_spec (h : pos < b.cap) :
    ∃ b', b.turnOver pos = .ok b' ∧ b'.cap = b.cap ∧
      ∀ p, b'.bit p = if p = pos then !b.bit p else b.bit p := by
  have hcap : pos < ((b.adjustLen pos).adjustLen pos).cap := by simpa using h
  have hget := get_eq (b.adjustLen pos) pos (by simpa using h)
  rw [adjustLen_bit] at hget
  cases hbit : b.bit pos with
  | true =>
    obtain ⟨b', hb', hcap', hbits⟩ := clear_spec hcap
    refine ⟨b', ?_, by simpa using hcap', ?_⟩
    · simp only [turnOver, hget, hbit, Checked.ok_bind, if_true, hb']
    · intro p
      rw [hbits]
      split_ifs with hp
      · subst p
        simp [hbit]
      · simp
  | false =>
    obtain ⟨b', hb', hcap', hbits⟩ := set_spec hcap
    refine ⟨b', ?_, by simpa using hcap', ?_⟩
    · simp only [turnOver, hget, hbit, Checked.ok_bind, Bool.false_eq_true, if_false, hb']
    · intro p
      rw [hbits]
      split_ifs with hp
      · subst p
        simp [hbit]
      · simp

theorem new_inner (len : ℕ) : (new len).inner = List.replicate ((len + 63) / 64) 0#64 := by
  have hcnt : (if len % 64 ≠ 0 then len / 64 + 1 else len / 64) = (len + 63) / 64 := by
    split_ifs <;> omega
  simp only [new, init, default, hcnt, List.take_nil, List.nil_append, List.length_nil,
    Nat.sub_zero]

theorem le_cap_new (len : ℕ) : len ≤ (new len).cap := by
  rw [cap, new_inner, List.length_replicate]
  omega

theorem bit_new (len p : ℕ) : (new len).bit p = false := by
  rw [bit, new_inner, List.getElem?_replicate]
  split_ifs <;> simp

end Bitmap

end Zinix
