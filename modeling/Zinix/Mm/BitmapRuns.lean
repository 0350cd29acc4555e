import Zinix.Mm.Bitmap

/-!
# Runs of a bitmap

A bitmap with at least one word is a set of positions. A bitmap without words never grows.
-/

namespace Zinix

inductive BitmapOp where
  | set (pos : ℕ)
  | clear (pos : ℕ)
  | get (pos : ℕ)
  | turnOver (pos : ℕ)

/-- What an operation leaves of position `p`. -/
def BitmapOp.leaves (p : ℕ) (isSet : Bool) : BitmapOp → Bool
  | .set pos => if p = pos then true else isSet
  | .clear pos => if p = pos then false else isSet
  | .get _ => isSet
  | .turnOver pos => if p = pos then !isSet else isSet

inductive BitmapCall where
  | op (o : BitmapOp)
  | expandCapFor (pos : ℕ)
  | init (len : ℕ)

namespace Bitmap

variable {b b' : Bitmap}

def exec (b : Bitmap) : BitmapOp → Checked Bitmap
  | .set pos => b.set pos
  | .clear pos => b.clear pos
  | .get pos => do return (← b.get pos).2
  | .turnOver pos => b.turnOver pos

def call (b : Bitmap) : BitmapCall → Checked Bitmap
  | .op o => b.exec o
  | .expandCapFor pos => b.expandCapFor pos
  | .init len => return b.init len

section Grow

variable {b : Bitmap} {pos : ℕ}

theorem bit_expandCapDouble (b : Bitmap) (p : ℕ) : b.expandCapDouble.bit p = b.bit p := by
  unfold bit expandCapDouble
  by_cases hp : p / 64 < b.inner.length
  · rw [List.getElem?_append_left hp]
  · have hp := Nat.not_lt.mp hp
    rw [List.getElem?_append_right hp, List.getElem?_eq_none hp, List.getElem?_replicate]
    split_ifs <;> rfl

/-- A bitmap with words grows until the position is in it, and nothing else changes. -/
theorem expandCapFor_spec (h : 0 < b.cap) (pos : ℕ) : ∃ b', b.expandCapFor pos = .ok b' ∧
    pos < b'.cap ∧ 0 < b'.cap ∧ ∀ p, b'.bit p = b.bit p := by
  fun_induction expandCapFor b pos with
  | case1 b hpos => exact ⟨b, rfl, hpos, h, fun _ => rfl⟩
  | case2 b hpos hzero => omega
  | case3 b hpos hzero ih =>
    obtain ⟨b', hrun, hpos', hcap, hbit⟩ := ih (by rw [cap_expandCapDouble]; omega)
    exact ⟨b', hrun, hpos', hcap, fun p => (hbit p).trans (bit_expandCapDouble b p)⟩

theorem expandCapFor_empty (h : b.cap = 0) : b.expandCapFor pos = .error .diverges := by
  unfold expandCapFor
  rw [if_neg (by omega), if_pos h]

theorem bit_of_cap_le (h : b.cap ≤ pos) : b.bit pos = false := by
  have hout : b.inner.length ≤ pos / 64 := by
    unfold cap at h
    omega
  rw [bit, List.getElem?_eq_none hout, Option.getD_none, BitVec.getLsbD_zero]

theorem get_any (h : 0 < b.cap) (pos : ℕ) : ∃ b', b.get pos = .ok (b.bit pos, b') ∧
    pos < b'.cap ∧ ∀ p, b'.bit p = b.bit p := by
  by_cases hpos : pos < b.cap
  · exact ⟨_, get_eq b pos hpos, by simpa using hpos, fun p => adjustLen_bit b pos p⟩
  · obtain ⟨b', hrun, hpos', -, hbit⟩ :=
      expandCapFor_spec (b := b.adjustLen pos) (by simpa using h) pos
    refine ⟨b', ?_, hpos', fun p => (hbit p).trans (adjustLen_bit b pos p)⟩
    rw [get, adjustLen_cap, if_neg hpos, hrun, bit_of_cap_le (Nat.not_lt.mp hpos)]
    rfl

theorem set_any (h : 0 < b.cap) (pos : ℕ) : ∃ b', b.set pos = .ok b' ∧ 0 < b'.cap ∧
    ∀ p, b'.bit p = if p = pos then true else b.bit p := by
  by_cases hpos : pos < b.cap
  · obtain ⟨b', hrun, hcap, hbit⟩ := set_spec hpos
    exact ⟨b', hrun, by omega, hbit⟩
  · obtain ⟨b₁, hgrow, hpos₁, hcap₁, hbit₁⟩ := expandCapFor_spec h pos
    obtain ⟨b', hrun, hcap, hbit⟩ := set_spec hpos₁
    refine ⟨b', ?_, by omega, fun p => by rw [hbit, hbit₁]⟩
    rw [← hrun, set, set, if_neg hpos, if_pos hpos₁, hgrow]

theorem clear_any (h : 0 < b.cap) (pos : ℕ) : ∃ b', b.clear pos = .ok b' ∧ 0 < b'.cap ∧
    ∀ p, b'.bit p = if p = pos then false else b.bit p := by
  by_cases hpos : pos < b.cap
  · obtain ⟨b', hrun, hcap, hbit⟩ := clear_spec hpos
    exact ⟨b', hrun, by omega, hbit⟩
  · have hle := Nat.not_lt.mp hpos
    obtain ⟨b', hrun, -, hcap, hbit⟩ :=
      expandCapFor_spec (b := b.adjustLen pos) (by simpa using h) pos
    refine ⟨b', ?_, hcap, fun p => ?_⟩
    · rw [clear, adjustLen_cap, if_pos hle, hrun]
    · rw [hbit, adjustLen_bit]
      split_ifs with hp
      · rw [hp, bit_of_cap_le hle]
      · rfl

theorem turnOver_any (h : 0 < b.cap) (pos : ℕ) : ∃ b', b.turnOver pos = .ok b' ∧ 0 < b'.cap ∧
    ∀ p, b'.bit p = if p = pos then !b.bit p else b.bit p := by
  obtain ⟨b₁, hget, hpos, hbit₁⟩ := get_any (b := b.adjustLen pos) (by simpa using h) pos
  simp only [adjustLen_bit] at hget hbit₁
  cases hbit : b.bit pos with
  | true =>
    obtain ⟨b', hrun, hcap, hclear⟩ := clear_spec hpos
    refine ⟨b', ?_, by omega, fun p => ?_⟩
    · simp only [turnOver, hget, hbit, Checked.ok_bind, if_true, hrun]
    · rw [hclear, hbit₁]
      split_ifs with hp
      · rw [hp, hbit, Bool.not_true]
      · rfl
  | false =>
    obtain ⟨b', hrun, hcap, hset⟩ := set_spec hpos
    refine ⟨b', ?_, by omega, fun p => ?_⟩
    · simp only [turnOver, hget, hbit, Checked.ok_bind, Bool.false_eq_true, if_false, hrun]
    · rw [hset, hbit₁]
      split_ifs with hp
      · rw [hp, hbit, Bool.not_false]
      · rfl

theorem exec_spec (h : 0 < b.cap) (o : BitmapOp) : ∃ b', b.exec o = .ok b' ∧ 0 < b'.cap ∧
    ∀ p, b'.bit p = o.leaves p (b.bit p) := by
  cases o with
  | set pos => exact set_any h pos
  | clear pos => exact clear_any h pos
  | get pos =>
    obtain ⟨b', hrun, hpos, hbit⟩ := get_any h pos
    refine ⟨b', ?_, by omega, hbit⟩
    rw [exec, hrun]
    rfl
  | turnOver pos => exact turnOver_any h pos

end Grow

theorem cap_new (len : ℕ) : (new len).cap = (len + 63) / 64 * 64 := by
  rw [cap, new_inner, List.length_replicate]

theorem run_spec (h : 0 < b.cap) (ops : List BitmapOp) :
    ∃ b', ops.foldlM exec b = .ok b' ∧ 0 < b'.cap ∧
      ∀ p, b'.bit p = ops.foldl (BitmapOp.leaves p) (b.bit p) := by
  induction ops generalizing b with
  | nil => exact ⟨b, rfl, h, fun _ => rfl⟩
  | cons o ops ih =>
    obtain ⟨b₁, hrun₁, hcap₁, hbit₁⟩ := exec_spec h o
    obtain ⟨b', hrun, hcap, hbit⟩ := ih hcap₁
    refine ⟨b', ?_, hcap, fun p => ?_⟩
    · rw [List.foldlM_cons, hrun₁, Checked.ok_bind, hrun]
    · rw [hbit, hbit₁, List.foldl_cons]

theorem add_mask {bits : BitVec 64} {pos : ℕ} (h : bits &&& mask pos = 0#64) :
    bits.toNat + (mask pos).toNat < 2 ^ 64 ∧
      ∀ i, i ≠ pos % 64 → (bits + mask pos).getLsbD i = bits.getLsbD i := by
  constructor
  · rw [← BitVec.toNat_add_of_and_eq_zero h]
    exact (bits + mask pos).isLt
  · intro i hi
    rw [getLsbD_add_mask h, decide_eq_false hi, Bool.or_false]

/-- What `get` finds after a run: the position is set exactly if the operations on it have left
it set. Whenever `set` adds to a word, the sum is a word and no other bit changes. -/
structure Refines (len : ℕ) (ops : List BitmapOp) : Prop where
  returns : ∃ b, ops.foldlM exec (new len) = .ok b ∧ ∀ p, ∃ b',
    b.get p = .ok (ops.foldl (BitmapOp.leaves p) false, b')
  noCarry : ∀ b, ops.foldlM exec (new len) = .ok b → ∀ pos bits, b.word pos = .ok bits →
    bits &&& mask pos = 0#64 → bits.toNat + (mask pos).toNat < 2 ^ 64 ∧
      ∀ i, i ≠ pos % 64 → (bits + mask pos).getLsbD i = bits.getLsbD i

/-- A bitmap of a positive length is a set of positions. -/
theorem refines_positions {len : ℕ} (hlen : 1 ≤ len) (ops : List BitmapOp) : Refines len ops := by
  have hcap : 0 < (new len).cap := by
    rw [cap_new]
    omega
  obtain ⟨b, hrun, hcap, hbit⟩ := run_spec hcap ops
  refine ⟨⟨b, hrun, fun p => ?_⟩, fun _ _ pos bits _ hzero => add_mask hzero⟩
  obtain ⟨b', hget, -⟩ := get_any hcap p
  rw [hbit, bit_new] at hget
  exact ⟨b', hget⟩

theorem refines_positions_one : Refines 1 [.turnOver 100, .set 3, .clear 100, .set 3] :=
  refines_positions le_rfl _

/-- The length that a run of calls has last given to the bitmap. -/
def lastLen (len : ℕ) : List BitmapCall → ℕ
  | [] => len
  | .init len :: calls => lastLen len calls
  | _ :: calls => lastLen len calls

structure AlwaysReturns (b : Bitmap) : Prop where
  expand : ∀ pos, ∃ b', b.expandCapFor pos = .ok b' ∧ pos < b'.cap
  exec : ∀ o, ∃ b', b.exec o = .ok b'

theorem cap_init (b : Bitmap) (len : ℕ) : (b.init len).cap = (len + 63) / 64 * 64 := by
  have hcnt : (if len % 64 ≠ 0 then len / 64 + 1 else len / 64) = (len + 63) / 64 := by
    split_ifs <;> omega
  simp only [init, cap, hcnt, List.length_append, List.length_take, List.length_replicate]
  omega

theorem alwaysReturns_iff : b.AlwaysReturns ↔ b.cap ≠ 0 := by
  constructor
  · intro h hzero
    obtain ⟨b', hrun, -⟩ := h.expand 0
    rw [expandCapFor_empty hzero] at hrun
    cases hrun
  · intro hcap
    refine ⟨fun pos => ?_, fun o => ?_⟩
    · obtain ⟨b', hrun, hpos, -⟩ := expandCapFor_spec (Nat.pos_of_ne_zero hcap) pos
      exact ⟨b', hrun, hpos⟩
    · obtain ⟨b', hrun, -⟩ := exec_spec (Nat.pos_of_ne_zero hcap) o
      exact ⟨b', hrun⟩

theorem exec_empty (h : b.cap = 0) (o : BitmapOp) : b.exec o = .error .diverges := by
  cases o with
  | set pos => simp [exec, set, h, expandCapFor_empty]
  | clear pos => simp [exec, clear, h, expandCapFor_empty]
  | get pos => simp [exec, get, h, expandCapFor_empty]
  | turnOver pos => simp [exec, turnOver, get, h, expandCapFor_empty]

/-- A call other than `init` that returns does not make a bitmap of words one without them, or
the other way round. -/
theorem cap_ne_zero_of_call {c : BitmapCall} (hc : ∀ len, c ≠ .init len)
    (hcall : b.call c = .ok b') : b.cap ≠ 0 ∧ b'.cap ≠ 0 := by
  by_cases hcap : b.cap = 0
  · cases c with
    | op o =>
      rw [call, exec_empty hcap] at hcall
      cases hcall
    | expandCapFor pos =>
      rw [call, expandCapFor_empty hcap] at hcall
      cases hcall
    | init len => exact absurd rfl (hc len)
  · refine ⟨hcap, ?_⟩
    have hpos := Nat.pos_of_ne_zero hcap
    cases c with
    | op o =>
      obtain ⟨_, hrun, hcap', -⟩ := exec_spec hpos o
      cases hcall.symm.trans hrun
      exact hcap'.ne'
    | expandCapFor pos =>
      obtain ⟨_, hrun, -, hcap', -⟩ := expandCapFor_spec hpos pos
      cases hcall.symm.trans hrun
      exact hcap'.ne'
    | init len => exact absurd rfl (hc len)

/-- The bitmap has words exactly if it was last initialised with a positive length. -/
theorem cap_ne_zero_iff {len : ℕ} (hb : b.cap ≠ 0 ↔ len ≠ 0) {calls : List BitmapCall}
    (hrun : calls.foldlM call b = .ok b') :
    b'.cap ≠ 0 ↔ lastLen len calls ≠ 0 := by
  induction calls generalizing b len with
  | nil =>
    cases hrun
    exact hb
  | cons c calls ih =>
    rw [List.foldlM_cons] at hrun
    obtain ⟨b₁, hcall, hrest⟩ := Checked.bind_eq_ok.mp hrun
    cases c with
    | op o =>
      obtain ⟨hcap, hcap₁⟩ := cap_ne_zero_of_call (by simp) hcall
      exact ih (iff_of_true hcap₁ (hb.mp hcap)) hrest
    | expandCapFor pos =>
      obtain ⟨hcap, hcap₁⟩ := cap_ne_zero_of_call (by simp) hcall
      exact ih (iff_of_true hcap₁ (hb.mp hcap)) hrest
    | init newLen =>
      cases hcall
      refine ih ?_ hrest
      rw [cap_init]
      omega

/-- The lengths with which a bitmap can be made; `default` makes one without words. -/
inductive IsMade : ℕ → Bitmap → Prop where
  | default : IsMade 0 default
  | new (len : ℕ) : IsMade len (new len)

/-- In every state of a bitmap all calls return exactly if its last length is positive. -/
theorem alwaysReturns_iff_lastLen {len : ℕ} {b b' : Bitmap} (hb : IsMade len b)
    {calls : List BitmapCall} (hrun : calls.foldlM call b = .ok b') :
    b'.AlwaysReturns ↔ lastLen len calls ≠ 0 := by
  rw [alwaysReturns_iff]
  refine cap_ne_zero_iff ?_ hrun
  cases hb with
  | default => simp [cap, default]
  | new len =>
    rw [cap_new]
    omega

theorem alwaysReturns_iff_lastLen_five :
    ∃ b, [.op (.set 100), .init 7].foldlM call (new 5) = .ok b ∧ b.AlwaysReturns := by
  obtain ⟨b, hrun⟩ := Checked.exists_of_isOk
    (x := [.op (.set 100), .init 7].foldlM call (new 5)) (by decide +kernel)
  exact ⟨b, hrun, (alwaysReturns_iff_lastLen (.new 5) hrun).mpr (by decide)⟩

/-- A bitmap of length zero cannot be written. -/
theorem set_new_zero_diverges : (new 0).set 0 = .error .diverges ∧ ¬(new 0).AlwaysReturns := by
  have hcap : (new 0).cap = 0 := rfl
  exact ⟨exec_empty hcap (.set 0), fun h => alwaysReturns_iff.mp h hcap⟩

end Bitmap

end Zinix
