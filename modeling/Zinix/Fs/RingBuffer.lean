import Zinix.Lib.Circular

/-!
# The ring buffer of a pipe

When head and tail meet, a status tells a full buffer from an empty one; the field
`normal_iff` keeps the status in step with the two positions. The field `count` of the
source is never used and left out.
-/

namespace Zinix

open Circular

def ringBufferSize : ℕ := 1024

inductive RingBufferStatus where
  | full
  | empty
  | normal
  deriving DecidableEq, Repr

structure PipeRingBuffer where
  arr : Fin ringBufferSize → UInt8
  head : Fin ringBufferSize
  tail : Fin ringBufferSize
  status : RingBufferStatus
  normal_iff : status = .normal ↔ head ≠ tail

namespace PipeRingBuffer

def new : PipeRingBuffer where
  arr := fun _ => 0
  head := ⟨0, by decide⟩
  tail := ⟨0, by decide⟩
  status := .empty
  normal_iff := by simp

def writeByte (rb : PipeRingBuffer) (byte : UInt8) : PipeRingBuffer where
  arr := Function.update rb.arr rb.tail byte
  head := rb.head
  tail := advance rb.tail 1
  status := if advance rb.tail 1 = rb.head then .full else .normal
  normal_iff := by
    split_ifs with h
    · simp [h]
    · simp [Ne.symm h]

def readByte (rb : PipeRingBuffer) : UInt8 × PipeRingBuffer :=
  (rb.arr rb.head,
    { arr := rb.arr
      head := advance rb.head 1
      tail := rb.tail
      status := if advance rb.head 1 = rb.tail then .empty else .normal
      normal_iff := by
        split_ifs with h
        · simp [h]
        · simp [h] })

def availableRead (rb : PipeRingBuffer) : ℕ :=
  if rb.status = .empty then 0
  else if rb.head < rb.tail then rb.tail - rb.head
  else rb.tail + ringBufferSize - rb.head

def availableWrite (rb : PipeRingBuffer) : ℕ :=
  if rb.status = .full then 0 else ringBufferSize - rb.availableRead

/-- The loop of `read`, which fills `buf` from index `i` on. -/
def readLoop (rb : PipeRingBuffer) (buf : List UInt8) (i : ℕ) : ℕ → PipeRingBuffer × List UInt8
  | 0 => (rb, buf)
  | k + 1 => readLoop rb.readByte.2 (buf.set i rb.readByte.1) (i + 1) k

/-- The number of bytes read, the buffer after it and the caller's buffer. -/
def read (rb : PipeRingBuffer) (buf : List UInt8) : ℕ × PipeRingBuffer × List UInt8 :=
  if rb.availableRead = 0 then (0, rb, buf)
  else
    let canRead := min rb.availableRead buf.length
    (canRead, rb.readLoop buf 0 canRead)

def write (rb : PipeRingBuffer) (buf : List UInt8) : ℕ × PipeRingBuffer :=
  if rb.availableWrite = 0 then (0, rb)
  else
    let canWrite := min rb.availableWrite buf.length
    (canWrite, (buf.take canWrite).foldl writeByte rb)

/-- The bytes in the buffer, the next one to be read first. -/
def contents (rb : PipeRingBuffer) : List UInt8 := window rb.arr rb.head rb.availableRead

variable (rb : PipeRingBuffer)

theorem length_contents : rb.contents.length = rb.availableRead := length_window ..

theorem head_eq_tail_iff : rb.head = rb.tail ↔ rb.status = .full ∨ rb.status = .empty := by
  have h := rb.normal_iff
  cases hs : rb.status <;> simp_all

theorem availableRead_empty (h : rb.status = .empty) : rb.availableRead = 0 := if_pos h

theorem availableRead_full (h : rb.status = .full) : rb.availableRead = ringBufferSize := by
  have heq : rb.head = rb.tail := rb.head_eq_tail_iff.mpr (.inl h)
  simp [availableRead, h, heq]

theorem availableRead_normal (h : rb.status = .normal) :
    0 < rb.availableRead ∧ rb.availableRead < ringBufferSize := by
  have hne : (rb.head : ℕ) ≠ rb.tail := fun heq => rb.normal_iff.mp h (Fin.ext heq)
  have hhead := rb.head.isLt
  have htail := rb.tail.isLt
  simp only [availableRead, h, reduceCtorEq, if_false, Fin.lt_def]
  split_ifs <;> omega

theorem availableRead_le : rb.availableRead ≤ ringBufferSize := by
  cases hs : rb.status with
  | full => exact (rb.availableRead_full hs).le
  | empty => rw [rb.availableRead_empty hs]; exact Nat.zero_le _
  | normal => exact (rb.availableRead_normal hs).2.le

theorem availableRead_eq_zero : rb.availableRead = 0 ↔ rb.status = .empty := by
  constructor
  · intro h
    cases hs : rb.status with
    | full => rw [rb.availableRead_full hs] at h; cases h
    | empty => rfl
    | normal => have := (rb.availableRead_normal hs).1; omega
  · exact rb.availableRead_empty

theorem availableRead_eq_size : rb.availableRead = ringBufferSize ↔ rb.status = .full := by
  constructor
  · intro h
    cases hs : rb.status with
    | full => rfl
    | empty => rw [rb.availableRead_empty hs] at h; cases h
    | normal => have := (rb.availableRead_normal hs).2; omega
  · exact rb.availableRead_full

theorem availableWrite_eq : rb.availableWrite = ringBufferSize - rb.contents.length := by
  unfold availableWrite
  rw [length_contents]
  split_ifs with h
  · rw [rb.availableRead_full h, Nat.sub_self]
  · rfl

theorem tail_eq : rb.tail = advance rb.head rb.availableRead := by
  have hhead := rb.head.isLt
  have htail := rb.tail.isLt
  apply Fin.ext
  by_cases hs : rb.status = .empty
  · rw [rb.availableRead_empty hs, advance_zero, rb.head_eq_tail_iff.mpr (.inr hs)]
  · simp only [availableRead, hs, if_false, advance, Fin.lt_def]
    split_ifs with hlt
    · rw [show (rb.head : ℕ) + (rb.tail - rb.head) = rb.tail by omega, Nat.mod_eq_of_lt htail]
    · rw [show (rb.head : ℕ) + (rb.tail + ringBufferSize - rb.head) = rb.tail + ringBufferSize
        by omega, Nat.add_mod_right, Nat.mod_eq_of_lt htail]

/-- The distance from head to tail is the number of bytes to be read, unless the
two coincide. -/
theorem availableRead_of_tail {k : ℕ} (hs : rb.status = .normal) (hk : k < ringBufferSize)
    (htail : rb.tail = advance rb.head k) : rb.availableRead = k := by
  have hlt := (rb.availableRead_normal hs).2
  exact advance_injOn hlt hk (rb.tail_eq.symm.trans htail)

theorem availableRead_writeByte (h : rb.status ≠ .full) (byte : UInt8) :
    (rb.writeByte byte).availableRead = rb.availableRead + 1 := by
  have hlt : rb.availableRead < ringBufferSize :=
    lt_of_le_of_ne rb.availableRead_le (mt rb.availableRead_eq_size.mp h)
  have htail : advance rb.tail 1 = advance rb.head (rb.availableRead + 1) := by
    rw [rb.tail_eq, advance_advance]
  by_cases hmeet : advance rb.tail 1 = rb.head
  · have hstatus : (rb.writeByte byte).status = .full := if_pos hmeet
    rw [availableRead_full _ hstatus]
    by_contra hne
    have hzero : advance rb.head (rb.availableRead + 1) = advance rb.head 0 := by
      rw [← htail, hmeet, advance_zero]
    have := advance_injOn (by omega) (by decide) hzero
    omega
  · have hstatus : (rb.writeByte byte).status = .normal := if_neg hmeet
    apply availableRead_of_tail _ hstatus
    · by_contra hge
      have hsize : rb.availableRead + 1 = ringBufferSize := by omega
      rw [htail, hsize, advance_size] at hmeet
      exact hmeet rfl
    · exact htail

theorem contents_writeByte (h : rb.status ≠ .full) (byte : UInt8) :
    (rb.writeByte byte).contents = rb.contents ++ [byte] := by
  have hlt : rb.availableRead < ringBufferSize :=
    lt_of_le_of_ne rb.availableRead_le (mt rb.availableRead_eq_size.mp h)
  unfold contents
  rw [availableRead_writeByte rb h]
  change window (Function.update rb.arr rb.tail byte) rb.head _ = _
  rw [rb.tail_eq]
  exact window_update hlt byte

theorem availableRead_readByte (h : rb.status ≠ .empty) :
    rb.readByte.2.availableRead + 1 = rb.availableRead := by
  have hpos : rb.availableRead ≠ 0 := mt rb.availableRead_eq_zero.mp h
  have hle := rb.availableRead_le
  have htail : rb.tail = advance (advance rb.head 1) (rb.availableRead - 1) := by
    rw [advance_advance, show 1 + (rb.availableRead - 1) = rb.availableRead by omega]
    exact rb.tail_eq
  by_cases hmeet : advance rb.head 1 = rb.tail
  · have hstatus : rb.readByte.2.status = .empty := if_pos hmeet
    rw [availableRead_empty _ hstatus]
    have hzero : advance (advance rb.head 1) (rb.availableRead - 1) =
        advance (advance rb.head 1) 0 := by
      rw [← htail, advance_zero, hmeet]
    have := advance_injOn (by omega) (by decide) hzero
    omega
  · have hstatus : rb.readByte.2.status = .normal := if_neg hmeet
    have hcount : rb.readByte.2.availableRead = rb.availableRead - 1 :=
      availableRead_of_tail _ hstatus (by omega) htail
    omega

theorem contents_readByte (h : rb.status ≠ .empty) :
    rb.contents = rb.readByte.1 :: rb.readByte.2.contents := by
  unfold contents
  rw [← availableRead_readByte rb h]
  rfl

theorem contents_ne_nil_iff : rb.contents ≠ [] ↔ rb.status ≠ .empty := by
  rw [Ne, ← List.length_eq_zero_iff, length_contents, availableRead_eq_zero]

theorem readLoop_spec {rb : PipeRingBuffer} {buf : List UInt8} {i k : ℕ}
    (hk : k ≤ rb.contents.length) (hi : i + k ≤ buf.length) :
    (rb.readLoop buf i k).1.contents = rb.contents.drop k ∧
      (rb.readLoop buf i k).2 = buf.take i ++ rb.contents.take k ++ buf.drop (i + k) := by
  induction k generalizing rb buf i with
  | zero => simp [readLoop]
  | succ k ih =>
    have hne : rb.status ≠ .empty := by
      rw [← contents_ne_nil_iff, ← List.length_pos_iff]
      omega
    have hcons := contents_readByte rb hne
    rw [hcons, List.length_cons] at hk
    obtain ⟨hring, hbuf⟩ := @ih rb.readByte.2 (buf.set i rb.readByte.1) (i + 1)
      (by omega) (by rw [List.length_set]; omega)
    refine ⟨?_, ?_⟩
    · rw [readLoop, hring, hcons, List.drop_succ_cons]
    · rw [readLoop, hbuf, hcons, List.take_succ_cons, List.drop_set_of_lt (by omega),
        List.take_set, List.take_add_one, List.getElem?_eq_getElem (by omega)]
      rw [List.set_append_right _ _ (by simp)]
      simp [show min i buf.length = i by omega, show i + 1 + k = i + (k + 1) by omega]

theorem read_spec (rb : PipeRingBuffer) (buf : List UInt8) :
    let n := min rb.contents.length buf.length
    (rb.read buf).1 = n ∧ (rb.read buf).2.1.contents = rb.contents.drop n ∧
      (rb.read buf).2.2 = rb.contents.take n ++ buf.drop n := by
  intro n
  unfold read
  split_ifs with hzero
  · have hn : n = 0 := by
      simp only [n, length_contents, hzero, Nat.zero_min]
    simp [hn]
  · rw [← length_contents]
    have hle : n ≤ rb.contents.length := Nat.min_le_left ..
    have hfit : 0 + n ≤ buf.length := by
      rw [Nat.zero_add]
      exact Nat.min_le_right ..
    obtain ⟨hring, hbuf⟩ := readLoop_spec hle hfit
    exact ⟨rfl, hring, by simpa using hbuf⟩

theorem contents_foldl_writeByte {rb : PipeRingBuffer} {bytes : List UInt8}
    (h : rb.contents.length + bytes.length ≤ ringBufferSize) :
    (bytes.foldl writeByte rb).contents = rb.contents ++ bytes := by
  induction bytes generalizing rb with
  | nil => simp
  | cons byte bytes ih =>
    rw [List.length_cons] at h
    have hne : rb.status ≠ .full := by
      rw [Ne, ← availableRead_eq_size, ← length_contents]
      omega
    have hcons := contents_writeByte rb hne byte
    rw [List.foldl_cons, ih, hcons, List.append_assoc, List.singleton_append]
    rw [hcons, List.length_append, List.length_singleton]
    omega

theorem write_spec (rb : PipeRingBuffer) (buf : List UInt8) :
    let n := min (ringBufferSize - rb.contents.length) buf.length
    (rb.write buf).1 = n ∧ (rb.write buf).2.contents = rb.contents ++ buf.take n := by
  intro n
  have hle := rb.availableRead_le
  rw [← length_contents] at hle
  unfold write
  split_ifs with hzero
  · have hn : n = 0 := by
      simp only [n, ← availableWrite_eq, hzero, Nat.zero_min]
    simp [hn]
  · rw [availableWrite_eq]
    refine ⟨rfl, contents_foldl_writeByte ?_⟩
    rw [List.length_take]
    omega

@[simp] theorem contents_new : new.contents = [] := rfl

theorem length_contents_le (rb : PipeRingBuffer) : rb.contents.length ≤ ringBufferSize := by
  rw [length_contents]
  exact rb.availableRead_le

end PipeRingBuffer

end Zinix
