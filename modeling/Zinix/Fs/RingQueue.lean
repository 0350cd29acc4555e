import Zinix.Fs.RingBuffer
import Zinix.Lib.Checked

/-!
# The ring buffer as a bounded queue

The fields of `PipeRingBuffer` as the source has them, two words and a status about which
nothing is known. From a new buffer on the methods never fail a check and behave as a queue
of at most 1024 bytes.
-/

namespace Zinix

open Circular

inductive RingCall where
  | read (buf : List UInt8)
  | write (buf : List UInt8)

/-- The number that a call returns, and the buffer of the caller after it. -/
structure RingAnswer where
  count : ℕ
  buf : List UInt8
  deriving DecidableEq

structure ByteQueue where
  bytes : List UInt8
  bounded : bytes.length ≤ ringBufferSize

namespace ByteQueue

def empty : ByteQueue := ⟨[], Nat.zero_le _⟩

/-- Bytes are taken from the front, as many as there are and as `buf` holds. -/
def read (q : ByteQueue) (buf : List UInt8) : RingAnswer × ByteQueue :=
  let n := min buf.length q.bytes.length
  (⟨n, q.bytes.take n ++ buf.drop n⟩,
    ⟨q.bytes.drop n, by
      rw [List.length_drop]
      exact (Nat.sub_le ..).trans q.bounded⟩)

/-- Bytes of `buf` are added at the end, as many as there is room for. -/
def write (q : ByteQueue) (buf : List UInt8) : RingAnswer × ByteQueue :=
  let n := min buf.length (ringBufferSize - q.bytes.length)
  (⟨n, buf⟩,
    ⟨q.bytes ++ buf.take n, by
      have := q.bounded
      rw [List.length_append, List.length_take]
      omega⟩)

def apply (q : ByteQueue) : RingCall → RingAnswer × ByteQueue
  | .read buf => q.read buf
  | .write buf => q.write buf

def run (q : ByteQueue) : List RingCall → List RingAnswer × ByteQueue
  | [] => ([], q)
  | c :: cs => ((q.apply c).1 :: ((q.apply c).2.run cs).1, ((q.apply c).2.run cs).2)

end ByteQueue

structure RingFields where
  arr : Fin ringBufferSize → UInt8
  head : ℕ
  tail : ℕ
  status : RingBufferStatus

namespace RingFields

def index (i : ℕ) : Checked (Fin ringBufferSize) :=
  if h : i < ringBufferSize then .ok ⟨i, h⟩ else .error .outOfBounds

def new : RingFields where
  arr := fun _ => 0
  head := 0
  tail := 0
  status := .empty

def writeByte (r : RingFields) (byte : UInt8) : Checked RingFields := do
  let i ← index r.tail
  let tail := (← addUsize r.tail 1) % ringBufferSize
  return { r with
    arr := Function.update r.arr i byte
    tail := tail
    status := if tail = r.head then .full else .normal }

def readByte (r : RingFields) : Checked (UInt8 × RingFields) := do
  let i ← index r.head
  let head := (← addUsize r.head 1) % ringBufferSize
  return (r.arr i, { r with
    head := head
    status := if head = r.tail then .empty else .normal })

def availableRead (r : RingFields) : Checked ℕ :=
  if r.status = .empty then return 0
  else if r.tail > r.head then subUsize r.tail r.head
  else do subUsize (← addUsize r.tail ringBufferSize) r.head

def availableWrite (r : RingFields) : Checked ℕ :=
  if r.status = .full then return 0
  else do subUsize ringBufferSize (← r.availableRead)

/-- `buf[i] = b`. -/
def storeAt (buf : List UInt8) (i : ℕ) (b : UInt8) : Checked (List UInt8) := do
  Checked.ensure (i < buf.length) .outOfBounds
  return buf.set i b

/-- `buf[i]`. -/
def loadAt (buf : List UInt8) (i : ℕ) : Checked UInt8 :=
  match buf[i]? with
  | some b => return b
  | none => throw .outOfBounds

def readLoop (r : RingFields) (buf : List UInt8) (i : ℕ) : ℕ → Checked (RingFields × List UInt8)
  | 0 => return (r, buf)
  | k + 1 => do
    let (c, r) ← r.readByte
    let buf ← storeAt buf i c
    r.readLoop buf (i + 1) k

def writeLoop (r : RingFields) (buf : List UInt8) (i : ℕ) : ℕ → Checked RingFields
  | 0 => return r
  | k + 1 => do
    let r ← r.writeByte (← loadAt buf i)
    r.writeLoop buf (i + 1) k

def read (r : RingFields) (buf : List UInt8) : Checked (RingAnswer × RingFields) := do
  let canRead ← r.availableRead
  if canRead = 0 then
    return (⟨0, buf⟩, r)
  else
    let canRead := min canRead buf.length
    let (r, buf) ← r.readLoop buf 0 canRead
    return (⟨canRead, buf⟩, r)

def write (r : RingFields) (buf : List UInt8) : Checked (RingAnswer × RingFields) := do
  let canWrite ← r.availableWrite
  if canWrite = 0 then
    return (⟨0, buf⟩, r)
  else
    let canWrite := min canWrite buf.length
    let r ← r.writeLoop buf 0 canWrite
    return (⟨canWrite, buf⟩, r)

def apply (r : RingFields) : RingCall → Checked (RingAnswer × RingFields)
  | .read buf => r.read buf
  | .write buf => r.write buf

def run (r : RingFields) : List RingCall → Checked (List RingAnswer × RingFields)
  | [] => return ([], r)
  | c :: cs => do
    let (a, r) ← r.apply c
    let (as, r) ← r.run cs
    return (a :: as, r)

/-- The buffer holds the bytes of the queue, the next one to be read at its head, and all
its fields say so. -/
structure Represents (r : RingFields) (q : ByteQueue) : Prop where
  head_lt : r.head < ringBufferSize
  tail_lt : r.tail < ringBufferSize
  empty_iff : r.status = .empty ↔ q.bytes.length = 0
  full_iff : r.status = .full ↔ q.bytes.length = ringBufferSize
  availableRead : r.availableRead = .ok q.bytes.length
  availableWrite : r.availableWrite = .ok (ringBufferSize - q.bytes.length)
  bytes : window r.arr ⟨r.head, head_lt⟩ q.bytes.length = q.bytes

end RingFields

namespace PipeRingBuffer

/-- What is left of a buffer when its invariant is forgotten. -/
def fields (rb : PipeRingBuffer) : RingFields := ⟨rb.arr, rb.head, rb.tail, rb.status⟩

def queue (rb : PipeRingBuffer) : ByteQueue := ⟨rb.contents, rb.length_contents_le⟩

section Fields

variable (rb : PipeRingBuffer)
  {buf : List UInt8} {i k : ℕ}

theorem index_head : RingFields.index rb.head = .ok rb.head := dif_pos rb.head.isLt

theorem index_tail : RingFields.index rb.tail = .ok rb.tail := dif_pos rb.tail.isLt

theorem addUsize_fin (i : Fin ringBufferSize) {n : ℕ} (hn : n ≤ ringBufferSize) :
    addUsize i n = .ok (i + n) := by
  have hword : 2 * ringBufferSize < wordSize := by decide
  have hi := i.isLt
  exact addUsize_ok (by omega)

theorem advance_one_eq_iff (i j : Fin ringBufferSize) :
    ((i : ℕ) + 1) % ringBufferSize = j ↔ advance i 1 = j := by
  rw [Fin.ext_iff]
  rfl

theorem fields_writeByte (byte : UInt8) :
    rb.fields.writeByte byte = .ok (rb.writeByte byte).fields := by
  have hindex : RingFields.index rb.fields.tail = .ok rb.tail := index_tail rb
  have hnext : addUsize rb.fields.tail 1 = .ok (rb.tail + 1) := addUsize_fin rb.tail (by decide)
  rw [RingFields.writeByte, hindex, Checked.ok_bind, hnext, Checked.ok_bind]
  exact congrArg (fun status => Except.ok (RingFields.mk _ _ _ status))
    (if_congr (advance_one_eq_iff rb.tail rb.head) rfl rfl)

theorem fields_readByte :
    rb.fields.readByte = .ok (rb.readByte.1, rb.readByte.2.fields) := by
  have hindex : RingFields.index rb.fields.head = .ok rb.head := index_head rb
  have hnext : addUsize rb.fields.head 1 = .ok (rb.head + 1) := addUsize_fin rb.head (by decide)
  rw [RingFields.readByte, hindex, Checked.ok_bind, hnext, Checked.ok_bind]
  exact congrArg (fun status => Except.ok (_, RingFields.mk _ _ _ status))
    (if_congr (advance_one_eq_iff rb.head rb.tail) rfl rfl)

theorem fields_availableRead : rb.fields.availableRead = .ok rb.availableRead := by
  have hhead := rb.head.isLt
  unfold RingFields.availableRead availableRead
  simp only [fields, gt_iff_lt, Fin.lt_def]
  split_ifs with hempty hlt
  · rfl
  · exact subUsize_ok hlt.le
  · rw [addUsize_fin rb.tail le_rfl, Checked.ok_bind, subUsize_ok (by omega)]

theorem fields_availableWrite : rb.fields.availableWrite = .ok rb.availableWrite := by
  unfold RingFields.availableWrite availableWrite
  rw [fields_availableRead, Checked.ok_bind, subUsize_ok rb.availableRead_le]
  by_cases hfull : rb.status = .full
  · rw [if_pos hfull]
    exact if_pos hfull
  · rw [if_neg hfull]
    exact if_neg hfull

theorem fields_readLoop {rb : PipeRingBuffer} (h : i + k ≤ buf.length) :
    rb.fields.readLoop buf i k =
      .ok ((rb.readLoop buf i k).1.fields, (rb.readLoop buf i k).2) := by
  induction k generalizing rb buf i with
  | zero => rfl
  | succ k ih =>
    have hset : i + 1 + k ≤ (buf.set i rb.readByte.1).length := by
      rw [List.length_set]
      omega
    have hi : i < buf.length := by omega
    simp only [RingFields.readLoop, fields_readByte, Checked.ok_bind, RingFields.storeAt,
      Checked.ensure_pos hi, Checked.pure_eq, ih hset, readLoop]

theorem fields_writeLoop {rb : PipeRingBuffer} (h : i + k ≤ buf.length) :
    rb.fields.writeLoop buf i k =
      .ok (((buf.drop i).take k).foldl writeByte rb).fields := by
  induction k generalizing rb i with
  | zero => rfl
  | succ k ih =>
    have hi : i < buf.length := by omega
    have hload : RingFields.loadAt buf i = .ok buf[i] := by
      rw [RingFields.loadAt, List.getElem?_eq_getElem hi]
      rfl
    rw [RingFields.writeLoop, hload, Checked.ok_bind, fields_writeByte, Checked.ok_bind,
      ih (by omega), List.drop_eq_getElem_cons hi, List.take_succ_cons, List.foldl_cons]

theorem fields_read (buf : List UInt8) :
    rb.fields.read buf = .ok (⟨(rb.read buf).1, (rb.read buf).2.2⟩, (rb.read buf).2.1.fields) := by
  unfold RingFields.read read
  rw [fields_availableRead, Checked.ok_bind]
  split_ifs with hzero
  · rfl
  · have hfit : 0 + min rb.availableRead buf.length ≤ buf.length := by
      rw [Nat.zero_add]
      exact Nat.min_le_right ..
    simp only [fields_readLoop hfit, Checked.ok_bind]
    rfl

theorem fields_write (buf : List UInt8) :
    rb.fields.write buf = .ok (⟨(rb.write buf).1, buf⟩, (rb.write buf).2.fields) := by
  unfold RingFields.write write
  rw [fields_availableWrite, Checked.ok_bind]
  split_ifs with hzero
  · rfl
  · have hfit : 0 + min rb.availableWrite buf.length ≤ buf.length := by
      rw [Nat.zero_add]
      exact Nat.min_le_right ..
    simp only [fields_writeLoop hfit, Checked.ok_bind]
    rfl

/-- One call answers as the queue does, and the queue of the buffer moves along. -/
theorem fields_apply (call : RingCall) : ∃ rb' : PipeRingBuffer,
    rb.fields.apply call = .ok ((rb.queue.apply call).1, rb'.fields) ∧
      rb'.queue = (rb.queue.apply call).2 := by
  cases call with
  | read buf =>
    obtain ⟨hcount, hrest, hbuf⟩ := rb.read_spec buf
    refine ⟨(rb.read buf).2.1, ?_, ?_⟩
    · rw [RingFields.apply, fields_read, hcount, hbuf]
      simp only [ByteQueue.apply, ByteQueue.read, queue, Nat.min_comm]
    · simp only [ByteQueue.apply, ByteQueue.read, queue, hrest, Nat.min_comm]
  | write buf =>
    obtain ⟨hcount, hrest⟩ := rb.write_spec buf
    refine ⟨(rb.write buf).2, ?_, ?_⟩
    · rw [RingFields.apply, fields_write, hcount]
      simp only [ByteQueue.apply, ByteQueue.write, queue, Nat.min_comm]
    · simp only [ByteQueue.apply, ByteQueue.write, queue, hrest, Nat.min_comm]

theorem fields_run (calls : List RingCall) : ∃ rb' : PipeRingBuffer,
    rb.fields.run calls = .ok ((rb.queue.run calls).1, rb'.fields) ∧
      rb'.queue = (rb.queue.run calls).2 := by
  induction calls generalizing rb with
  | nil => exact ⟨rb, rfl, rfl⟩
  | cons call calls ih =>
    obtain ⟨rb₁, happly, hqueue₁⟩ := rb.fields_apply call
    obtain ⟨rb₂, hrun, hqueue₂⟩ := ih rb₁
    rw [hqueue₁] at hrun hqueue₂
    refine ⟨rb₂, ?_, hqueue₂⟩
    simp only [RingFields.run, happly, Checked.ok_bind, hrun]
    rfl

theorem represents_queue : rb.fields.Represents rb.queue where
  head_lt := rb.head.isLt
  tail_lt := rb.tail.isLt
  empty_iff := by
    change rb.status = .empty ↔ rb.contents.length = 0
    rw [length_contents, availableRead_eq_zero]
  full_iff := by
    change rb.status = .full ↔ rb.contents.length = ringBufferSize
    rw [length_contents, availableRead_eq_size]
  availableRead := by
    change _ = Except.ok rb.contents.length
    rw [length_contents, fields_availableRead]
  availableWrite := by
    change _ = Except.ok (ringBufferSize - rb.contents.length)
    rw [fields_availableWrite, availableWrite_eq]
  bytes := by
    change window rb.arr rb.head rb.contents.length = rb.contents
    rw [length_contents]
    rfl

end Fields

end PipeRingBuffer

/-- Every sequence of calls on a new buffer returns what it returns on an empty queue, and
leaves a buffer that represents the queue. -/
theorem RingFields.run_refines_queue (calls : List RingCall) :
    ∃ r, RingFields.new.run calls = .ok ((ByteQueue.empty.run calls).1, r) ∧
      r.Represents (ByteQueue.empty.run calls).2 := by
  obtain ⟨rb, hrun, hqueue⟩ := PipeRingBuffer.new.fields_run calls
  refine ⟨rb.fields, hrun, ?_⟩
  have hrepresents := rb.represents_queue
  rw [hqueue] at hrepresents
  exact hrepresents

end Zinix
