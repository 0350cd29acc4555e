import Zinix.Lib.OrdMap
import Zinix.Lib.Transfer

/-!
# Byte access to a block device

`BlkStorage` splits reads and writes into accesses to blocks of 512 bytes. It refines a
flat array of bytes with a cursor.
-/

namespace Zinix

variable {src dest : List UInt8} {start : ℕ}

/-- `src[start..start + len]`. -/
def slice (src : List UInt8) (start len : ℕ) : Checked (List UInt8) :=
  if start + len ≤ src.length then .ok ((src.drop start).take len) else .error .outOfBounds

/-- `dest[start..start + src.len()].copy_from_slice(src)`. -/
def copyFromSlice (dest : List UInt8) (start : ℕ) (src : List UInt8) : Checked (List UInt8) :=
  if start + src.length ≤ dest.length then
    .ok (dest.take start ++ src ++ dest.drop (start + src.length))
  else
    .error .outOfBounds

theorem slice_ok {len : ℕ} (h : start + len ≤ src.length) :
    slice src start len = .ok ((src.drop start).take len) := if_pos h

theorem copyFromSlice_ok (h : start + src.length ≤ dest.length) :
    copyFromSlice dest start src =
      .ok (dest.take start ++ src ++ dest.drop (start + src.length)) := if_pos h

theorem getElem?_splice (h : start + src.length ≤ dest.length) (i : ℕ) :
    (dest.take start ++ src ++ dest.drop (start + src.length))[i]? =
      if start ≤ i then (src[i - start]?).or dest[i]? else dest[i]? := by
  have hput : (dest.take start ++ src ++ dest.drop (start + src.length))[i]? =
      if start ≤ i ∧ i < start + src.length then src[i - start]? else dest[i]? :=
    Transfer.getElem?_putAt (by omega) i
  rw [hput]
  by_cases hin : start ≤ i ∧ i < start + src.length
  · rw [if_pos hin, if_pos hin.1, List.getElem?_eq_getElem (by omega), Option.some_or]
  · rw [if_neg hin]
    split_ifs with hi
    · rw [List.getElem?_eq_none (l := src) (by omega), Option.none_or]
    · rfl

def blockSize : ℕ := 512

theorem blockSize_pos : 0 < blockSize := by decide

structure DiskBlock where
  bytes : List UInt8
  size : bytes.length = blockSize
  deriving DecidableEq

/-- The block with the given bytes, where the type of the buffer fixes their number. -/
def DiskBlock.ofBytes (bytes : List UInt8) : Checked DiskBlock :=
  if h : bytes.length = blockSize then .ok ⟨bytes, h⟩ else .error .outOfBounds

inductive SeekFrom where
  | start (off : ℕ)
  | fromEnd (off : ℤ)
  | current (off : ℤ)

structure BlkStorage where
  blkDev : ℕ → DiskBlock
  pos : ℕ

namespace BlkStorage

/-- How far an access at `pos` gets in its block, out of the `rest` bytes to go. -/
def stride (pos rest : ℕ) : ℕ := min rest (blockSize - pos % blockSize)

theorem stride_le (pos rest : ℕ) : stride pos rest ≤ rest := min_le_left ..

theorem stride_fits (pos rest : ℕ) : pos % blockSize + stride pos rest ≤ blockSize := by
  have hlt := Nat.mod_lt pos blockSize_pos
  unfold stride
  omega

theorem stride_pos (pos : ℕ) {rest : ℕ} (h : 0 < rest) : 0 < stride pos rest := by
  have hlt := Nat.mod_lt pos blockSize_pos
  unfold stride
  omega

/-- The loop of `read`. The positions stay below `readMax`, so that their sums do not
overflow. -/
def readLoop (blkDev : ℕ → DiskBlock) (readMax pos readPos : ℕ) (buf : List UInt8) :
    Checked (List UInt8) :=
  if _h : pos < readMax then do
    let bNo := pos / blockSize
    let bOff := pos % blockSize
    let readBuf := (blkDev bNo).bytes
    let realReadLen := stride pos (readMax - pos)
    let buf ← copyFromSlice buf readPos (← slice readBuf bOff realReadLen)
    readLoop blkDev readMax (pos + stride pos (readMax - pos)) (readPos + realReadLen) buf
  else
    return buf
termination_by readMax - pos
decreasing_by
  have := stride_pos pos (show 0 < readMax - pos by omega)
  omega

/-- Returns the number of bytes read and the filled buffer. -/
def read (s : BlkStorage) (buf : List UInt8) : Checked ((ℕ × List UInt8) × BlkStorage) := do
  let readMax ← addUsize s.pos buf.length
  let filled ← readLoop s.blkDev readMax s.pos 0 buf
  let pos ← addUsize s.pos filled.length
  return ((filled.length, filled), { s with pos := pos })

/-- The loop of `write`. Each block is read, changed in part and written back. -/
def writeLoop (buf : List UInt8) (writeMax : ℕ) (blkDev : ℕ → DiskBlock) (pos writePos : ℕ) :
    Checked (ℕ → DiskBlock) :=
  if _h : pos < writeMax then do
    let bNo := pos / blockSize
    let bOff := pos % blockSize
    let readBuf := (blkDev bNo).bytes
    let realWriteLen := stride pos (writeMax - pos)
    let readBuf ← copyFromSlice readBuf bOff (← slice buf writePos realWriteLen)
    let blkDev := replaceAt blkDev bNo (← DiskBlock.ofBytes readBuf)
    writeLoop buf writeMax blkDev (pos + stride pos (writeMax - pos)) (writePos + realWriteLen)
  else
    return blkDev
termination_by writeMax - pos
decreasing_by
  have := stride_pos pos (show 0 < writeMax - pos by omega)
  omega

def write (s : BlkStorage) (buf : List UInt8) : Checked (ℕ × BlkStorage) := do
  let writeMax ← addUsize s.pos buf.length
  let blkDev ← writeLoop buf writeMax s.blkDev s.pos 0
  let pos ← addUsize s.pos buf.length
  return (buf.length, { s with blkDev := blkDev, pos := pos })

def seek (s : BlkStorage) : SeekFrom → Checked (ℕ × BlkStorage)
  | .start off => .ok (off, { s with pos := off })
  | .fromEnd _ => .error (.explicit "BlkStorage can`t get end")
  | .current off =>
    let pos := ((s.pos + off) % (wordSize : ℤ)).toNat
    .ok (pos, { s with pos := pos })

end BlkStorage

structure FlatStore where
  bytes : ℕ → UInt8
  pos : ℕ

/-- The bytes `[pos, pos + len)` of an array. -/
def window (bytes : ℕ → UInt8) (pos len : ℕ) : List UInt8 := (List.range' pos len).map bytes

@[simp] theorem window_length (bytes : ℕ → UInt8) (pos len : ℕ) :
    (window bytes pos len).length = len := by
  simp [window]

theorem window_append (bytes : ℕ → UInt8) (pos m n : ℕ) :
    window bytes pos m ++ window bytes (pos + m) n = window bytes pos (m + n) := by
  simp [window, ← List.map_append]

/-- The array with the bytes from `pos` on replaced by those of the buffer. -/
def overwrite (bytes : ℕ → UInt8) (pos : ℕ) (buf : List UInt8) (a : ℕ) : UInt8 :=
  if pos ≤ a then (buf[a - pos]?).getD (bytes a) else bytes a

inductive StoreOp where
  | seek (off : ℕ)
  | read (buf : List UInt8)
  | write (buf : List UInt8)
  deriving DecidableEq

inductive StoreResult where
  | moved (pos : ℕ)
  | filled (len : ℕ) (buf : List UInt8)
  | wrote (len : ℕ)
  deriving DecidableEq

namespace FlatStore

def apply (s : FlatStore) : StoreOp → StoreResult × FlatStore
  | .seek off => (.moved off, { s with pos := off })
  | .read buf =>
    (.filled buf.length (window s.bytes s.pos buf.length), { s with pos := s.pos + buf.length })
  | .write buf =>
    (.wrote buf.length, ⟨overwrite s.bytes s.pos buf, s.pos + buf.length⟩)

def run (s : FlatStore) : List StoreOp → List StoreResult × FlatStore
  | [] => ([], s)
  | op :: ops =>
    let (r, s) := s.apply op
    let (rs, s) := s.run ops
    (r :: rs, s)

/-- The position plus the length of the buffer is a machine word. -/
def Fits (s : FlatStore) : StoreOp → Prop
  | .seek off => off < wordSize
  | .read buf => s.pos + buf.length < wordSize
  | .write buf => s.pos + buf.length < wordSize

instance (s : FlatStore) (op : StoreOp) : Decidable (s.Fits op) := by
  cases op <;> unfold Fits <;> infer_instance

/-- Every call fits at the position at which it is made. -/
def AllFit (s : FlatStore) : List StoreOp → Prop
  | [] => True
  | op :: ops => s.Fits op ∧ (s.apply op).2.AllFit ops

end FlatStore

namespace BlkStorage

variable {pos : ℕ}

def apply (s : BlkStorage) : StoreOp → Checked (StoreResult × BlkStorage)
  | .seek off => do
    let (pos, s) ← s.seek (.start off)
    return (.moved pos, s)
  | .read buf => do
    let ((len, buf), s) ← s.read buf
    return (.filled len buf, s)
  | .write buf => do
    let (len, s) ← s.write buf
    return (.wrote len, s)

def run (s : BlkStorage) : List StoreOp → Checked (List StoreResult × BlkStorage)
  | [] => return ([], s)
  | op :: ops => do
    let (r, s) ← s.apply op
    let (rs, s) ← s.run ops
    return (r :: rs, s)

/-- Byte `a` of the device is byte `a % 512` of block `a / 512`. -/
def flatten (blkDev : ℕ → DiskBlock) (a : ℕ) : UInt8 :=
  (blkDev (a / blockSize)).bytes.getD (a % blockSize) 0

def flat (s : BlkStorage) : FlatStore := ⟨flatten s.blkDev, s.pos⟩

theorem flatten_eq (blkDev : ℕ → DiskBlock) (n i : ℕ) (hi : i < blockSize) :
    flatten blkDev (n * blockSize + i) = (blkDev n).bytes.getD i 0 := by
  have hdiv : (n * blockSize + i) / blockSize = n := by
    rw [Nat.mul_comm, Nat.mul_add_div blockSize_pos, Nat.div_eq_of_lt hi, Nat.add_zero]
  have hmod : (n * blockSize + i) % blockSize = i := by
    rw [Nat.mul_comm, Nat.mul_add_mod, Nat.mod_eq_of_lt hi]
  rw [flatten, hdiv, hmod]

theorem slice_eq_window (blkDev : ℕ → DiskBlock) {len : ℕ} (h : pos % blockSize + len ≤ blockSize) :
    slice (blkDev (pos / blockSize)).bytes (pos % blockSize) len =
      .ok (window (flatten blkDev) pos len) := by
  have hsize := (blkDev (pos / blockSize)).size
  rw [slice_ok (by omega)]
  congr 1
  refine List.ext_getElem (by simp; omega) fun i hi hi' => ?_
  have hlen : i < len := by simpa using hi'
  have hpos : pos + i = pos / blockSize * blockSize + (pos % blockSize + i) := by
    rw [← Nat.add_assoc, Nat.div_add_mod']
  simp only [window, List.getElem_take, List.getElem_drop, List.getElem_map, List.getElem_range',
    Nat.one_mul]
  rw [hpos, flatten_eq _ _ _ (by omega), List.getD, List.getElem?_eq_getElem (by omega),
    Option.getD_some]

theorem readLoop_eq (blkDev : ℕ → DiskBlock) (readMax pos readPos : ℕ) (buf : List UInt8)
    (hpos : pos ≤ readMax) (hlen : readPos + (readMax - pos) = buf.length) :
    readLoop blkDev readMax pos readPos buf =
      .ok (buf.take readPos ++ window (flatten blkDev) pos (readMax - pos)) := by
  induction hrest : readMax - pos using Nat.strong_induction_on generalizing pos readPos buf with
  | h rest ih =>
  subst hrest
  unfold readLoop
  split_ifs with h
  · have hle := stride_le pos (readMax - pos)
    have hgt := stride_pos pos (show 0 < readMax - pos by omega)
    dsimp only
    rw [slice_eq_window blkDev (stride_fits pos _)]
    generalize stride pos (readMax - pos) = n at hle hgt ⊢
    simp only [Checked.ok_bind]
    rw [copyFromSlice_ok (by rw [window_length]; omega)]
    simp only [Checked.ok_bind, window_length]
    rw [ih (readMax - (pos + n)) (by omega) (pos + n) (readPos + n) _ (by omega)
      (by simp; omega) rfl]
    have hwindow := window_append (flatten blkDev) pos n (readMax - (pos + n))
    rw [show n + (readMax - (pos + n)) = readMax - pos by omega] at hwindow
    rw [← hwindow, ← List.append_assoc]
    congr 2
    rw [List.take_append_of_le_length (by simp; omega), List.take_of_length_le (by simp)]
  · have hzero : readMax - pos = 0 := by omega
    simp [hzero, window, List.take_of_length_le (show buf.length ≤ readPos by omega)]

theorem overwrite_append (bytes : ℕ → UInt8) (pos : ℕ) (s t : List UInt8) :
    overwrite (overwrite bytes pos s) (pos + s.length) t = overwrite bytes pos (s ++ t) := by
  funext a
  unfold overwrite
  by_cases h : pos + s.length ≤ a
  · rw [if_pos h, if_pos (by omega), if_pos (by omega), List.getElem?_append_right (by omega),
      List.getElem?_eq_none (show s.length ≤ a - pos by omega), Option.getD_none,
      show a - pos - s.length = a - (pos + s.length) by omega]
  · rw [if_neg h]
    split_ifs with hle
    · rw [List.getElem?_append_left (by omega)]
    · rfl

@[simp] theorem overwrite_nil (bytes : ℕ → UInt8) (pos : ℕ) : overwrite bytes pos [] = bytes := by
  funext a
  simp [overwrite]

theorem flatten_replaceAt (blkDev : ℕ → DiskBlock) {src : List UInt8}
    (hfit : pos % blockSize + src.length ≤ blockSize) (blk : DiskBlock)
    (hblk : blk.bytes = (blkDev (pos / blockSize)).bytes.take (pos % blockSize) ++ src ++
      (blkDev (pos / blockSize)).bytes.drop (pos % blockSize + src.length)) :
    flatten (replaceAt blkDev (pos / blockSize) blk) = overwrite (flatten blkDev) pos src := by
  have hsize := (blkDev (pos / blockSize)).size
  funext a
  unfold overwrite flatten
  by_cases hno : a / blockSize = pos / blockSize
  · have hiff : pos ≤ a ↔ pos % blockSize ≤ a % blockSize := by
      simp only [blockSize] at hno ⊢
      omega
    have hsub : a % blockSize - pos % blockSize = a - pos := by
      simp only [blockSize] at hno ⊢
      omega
    rw [hno, replaceAt_self, hblk, List.getD, List.getD, getElem?_splice (by omega), hsub]
    simp only [hiff]
    split_ifs
    · exact Option.getD_or
    · rfl
  · rw [replaceAt_of_ne hno]
    split_ifs with hle
    · rw [List.getElem?_eq_none (l := src), Option.getD_none]
      simp only [blockSize] at hno hfit
      omega
    · rfl

theorem writeLoop_eq (buf : List UInt8) (writeMax : ℕ) (blkDev : ℕ → DiskBlock) (pos writePos : ℕ)
    (hpos : pos ≤ writeMax) (hlen : writePos + (writeMax - pos) = buf.length) :
    ∃ blkDev', writeLoop buf writeMax blkDev pos writePos = .ok blkDev' ∧
      flatten blkDev' = overwrite (flatten blkDev) pos (buf.drop writePos) := by
  induction hrest : writeMax - pos using Nat.strong_induction_on
    generalizing blkDev pos writePos with
  | h rest ih =>
  subst hrest
  unfold writeLoop
  split_ifs with h
  · have hle := stride_le pos (writeMax - pos)
    have hgt := stride_pos pos (show 0 < writeMax - pos by omega)
    have hfit := stride_fits pos (writeMax - pos)
    have hsize := (blkDev (pos / blockSize)).size
    dsimp only
    generalize stride pos (writeMax - pos) = n at hle hgt hfit ⊢
    have hsrc : ((buf.drop writePos).take n).length = n := by
      simp
      omega
    rw [slice_ok (by omega)]
    simp only [Checked.ok_bind]
    rw [copyFromSlice_ok (by omega)]
    simp only [Checked.ok_bind]
    rw [DiskBlock.ofBytes, dif_pos (by simp; omega)]
    simp only [Checked.ok_bind]
    obtain ⟨blkDev', hrun, hflat⟩ := ih (writeMax - (pos + n)) (by omega) _ (pos + n)
      (writePos + n) (by omega) (by omega) rfl
    refine ⟨blkDev', hrun, ?_⟩
    rw [hflat, flatten_replaceAt blkDev (by omega) _ rfl]
    nth_rewrite 2 [← hsrc]
    rw [overwrite_append, ← List.drop_drop, List.take_append_drop]
  · refine ⟨blkDev, rfl, ?_⟩
    rw [List.drop_of_length_le (by omega), overwrite_nil]

theorem apply_flat (s : BlkStorage) (op : StoreOp) (hfit : s.flat.Fits op) :
    ∃ s', s.apply op = .ok ((s.flat.apply op).1, s') ∧ s'.flat = (s.flat.apply op).2 := by
  cases op with
  | seek off => exact ⟨{ s with pos := off }, rfl, rfl⟩
  | read buf =>
    have hfit : s.pos + buf.length < wordSize := hfit
    refine ⟨{ s with pos := s.pos + buf.length }, ?_, rfl⟩
    simp only [apply, read]
    rw [addUsize_ok hfit]
    simp only [Checked.ok_bind]
    rw [readLoop_eq _ _ _ _ _ (by omega) (by omega)]
    simp [addUsize_ok hfit, FlatStore.apply, flat]
  | write buf =>
    have hfit : s.pos + buf.length < wordSize := hfit
    obtain ⟨blkDev', hrun, hflat⟩ := writeLoop_eq buf (s.pos + buf.length) s.blkDev s.pos 0
      (by omega) (by omega)
    refine ⟨⟨blkDev', s.pos + buf.length⟩, ?_, ?_⟩
    · simp [apply, write, addUsize_ok hfit, hrun, FlatStore.apply]
    · simp [flat, FlatStore.apply, hflat]

/-- The storage refines a flat array of bytes with a cursor: every sequence of calls
returns what it returns on the flat array and leaves the device as the flat array
is left. -/
theorem run_refines_flat (s : BlkStorage) (ops : List StoreOp) (hfit : s.flat.AllFit ops) :
    ∃ s', s.run ops = .ok ((s.flat.run ops).1, s') ∧ s'.flat = (s.flat.run ops).2 := by
  induction ops generalizing s with
  | nil => exact ⟨s, rfl, rfl⟩
  | cons op ops ih =>
    obtain ⟨s₁, happly, hflat₁⟩ := apply_flat s op hfit.1
    obtain ⟨s₂, hrun, hflat₂⟩ := ih s₁ (hflat₁ ▸ hfit.2)
    rw [hflat₁] at hrun hflat₂
    refine ⟨s₂, ?_, hflat₂⟩
    simp [run, happly, hrun, FlatStore.run]

def blank : BlkStorage := ⟨fun _ => ⟨List.replicate blockSize 0, by simp⟩, 0⟩

theorem flat_blank : blank.flat = ⟨fun _ => 0, 0⟩ := by
  have hbytes : flatten blank.blkDev = fun _ => 0 := by
    funext a
    simp [flatten, blank, List.getD, Nat.mod_lt a blockSize_pos]
  rw [flat, hbytes]
  rfl

/-- A write across a block boundary is read back with the bytes around it. -/
theorem run_refines_flat_across_boundary :
    ∃ s', blank.run [.seek 510, .write [1, 2, 3], .seek 509, .read [7, 7, 7, 7, 7]] =
      .ok ([.moved 510, .wrote 3, .moved 509, .filled 5 [0, 1, 2, 3, 0]], s') := by
  obtain ⟨s', hrun, -⟩ := run_refines_flat blank
    [.seek 510, .write [1, 2, 3], .seek 509, .read [7, 7, 7, 7, 7]]
    ⟨by decide, by decide, by decide, by decide, trivial⟩
  rw [flat_blank] at hrun
  exact ⟨s', hrun⟩

end BlkStorage

end Zinix
