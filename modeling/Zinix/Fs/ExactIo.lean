import Zinix.Fs.DFile
import Zinix.Fs.Inode
import Zinix.Lib.Chunks
import Zinix.Lib.Transfer

/-!
# Reading and writing whole buffers

A file may give or take less than it is asked for, and `read_off_exact`, `read_all` and
`write_all` ask again for the rest. What they transfer and return does not depend on the
way in which the file splits the transfer.
-/

namespace Zinix

open Transfer

variable {c : FileBytes} {buf : List Byte} {off n clusterSize : ℕ}

/-- The largest size that an entry of a directory can hold. -/
def MAX_FILE_SIZE : ℕ := 2 ^ 32 - 1

structure FileBytes where
  bytes : List Byte
  length_le : bytes.length ≤ MAX_FILE_SIZE

namespace FileBytes

def size (c : FileBytes) : ℕ := c.bytes.length

def place (c : FileBytes) (off : ℕ) : ℕ := min off c.size

theorem place_le (c : FileBytes) (off : ℕ) : c.place off ≤ c.bytes.length := min_le_right _ _

def room (c : FileBytes) (off : ℕ) : ℕ := MAX_FILE_SIZE - c.place off

def written (c : FileBytes) (off : ℕ) (new : List Byte) (h : new.length ≤ c.room off) :
    FileBytes where
  bytes := putAt c.bytes (c.place off) new
  length_le := by
    have hle := c.length_le
    rw [length_putAt (c.place_le off)]
    simp only [room, place, size] at h ⊢
    omega

end FileBytes

/-- A way in which files answer. The number of bytes may depend on all that happened before,
which is the state, and `none` is an error. While bytes remain at least one is transferred. -/
structure Splitting (σ : Type) where
  readOff : σ → FileBytes → (len off : ℕ) → Option ℕ × σ
  readOff_le : ∀ {s c len off n}, (readOff s c len off).1 = some n → n ≤ min len (c.size - off)
  readOff_pos : ∀ {s c len off}, (readOff s c len off).1 = some 0 → min len (c.size - off) = 0
  writeOff : σ → FileBytes → (buf : List Byte) → (off : ℕ) → Option ℕ × σ
  writeOff_le : ∀ {s c buf off n}, (writeOff s c buf off).1 = some n →
    n ≤ min buf.length (c.room off)
  writeOff_pos : ∀ {s c buf off}, (writeOff s c buf off).1 = some 0 →
    min buf.length (c.room off) = 0
  /-- An offset beyond every file is refused. -/
  writeOff_max : ∀ {s c buf off n}, (writeOff s c buf off).1 = some n → off ≤ MAX_FILE_SIZE

theorem Splitting.length_take_le {σ : Type} (S : Splitting σ) {s : σ}
    (h : (S.writeOff s c buf off).1 = some n) :
    (buf.take n).length ≤ c.room off :=
  (List.length_take_le n buf).trans ((S.writeOff_le h).trans (min_le_right _ _))

/-- The content of an inode, and the state of the layers below it. -/
structure FileNode (σ : Type) where
  cls : InodeClass
  content : FileBytes
  io : σ

/-- `DFileMutInner` of an inode. -/
structure NodeFile (σ : Type) where
  inode : FileNode σ
  pos : ℕ
  openFlags : OpenFlags

variable {σ : Type}

namespace FileNode

variable (S : Splitting σ) (node : FileNode σ)

/-- The bytes that have been read, or `none` for an error. -/
def readOff (len off : ℕ) : Checked (Option (List Byte) × FileNode σ) :=
  match node.cls with
  | .file =>
    let (r, io) := S.readOff node.io node.content len off
    return (r.map fun n => (node.content.bytes.drop off).take n, { node with io := io })
  | .dir => throw .todo

/-- The number of bytes that have been written, or `none` for an error. -/
def writeOff (buf : List Byte) (off : ℕ) : Checked (Option ℕ × FileNode σ) :=
  match node.cls with
  | .file =>
    match h : S.writeOff node.io node.content buf off with
    | (some n, io) =>
      let content := node.content.written off (buf.take n) (S.length_take_le (by rw [h]))
      return (some n, { node with content := content, io := io })
    | (none, io) => return (none, { node with io := io })
  | .dir => throw .todo

/-- A round of `read_off_exact`, with the buffer as part of the state. -/
def readRound (off bufPos : ℕ) :
    List Byte × FileNode σ → Checked (Option ℕ × List Byte × FileNode σ)
  | (buf, node) => do
    let start ← addUsize off bufPos
    match ← node.readOff S (buf.length - bufPos) start with
    | (some got, node) => return (some got.length, putAt buf bufPos got, node)
    | (none, node) => return (none, buf, node)

def readOffExact (buf : List Byte) (off : ℕ) :
    Checked (Option ℕ × List Byte × FileNode σ) := do
  let needLen := buf.length
  let (ending, bufPos, s) ← loop (readRound S off) needLen (needLen + 1) 0 (buf, node)
  match ending with
  | .full => return (some needLen, s)
  | .dry => return (some bufPos, s)
  | .failed => return (none, s)

end FileNode

namespace NodeFile

variable (S : Splitting σ) (f : NodeFile σ)

def read (len : ℕ) : Checked (Option (List Byte) × NodeFile σ) :=
  if f.openFlags.readable then
    if f.inode.cls = .file then do
      match ← f.inode.readOff S len f.pos with
      | (some got, inode) =>
        let pos ← addUsize f.pos got.length
        return (some got, { f with inode := inode, pos := pos })
      | (none, inode) => return (none, { f with inode := inode })
    else
      throw (.explicit "can`t read dir")
  else
    return (none, f)

def write (buf : List Byte) : Checked (Option ℕ × NodeFile σ) :=
  if f.openFlags.writeable then
    if f.inode.cls = .file then do
      match ← f.inode.writeOff S buf f.pos with
      | (some n, inode) =>
        let pos ← addUsize f.pos n
        return (some n, { f with inode := inode, pos := pos })
      | (none, inode) => return (none, { f with inode := inode })
    else
      throw (.explicit "can`t write dir")
  else
    return (none, f)

/-- A round of `read_all`, with the buffer as part of the state. -/
def readRound (bufPos : ℕ) : List Byte × NodeFile σ → Checked (Option ℕ × List Byte × NodeFile σ)
  | (buf, f) => do
    match ← f.read S (buf.length - bufPos) with
    | (some got, f) => return (some got.length, putAt buf bufPos got, f)
    | (none, f) => return (none, buf, f)

/-- What `read_all` and `write_all` have in common: the loop, and when they answer `Ok`. -/
def transferAll {τ : Type} (ask : ℕ → τ → Checked (Option ℕ × τ)) (len : ℕ) (s : τ) :
    Checked (Except ℕ ℕ × τ) := do
  let (ending, bufPos, s) ← loop ask len (len + 1) 0 s
  match ending with
  | .full => return (.ok bufPos, s)
  | .dry => return (.error bufPos, s)
  | .failed => return (.error bufPos, s)

def readAll (buf : List Byte) : Checked (Except ℕ ℕ × List Byte × NodeFile σ) :=
  transferAll (readRound S) buf.length (buf, f)

def writeAll (buf : List Byte) : Checked (Except ℕ ℕ × NodeFile σ) :=
  transferAll (fun bufPos f => write S f (buf.drop bufPos)) buf.length f

end NodeFile

/-! ### Single transfers -/

namespace FileNode

variable {S : Splitting σ} {node : FileNode σ}

/-- A read gives a part of the file, which is only empty if there is nothing to give. -/
theorem readOff_spec (hfile : node.cls = .file) (len off : ℕ) :
    ∃ r io, node.readOff S len off = .ok (r, { node with io := io }) ∧
      (r = none ∧ (S.readOff node.io node.content len off).1 = none ∨
        ∃ n, r = some ((node.content.bytes.drop off).take n) ∧
          n ≤ min len (node.content.size - off) ∧
          (n = 0 → min len (node.content.size - off) = 0)) := by
  obtain ⟨cls, content, io⟩ := node
  cases hfile
  refine ⟨_, _, rfl, ?_⟩
  cases hr : (S.readOff io content len off).1 with
  | none => exact .inl ⟨rfl, rfl⟩
  | some n =>
    refine .inr ⟨n, rfl, S.readOff_le hr, ?_⟩
    rintro rfl
    exact S.readOff_pos hr

theorem writeOff_spec (hfile : node.cls = .file) (buf : List Byte) (off : ℕ) :
    ∃ r node', node.writeOff S buf off = .ok (r, node') ∧ node'.cls = .file ∧
      (r = none ∧ node'.content = node.content ∧
          (S.writeOff node.io node.content buf off).1 = none ∨
        ∃ n, r = some n ∧ off ≤ MAX_FILE_SIZE ∧ n ≤ min buf.length (node.content.room off) ∧
          (n = 0 → min buf.length (node.content.room off) = 0) ∧
          node'.content.bytes =
            putAt node.content.bytes (node.content.place off) (buf.take n)) := by
  rw [writeOff, hfile]
  simp only
  split
  next n io h =>
    have hn : (S.writeOff node.io node.content buf off).1 = some n := by rw [h]
    refine ⟨_, _, rfl, rfl, .inr ⟨n, rfl, S.writeOff_max hn, S.writeOff_le hn, ?_, rfl⟩⟩
    rintro rfl
    exact S.writeOff_pos hn
  next io h => exact ⟨_, _, rfl, rfl, .inl ⟨rfl, rfl, by rw [h]⟩⟩

end FileNode

/-! ### Reading -/

/-- No read between the offset and the end of the file fails. -/
def Splitting.Serves (S : Splitting σ) (c : FileBytes) (off : ℕ) : Prop :=
  ∀ s len o, off ≤ o → o ≤ max off c.size → (S.readOff s c len o).1 ≠ none

/-- The first `k` bytes of the buffer are those of the file from `off` on. -/
structure Filled (c : FileBytes) (off : ℕ) (buf : List Byte) (k : ℕ) (buf' : List Byte) :
    Prop where
  le_length : k ≤ buf.length
  le_size : k ≤ c.size - off
  eq : buf' = putAt buf 0 ((c.bytes.drop off).take k)

namespace Filled

variable {c : FileBytes} {off k n : ℕ} {buf buf' : List Byte}

theorem zero (c : FileBytes) (off : ℕ) (buf : List Byte) : Filled c off buf 0 buf :=
  ⟨Nat.zero_le _, Nat.zero_le _, by simp⟩

theorem length_part (h : Filled c off buf k buf') : ((c.bytes.drop off).take k).length = k := by
  have hle := h.le_size
  rw [List.length_take, List.length_drop]
  exact min_eq_left hle

theorem length_eq (h : Filled c off buf k buf') : buf'.length = buf.length := by
  rw [h.eq, length_putAt (Nat.zero_le _), h.length_part, Nat.zero_add]
  exact max_eq_left h.le_length

/-- At the end of the buffer or of the file nothing more is left to read. -/
theorem take_length (hk : k = min buf.length (c.size - off)) :
    (c.bytes.drop off).take k = (c.bytes.drop off).take buf.length := by
  rw [hk, List.take_eq_take_min (i := buf.length), List.length_drop]
  rfl

theorem part (h : Filled c off buf k buf') (hn : n ≤ min (buf.length - k) (c.size - (off + k))) :
    Filled c off buf (k + n) (putAt buf' k ((c.bytes.drop (off + k)).take n)) := by
  have hlen := h.le_length
  have hsize := h.le_size
  refine ⟨by omega, by omega, ?_⟩
  have hk : 0 + ((c.bytes.drop off).take k).length = k := by rw [h.length_part, Nat.zero_add]
  rw [List.take_add, List.drop_drop, h.eq, ← putAt_putAt (Nat.zero_le _), hk]

end Filled

/-- A loop has read `k` bytes, and `Q` holds of the rest of its state. -/
def Reading {τ : Type} (c : FileBytes) (off : ℕ) (buf : List Byte) (Q : ℕ → τ → Prop) (k : ℕ)
    (s : List Byte × τ) : Prop :=
  Filled c off buf k s.1 ∧ Q k s.2

def ReadDry {τ : Type} (c : FileBytes) (off : ℕ) (buf : List Byte) (Q : ℕ → τ → Prop) (k : ℕ)
    (s : List Byte × τ) : Prop :=
  Reading c off buf Q k s ∧ k = min buf.length (c.size - off)

/-- A part of the file that is not empty without need goes on with the reading. -/
theorem Filled.answered {τ : Type} {k : ℕ} {buf' : List Byte} {Q F : ℕ → τ → Prop} {t : τ}
    (h : Filled c off buf k buf') (hk : k < buf.length)
    (hn : n ≤ min (buf.length - k) (c.size - (off + k)))
    (hzero : n = 0 → min (buf.length - k) (c.size - (off + k)) = 0) (ht : Q (k + n) t) :
    Answered buf.length (Reading c off buf Q) (ReadDry c off buf Q) (Reading c off buf F) k
      (some ((c.bytes.drop (off + k)).take n).length,
        putAt buf' k ((c.bytes.drop (off + k)).take n), t) := by
  have hsize := h.le_size
  have hmax : c.size < wordSize := c.length_le.trans_lt (by decide)
  have hlen : ((c.bytes.drop (off + k)).take n).length = n := by
    rw [List.length_take, List.length_drop]
    exact min_eq_left (hn.trans (min_le_right _ _))
  have hpart : Reading c off buf Q (k + n)
      (putAt buf' k ((c.bytes.drop (off + k)).take n), t) := ⟨h.part hn, ht⟩
  rw [hlen]
  obtain rfl | hpos := Nat.eq_zero_or_pos n
  · have hend := hzero rfl
    exact .dry ⟨hpart, by omega⟩
  · exact .part hpos (by omega) (by omega) hpart

namespace FileNode

variable {S : Splitting σ} {node : FileNode σ} {buf : List Byte} {off : ℕ}

def Same (node : FileNode σ) (_k : ℕ) (node' : FileNode σ) : Prop :=
  ∃ io, node' = { node with io := io }

theorem readRound_spec (hfile : node.cls = .file) (hoff : off < wordSize) (k : ℕ)
    (s : List Byte × FileNode σ) (hk : k < buf.length)
    (h : Reading node.content off buf node.Same k s) :
    ∃ r, readRound S off k s = .ok r ∧
      Answered buf.length (Reading node.content off buf node.Same)
        (ReadDry node.content off buf node.Same)
        (Reading node.content off buf fun k node' =>
          node.Same k node' ∧ ¬S.Serves node.content off) k r := by
  obtain ⟨buf', _⟩ := s
  obtain ⟨hfilled, io, rfl⟩ := h
  have hsize := hfilled.le_size
  have hmax : node.content.size < wordSize := node.content.length_le.trans_lt (by decide)
  obtain ⟨r, io', hr, hans⟩ := @readOff_spec σ S { node with io := io } hfile (buf.length - k)
    (off + k)
  rw [readRound, addUsize_ok (by omega), Checked.ok_bind, hfilled.length_eq, hr, Checked.ok_bind]
  obtain ⟨rfl, hnone⟩ | ⟨n, rfl, hn, hzero⟩ := hans
  · refine ⟨_, rfl, .failed ⟨hfilled, ⟨io', rfl⟩, fun hserves => ?_⟩⟩
    exact hserves io _ (off + k) (by omega) (by omega) hnone
  · exact ⟨_, rfl, hfilled.answered hk hn hzero ⟨io', rfl⟩⟩

/-- What `read_off_exact` should do: it ends, and if no read fails, the buffer has the bytes
of the file from the offset on. -/
def ReadsExactly (S : Splitting σ) (node : FileNode σ) (buf : List Byte) (off : ℕ) : Prop :=
  ∃ r buf' io, node.readOffExact S buf off = .ok (r, buf', { node with io := io }) ∧
    (S.Serves node.content off → r = some (min buf.length (node.content.size - off)) ∧
      buf' = putAt buf 0 ((node.content.bytes.drop off).take buf.length))

theorem readsExactly (hfile : node.cls = .file) (hoff : off < wordSize) :
    ReadsExactly S node buf off := by
  have hstart : Reading node.content off buf node.Same 0 (buf, node) :=
    ⟨Filled.zero .., node.io, rfl⟩
  obtain ⟨e, he, hended⟩ := loop_spec_zero (readRound_spec (S := S) hfile hoff) hstart
  rw [ReadsExactly, readOffExact, he, Checked.ok_bind]
  obtain ⟨ending, bufPos, buf', node'⟩ := e
  cases hended with
  | full h =>
    obtain ⟨hfilled, io, rfl⟩ := h
    refine ⟨_, _, io, rfl, fun _ => ⟨?_, hfilled.eq⟩⟩
    rw [min_eq_left hfilled.le_size]
  | dry hlt h =>
    obtain ⟨⟨hfilled, io, rfl⟩, hk⟩ := h
    refine ⟨_, _, io, rfl, fun _ => ⟨by rw [hk], ?_⟩⟩
    rw [← Filled.take_length hk]
    exact hfilled.eq
  | failed hlt h =>
    obtain ⟨-, ⟨io, rfl⟩, hfails⟩ := h
    exact ⟨_, _, io, rfl, fun hserves => absurd hserves hfails⟩

end FileNode

namespace NodeFile

variable {S : Splitting σ} {f : NodeFile σ} {buf : List Byte}

/-- Only the position and the state of the layers below are other ones. -/
def Moved (f : NodeFile σ) (k : ℕ) (f' : NodeFile σ) : Prop :=
  ∃ io, f' = { f with inode := { f.inode with io := io }, pos := f.pos + k }

theorem read_spec (hfile : f.inode.cls = .file) (hpos : f.pos < wordSize) (len : ℕ) :
    ∃ r f', f.read S len = .ok (r, f') ∧
      (r = none ∧ f.Moved 0 f' ∧
          ¬(f.openFlags.readable = true ∧
            (S.readOff f.inode.io f.inode.content len f.pos).1 ≠ none) ∨
        ∃ n, r = some ((f.inode.content.bytes.drop f.pos).take n) ∧ f.Moved n f' ∧
          n ≤ min len (f.inode.content.size - f.pos) ∧
          (n = 0 → min len (f.inode.content.size - f.pos) = 0)) := by
  rw [read]
  by_cases hread : f.openFlags.readable = true
  · obtain ⟨r, io, hr, hans⟩ := FileNode.readOff_spec (S := S) hfile len f.pos
    rw [if_pos hread, if_pos hfile, hr, Checked.ok_bind]
    obtain ⟨rfl, hnone⟩ | ⟨n, rfl, hn, hzero⟩ := hans
    · exact ⟨_, _, rfl, .inl ⟨rfl, ⟨io, rfl⟩, fun h => h.2 hnone⟩⟩
    · have hmax : f.inode.content.size < wordSize := f.inode.content.length_le.trans_lt (by decide)
      have hlen : ((f.inode.content.bytes.drop f.pos).take n).length = n := by
        rw [List.length_take, List.length_drop]
        exact min_eq_left (hn.trans (min_le_right _ _))
      simp only [hlen, addUsize_ok (show f.pos + n < wordSize by omega), Checked.ok_bind]
      exact ⟨_, _, rfl, .inr ⟨n, rfl, ⟨io, rfl⟩, hn, hzero⟩⟩
  · rw [if_neg hread]
    exact ⟨_, _, rfl, .inl ⟨rfl, ⟨f.inode.io, rfl⟩, fun h => hread h.1⟩⟩

theorem readRound_spec (hfile : f.inode.cls = .file) (hpos : f.pos < wordSize) (k : ℕ)
    (s : List Byte × NodeFile σ) (hk : k < buf.length)
    (h : Reading f.inode.content f.pos buf f.Moved k s) :
    ∃ r, readRound S k s = .ok r ∧
      Answered buf.length (Reading f.inode.content f.pos buf f.Moved)
        (ReadDry f.inode.content f.pos buf f.Moved)
        (Reading f.inode.content f.pos buf fun k f' => f.Moved k f' ∧
          ¬(f.openFlags.readable = true ∧ S.Serves f.inode.content f.pos)) k r := by
  obtain ⟨buf', _⟩ := s
  obtain ⟨hfilled, io, rfl⟩ := h
  have hsize := hfilled.le_size
  have hmax : f.inode.content.size < wordSize := f.inode.content.length_le.trans_lt (by decide)
  obtain ⟨r, f', hr, hans⟩ := @read_spec σ S
    { f with inode := { f.inode with io := io }, pos := f.pos + k } hfile
    (show f.pos + k < wordSize by omega) (buf.length - k)
  rw [readRound, hfilled.length_eq, hr, Checked.ok_bind]
  obtain ⟨rfl, ⟨io', rfl⟩, hnone⟩ | ⟨n, rfl, ⟨io', rfl⟩, hn, hzero⟩ := hans
  · refine ⟨_, rfl, .failed ⟨hfilled, ⟨io', rfl⟩, fun hserves => hnone ⟨hserves.1, ?_⟩⟩⟩
    exact hserves.2 io _ (f.pos + k) (by omega) (by omega)
  · refine ⟨_, rfl, hfilled.answered hk hn hzero ⟨io', ?_⟩⟩
    simp only [Nat.add_assoc]

/-- All, or the first `k` bytes. -/
def transferred (len k : ℕ) : Except ℕ ℕ := if k = len then .ok k else .error k

theorem transferAll_spec {τ : Type} {ask : ℕ → τ → Checked (Option ℕ × τ)} {len : ℕ} {s : τ}
    {P Dry Failed : ℕ → τ → Prop}
    (hask : ∀ k s, k < len → P k s → ∃ r, ask k s = .ok r ∧ Answered len P Dry Failed k r)
    (hP : P 0 s) :
    ∃ k s', transferAll ask len s = .ok (transferred len k, s') ∧
      (P k s' ∧ k = len ∨ Dry k s' ∨ Failed k s') := by
  obtain ⟨e, he, hended⟩ := loop_spec_zero hask hP
  rw [transferAll, he, Checked.ok_bind]
  cases hended with
  | full h => exact ⟨len, _, by rw [transferred, if_pos rfl]; rfl, .inl ⟨h, rfl⟩⟩
  | dry hlt h => exact ⟨_, _, by rw [transferred, if_neg hlt.ne]; rfl, .inr (.inl h)⟩
  | failed hlt h => exact ⟨_, _, by rw [transferred, if_neg hlt.ne]; rfl, .inr (.inr h)⟩

/-- What `read_all` should do: it ends, and the first `k` bytes of the buffer have been read
from the position on. These are as many as there are if no read fails. -/
def ReadsAll (S : Splitting σ) (f : NodeFile σ) (buf : List Byte) : Prop :=
  ∃ k buf' io, f.readAll S buf = .ok (transferred buf.length k, buf',
      { f with inode := { f.inode with io := io }, pos := f.pos + k }) ∧
    Filled f.inode.content f.pos buf k buf' ∧
    (f.openFlags.readable = true → S.Serves f.inode.content f.pos →
      k = min buf.length (f.inode.content.size - f.pos))

theorem readsAll (hfile : f.inode.cls = .file) (hpos : f.pos < wordSize) : ReadsAll S f buf := by
  have hstart : Reading f.inode.content f.pos buf f.Moved 0 (buf, f) :=
    ⟨Filled.zero .., f.inode.io, rfl⟩
  obtain ⟨k, ⟨buf', f'⟩, hrun, hend⟩ := transferAll_spec (readRound_spec (S := S) hfile hpos) hstart
  obtain ⟨⟨hfilled, io, rfl⟩, hk⟩ | ⟨⟨hfilled, io, rfl⟩, hk⟩ | ⟨hfilled, ⟨io, rfl⟩, hfails⟩ := hend
  · refine ⟨k, buf', io, hrun, hfilled, fun _ _ => ?_⟩
    rw [min_eq_left (hk ▸ hfilled.le_size), hk]
  · exact ⟨k, buf', io, hrun, hfilled, fun _ _ => hk⟩
  · exact ⟨k, buf', io, hrun, hfilled, fun hread hserves => absurd ⟨hread, hserves⟩ hfails⟩

/-! ### Writing -/

/-- `write_all` has written `k` bytes to the place of the position in the old content. -/
structure Written (f : NodeFile σ) (buf : List Byte) (k : ℕ) (f' : NodeFile σ) : Prop where
  le_length : k ≤ buf.length
  content : f'.inode.content.bytes =
    putAt f.inode.content.bytes (f.inode.content.place f.pos) (buf.take k)
  pos : f'.pos = f.pos + k
  cls : f'.inode.cls = f.inode.cls
  openFlags : f'.openFlags = f.openFlags

namespace Written

variable {k : ℕ} {f' : NodeFile σ}

theorem zero (f : NodeFile σ) (buf : List Byte) : f.Written buf 0 f :=
  ⟨Nat.zero_le _, by simp, rfl, rfl, rfl⟩

theorem size_eq (h : f.Written buf k f') :
    f'.inode.content.size = max f.inode.content.size (f.inode.content.place f.pos + k) := by
  rw [FileBytes.size, h.content, length_putAt (FileBytes.place_le ..), List.length_take,
    min_eq_left h.le_length]
  rfl

theorem place_eq (h : f.Written buf k f') :
    f'.inode.content.place f'.pos = f.inode.content.place f.pos + k := by
  rw [FileBytes.place, h.size_eq, h.pos, FileBytes.place]
  omega

theorem trans {n : ℕ} {f'' : NodeFile σ} (h : f.Written buf k f')
    (h' : f'.Written (buf.drop k) n f'') : f.Written buf (k + n) f'' := by
  have hle := h.le_length
  have hle' := h'.le_length
  rw [List.length_drop] at hle'
  have hlen : (buf.take k).length = k := by
    rw [List.length_take]
    exact min_eq_left hle
  refine ⟨by omega, ?_, by rw [h'.pos, h.pos, Nat.add_assoc], h'.cls.trans h.cls,
    h'.openFlags.trans h.openFlags⟩
  rw [h'.content, h.place_eq, h.content, List.take_add,
    ← putAt_putAt (f.inode.content.place_le f.pos), hlen]

end Written

theorem write_spec (hfile : f.inode.cls = .file) (buf : List Byte) :
    ∃ r f', f.write S buf = .ok (r, f') ∧
      (r = none ∧ f.Written buf 0 f' ∧
          ¬(f.openFlags.writeable = true ∧
            (S.writeOff f.inode.io f.inode.content buf f.pos).1 ≠ none) ∨
        ∃ n, r = some n ∧ f.Written buf n f' ∧
          n ≤ min buf.length (f.inode.content.room f.pos) ∧
          (n = 0 → min buf.length (f.inode.content.room f.pos) = 0)) := by
  rw [write]
  by_cases hwrite : f.openFlags.writeable = true
  · obtain ⟨r, node, hr, hcls, hans⟩ := FileNode.writeOff_spec (S := S) hfile buf f.pos
    rw [if_pos hwrite, if_pos hfile, hr, Checked.ok_bind]
    have hcls' := hcls.trans hfile.symm
    obtain ⟨rfl, hsame, hnone⟩ | ⟨n, rfl, hpos, hn, hzero, hcontent⟩ := hans
    · refine ⟨_, _, rfl, .inl ⟨rfl, ⟨Nat.zero_le _, ?_, rfl, hcls', rfl⟩, fun h => h.2 hnone⟩⟩
      simp [hsame]
    · have hroom : f.inode.content.room f.pos ≤ MAX_FILE_SIZE := Nat.sub_le _ _
      have hmax : MAX_FILE_SIZE + MAX_FILE_SIZE < wordSize := by decide
      simp only [addUsize_ok (show f.pos + n < wordSize by omega), Checked.ok_bind]
      exact ⟨_, _, rfl, .inr ⟨n, rfl, ⟨hn.trans (min_le_left _ _), hcontent, rfl, hcls', rfl⟩, hn,
        hzero⟩⟩
  · rw [if_neg hwrite]
    exact ⟨_, _, rfl, .inl ⟨rfl, Written.zero f buf, fun h => hwrite h.1⟩⟩

def Accepts (S : Splitting σ) (off len : ℕ) : Prop :=
  ∀ s c buf o, off ≤ o → o < off + len → (S.writeOff s c buf o).1 ≠ none

theorem writeRound_spec (hfile : f.inode.cls = .file) (k : ℕ) (f' : NodeFile σ)
    (hk : k < buf.length) (h : f.Written buf k f') :
    ∃ r, f'.write S (buf.drop k) = .ok r ∧
      Answered buf.length (f.Written buf)
        (fun k f' => f.Written buf k f' ∧ k = min buf.length (f.inode.content.room f.pos))
        (fun k f' => f.Written buf k f' ∧
          ¬(f.openFlags.writeable = true ∧ Accepts S f.pos buf.length)) k r := by
  obtain ⟨r, f'', hr, hans⟩ := write_spec (S := S) (h.cls.trans hfile) (buf.drop k)
  have hsize : f'.inode.content.size ≤ MAX_FILE_SIZE := f'.inode.content.length_le
  have hmax : MAX_FILE_SIZE + MAX_FILE_SIZE < wordSize := by decide
  rw [h.size_eq] at hsize
  refine ⟨_, hr, ?_⟩
  rw [h.openFlags, List.length_drop, FileBytes.room, h.place_eq] at hans
  obtain ⟨rfl, hwritten, hnone⟩ | ⟨n, rfl, hwritten, hn, hzero⟩ := hans
  · refine .failed ⟨h.trans hwritten, fun haccepts => hnone ⟨haccepts.1, ?_⟩⟩
    rw [h.pos]
    exact haccepts.2 _ _ _ _ (by omega) (by omega)
  · rw [FileBytes.room]
    obtain rfl | hpos := Nat.eq_zero_or_pos n
    · have hend := hzero rfl
      exact .dry ⟨h.trans hwritten, by omega⟩
    · exact .part hpos (by omega) (by omega) (h.trans hwritten)

/-- What `write_all` should do: it ends, and the first `k` bytes of the buffer have been
written. These are as many as the file can hold if no write fails. -/
def WritesAll (S : Splitting σ) (f : NodeFile σ) (buf : List Byte) : Prop :=
  ∃ k f', f.writeAll S buf = .ok (transferred buf.length k, f') ∧ f.Written buf k f' ∧
    (f.openFlags.writeable = true → Accepts S f.pos buf.length →
      k = min buf.length (f.inode.content.room f.pos))

theorem writesAll (hfile : f.inode.cls = .file) : WritesAll S f buf := by
  obtain ⟨k, f', hrun, hend⟩ := transferAll_spec (writeRound_spec (S := S) hfile)
    (Written.zero f buf)
  refine ⟨k, f', hrun, ?_⟩
  obtain ⟨hwritten, hk⟩ | ⟨hwritten, hk⟩ | ⟨hwritten, hfails⟩ := hend
  · refine ⟨hwritten, fun _ _ => ?_⟩
    have hsize : f'.inode.content.size ≤ MAX_FILE_SIZE := f'.inode.content.length_le
    rw [hwritten.size_eq] at hsize
    rw [FileBytes.room]
    omega
  · exact ⟨hwritten, fun _ _ => hk⟩
  · exact ⟨hwritten, fun hwrite haccepts => absurd ⟨hwrite, haccepts⟩ hfails⟩

end NodeFile

/-- The three loops, for every file, every offset or position and every buffer. -/
structure TransfersExactly (S : Splitting σ) : Prop where
  readOffExact : ∀ (node : FileNode σ) (buf : List Byte) (off : ℕ), node.cls = .file →
    off < wordSize → node.ReadsExactly S buf off
  readAll : ∀ (f : NodeFile σ) (buf : List Byte), f.inode.cls = .file → f.pos < wordSize →
    f.ReadsAll S buf
  writeAll : ∀ (f : NodeFile σ) (buf : List Byte), f.inode.cls = .file → f.WritesAll S buf

/-- The loops transfer the same bytes in every way in which the file splits them. -/
theorem transfersExactly (S : Splitting σ) : TransfersExactly S where
  readOffExact _ _ _ hfile hoff := FileNode.readsExactly hfile hoff
  readAll _ _ hfile hpos := NodeFile.readsAll hfile hpos
  writeAll _ _ hfile := NodeFile.writesAll hfile

/-! ### The way of the FAT file system -/

/-- A transfer ends with the cluster. An offset that is no 32-bit number is an error of
`seek`. -/
def fatSplitting (clusterSize : ℕ) (h : 0 < clusterSize) : Splitting Unit where
  readOff _ c len off :=
    let offset := c.place off
    (if off ≤ MAX_FILE_SIZE then
      some (min (min len (clusterSize - offset % clusterSize)) (c.size - offset))
    else none, ())
  readOff_le := by
    intro _ c len off n hn
    split_ifs at hn
    cases hn
    simp only [FileBytes.place]
    omega
  readOff_pos := by
    intro _ c len off hn
    split_ifs at hn
    have hlt := Nat.mod_lt (c.place off) h
    have hzero := Option.some.inj hn
    simp only [FileBytes.place] at hlt hzero
    omega
  writeOff _ c buf off :=
    let offset := c.place off
    (if off ≤ MAX_FILE_SIZE then
      some (min (min buf.length (clusterSize - offset % clusterSize)) (MAX_FILE_SIZE - offset))
    else none, ())
  writeOff_le := by
    intro _ c buf off n hn
    split_ifs at hn
    cases hn
    simp only [FileBytes.room]
    omega
  writeOff_pos := by
    intro _ c buf off hn
    split_ifs at hn
    have hlt := Nat.mod_lt (c.place off) h
    have hzero := Option.some.inj hn
    simp only [FileBytes.room]
    omega
  writeOff_max := by
    intro _ c buf off n hn
    split_ifs at hn with hoff
    exact hoff

theorem fatSplitting_serves (h : 0 < clusterSize) (hoff : off ≤ MAX_FILE_SIZE) :
    (fatSplitting clusterSize h).Serves c off := by
  intro s len o _ hle
  have hsize : c.size ≤ MAX_FILE_SIZE := c.length_le
  simp [fatSplitting, show o ≤ MAX_FILE_SIZE by omega]

theorem readOffExact_fatSplitting (h : 0 < clusterSize) {node : FileNode Unit}
    (hfile : node.cls = .file) (buf : List Byte) (hoff : off ≤ MAX_FILE_SIZE) :
    node.readOffExact (fatSplitting clusterSize h) buf off =
      .ok (some (min buf.length (node.content.size - off)),
        putAt buf 0 ((node.content.bytes.drop off).take buf.length), node) := by
  have hword : off < wordSize := hoff.trans_lt (by decide)
  obtain ⟨r, buf', io, hrun, hserves⟩ := @FileNode.readsExactly Unit _ node buf off hfile hword
  obtain ⟨rfl, rfl⟩ := hserves (fatSplitting_serves h hoff)
  exact hrun

end Zinix
