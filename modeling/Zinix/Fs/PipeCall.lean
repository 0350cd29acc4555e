import Zinix.Fs.FdTable
import Zinix.Fs.PipeStretch
import Zinix.Lib.Chunks

/-!
# What `sys_pipe` tells its caller

The ends of the new pipe are connected as they should be, but the second word that the call
stores is that of the read end again, and the words are stored also when the call fails.
-/

namespace Zinix

/-- A task with the open files of all tasks and its own memory, in which the addresses of
the call are mapped and can be written. -/
structure Caller where
  files : Descriptors
  task : ℕ
  mem : ℕ → Byte

namespace Caller

variable (c c' : Caller)

/-- `Vaddr::write_single` of a `u32`. -/
def writeU32 (addr w : ℕ) : Checked Caller := do
  Checked.ensure (addr % 4 = 0) .assertion
  return { c with mem := Chunk.write c.mem ⟨addr, leBytes 4 w⟩ }

def sysPipe (pipe : ℕ) : Checked (ℤ × Caller) := do
  let ((ret, fst, snd), files) := c.files.sysPipe c.task
  let c ← writeU32 { c with files } pipe fst
  Checked.ensure (pipe + 4 < 2 ^ 64) .overflow
  let c ← c.writeU32 (pipe + 4) snd
  return (ret, c)

/-- The `u32` at an address. -/
def word (addr : ℕ) : ℕ := ofLeBytes ((List.range 4).map fun i => c.mem (addr + i))

/-- The descriptor is one of the pipe, with these rights. -/
def IsEnd (fd p : ℕ) (readable writeable : Bool) : Prop :=
  ∃ d, c.files.slot c.task fd = some d ∧ (c.files.dfiles d).cls = .classPipe p ∧
    (c.files.dfiles d).openFlags.readable = readable ∧
    (c.files.dfiles d).openFlags.writeable = writeable

/-- The descriptor can be read, and a read of that many bytes returns these. -/
def Reads (s : Descriptors) (t fd : ℕ) (bytes : List UInt8) : Prop :=
  ∃ d p, s.slot t fd = some d ∧ (s.dfiles d).cls = .classPipe p ∧
    (s.dfiles d).openFlags.readable = true ∧
    ∀ buf : List UInt8, buf.length = bytes.length → ∃ st, (s.pipes p).readExact t buf 0 = .ok st ∧
      st.buf = bytes ∧ st.outcome = .returned bytes.length

/-- Between the two states a pipe has been made, of which `r` and `w` are the ends: what is
written to `w` is read from `r`. -/
structure NewPipe (r w : ℕ) : Prop where
  distinct : r ≠ w
  ends : ∃ p, c.files.pipeCnt ≤ p ∧ p < c'.files.pipeCnt ∧ c'.IsEnd r p true false ∧
    c'.IsEnd w p false true
  carries : ∀ bytes : List UInt8, bytes.length ≤ ringBufferSize →
    ∃ s, c'.files.sysWrite c.task w bytes = .ok s ∧ Reads s c.task r bytes

/-- The call has stored the two ends of a new pipe, or has failed and changed nothing. -/
def PipeRight (pipe : ℕ) : Prop :=
  ∃ ret c', c.sysPipe pipe = .ok (ret, c') ∧
    (ret = 0 ∧ c.NewPipe c' (c'.word pipe) (c'.word (pipe + 4)) ∨
      ret = -1 ∧ c'.files.opened c.task = c.files.opened c.task ∧ c'.mem = c.mem)

def told : ℕ := (c.files.freeSlot c.task 0).getD 0

/-- There is no room for a pipe, the address is aligned and below the last word, and the
memory there holds already what the call stores. -/
structure NothingToTell (pipe : ℕ) : Prop where
  full : (freeFds (c.files.opened c.task) 0).Subsingleton
  aligned : pipe % 4 = 0
  below : pipe + 4 < 2 ^ 64
  holds : ∀ i < 8, c.mem (pipe + i) = (leBytes 4 c.told ++ leBytes 4 c.told).getD i 0

end Caller

namespace OpenFlags

theorem readable_rdonly : O_RDONLY.readable = true ∧ O_RDONLY.writeable = false := by decide

theorem writeable_wronly : O_WRONLY.readable = false ∧ O_WRONLY.writeable = true := by decide

end OpenFlags

namespace Descriptors

variable {s : Descriptors} {t : ℕ}

theorem sysPipe_words (s : Descriptors) (t : ℕ) :
    (s.sysPipe t).1.2 = ((s.freeSlot t 0).getD 0, (s.freeSlot t 0).getD 0) := by
  have hfree : s.newPipe.2.freeSlot t 0 = s.freeSlot t 0 := rfl
  simp only [sysPipe, allocOpened, allocFrom, hfree]
  cases s.freeSlot t 0 with
  | none => rfl
  | some r =>
    dsimp only
    rcases hw : (s.newPipe.2.setSlot t r (some s.newPipe.1.1)).freeSlot t 0 with _ | w
    · rfl
    · rfl

def withPipe (s : Descriptors) (t r w : ℕ) : Descriptors :=
  (s.newPipe.2.setSlot t r (some s.dfileCnt)).setSlot t w (some (s.dfileCnt + 1))

theorem sysPipe_of_room {i j : ℕ} (hne : i ≠ j) (hi : i ∈ freeFds (s.opened t) 0)
    (hj : j ∈ freeFds (s.opened t) 0) :
    ∃ r w, r < w ∧ w < (s.opened t).length ∧ s.sysPipe t = ((0, r, r), s.withPipe t r w) := by
  have hfree : s.newPipe.2.freeSlot t 0 = s.freeSlot t 0 := rfl
  cases hr : s.freeSlot t 0 with
  | none =>
    rw [freeSlot_eq_none hr] at hi
    cases hi
  | some r =>
    have htable : (s.newPipe.2.setSlot t r (some s.dfileCnt)).opened t =
        (s.opened t).set r (some s.dfileCnt) := opened_setSlot ..
    cases hw : (s.newPipe.2.setSlot t r (some s.dfileCnt)).freeSlot t 0 with
    | none =>
      have hempty := freeSlot_eq_none hw
      rw [htable, freeFds_set, Set.sdiff_eq_empty] at hempty
      exact absurd (Set.subsingleton_singleton.anti hempty hi hj) hne
    | some w =>
      have hleast := (freeSlot_eq_some hw).1
      rw [htable, freeFds_set] at hleast
      refine ⟨r, w, ?_, ?_, ?_⟩
      · exact lt_of_le_of_ne ((freeSlot_eq_some hr).2 hleast.1) fun heq => hleast.2 heq.symm
      · exact (mem_freeFds_iff_slot.mp hleast.1).2.1
      · have hread : s.newPipe.1.1 = s.dfileCnt := rfl
        simp only [sysPipe, allocOpened, allocFrom, hfree, hr, hread, hw]
        rfl

section WithPipe

variable {r w : ℕ}

theorem slot_withPipe_write (hw : w < (s.opened t).length) :
    (s.withPipe t r w).slot t w = some (s.dfileCnt + 1) := by
  rw [slot_eq_some_iff, withPipe, opened_setSlot, opened_setSlot]
  exact List.getElem?_set_self (by rwa [List.length_set])

theorem slot_withPipe_read (hne : r ≠ w) (hr : r < (s.opened t).length) :
    (s.withPipe t r w).slot t r = some s.dfileCnt := by
  rw [slot_eq_some_iff, withPipe, opened_setSlot, opened_setSlot, List.getElem?_set_ne hne.symm]
  exact List.getElem?_set_self hr

theorem dfiles_withPipe_write (s : Descriptors) (t r w : ℕ) :
    (s.withPipe t r w).dfiles (s.dfileCnt + 1) = ⟨.classPipe s.pipeCnt, .O_WRONLY, false⟩ :=
  replaceAt_self

theorem dfiles_withPipe_read (s : Descriptors) (t r w : ℕ) :
    (s.withPipe t r w).dfiles s.dfileCnt = ⟨.classPipe s.pipeCnt, .O_RDONLY, false⟩ :=
  (replaceAt_of_ne (Nat.ne_of_lt (Nat.lt_succ_self _))).trans replaceAt_self

theorem pipes_withPipe (s : Descriptors) (t r w : ℕ) :
    (s.withPipe t r w).pipes s.pipeCnt = Pipe.new.incWrite := replaceAt_self

/-- A message that fits into the ring goes from the one end to the other. -/
theorem withPipe_carries (hrw : r < w) (hw : w < (s.opened t).length) {bytes : List UInt8} (hfits : bytes.length ≤ ringBufferSize) :
    ∃ s', (s.withPipe t r w).sysWrite t w bytes = .ok s' ∧ Caller.Reads s' t r bytes := by
  have hr : r < (s.opened t).length := hrw.trans hw
  obtain ⟨ring, hring, hwrite⟩ := Pipe.writeExact_fits t Pipe.new.incWrite bytes
    (by simpa [Pipe.new, Pipe.incWrite, Pipe.contents] using hfits)
  have hcontents : ring.contents = bytes := hring
  let pipe := { Pipe.new.incWrite with buffer := ring }.wakeUpRead
  refine ⟨{ s.withPipe t r w with
    pipes := replaceAt (s.withPipe t r w).pipes s.pipeCnt pipe }, ?_, ?_⟩
  · simp only [sysWrite, Checked.ensure_pos (Nat.ne_of_gt (Nat.zero_lt_of_lt hrw)),
      Checked.ok_bind, transfer, slot_withPipe_write hw, dfiles_withPipe_write, pipes_withPipe,
      hwrite]
    rfl
  · refine ⟨s.dfileCnt, s.pipeCnt, slot_withPipe_read hrw.ne hr, ?_, ?_, ?_⟩
    · exact congrArg DFile.cls (s.dfiles_withPipe_read t r w)
    · exact (congrArg (fun f => f.openFlags.readable) (s.dfiles_withPipe_read t r w)).trans
        OpenFlags.readable_rdonly.1
    · intro buf hbuf
      have hlen : 0 + pipe.contents.length = buf.length := by
        rw [hbuf, Nat.zero_add]
        exact congrArg List.length hcontents
      obtain ⟨ring', -, hread⟩ := Pipe.readExact_exact t pipe buf hlen
      refine ⟨_, (congrArg (fun p => Pipe.readExact t p buf 0) replaceAt_self).trans hread, ?_, ?_⟩
      · have hall : pipe.contents.length = buf.length := by omega
        dsimp only
        rw [hall, List.drop_length, List.append_nil]
        exact hcontents
      · exact congrArg Outcome.returned hbuf

end WithPipe

end Descriptors

namespace Caller

variable {c : Caller} {pipe : ℕ}

theorem newPipe_withPipe {r w : ℕ} (hrw : r < w) (hw : w < (c.files.opened c.task).length)
    (mem : ℕ → Byte) : c.NewPipe ⟨c.files.withPipe c.task r w, c.task, mem⟩ r w where
  distinct := hrw.ne
  ends := by
    refine ⟨c.files.pipeCnt, le_rfl, Nat.lt_succ_self _, ?_, ?_⟩
    · refine ⟨_, Descriptors.slot_withPipe_read hrw.ne (hrw.trans hw), ?_⟩
      rw [Descriptors.dfiles_withPipe_read]
      exact ⟨rfl, OpenFlags.readable_rdonly⟩
    · refine ⟨_, Descriptors.slot_withPipe_write hw, ?_⟩
      rw [Descriptors.dfiles_withPipe_write]
      exact ⟨rfl, OpenFlags.writeable_wronly⟩
  carries := fun _ hfits => Descriptors.withPipe_carries hrw hw hfits

/-- The call returns if both words can be stored, and stores the same number in both. -/
theorem sysPipe_eq (c : Caller) (pipe : ℕ) :
    c.sysPipe pipe =
      if pipe % 4 = 0 then
        if pipe + 4 < 2 ^ 64 then
          .ok ((c.files.sysPipe c.task).1.1, ⟨(c.files.sysPipe c.task).2, c.task,
            Chunk.write c.mem ⟨pipe, leBytes 4 c.told ++ leBytes 4 c.told⟩⟩)
        else .error .overflow
      else .error .assertion := by
  have hwords := c.files.sysPipe_words c.task
  rcases hcall : c.files.sysPipe c.task with ⟨⟨ret, fst, snd⟩, files⟩
  rw [hcall] at hwords
  obtain ⟨rfl, rfl⟩ := Prod.mk.inj hwords
  simp only [sysPipe, hcall, writeU32]
  by_cases haligned : pipe % 4 = 0
  · rw [if_pos haligned]
    by_cases hbelow : pipe + 4 < 2 ^ 64
    · have hnext : (pipe + 4) % 4 = 0 := by omega
      have hwrite := Chunk.write_lower_upper c.mem pipe (leBytes 4 c.told) (leBytes 4 c.told)
      rw [length_leBytes] at hwrite
      rw [if_pos hbelow, ← hwrite, Checked.ensure_pos haligned]
      simp only [Checked.ok_bind, Checked.ensure_pos hbelow, Checked.ensure_pos hnext]
      rfl
    · rw [if_neg hbelow, Checked.ensure_pos haligned]
      simp only [Checked.ok_bind, Checked.ensure_neg hbelow]
      rfl
  · rw [if_neg haligned, Checked.ensure_neg haligned]
    rfl

theorem word_write (files : Descriptors) (t : ℕ) (mem : ℕ → Byte) (pipe v : ℕ) :
    word ⟨files, t, Chunk.write mem ⟨pipe, leBytes 4 v ++ leBytes 4 v⟩⟩ pipe = v % 2 ^ 32 ∧
      word ⟨files, t, Chunk.write mem ⟨pipe, leBytes 4 v ++ leBytes 4 v⟩⟩ (pipe + 4) =
        v % 2 ^ 32 := by
  have hval : ofLeBytes (leBytes 4 v) = v % 2 ^ 32 := ofLeBytes_leBytes 4 v
  have hread : ∀ k, k + 4 ≤ 8 → (List.range 4).map (fun i => Chunk.write mem
      ⟨pipe, leBytes 4 v ++ leBytes 4 v⟩ (pipe + k + i)) =
        ((leBytes 4 v ++ leBytes 4 v).drop k).take 4 := by
    intro k hk
    exact Chunk.map_range_write (by simpa using hk)
  rw [← hval]
  exact ⟨congrArg ofLeBytes (hread 0 (by decide)), congrArg ofLeBytes (hread 4 (by decide))⟩

theorem pipeRight_iff (c : Caller) (pipe : ℕ) : c.PipeRight pipe ↔ c.NothingToTell pipe := by
  constructor
  · rintro ⟨ret, c', hcall, hor⟩
    rw [sysPipe_eq] at hcall
    split_ifs at hcall with haligned hbelow
    cases hcall
    rcases c.files.sysPipe_cases c.task with ⟨hret, -, hfew⟩ | ⟨hret, -⟩
    · rcases hor with ⟨hzero, -⟩ | ⟨-, -, hmem⟩
      · rw [hret] at hzero
        cases hzero
      · refine ⟨hfew, haligned, hbelow, fun i hi => ?_⟩
        exact Chunk.write_eq_self_iff.mp hmem i (by simpa using hi)
    · rcases hor with ⟨-, hpipe⟩ | ⟨hfail, -⟩
      · obtain ⟨hfst, hsnd⟩ := word_write (c.files.sysPipe c.task).2 c.task c.mem pipe c.told
        exact absurd (hfst.trans hsnd.symm) hpipe.distinct
      · rw [hret] at hfail
        cases hfail
  · intro h
    refine ⟨(c.files.sysPipe c.task).1.1, ⟨(c.files.sysPipe c.task).2, c.task,
      Chunk.write c.mem ⟨pipe, leBytes 4 c.told ++ leBytes 4 c.told⟩⟩, ?_, ?_⟩
    · rw [sysPipe_eq, if_pos h.aligned, if_pos h.below]
    · rcases c.files.sysPipe_cases c.task with ⟨hret, htable, -⟩ | ⟨-, r, w, _, _, -, hr, hw, -⟩
      · refine .inr ⟨hret, htable, Chunk.write_eq_self_iff.mpr fun i hi => ?_⟩
        exact h.holds i (by simpa using hi)
      · exact absurd (h.full hw.1.1 hr.1) hw.1.2

def HasRoom (c : Caller) : Prop :=
  ∃ i j, i ≠ j ∧ i ∈ freeFds (c.files.opened c.task) 0 ∧ j ∈ freeFds (c.files.opened c.task) 0

theorem sysPipe_of_hasRoom (hroom : c.HasRoom) (haligned : pipe % 4 = 0)
    (hbelow : pipe + 4 < 2 ^ 64) :
    ∃ c' r w, c.sysPipe pipe = .ok (0, c') ∧ c.NewPipe c' r w ∧
      c'.word pipe = r % 2 ^ 32 ∧ c'.word (pipe + 4) = r % 2 ^ 32 := by
  obtain ⟨i, j, hne, hi, hj⟩ := hroom
  obtain ⟨r, w, hrw, hw, hcall⟩ := Descriptors.sysPipe_of_room hne hi hj
  have htold : c.told = r := by
    have hwords := c.files.sysPipe_words c.task
    rw [hcall] at hwords
    exact (Prod.mk.inj hwords).1.symm
  refine ⟨⟨c.files.withPipe c.task r w, c.task,
    Chunk.write c.mem ⟨pipe, leBytes 4 r ++ leBytes 4 r⟩⟩, r, w, ?_, ?_, word_write ..⟩
  · rw [sysPipe_eq, if_pos haligned, if_pos hbelow, hcall, htold]
  · exact newPipe_withPipe hrw hw _

/-- The call is right exactly when there is no room for a pipe and it stores nothing new.
Where there is room, the pipe it makes is what it should be, and the descriptor of its
write end is not told. -/
theorem pipeRight_iff_nothingToTell (c : Caller) (pipe : ℕ) :
    (c.PipeRight pipe ↔ c.NothingToTell pipe) ∧
      (c.HasRoom → pipe % 4 = 0 → pipe + 4 < 2 ^ 64 →
        ∃ c' r w, c.sysPipe pipe = .ok (0, c') ∧ c.NewPipe c' r w ∧
          c'.word pipe = r % 2 ^ 32 ∧ c'.word (pipe + 4) = r % 2 ^ 32) :=
  ⟨c.pipeRight_iff pipe, sysPipe_of_hasRoom⟩

/-- A new user task with an empty page at `0x1000`. -/
def newCaller : Caller := ⟨Descriptors.boot.createUserTask, 1, fun _ => 0⟩

def fullCaller : Caller :=
  { newCaller with files := { newCaller.files with
      opened := fun _ => List.replicate 63 (some 0) ++ [none] } }

theorem sysPipe_tells (c : Caller) (pipe : ℕ) {ret : ℤ} {v : ℕ} (haligned : pipe % 4 = 0)
    (hbelow : pipe + 4 < 2 ^ 64) (hret : (c.files.sysPipe c.task).1.1 = ret) (htold : c.told = v) :
    ∃ c', c.sysPipe pipe = .ok (ret, c') ∧ c'.files = (c.files.sysPipe c.task).2 ∧
      c'.word pipe = v % 2 ^ 32 ∧ c'.word (pipe + 4) = v % 2 ^ 32 := by
  refine ⟨⟨(c.files.sysPipe c.task).2, c.task, _⟩, ?_, rfl, word_write _ _ c.mem _ _⟩
  rw [sysPipe_eq, if_pos haligned, if_pos hbelow, hret, htold]

/-- The new task gets the descriptors 3 and 4 and is told 3 and 3. The full one is told 63
although the call fails. -/
theorem not_pipeRight_newCaller :
    (∃ c', newCaller.sysPipe 0x1000 = .ok (0, c') ∧ c'.files.slot 1 4 = some 4 ∧
      c'.word 0x1000 = 3 ∧ c'.word 0x1004 = 3) ∧ ¬newCaller.PipeRight 0x1000 ∧
    (∃ c', fullCaller.sysPipe 0x1000 = .ok (-1, c') ∧ c'.word 0x1000 = 63) ∧
      ¬fullCaller.PipeRight 0x1000 := by
  simp only [pipeRight_iff]
  refine ⟨?_, ?_, ?_, ?_⟩
  · obtain ⟨c', hcall, hfiles, hwords⟩ := sysPipe_tells newCaller 0x1000 rfl
      (by decide) (by decide +kernel : _ = (0 : ℤ)) (by decide +kernel : _ = 3)
    exact ⟨c', hcall, by rw [hfiles]; decide +kernel, hwords⟩
  · intro h
    exact absurd (h.holds 0 (by decide)) (by decide +kernel)
  · obtain ⟨c', hcall, -, hwords⟩ := sysPipe_tells fullCaller 0x1000 rfl
      (by decide) (by decide +kernel : _ = (-1 : ℤ)) (by decide +kernel : _ = 63)
    exact ⟨c', hcall, hwords.1⟩
  · intro h
    exact absurd (h.holds 0 (by decide)) (by decide +kernel)

end Caller

end Zinix
