import Zinix.Trap.LockRules

/-!
# The lock discipline of `read`, `write` and `writev`

`read` and `write` keep the lock of the open file and that of their own task while they
touch the buffer and while the pipe lets them wait; going to sleep and the handler of a
fault lock the task once more. A vector is switched away with the file locked when it waits.
-/

namespace Zinix

open Code KernelCode

/-- The calls that move bytes between a file and the memory of the caller. -/
inductive Transfer where
  | read (fd ptr len : ℕ)
  | write (fd ptr len : ℕ)
  | writev (fd iovArrayBase len : ℕ)

def iovBase (u : ℕ → Byte) (iov : ℕ) : ℕ := ofLeBytes (Memory.bytes u iov 8)

def iovLen (u : ℕ → Byte) (iov : ℕ) : ℕ := ofLeBytes (Memory.bytes u (iov + 8) 8)

/-- The number of bytes in the first `n` entries of a vector from the `i`th one on, as far
as the call takes them. -/
def taken (u : ℕ → Byte) (base len i n : ℕ) : ℕ :=
  min len (∑ j ∈ Finset.range n, iovLen u (base + (i + j) * 16))

section Vectors

variable (has : Touch → Bool) (u : ℕ → Byte) (base : ℕ)

/-- An entry whose address is none of the last ones, which can be read and is not null. -/
def GoodEntry (iov : ℕ) : Prop :=
  iov < wordSize ∧ (Memory.Resident has .load iov 8 ∧ Memory.Resident has .load (iov + 8) 8) ∧
    iovBase u iov ≠ 0

/-- One of `k` entries is the first that does not fit into the room that is left in the
pipe, the call gets as far as that entry without a fault, and there is another task to run.
Each entry that was written before has woken up the waiting readers. -/
def VectorBlocks (k i len room runnable waiting : ℕ) : Prop :=
  ∃ n < k, (∀ j ≤ n, GoodEntry has u (base + (i + j) * 16) ∧
      Memory.Resident has .load (iovBase u (base + (i + j) * 16))
        (min room (taken u base len i (j + 1)) - taken u base len i j)) ∧
    taken u base len i n ≤ room ∧ room < taken u base len i (n + 1) ∧
    2 ≤ runnable + if n = 0 then 0 else waiting

variable {has u base} {k i len room runnable waiting : ℕ}

theorem vectorBlocks_zero : ¬VectorBlocks has u base 0 i len room runnable waiting := by
  rintro ⟨n, hn, -⟩
  exact absurd hn (Nat.not_lt_zero n)

theorem not_vectorBlocks_of_len_zero : ¬VectorBlocks has u base k i 0 room runnable waiting := by
  rintro ⟨n, -, -, -, hfull, -⟩
  simp [taken] at hfull

theorem taken_zero : taken u base len i 0 = 0 := by
  simp [taken]

theorem taken_succ (n : ℕ) :
    taken u base len i (n + 1) = min (iovLen u (base + i * 16)) len +
      taken u base (len - min (iovLen u (base + i * 16)) len) (i + 1) n := by
  simp only [taken, Finset.sum_range_succ', Nat.add_zero]
  have hsum : ∑ j ∈ Finset.range n, iovLen u (base + (i + (j + 1)) * 16) =
      ∑ j ∈ Finset.range n, iovLen u (base + (i + 1 + j) * 16) :=
    Finset.sum_congr rfl fun j _ => by rw [show i + (j + 1) = i + 1 + j by omega]
  omega

theorem vectorBlocks_succ : VectorBlocks has u base (k + 1) i len room runnable waiting ↔
    (GoodEntry has u (base + i * 16) ∧ Memory.Resident has .load (iovBase u (base + i * 16))
        (min room (min (iovLen u (base + i * 16)) len))) ∧
      (room < min (iovLen u (base + i * 16)) len ∧ 2 ≤ runnable ∨
        min (iovLen u (base + i * 16)) len ≤ room ∧
          VectorBlocks has u base k (i + 1) (len - min (iovLen u (base + i * 16)) len)
            (room - min (iovLen u (base + i * 16)) len) (runnable + waiting) 0) := by
  generalize hpiece : min (iovLen u (base + i * 16)) len = piece
  have hsucc : ∀ n, taken u base len i (n + 1) = piece + taken u base (len - piece) (i + 1) n := by
    intro n
    rw [taken_succ, hpiece]
  have hentry : ∀ j, base + (i + (j + 1)) * 16 = base + (i + 1 + j) * 16 := by
    intro j
    rw [show i + (j + 1) = i + 1 + j by omega]
  -- the bytes of a later entry, counted with the first one and without it
  have hbytes : ∀ j, piece ≤ room →
      min room (taken u base len i (j + 2)) - taken u base len i (j + 1) =
        min (room - piece) (taken u base (len - piece) (i + 1) (j + 1)) -
          taken u base (len - piece) (i + 1) j := by
    intro j hle
    rw [hsucc, hsucc]
    omega
  constructor
  · rintro ⟨n, hn, hentries, hfit, hfull, hrunnable⟩
    have hfirst := hentries 0 (Nat.zero_le n)
    rw [hsucc, taken_zero, taken_zero, Nat.add_zero, Nat.add_zero, Nat.sub_zero] at hfirst
    refine ⟨hfirst, ?_⟩
    cases n with
    | zero =>
      rw [hsucc, taken_zero, Nat.add_zero] at hfull
      exact .inl ⟨hfull, by simpa using hrunnable⟩
    | succ n =>
      rw [hsucc] at hfit hfull
      refine .inr ⟨by omega, n, by omega, fun j hj => ?_, by omega, by omega,
        by simpa using hrunnable⟩
      rw [← hentry, ← hbytes j (by omega)]
      exact hentries (j + 1) (by omega)
  · rintro ⟨hfirst, ⟨hfull, hrunnable⟩ | ⟨hfits, hrest⟩⟩
    · refine ⟨0, by omega, fun j hj => ?_, by rw [taken_zero]; omega, ?_, by simpa using hrunnable⟩
      · rw [Nat.le_zero.mp hj, hsucc, taken_zero, taken_zero]
        exact hfirst
      · rwa [hsucc, taken_zero, Nat.add_zero]
    · obtain ⟨n, hn, hentries, hfit, hfull', hrunnable⟩ := hrest
      refine ⟨n + 1, by omega, fun j hj => ?_, by rw [hsucc]; omega, by rw [hsucc]; omega,
        by simpa using hrunnable⟩
      cases j with
      | zero =>
        rw [hsucc, taken_zero, taken_zero]
        exact hfirst
      | succ j =>
        rw [hentry, hbytes j hfits]
        exact hentries j (by omega)

end Vectors

namespace Transfer

variable {F : Type} (fs : FatDriver F) (has : Touch → Bool) (w : World F) (u : ℕ → Byte)
  {d pipe base lenNeed n i lenRes : ℕ} {mode : OpenFlags → Bool} {P : ℕ → Prop}

/-- The code of a call, with a bound on the passes of each loop that can sleep. -/
def code (passes : ℕ) : Transfer → KernelCode F ℤ
  | read fd ptr len => sysRead fs fd ptr len passes
  | write fd ptr len => sysWrite fs fd ptr len passes
  | writev fd iovArrayBase len => sysWritev fs fd iovArrayBase len passes

/-- The running task has the pipe open under the descriptor. -/
def OpensPipe (fd : ℕ) (mode : OpenFlags → Bool) (pipe : ℕ) : Prop :=
  ∃ d, w.files.slot w.kernel.running fd = some d ∧ IsPipe w d mode pipe

def Blocks : Transfer → Prop
  | read fd _ len => ∃ pipe, OpensPipe w fd OpenFlags.readable pipe ∧
      (w.files.pipes pipe).buffer.contents.length < len ∧ (w.files.pipes pipe).haveWriter
  | write fd _ len => fd ≠ 0 ∧ ∃ pipe, OpensPipe w fd OpenFlags.writeable pipe ∧
      ringBufferSize < (w.files.pipes pipe).buffer.contents.length + len
  | writev fd iovArrayBase len => fd ≠ 0 ∧ ∃ pipe, OpensPipe w fd OpenFlags.writeable pipe ∧
      VectorBlocks has u iovArrayBase (wordSize - 1) 0 len
        (ringBufferSize - (w.files.pipes pipe).buffer.contents.length)
        w.kernel.runningList.length (w.waitList pipe .read).length

/-- The call holds the lock of its task, and some byte of the buffer that it touches is not
resident. -/
def Faults : Transfer → Prop
  | read fd ptr len => ∃ d, w.files.slot w.kernel.running fd = some d ∧
      ¬Memory.Resident has .store ptr (bytesRead fs w d len)
  | write fd ptr len => fd ≠ 0 ∧ ∃ d, w.files.slot w.kernel.running fd = some d ∧
      ¬Memory.Resident has .load ptr (bytesWritten fs w d len)
  | writev _ _ _ => False

variable {fs has w u} {fd ptr len passes : ℕ}

theorem holdsTasks_nil : HoldsTasks [] := fun _ hl => absurd hl not_holdsLock_nil

theorem holdsTasks_task (t : ℕ) : HoldsTasks [.irq (.task t) false] := by
  intro l hl
  rcases holdsLock_irq_cons.mp hl with rfl | hl
  · exact ⟨t, rfl⟩
  · exact absurd hl not_holdsLock_nil

theorem not_maySleep : ¬MaySleep [.irq (.task w.kernel.running) false] w := by
  simp [MaySleep]

theorem not_mayFault : ¬MayFault [.irq (.task w.kernel.running) false] w := by
  simp [MayFault]

theorem mayFault_nil : MayFault [] w := not_holdsLock_nil

theorem exists_opensPipe (hslot : w.files.slot w.kernel.running fd = some d)
    (hpipe : IsPipe w d mode pipe) :
    (∃ pipe, OpensPipe w fd mode pipe ∧ P pipe) ↔ P pipe := by
  constructor
  · rintro ⟨pipe', ⟨d', hd', hpipe'⟩, hP⟩
    cases hslot.symm.trans hd'
    cases hpipe.2.symm.trans hpipe'.2
    exact hP
  · exact fun hP => ⟨pipe, ⟨d, hslot, hpipe⟩, hP⟩

theorem not_exists_opensPipe (hslot : w.files.slot w.kernel.running fd = some d)
    (hnone : ∀ pipe, ¬IsPipe w d mode pipe) :
    ¬∃ pipe, OpensPipe w fd mode pipe ∧ P pipe := by
  rintro ⟨pipe, ⟨d', hd', hpipe⟩, -⟩
  cases hslot.symm.trans hd'
  exact hnone pipe hpipe

theorem obeys_sysRead :
    (sysRead fs fd ptr len (passes + 2)).Obeys (lockRules has) (fun _ _ _ _ => True) [] w u ↔
      ¬Blocks has w u (read fd ptr len) ∧ ¬Faults fs has w (read fd ptr len) := by
  simp only [sysRead, bind_eq, obeys_bind, obeys_getRunning not_holdsLock_nil, takeIrq_bind,
    read_bind, Obeys, not_holdsLock_nil, not_false_eq_true, true_and]
  cases hslot : w.files.slot w.kernel.running fd with
  | none => simp [Blocks, Faults, OpensPipe, hslot, Obeys]
  | some d =>
    simp only [obeys_bind, Blocks, Faults, hslot, Option.some.injEq, exists_eq_left', not_not]
    have htask := holdsTasks_task w.kernel.running
    by_cases hpipe : ∃ pipe, IsPipe w d OpenFlags.readable pipe
    · obtain ⟨pipe, hpipe⟩ := hpipe
      rw [obeys_dfileRead_pipe htask hpipe fun _ _ _ => trivial, exists_opensPipe hslot hpipe]
      split_ifs with hres
      · simp [not_maySleep, hres]
      · simp [not_mayFault, hres]
    · have hnone := not_exists.mp hpipe
      rw [obeys_dfileRead_of_not_pipe htask hnone fun _ _ _ => trivial, or_iff_left not_mayFault,
        and_iff_right (not_exists_opensPipe hslot hnone)]

theorem obeys_errorSync {gs : List (Guard LockId)}
    {Q : Unit → List (Guard LockId) → World F → (ℕ → Byte) → Prop} (h : HoldsTasks gs) :
    errorSync.Obeys (lockRules has) Q gs w u :=
  ⟨h.not_holdsLock (by simp), trivial⟩

theorem obeys_sysWrite :
    (sysWrite fs fd ptr len (passes + 2)).Obeys (lockRules has) (fun _ _ _ _ => True) [] w u ↔
      ¬Blocks has w u (write fd ptr len) ∧ ¬Faults fs has w (write fd ptr len) := by
  have htask := holdsTasks_task w.kernel.running
  simp only [sysWrite, bind_eq, obeys_bind, obeys_getRunning not_holdsLock_nil, takeIrq_bind,
    read_bind, Obeys, not_holdsLock_nil, not_false_eq_true, true_and]
  split_ifs with hfd
  · refine iff_of_true ?_ ⟨fun h => h.1 hfd, fun h => h.1 hfd⟩
    exact obeys_bind.mpr (obeys_errorSync htask)
  simp only [pure_eq, Obeys]
  cases hslot : w.files.slot w.kernel.running fd with
  | none => simp [Blocks, Faults, OpensPipe, hslot, Obeys]
  | some d =>
    simp only [obeys_bind, Blocks, Faults, hslot, Option.some.injEq, exists_eq_left', ne_eq, hfd,
      not_false_eq_true, true_and, not_not]
    by_cases hpipe : ∃ pipe, IsPipe w d OpenFlags.writeable pipe
    · obtain ⟨pipe, hpipe⟩ := hpipe
      rw [exists_opensPipe hslot hpipe]
      by_cases hfull : ringBufferSize < (w.files.pipes pipe).buffer.contents.length + len
      · rw [obeys_dfileWrite_full htask hpipe hfull]
        split_ifs with hres
        · simp [not_maySleep, hfull]
        · simp [not_mayFault, hfull]
      · obtain ⟨w', -, hfits⟩ := obeys_dfileWrite_pipe has htask hpipe
          (Nat.not_lt.mp hfull) fs ptr passes (fun _ _ _ _ => True) u
        have hlen : bytesWritten fs w d len = len := by
          simp only [bytesWritten, hpipe.1, hpipe.2, if_true]
          omega
        rw [hlen]
        refine Iff.trans hfits ?_
        split_ifs with hres
        · simp [hfull, hres]
        · simp [not_mayFault, hres]
    · have hnone := not_exists.mp hpipe
      rw [obeys_dfileWrite_of_not_pipe htask hnone fun _ _ _ => trivial,
        or_iff_left not_mayFault, and_iff_right (not_exists_opensPipe hslot hnone)]

theorem obeys_writevLoop_succ :
    (writevLoop fs d base passes lenNeed (n + 1) i lenRes).Obeys (lockRules has)
        (fun _ _ _ _ => True) [] w u ↔
      (lenRes ≠ 0 → GoodEntry has u (base + i * 16) →
        (dfileWrite fs d (iovBase u (base + i * 16)) (min (iovLen u (base + i * 16)) lenRes)
          passes).Obeys (lockRules has) (fun r gs w' u' =>
            r = some (min (iovLen u (base + i * 16)) lenRes) →
              (writevLoop fs d base passes lenNeed n (i + 1)
                (lenRes - min (iovLen u (base + i * 16)) lenRes)).Obeys (lockRules has)
                  (fun _ _ _ _ => True) gs w' u') [] w u) := by
  have hfault : (lockRules has).mayFault [] w := by
    rw [mayFault_iff]
    simp
  rw [writevLoop]
  by_cases hres : lenRes = 0
  · simp [hres, Obeys]
  by_cases haddr : base + i * 16 < wordSize
  · simp only [hres, if_false, bind_eq, obeys_bind, addUsize_ok haddr, lift_ok, Obeys,
      obeys_loadBytes, GoodEntry, haddr, ne_eq, not_false_eq_true, forall_const, true_and]
    rw [show ofLeBytes (Memory.bytes u (base + i * 16) 8) = iovBase u (base + i * 16) from rfl,
      show ofLeBytes (Memory.bytes u (base + i * 16 + 8) 8) = iovLen u (base + i * 16) from rfl]
    generalize iovBase u (base + i * 16) = ptr
    generalize min (iovLen u (base + i * 16)) lenRes = n
    split_ifs with hbase hlen
    · by_cases hptr : ¬ptr = 0
      · rw [Checked.ensure_pos hptr, lift_ok, Obeys, obeys_bind,
          forall_prop_of_true ⟨⟨hbase, hlen⟩, hptr⟩]
        refine obeys_congr fun r gs w' u' => ?_
        cases r with
        | none => simp [Obeys]
        | some l =>
          by_cases hl : l = n
          · simp [hl]
          · simp [hl, Obeys]
      · rw [Checked.ensure_neg hptr]
        exact iff_of_true trivial fun h => absurd h.2 hptr
    · exact iff_of_true hfault fun h => absurd h.1.2 hlen
    · exact iff_of_true hfault fun h => absurd h.1.1 hbase
  · simp [hres, haddr, GoodEntry, Obeys, addUsize_overflow (Nat.not_lt.mp haddr)]

theorem obeys_writevLoop_of_not_pipe (hnone : ∀ pipe, ¬IsPipe w d OpenFlags.writeable pipe) :
    (writevLoop fs d base passes lenNeed n i lenRes).Obeys (lockRules has)
      (fun _ _ _ _ => True) [] w u := by
  induction n generalizing i lenRes w with
  | zero => trivial
  | succ n ih =>
    rw [obeys_writevLoop_succ]
    intro _ _
    refine (obeys_dfileWrite_of_not_pipe holdsTasks_nil hnone fun r w' hfiles _ => ih ?_).mpr
      (.inr mayFault_nil)
    simpa only [IsPipe, hfiles] using hnone

theorem obeys_writevLoop_pipe (hpipe : IsPipe w d OpenFlags.writeable pipe) :
    (writevLoop fs d base (passes + 2) lenNeed n i lenRes).Obeys (lockRules has)
        (fun _ _ _ _ => True) [] w u ↔
      ¬VectorBlocks has u base n i lenRes
        (ringBufferSize - (w.files.pipes pipe).buffer.contents.length)
        w.kernel.runningList.length (w.waitList pipe .read).length := by
  induction n generalizing i lenRes w with
  | zero => exact iff_of_true trivial vectorBlocks_zero
  | succ n ih =>
    by_cases hres : lenRes = 0
    · rw [obeys_writevLoop_succ, hres]
      exact iff_of_true (fun h => absurd rfl h) not_vectorBlocks_of_len_zero
    rw [obeys_writevLoop_succ, vectorBlocks_succ]
    have hle := (w.files.pipes pipe).buffer.length_contents_le
    generalize hpiece : min (iovLen u (base + i * 16)) lenRes = piece
    rw [forall_prop_of_true hres]
    by_cases hfits : (w.files.pipes pipe).buffer.contents.length + piece ≤ ringBufferSize
    · obtain ⟨w', hw', hwrite⟩ := obeys_dfileWrite_pipe has holdsTasks_nil hpipe hfits fs
        (iovBase u (base + i * 16)) passes (fun r gs w' u' =>
          r = some piece → (writevLoop fs d base (passes + 2) lenNeed n (i + 1)
            (lenRes - piece)).Obeys (lockRules has) (fun _ _ _ _ => True) gs w' u') u
      have hpipe' : IsPipe w' d OpenFlags.writeable pipe := by
        simpa only [IsPipe, hw'.dfiles] using hpipe
      rw [hwrite, ih hpipe', hw'.contents, hw'.runnable, hw'.waiting, Nat.sub_add_eq]
      have hroom : piece ≤ ringBufferSize - (w.files.pipes pipe).buffer.contents.length := by
        omega
      rw [Nat.min_eq_right hroom]
      simp only [List.length_nil, forall_const, hroom, Nat.not_lt.mpr hroom, false_and, false_or,
        true_and]
      split_ifs with hread
      · simp only [hread, and_true, not_and]
      · simp [mayFault_nil, hread]
    · have hroom : ringBufferSize - (w.files.pipes pipe).buffer.contents.length < piece := by omega
      have hlen : bytesWritten fs w d piece =
          ringBufferSize - (w.files.pipes pipe).buffer.contents.length := by
        simp only [bytesWritten, hpipe.1, hpipe.2, if_true]
        omega
      rw [obeys_dfileWrite_full holdsTasks_nil hpipe (Nat.not_le.mp hfits), hlen,
        Nat.min_eq_left hroom.le]
      simp only [hroom, Nat.not_le.mpr hroom, false_and, or_false, true_and]
      split_ifs with hread
      · simp [MaySleep, hread]
      · simp [mayFault_nil, hread]

theorem obeys_sysWritev {iovArrayBase : ℕ} :
    (sysWritev fs fd iovArrayBase len (passes + 2)).Obeys (lockRules has)
        (fun _ _ _ _ => True) [] w u ↔
      ¬Blocks has w u (writev fd iovArrayBase len) ∧
        ¬Faults fs has w (writev fd iovArrayBase len) := by
  rw [Faults, not_false_eq_true, and_true]
  simp only [sysWritev, bind_eq]
  split_ifs with hfd
  · refine iff_of_true ?_ fun h => h.1 hfd
    exact obeys_bind.mpr (obeys_errorSync holdsTasks_nil)
  simp only [pure_eq, Obeys, obeys_bind, obeys_getRunning not_holdsLock_nil, takeIrq_bind,
    read_bind, leave_bind, not_holdsLock_nil, not_false_eq_true, true_and, List.tail_cons]
  cases hslot : w.files.slot w.kernel.running fd with
  | none => simp [Blocks, OpensPipe, hslot, Obeys]
  | some d =>
    by_cases hpipe : ∃ pipe, IsPipe w d OpenFlags.writeable pipe
    · obtain ⟨pipe, hpipe⟩ := hpipe
      rw [Blocks, exists_opensPipe hslot hpipe]
      simp only [obeys_writevLoop_pipe hpipe, ne_eq, hfd, not_false_eq_true, true_and]
    · have hnone := not_exists.mp hpipe
      exact iff_of_true (obeys_writevLoop_of_not_pipe hnone) fun h =>
        not_exists_opensPipe hslot hnone h.2

/-- A call keeps to the lock discipline exactly when it does not have to wait for the
other end of a pipe, and does not meet a page that is not resident while it holds the lock
of its task. -/
theorem obeys_iff_not_blocks (fs : FatDriver F) (passes : ℕ) (call : Transfer)
    (has : Touch → Bool) (w : World F) (u : ℕ → Byte) :
    (call.code fs (passes + 2)).Obeys (lockRules has) (fun _ _ _ _ => True) [] w u ↔
      ¬call.Blocks has w u ∧ ¬call.Faults fs has w := by
  cases call with
  | read fd ptr len => exact obeys_sysRead
  | write fd ptr len => exact obeys_sysWrite
  | writev fd iovArrayBase len => exact obeys_sysWritev

def pipeMaker : World Unit where
  kernel := { Kernel.coreInit.create none true with running := 1 }
  files := (Descriptors.boot.createUserTask.sysPipe 1).2
  pos := fun _ => 0
  pwd := fun _ => [0x2F]
  pwdInode := fun _ => 0
  fat := ()

def stackOnly : Touch → Bool
  | .load v => 0xfff8000 ≤ v ∧ v < 0x10000000
  | .store v => 0xfff8000 ≤ v ∧ v < 0x10000000

/-- A read of one byte from the new pipe, and a write of one byte in the heap to the
terminal. -/
theorem read_emptyPipe_not_obeys :
    ¬((Transfer.read 3 0xffff000 1).code noFiles 2).Obeys (lockRules stackOnly)
        (fun _ _ _ _ => True) [] pipeMaker (fun _ => 0) ∧
      ¬((Transfer.write 1 0x1000 1).code noFiles 2).Obeys (lockRules stackOnly)
        (fun _ _ _ _ => True) [] pipeMaker fun _ => 0 := by
  refine ⟨fun h => (obeys_sysRead.mp h).1 ⟨0, ⟨3, ?_, ?_, ?_⟩, ?_⟩,
    fun h => (obeys_sysWrite.mp h).2 ⟨by decide, 1, ?_, ?_⟩⟩
  · decide +kernel
  · decide +kernel
  · decide +kernel
  · decide +kernel
  · decide +kernel
  · decide +kernel

end Transfer

end Zinix
