import Zinix.Lib.Platform
import Zinix.Trap.FileCode

/-!
# Rules for the locks of a transfer

For each function on the way of a transfer the exact condition under which it obeys a lock
discipline. A pipe that makes the caller wait is the only place where a transfer hands over
the processor; two passes of its loop decide whether that happens.
-/

namespace Zinix

/-- The locks that a task must not keep while it is blocked. -/
def LockId.Pinned : LockId → Prop
  | task _ => True
  | dfile _ => True
  | pwdDfile _ => True
  | _ => False

namespace Memory

/-- User memory of which the bytes that `has` names are resident. -/
def paged (has : Touch → Bool) : Memory (ℕ → Byte) where
  load := fun u v =>
    if has (.load v) then .ok (u v) else .error (.explicit "error address access!")
  store := fun u v b =>
    if has (.store v) then .ok (replaceAt u v b) else .error (.explicit "error address access!")

/-- The `n` bytes from `v` on can be touched. -/
def Resident (has : Touch → Bool) (touch : ℕ → Touch) (v n : ℕ) : Prop :=
  ∀ a ∈ List.range' v n, has (touch a) = true

instance (has : Touch → Bool) (touch : ℕ → Touch) (v n : ℕ) :
    Decidable (Resident has touch v n) :=
  inferInstanceAs (Decidable (∀ a ∈ List.range' v n, has (touch a) = true))

theorem resident_zero {has : Touch → Bool} {touch : ℕ → Touch} {v : ℕ} :
    Resident has touch v 0 := by
  simp [Resident]

theorem resident_succ {has : Touch → Bool} {touch : ℕ → Touch} {v n : ℕ} :
    Resident has touch v (n + 1) ↔ has (touch v) = true ∧ Resident has touch (v + 1) n := by
  simp only [Resident, List.range'_succ, List.forall_mem_cons]

/-- The `n` bytes from `v` on. -/
def bytes (u : ℕ → Byte) (v n : ℕ) : List Byte := (List.range' v n).map u

/-- The memory with a list of bytes stored from `v` on. -/
def put (u : ℕ → Byte) (v : ℕ) : List Byte → ℕ → Byte
  | [] => u
  | b :: bs => put (replaceAt u v b) (v + 1) bs

@[simp] theorem length_bytes (u : ℕ → Byte) (v n : ℕ) : (bytes u v n).length = n := by
  simp [bytes]

end Memory

section Guards

variable {L : Type} {gs : List (Guard L)} {l k : L} {b : Bool}

@[simp] theorem not_holdsLock_nil : ¬HoldsLock ([] : List (Guard L)) l := by
  simp [HoldsLock]

@[simp] theorem holdsLock_plain_cons : HoldsLock (.plain k :: gs) l ↔ k = l ∨ HoldsLock gs l := by
  simp [HoldsLock, Guard.lock?]

@[simp] theorem holdsLock_off_cons : HoldsLock (.off b :: gs) l ↔ HoldsLock gs l := by
  simp [HoldsLock, Guard.lock?]

@[simp] theorem holdsLock_irq_cons : HoldsLock (.irq k b :: gs) l ↔ k = l ∨ HoldsLock gs l := by
  simp [HoldsLock, Guard.lock?]

end Guards

namespace World

variable {F : Type} (w : World F) (pipe : ℕ) (side : PipeSide)

@[simp] theorem waitList_setWaitList (l : List ℕ) :
    (w.setWaitList pipe side l).waitList pipe side = l := by
  cases side <;> simp [setWaitList, waitList, withPipe]

@[simp] theorem setWaitList_setWaitList (l l' : List ℕ) :
    (w.setWaitList pipe side l).setWaitList pipe side l' = w.setWaitList pipe side l' := by
  cases side <;> simp [setWaitList, withPipe]

@[simp] theorem waitList_withKernel (f : Kernel → Kernel) :
    (w.withKernel f).waitList pipe side = w.waitList pipe side := by
  cases side <;> rfl

@[simp] theorem kernel_setWaitList (l : List ℕ) : (w.setWaitList pipe side l).kernel = w.kernel := by
  cases side <;> rfl

theorem setWaitList_withKernel (f : Kernel → Kernel) (l : List ℕ) :
    (w.withKernel f).setWaitList pipe side l = (w.setWaitList pipe side l).withKernel f := by
  cases side <;> rfl

@[simp] theorem setWaitList_waitList : w.setWaitList pipe side (w.waitList pipe side) = w := by
  cases side <;> simp [setWaitList, waitList, withPipe, replaceAt_eq_self]

/-- All tasks that wait on one side of the pipe become runnable. -/
def wakeAll : World F :=
  (w.setWaitList pipe side []).withKernel fun k =>
    { k with runningList := k.runningList ++ w.waitList pipe side }

theorem wakeAll_of_nil (h : w.waitList pipe side = []) : w.wakeAll pipe side = w := by
  have hself := w.setWaitList_waitList pipe side
  rw [h] at hself
  simp [wakeAll, h, hself, withKernel]

theorem wakeAll_of_cons {t : ℕ} {ts : List ℕ} (h : w.waitList pipe side = t :: ts) :
    ((w.setWaitList pipe side ts).withKernel fun k => k.addTask t).wakeAll pipe side =
      w.wakeAll pipe side := by
  simp only [wakeAll, waitList_withKernel, waitList_setWaitList, setWaitList_withKernel,
    setWaitList_setWaitList, h]
  simp [withKernel, Kernel.addTask]

/-- A pass of `read_exact` takes bytes out of the ring. -/
def drain (len : ℕ) : World F :=
  w.withPipe pipe fun p => { p with buffer := (p.buffer.read (List.replicate len 0)).2.1 }

theorem contents_drain (len : ℕ) :
    ((w.drain pipe len).files.pipes pipe).buffer.contents = (w.files.pipes pipe).buffer.contents.drop
      (min (w.files.pipes pipe).buffer.contents.length len) := by
  obtain ⟨-, hring, -⟩ := (w.files.pipes pipe).buffer.read_spec (List.replicate len 0)
  rw [List.length_replicate] at hring
  simpa [drain, withPipe] using hring

theorem haveWriter_drain (len : ℕ) :
    ((w.drain pipe len).files.pipes pipe).haveWriter = (w.files.pipes pipe).haveWriter := by
  simp [drain, withPipe, Pipe.haveWriter]

/-- A pass of `write_exact` puts bytes into the ring. -/
def fill (bytes : List UInt8) : World F :=
  w.withPipe pipe fun p => { p with buffer := (p.buffer.write bytes).2 }

theorem length_contents_fill (bytes : List UInt8) {n : ℕ}
    (hn : n = min (ringBufferSize - (w.files.pipes pipe).buffer.contents.length) bytes.length) :
    ((w.fill pipe bytes).files.pipes pipe).buffer.contents.length =
      (w.files.pipes pipe).buffer.contents.length + n := by
  obtain ⟨-, hring⟩ := (w.files.pipes pipe).buffer.write_spec bytes
  simp only [fill, withPipe, replaceAt_self, hring, List.length_append, List.length_take]
  omega

/-- What the caller finds after `write_exact` of `n` bytes that fit. -/
structure Written (w w' : World F) (pipe n : ℕ) : Prop where
  dfiles : w'.files.dfiles = w.files.dfiles
  running : w'.kernel.running = w.kernel.running
  runnable : w'.kernel.runningList.length =
    w.kernel.runningList.length + (w.waitList pipe .read).length
  waiting : w'.waitList pipe .read = []
  contents : (w'.files.pipes pipe).buffer.contents.length =
    (w.files.pipes pipe).buffer.contents.length + n

theorem written_wakeAll : w.Written (w.wakeAll pipe .read) pipe 0 where
  dfiles := rfl
  running := rfl
  runnable := by simp [wakeAll, withKernel]
  waiting := by simp [wakeAll]
  contents := by simp [wakeAll, setWaitList, withPipe, withKernel]

theorem written_fill (bytes : List UInt8) {n : ℕ}
    (hn : n = min (ringBufferSize - (w.files.pipes pipe).buffer.contents.length) bytes.length) :
    w.Written ((w.fill pipe bytes).wakeAll pipe .read) pipe n := by
  have h := (w.fill pipe bytes).written_wakeAll pipe
  have hwait : (w.fill pipe bytes).waitList pipe .read = w.waitList pipe .read := by
    simp [fill, withPipe, waitList]
  exact ⟨h.dfiles, h.running, by rw [h.runnable, hwait]; rfl, h.waiting,
    by rw [h.contents, w.length_contents_fill pipe bytes hn, Nat.add_zero]⟩

end World

namespace KernelCode

open Code

variable {F U : Type} {rules : Discipline LockId (World F) U}
variable {gs : List (Guard LockId)} {w : World F} {u : U}

attribute [local simp] Obeys

section Tasks

variable {Q : Unit → List (Guard LockId) → World F → U → Prop}

theorem obeys_getRunning {Q : ℕ → List (Guard LockId) → World F → U → Prop}
    (h : ¬HoldsLock gs .running) :
    getRunning.Obeys rules Q gs w u ↔ Q w.kernel.running gs w u := by
  simp [getRunning, Obeys, h]

theorem obeys_addTask {t : ℕ} (h : ¬HoldsLock gs .runningList) :
    (addTask t).Obeys rules Q gs w u ↔ Q () gs (w.withKernel fun k => k.addTask t) u := by
  simp [addTask, Obeys, h, leave]

theorem obeys_setStatus {t : ℕ} {status : TaskStatus} :
    (setStatus t status).Obeys rules Q gs w u ↔
      ¬HoldsLock gs (.task t) ∧ Q () gs (w.withKernel fun k => k.setStatus t status) u := by
  simp [setStatus, Obeys, leave]

/-- The length of the list is read once, and each pass takes one task off its front. -/
theorem obeys_wakeWaiting {pipe : ℕ} {side : PipeSide} (hwait : ¬HoldsLock gs (.wait pipe side))
    (hlist : ¬HoldsLock gs .runningList) {n : ℕ} (hn : (w.waitList pipe side).length = n) :
    (wakeWaiting pipe side n).Obeys rules Q gs w u ↔ Q () gs (w.wakeAll pipe side) u := by
  induction n generalizing w with
  | zero =>
    rw [w.wakeAll_of_nil pipe side (List.length_eq_zero_iff.mp hn)]
    rfl
  | succ n ih =>
    obtain ⟨t, ts, hts⟩ := List.exists_cons_of_length_eq_add_one hn
    have hlen : ts.length = n := by simpa [hts] using hn
    have hlist' : ¬HoldsLock (.irq (.wait pipe side) false :: gs) .runningList := by
      simpa using hlist
    simp only [wakeWaiting, bind_eq, takeIrq_bind, read_bind, Obeys, hts, List.head?_cons,
      Checked.unwrap_some, lift_ok, ret_bind, update_bind, List.tail_cons, obeys_bind,
      obeys_addTask hlist', leave, hwait, not_false_eq_true, true_and]
    rw [ih (by simpa using hlen), w.wakeAll_of_cons pipe side hts]

theorem obeys_wakeUp {pipe : ℕ} {side : PipeSide} (hwait : ¬HoldsLock gs (.wait pipe side))
    (hlist : ¬HoldsLock gs .runningList) :
    (wakeUp pipe side).Obeys rules Q gs w u ↔ Q () gs (w.wakeAll pipe side) u := by
  simp only [wakeUp, bind_eq, take_bind, read_bind, leave_bind, Obeys, List.tail_cons, hwait,
    not_false_eq_true, true_and]
  exact obeys_wakeWaiting hwait hlist rfl

theorem exists_of_obeys_switchToNext {current next : ℕ}
    (h : (switchToNext current next).Obeys rules Q gs w u) : ∃ w', Q () gs w' u := by
  simp only [switchToNext, setRunning, infoSync, bind_eq, take_bind, takeIrq_bind, read_bind,
    update_bind, leave, Obeys, obeys_bind, List.tail_cons] at h
  obtain ⟨-, -, -, -, -, h⟩ := h
  split at h
  · exact ⟨_, h.2⟩
  · exact ⟨_, h⟩

theorem obeys_requeue_sleeping {current pipe : ℕ} {side : PipeSide}
    (hstatus : w.kernel.status current = .sleeping) :
    (requeue current (some (pipe, side))).Obeys rules Q gs w u ↔
      ¬HoldsLock gs (.wait pipe side) ∧
        Q () gs (w.setWaitList pipe side (w.waitList pipe side ++ [current])) u := by
  simp [requeue, hstatus, leave, Obeys]

/-- A task that keeps a pinned lock can only end in a panic when it goes to sleep: with
no other task to run, `scheduler` panics before the switch. -/
theorem obeys_sleepWait {pipe : ℕ} {side : PipeSide} (hpinned : ∃ l, HoldsLock gs l ∧ rules.pinned l)
    (hrunning : ¬HoldsLock gs .running) (hlist : ¬HoldsLock gs .runningList) :
    (sleepWait pipe side).Obeys rules Q gs w u ↔
      ¬HoldsLock gs (.task w.kernel.running) ∧ w.kernel.runningList.length ≤ 1 := by
  obtain ⟨l, hl, hl'⟩ := hpinned
  have hrunning' : ¬HoldsLock (.plain .runningList :: gs) .running := by simpa using hrunning
  simp only [sleepWait, bind_eq, obeys_bind, obeys_getRunning hrunning, obeys_setStatus]
  apply and_congr_right
  intro htask
  generalize hw : (w.withKernel fun k => k.setStatus w.kernel.running .sleeping) = w'
  have hrun : w'.kernel.running = w.kernel.running := by rw [← hw]; rfl
  have hlen : w'.kernel.runningList = w.kernel.runningList := by rw [← hw]; rfl
  have hstatus : w'.kernel.status w.kernel.running = .sleeping := by
    rw [← hw]
    simp [World.withKernel, Kernel.setStatus, Kernel.status]
  rw [← hlen]
  simp only [scheduler, bind_eq, take_bind, read_bind, Obeys, obeys_bind]
  match hk : w'.kernel.runningList with
  | [] => simp [Obeys, hlist]
  | [t] => simp [Obeys, hlist, htask, obeys_bind, obeys_getRunning hrunning', hrun, hstatus]
  | t :: next :: ts =>
    simp only [List.length_cons, Checked.ensure_pos (Nat.succ_ne_zero _), lift_ok, Obeys]
    rw [obeys_bind, obeys_getRunning hrunning', hrun, if_neg (by omega)]
    refine iff_of_false ?_ (by omega)
    rintro ⟨-, hcode⟩
    simp only [update_bind, takeIrq_bind, leave_bind, Obeys, obeys_bind] at hcode
    obtain ⟨-, hcode⟩ := (obeys_requeue_sleeping (by exact hstatus)).mp hcode.2
    simp only [World.kernel_setWaitList, World.withKernel, hk, List.tail_cons, List.head?_cons,
      Checked.unwrap_some, lift_ok, Obeys] at hcode
    obtain ⟨_, hswitch⟩ := exists_of_obeys_switchToNext (obeys_bind.mp hcode)
    exact hswitch.1 l hl hl'

end Tasks

section Faults

variable {has : Touch → Bool} {u : ℕ → Byte}

/-- The rules for a system call. They hold for the handler of a fault as well, which is
entered with the locks of the call. -/
def lockRules (has : Touch → Bool) : Discipline LockId (World F) (ℕ → Byte) where
  pinned := LockId.Pinned
  mem := .paged has
  mayFault := fun gs w =>
    pageFaultEntry.Obeys ⟨LockId.Pinned, .paged has, fun _ _ => False⟩ (fun _ _ _ _ => True) gs w
      fun _ => 0

theorem mayFault_iff : (lockRules has).mayFault gs w ↔
    ¬HoldsLock gs .log ∧ ¬HoldsLock gs .running ∧ ¬HoldsLock gs (.task w.kernel.running) ∧
      ¬HoldsLock gs .kernelMm := by
  simp only [lockRules, pageFaultEntry, infoSync, checkMagic, getRunning, bind_eq, irqOff_bind,
    take_bind, read_bind, bind_bind, Obeys, obeys_bind, takeIrq, leave, List.tail_cons,
    holdsLock_off_cons, holdsLock_irq_cons, pure_eq, reduceCtorEq, false_or, and_true]
  tauto

theorem obeys_loadBytes {Q : List Byte → List (Guard LockId) → World F → (ℕ → Byte) → Prop}
    {v n : ℕ} : (loadBytes v n).Obeys (lockRules has) Q gs w u ↔
      if Memory.Resident has .load v n then Q (Memory.bytes u v n) gs w u
      else (lockRules has).mayFault gs w := by
  induction n generalizing v Q with
  | zero =>
    rw [if_pos Memory.resident_zero]
    rfl
  | succ n ih =>
    simp only [loadBytes, bind_eq, loadByte_bind, Obeys, obeys_bind, ih, Memory.resident_succ]
    by_cases hv : has (.load v) = true
    · simp [lockRules, Memory.paged, hv, Memory.bytes, List.range'_succ, Except.isOk,
        Except.toBool]
    · simp [lockRules, Memory.paged, hv, Except.isOk, Except.toBool]

theorem obeys_storeBytes {Q : Unit → List (Guard LockId) → World F → (ℕ → Byte) → Prop}
    {v : ℕ} {bs : List Byte} : (storeBytes v bs).Obeys (lockRules has) Q gs w u ↔
      if Memory.Resident has .store v bs.length then Q () gs w (Memory.put u v bs)
      else (lockRules has).mayFault gs w := by
  induction bs generalizing v u with
  | nil =>
    rw [List.length_nil, if_pos Memory.resident_zero]
    rfl
  | cons b bs ih =>
    simp only [storeBytes, bind_eq, storeByte_bind, Obeys, ih, List.length_cons,
      Memory.resident_succ]
    by_cases hv : has (.store v) = true
    · simp [lockRules, Memory.paged, hv, Memory.put, Except.isOk, Except.toBool]
    · simp [lockRules, Memory.paged, hv, Except.isOk, Except.toBool]

end Faults

section Pipes

variable {has : Touch → Bool} {u : ℕ → Byte} {pipe ptr len passes bufPos : ℕ}
variable {Q : ℕ → List (Guard LockId) → World F → (ℕ → Byte) → Prop}

/-- The locks that a transfer meets in a pipe are free, as are those of the handler of a
fault but for that of the task. The caller keeps one that it must not keep when it sleeps. -/
structure Enters (gs : List (Guard LockId)) (pipe : ℕ) : Prop where
  buffer : ¬HoldsLock gs (.buffer pipe)
  wait : ∀ side, ¬HoldsLock gs (.wait pipe side)
  running : ¬HoldsLock gs .running
  runningList : ¬HoldsLock gs .runningList
  log : ¬HoldsLock gs .log
  kernelMm : ¬HoldsLock gs .kernelMm
  pinned : ∃ l, HoldsLock gs l ∧ l.Pinned

def MayFault (gs : List (Guard LockId)) (w : World F) : Prop :=
  ¬HoldsLock gs (.task w.kernel.running)

/-- What going to sleep needs of a caller that keeps a lock. -/
def MaySleep (gs : List (Guard LockId)) (w : World F) : Prop :=
  ¬HoldsLock gs (.task w.kernel.running) ∧ w.kernel.runningList.length ≤ 1

theorem Enters.mayFault (h : Enters gs pipe) :
    (lockRules has).mayFault (.irq (.buffer pipe) false :: gs) w ↔ MayFault gs w := by
  rw [mayFault_iff]
  simp [MayFault, h.log, h.running, h.kernelMm]

theorem Enters.sleepWait (h : Enters gs pipe) {side : PipeSide}
    {Q : Unit → List (Guard LockId) → World F → (ℕ → Byte) → Prop} :
    (sleepWait pipe side).Obeys (lockRules has) Q gs w u ↔ MaySleep gs w :=
  obeys_sleepWait h.pinned h.running h.runningList

theorem obeys_readExact_pass (has : Touch → Bool) (h : Enters gs pipe) (hpos : bufPos < len)
    (ptr passes : ℕ) (Q : ℕ → List (Guard LockId) → World F → (ℕ → Byte) → Prop) (w : World F)
    (u : ℕ → Byte) :
    let p := w.files.pipes pipe
    let n := min p.buffer.contents.length len
    ∃ u', (readExact pipe (.user ptr len) (passes + 1) bufPos).Obeys (lockRules has) Q gs w u ↔
      if Memory.Resident has .store ptr n then
        if n = 0 then if p.haveWriter then MaySleep gs w else Q bufPos gs (w.drain pipe len) u'
        else (readExact pipe (.user ptr len) passes (bufPos + n)).Obeys (lockRules has) Q gs
          (w.drain pipe len) u'
      else MayFault gs w := by
  intro p n
  obtain ⟨hn, -, hout⟩ := p.buffer.read_spec (List.replicate len 0)
  rw [List.length_replicate] at hn hout
  have hlen : ((p.buffer.read (List.replicate len 0)).2.2.take n).length = n := by
    rw [hout, List.length_take, List.length_append, List.length_take]
    omega
  refine ⟨Memory.put u ptr
    (((p.buffer.read (List.replicate len 0)).2.2.take n).map UInt8.toBitVec), ?_⟩
  simp only [readExact, Buffer.len, hpos, if_true, bind_eq, takeIrq_bind, read_bind, update_bind,
    Obeys, Buffer.put, obeys_bind, obeys_storeBytes, h.buffer, not_false_eq_true, true_and,
    List.length_map, show (w.files.pipes pipe).buffer = p.buffer from rfl, hn]
  simp only [show min p.buffer.contents.length len = n from rfl, hlen]
  split_ifs with hres hzero hwriter
  · simp only [leave_bind, Obeys, List.tail_cons, obeys_bind, h.sleepWait]
    rfl
  · rfl
  · rfl
  · exact h.mayFault

theorem obeys_readExact_done (h : Enters gs pipe) :
    (readExact pipe (.user ptr len) (passes + 1) len).Obeys (lockRules has) Q gs w u ↔
      Q len gs (w.wakeAll pipe .write) u := by
  simp [readExact, Buffer.len, obeys_bind, obeys_wakeUp (h.wait .write) h.runningList, Obeys]

theorem obeys_readExact (h : Enters gs pipe) (hQ : ∀ n w u, Q n gs w u) :
    (readExact pipe (.user ptr len) (passes + 2) 0).Obeys (lockRules has) Q gs w u ↔
      if Memory.Resident has .store ptr
          (min (w.files.pipes pipe).buffer.contents.length len) then
        ((w.files.pipes pipe).buffer.contents.length < len → (w.files.pipes pipe).haveWriter →
          MaySleep gs w)
      else MayFault gs w := by
  by_cases hlen : len = 0
  · subst hlen
    simp [obeys_readExact_done h, hQ, Memory.resident_zero]
  obtain ⟨u₁, hfirst⟩ :=
    obeys_readExact_pass has h (Nat.pos_of_ne_zero hlen) ptr (passes + 1) Q w u
  rw [hfirst]
  split_ifs with hres hzero hwriter
  · have hnil : (w.files.pipes pipe).buffer.contents.length = 0 := by omega
    simp [hnil, hwriter, Nat.pos_of_ne_zero hlen]
  · simp [hwriter, hQ]
  · by_cases hshort : (w.files.pipes pipe).buffer.contents.length < len
    · rw [Nat.min_eq_left hshort.le, Nat.zero_add]
      obtain ⟨u₂, hsecond⟩ :=
        obeys_readExact_pass has h hshort ptr passes Q (w.drain pipe len) u₁
      rw [hsecond, w.contents_drain, Nat.min_eq_left hshort.le, List.drop_length, List.length_nil,
        Nat.zero_min, if_pos Memory.resident_zero, if_pos rfl, w.haveWriter_drain]
      simp [hshort, hQ, MaySleep, World.drain, World.withPipe]
    · rw [Nat.min_eq_right (by omega), Nat.zero_add, obeys_readExact_done h]
      simp [hshort, hQ]
  · rfl

theorem obeys_writeExact_pass (has : Touch → Bool) (h : Enters gs pipe) (hpos : bufPos < len)
    (ptr passes : ℕ) (Q : ℕ → List (Guard LockId) → World F → (ℕ → Byte) → Prop) (w : World F)
    (u : ℕ → Byte) :
    let n := min (ringBufferSize - (w.files.pipes pipe).buffer.contents.length) len
    ∃ bytes, bytes.length = n ∧
      ((writeExact pipe (.user ptr len) (passes + 1) bufPos).Obeys (lockRules has) Q gs w u ↔
        if Memory.Resident has .load ptr n then
          if n = 0 then MaySleep gs w
          else (writeExact pipe (.user ptr len) passes (bufPos + n)).Obeys (lockRules has) Q gs
            (w.fill pipe bytes) u
        else MayFault gs w) := by
  intro n
  have hbytes : ((Memory.bytes u ptr n).map UInt8.ofBitVec).length = n := by simp
  obtain ⟨hn, -⟩ := (w.files.pipes pipe).buffer.write_spec
    ((Memory.bytes u ptr n).map UInt8.ofBitVec)
  rw [hbytes, Nat.min_eq_right (Nat.min_le_left _ _)] at hn
  refine ⟨(Memory.bytes u ptr n).map UInt8.ofBitVec, hbytes, ?_⟩
  simp only [writeExact, Buffer.len, hpos, if_true, bind_eq, takeIrq_bind, read_bind, update_bind,
    Obeys, Buffer.take, obeys_bind, obeys_loadBytes, h.buffer, not_false_eq_true, true_and, pure_eq,
    PipeRingBuffer.availableWrite_eq]
  rw [show min (ringBufferSize - (w.files.pipes pipe).buffer.contents.length) len = n from rfl]
  rw [hn]
  split_ifs with hres hzero
  · simp only [leave_bind, Obeys, List.tail_cons, obeys_bind, h.sleepWait]
    rfl
  · rfl
  · exact h.mayFault

theorem obeys_writeExact_done (h : Enters gs pipe) :
    (writeExact pipe (.user ptr len) (passes + 1) len).Obeys (lockRules has) Q gs w u ↔
      Q len gs (w.wakeAll pipe .read) u := by
  simp [writeExact, Buffer.len, obeys_bind, obeys_wakeUp (h.wait .read) h.runningList, Obeys]

/-- What does not fit into the ring makes `write_exact` sleep in the first pass or in the
second one. -/
theorem obeys_writeExact_full (h : Enters gs pipe)
    (hfull : ringBufferSize < (w.files.pipes pipe).buffer.contents.length + len) :
    (writeExact pipe (.user ptr len) (passes + 2) 0).Obeys (lockRules has) Q gs w u ↔
      if Memory.Resident has .load ptr
          (min (ringBufferSize - (w.files.pipes pipe).buffer.contents.length) len) then
        MaySleep gs w
      else MayFault gs w := by
  have hle := (w.files.pipes pipe).buffer.length_contents_le
  have hpos : 0 < len := by omega
  obtain ⟨bytes, hbytes, hfirst⟩ :=
    obeys_writeExact_pass has h hpos ptr (passes + 1) Q w u
  rw [hfirst]
  split_ifs with hres hzero
  · rfl
  · have hcontents := w.length_contents_fill pipe bytes rfl
    have hrest : 0 + bytes.length < len := by omega
    obtain ⟨bytes', -, hsecond⟩ :=
      obeys_writeExact_pass has h hrest ptr passes Q (w.fill pipe bytes) u
    have hnone : min (ringBufferSize - ((w.fill pipe bytes).files.pipes pipe).buffer.contents.length)
        len = 0 := by omega
    rw [← hbytes, hsecond, hnone, if_pos Memory.resident_zero, if_pos rfl]
    rfl
  · rfl

theorem obeys_writeExact (has : Touch → Bool) (ptr passes : ℕ)
    (Q : ℕ → List (Guard LockId) → World F → (ℕ → Byte) → Prop) (u : ℕ → Byte) (h : Enters gs pipe)
    (hfit : (w.files.pipes pipe).buffer.contents.length + len ≤ ringBufferSize) :
    ∃ w', w.Written w' pipe len ∧
      ((writeExact pipe (.user ptr len) (passes + 2) 0).Obeys (lockRules has) Q gs w u ↔
        if Memory.Resident has .load ptr len then Q len gs w' u else MayFault gs w) := by
  by_cases hlen : len = 0
  · subst hlen
    refine ⟨_, w.written_wakeAll pipe, ?_⟩
    rw [if_pos Memory.resident_zero]
    exact obeys_writeExact_done h
  have hpos : 0 < len := by omega
  obtain ⟨bytes, hbytes, hfirst⟩ :=
    obeys_writeExact_pass has h hpos ptr (passes + 1) Q w u
  refine ⟨_, w.written_fill pipe bytes (by omega), ?_⟩
  rw [Nat.min_eq_right (by omega)] at hfirst
  rw [hfirst, if_neg hlen, Nat.zero_add, obeys_writeExact_done h]

end Pipes

section Files

variable {fs : FatDriver F} {has : Touch → Bool} {u : ℕ → Byte} {d ptr len passes : ℕ}
variable {Q : Option ℕ → List (Guard LockId) → World F → (ℕ → Byte) → Prop}

def HoldsTasks (gs : List (Guard LockId)) : Prop := ∀ l, HoldsLock gs l → ∃ t, l = .task t

theorem HoldsTasks.not_holdsLock (h : HoldsTasks gs) {l : LockId} (hl : ∀ t, l ≠ .task t) :
    ¬HoldsLock gs l := by
  intro hold
  obtain ⟨t, rfl⟩ := h l hold
  exact hl t rfl

theorem HoldsTasks.not_holdsLock_dfile (h : HoldsTasks gs) {l : LockId} (hl : ∀ t, l ≠ .task t)
    (hd : l ≠ .dfile d) : ¬HoldsLock (.irq (.dfile d) false :: gs) l := by
  rw [holdsLock_irq_cons]
  exact not_or.mpr ⟨hd.symm, h.not_holdsLock hl⟩

theorem HoldsTasks.enters (h : HoldsTasks gs) (pipe : ℕ) :
    Enters (.irq (.dfile d) false :: gs) pipe := by
  constructor
  case wait => exact fun side => h.not_holdsLock_dfile (by simp) (by simp)
  case pinned => exact ⟨.dfile d, by simp, trivial⟩
  all_goals exact h.not_holdsLock_dfile (by simp) (by simp)

/-- The handler of a fault while the file and another lock of the transfer are held. -/
theorem HoldsTasks.mayFault (h : HoldsTasks gs) :
    (lockRules has).mayFault (.irq (.dfile d) false :: gs) w ↔ MayFault gs w := by
  rw [mayFault_iff]
  simp [MayFault, h.not_holdsLock]

theorem HoldsTasks.mayFault_inode (h : HoldsTasks gs) {i : ℕ} :
    (lockRules has).mayFault (.irq (.inode i) false :: .irq (.dfile d) false :: gs) w ↔
      MayFault gs w := by
  rw [mayFault_iff]
  simp [MayFault, h.not_holdsLock]

theorem HoldsTasks.inode (h : HoldsTasks gs) (i : ℕ) :
    ¬HoldsLock (.irq (.dfile d) false :: gs) (.inode i) :=
  h.not_holdsLock_dfile (by simp) (by simp)

/-- The number of bytes that `DFile::read` stores into the buffer of its caller before it
returns or sleeps. -/
def bytesRead (fs : FatDriver F) (w : World F) (d len : ℕ) : ℕ :=
  if (w.files.dfiles d).openFlags.readable then
    match (w.files.dfiles d).cls with
    | .classInode inode =>
      if fs.isFile w.fat inode then
        (((fs.readOff w.fat inode (w.pos d) len).getD []).take len).length
      else 0
    | .classTerminal _ => 0
    | .classPipe pipe => min (w.files.pipes pipe).buffer.contents.length len
  else 0

/-- The number of bytes that `DFile::write` takes out of the buffer of its caller before it
returns or sleeps. -/
def bytesWritten (fs : FatDriver F) (w : World F) (d len : ℕ) : ℕ :=
  if (w.files.dfiles d).openFlags.writeable then
    match (w.files.dfiles d).cls with
    | .classInode inode =>
      if fs.isFile w.fat inode then
        ((fs.writeOff w.fat inode (w.pos d) len).map (min · len)).getD 0
      else 0
    | .classTerminal .stdin => 0
    | .classTerminal _ => len
    | .classPipe pipe => min (ringBufferSize - (w.files.pipes pipe).buffer.contents.length) len
  else 0

theorem obeys_isFile {Q : Bool → List (Guard LockId) → World F → (ℕ → Byte) → Prop}
    {inode : ℕ} (h : ¬HoldsLock gs (.inode inode)) :
    (isFile fs inode).Obeys (lockRules has) Q gs w u ↔ Q (fs.isFile w.fat inode) gs w u := by
  simp [isFile, Obeys, h]

theorem obeys_readOff (h : HoldsTasks gs) {inode off : ℕ} :
    ∃ r u', (readOff fs inode off ptr len).Obeys (lockRules has) Q (.irq (.dfile d) false :: gs)
        w u ↔
      if Memory.Resident has .store ptr (((fs.readOff w.fat inode off len).getD []).take len).length
      then Q r (.irq (.dfile d) false :: gs) w u' else MayFault gs w := by
  simp only [readOff, bind_eq, takeIrq_bind, read_bind, Obeys, h.inode, not_false_eq_true, true_and]
  cases fs.readOff w.fat inode off len with
  | none => exact ⟨none, u, by simp [Memory.resident_zero, Obeys]⟩
  | some bytes =>
    simp only [obeys_bind, obeys_storeBytes, Option.getD_some, h.mayFault_inode]
    exact ⟨_, _, Iff.rfl⟩

theorem obeys_writeOff (h : HoldsTasks gs) {inode off : ℕ} :
    ∃ r fat, (writeOff fs inode off ptr len).Obeys (lockRules has) Q (.irq (.dfile d) false :: gs)
        w u ↔
      if Memory.Resident has .load ptr (((fs.writeOff w.fat inode off len).map (min · len)).getD 0)
      then Q r (.irq (.dfile d) false :: gs) { w with fat } u else MayFault gs w := by
  simp only [writeOff, bind_eq, takeIrq_bind, read_bind, Obeys, h.inode, not_false_eq_true, true_and]
  cases fs.writeOff w.fat inode off len with
  | none => exact ⟨none, w.fat, by simp [Memory.resident_zero, Obeys]⟩
  | some n =>
    simp only [obeys_bind, obeys_loadBytes, Option.map_some, Option.getD_some, h.mayFault_inode]
    exact ⟨_, _, Iff.rfl⟩

def IsPipe (w : World F) (d : ℕ) (mode : OpenFlags → Bool) (pipe : ℕ) : Prop :=
  mode (w.files.dfiles d).openFlags = true ∧ (w.files.dfiles d).cls = .classPipe pipe

/-- Reading anything but a pipe takes no lock twice and does not sleep, unless it faults. -/
theorem obeys_dfileRead_of_not_pipe (h : HoldsTasks gs)
    (hpipe : ∀ pipe, ¬IsPipe w d OpenFlags.readable pipe) (hQ : ∀ r w u, Q r gs w u) :
    (dfileRead fs d ptr len passes).Obeys (lockRules has) Q gs w u ↔
      (Memory.Resident has .store ptr (bytesRead fs w d len) ∨ MayFault gs w) := by
  simp only [dfileRead, bytesRead, bind_eq, takeIrq_bind, read_bind, Obeys,
    h.not_holdsLock (l := .dfile d) (by simp), not_false_eq_true, true_and]
  split_ifs with hmode
  · cases hcls : (w.files.dfiles d).cls with
    | classPipe pipe => exact absurd ⟨hmode, hcls⟩ (hpipe pipe)
    | classTerminal ttype => exact iff_of_true (hQ ..) (.inl Memory.resident_zero)
    | classInode inode =>
      simp only [obeys_bind, obeys_isFile (h.inode inode)]
      split_ifs
      · simp only [obeys_bind]
        obtain ⟨r, u', hr⟩ := obeys_readOff h
        rw [hr]
        split_ifs with hres
        · exact iff_of_true (hQ ..) (.inl hres)
        · exact (or_iff_right hres).symm
      · exact iff_of_true trivial (.inl Memory.resident_zero)
  · exact iff_of_true (hQ ..) (.inl Memory.resident_zero)

theorem obeys_dfileRead_pipe (h : HoldsTasks gs) {pipe : ℕ}
    (hpipe : IsPipe w d OpenFlags.readable pipe) (hQ : ∀ r w u, Q r gs w u) :
    (dfileRead fs d ptr len (passes + 2)).Obeys (lockRules has) Q gs w u ↔
      if Memory.Resident has .store ptr (bytesRead fs w d len) then
        ((w.files.pipes pipe).buffer.contents.length < len → (w.files.pipes pipe).haveWriter →
          MaySleep gs w)
      else MayFault gs w := by
  simp only [dfileRead, bytesRead, bind_eq, takeIrq_bind, read_bind, Obeys, hpipe.1, hpipe.2,
    if_true, obeys_bind, h.not_holdsLock (l := .dfile d) (by simp), not_false_eq_true, true_and]
  rw [obeys_readExact (h.enters pipe) fun n w u => hQ ..]
  simp [MaySleep, MayFault]

theorem obeys_dfileWrite_of_not_pipe (h : HoldsTasks gs)
    (hpipe : ∀ pipe, ¬IsPipe w d OpenFlags.writeable pipe)
    (hQ : ∀ r w', w'.files = w.files → Q r gs w' u) :
    (dfileWrite fs d ptr len passes).Obeys (lockRules has) Q gs w u ↔
      (Memory.Resident has .load ptr (bytesWritten fs w d len) ∨ MayFault gs w) := by
  simp only [dfileWrite, bytesWritten, bind_eq, takeIrq_bind, read_bind, Obeys,
    h.not_holdsLock (l := .dfile d) (by simp), not_false_eq_true, true_and]
  split_ifs with hmode
  · cases hcls : (w.files.dfiles d).cls with
    | classPipe pipe => exact absurd ⟨hmode, hcls⟩ (hpipe pipe)
    | classTerminal ttype =>
      cases ttype with
      | stdin => exact iff_of_true (hQ _ _ rfl) (.inl Memory.resident_zero)
      | _ =>
        simp only [terminalWrite, bind_eq, obeys_bind, obeys_loadBytes]
        split_ifs with hres
        · exact iff_of_true (hQ _ _ rfl) (.inl hres)
        · simp [hres, h.mayFault]
    | classInode inode =>
      simp only [obeys_bind, obeys_isFile (h.inode inode)]
      split_ifs
      · simp only [obeys_bind]
        obtain ⟨r, fat, hr⟩ := obeys_writeOff h
        rw [hr]
        split_ifs with hres
        · exact iff_of_true (hQ _ _ rfl) (.inl hres)
        · exact (or_iff_right hres).symm
      · exact iff_of_true trivial (.inl Memory.resident_zero)
  · exact iff_of_true (hQ _ _ rfl) (.inl Memory.resident_zero)

theorem obeys_dfileWrite_full (h : HoldsTasks gs) {pipe : ℕ}
    (hpipe : IsPipe w d OpenFlags.writeable pipe)
    (hfull : ringBufferSize < (w.files.pipes pipe).buffer.contents.length + len) :
    (dfileWrite fs d ptr len (passes + 2)).Obeys (lockRules has) Q gs w u ↔
      if Memory.Resident has .load ptr (bytesWritten fs w d len) then MaySleep gs w
      else MayFault gs w := by
  simp only [dfileWrite, bytesWritten, bind_eq, takeIrq_bind, read_bind, Obeys, hpipe.1, hpipe.2,
    if_true, obeys_bind, h.not_holdsLock (l := .dfile d) (by simp), not_false_eq_true, true_and]
  rw [obeys_writeExact_full (h.enters pipe) hfull]
  simp [MaySleep, MayFault]

theorem obeys_dfileWrite_pipe (has : Touch → Bool) (h : HoldsTasks gs) {pipe : ℕ}
    (hpipe : IsPipe w d OpenFlags.writeable pipe)
    (hfit : (w.files.pipes pipe).buffer.contents.length + len ≤ ringBufferSize)
    (fs : FatDriver F) (ptr passes : ℕ)
    (Q : Option ℕ → List (Guard LockId) → World F → (ℕ → Byte) → Prop) (u : ℕ → Byte) :
    ∃ w', w.Written w' pipe len ∧
      ((dfileWrite fs d ptr len (passes + 2)).Obeys (lockRules has) Q gs w u ↔
        if Memory.Resident has .load ptr len then Q (some len) gs w' u else MayFault gs w) := by
  simp only [dfileWrite, bind_eq, takeIrq_bind, read_bind, Obeys, hpipe.1, hpipe.2, if_true,
    obeys_bind, h.not_holdsLock (l := .dfile d) (by simp), not_false_eq_true, true_and]
  obtain ⟨w', hw', hiff⟩ := obeys_writeExact has ptr passes
    (fun r gs w u => Q (some r) gs.tail w u) u (h.enters (d := d) pipe) hfit
  refine ⟨w', hw', hiff.trans ?_⟩
  simp [MayFault]

end Files

end KernelCode

end Zinix
