import Zinix.Lib.Preemption
import Zinix.Trap.FileCode

/-!
# Locks and the timer interrupt

The timer may interrupt a kernel task between any two operations. Its handler takes the
locks of the running task and of the run queues, most of which are taken elsewhere with
`lock`, which leaves interrupts as they are.
-/

namespace Zinix

inductive Syscall where
  | clone (flags : CloneFlags) (stackPtr ctid : ℕ)
  | exit (exitCode : Int32)
  | wait4 (pid : Int64) (wstatus : ℕ) (option : Int64) (passes : ℕ)
  | read (fd ptr len passes : ℕ)
  | write (fd ptr len passes : ℕ)
  | writev (fd iovArrayBase len passes : ℕ)
  | pipe (pipe : ℕ)
  | newfstatat (fd : ℤ) (pathAddr buf : ℕ)
  | getcwd (buf len : ℕ)

/-- What a task calls: a kernel task calls functions of the kernel, and a user task makes
system calls. -/
inductive KernelCall where
  | getRunning
  | current
  | getTask
  | infoSync
  | createKernTaskAndRun
  | wakeUpAllSleeping
  | sleepSelfInSleepingList
  | exitSelf (exitCode : Int32)
  | waitFor (tid passes : ℕ)
  | waitChildren (ptid passes : ℕ)
  | schedule
  | pipeRead (pipe : ℕ) (buf : List UInt8) (passes : ℕ)
  | pipeWrite (pipe : ℕ) (buf : List UInt8) (passes : ℕ)
  | disableIrq
  | enableIrq
  | trap (c : Syscall)

/-- The locks that the handler of the timer interrupt takes. -/
def LockId.OnIrqPath : LockId → Prop
  | running => True
  | runningList => True
  | sleepList => True
  | exitList => True
  | log => True
  | task _ => True
  | mm _ => True
  | _ => False

namespace KernelCode

open Code

variable {F : Type} (fs : FatDriver F)

def syscall : Syscall → KernelCode F ℤ
  | .clone flags stackPtr ctid => sysClone flags stackPtr ctid
  | .exit exitCode => sysExit exitCode
  | .wait4 pid wstatus option passes => sysWait4 pid wstatus option passes
  | .read fd ptr len passes => sysRead fs fd ptr len passes
  | .write fd ptr len passes => sysWrite fs fd ptr len passes
  | .writev fd iovArrayBase len passes => sysWritev fs fd iovArrayBase len passes
  | .pipe pipe => sysPipe pipe
  | .newfstatat fd pathAddr buf => sysNewfstatat fs fd pathAddr buf
  | .getcwd buf len => sysGetcwd buf len

/-- `exc_handler`, with the trap that switches interrupts off before it and the return that
restores them. -/
def excHandler (c : Syscall) : KernelCode F Unit := do
  irqOff
  irqOff
  infoSync
  infoSync
  infoSync
  infoSync
  checkMagic
  let _ ← syscall fs c
  infoSync
  infoSync
  leave
  leave

def call : KernelCall → KernelCode F Unit
  | .getRunning => do
    let _ ← getRunning
  | .current => do
    let _ ← current
  | .getTask => do
    let _ ← getTask
  | .infoSync => infoSync
  | .createKernTaskAndRun => createKernTaskAndRun
  | .wakeUpAllSleeping => wakeUpAllSleeping
  | .sleepSelfInSleepingList => sleepSelfInSleepingList
  | .exitSelf exitCode => exitSelf exitCode
  | .waitFor tid passes => do
    let _ ← waitFor tid passes
  | .waitChildren ptid passes => do
    let _ ← waitChildren ptid passes
  | .schedule => scheduler none
  | .pipeRead pipe buf passes => do
    let _ ← readExact pipe (.kernel buf) passes 0
  | .pipeWrite pipe buf passes => do
    let _ ← writeExact pipe (.kernel buf) passes 0
  | .disableIrq => irqOff
  | .enableIrq => leave
  | .trap c => excHandler fs c

def MayCall (w : World F) (t : ℕ) : KernelCall → Prop
  | .trap _ => w.isUser t = true
  | _ => w.isUser t = false

def routines : Machine.Routines LockId (World F) KernelCall where
  body := call fs
  may := MayCall
  handler := irqHandler

section Path

theorem within_requeue (current : ℕ) :
    (requeue current none : KernelCode F Unit).Within LockId.OnIrqPath := by
  intro w
  simp only [ret_bind]
  cases w.kernel.status current with
  | running => exact fun _ => trivial
  | sleeping => exact ⟨trivial, fun _ => trivial⟩
  | zombie => exact ⟨trivial, fun _ => trivial⟩

theorem within_switchToNext (current next : ℕ) :
    (switchToNext current next : KernelCode F Unit).Within LockId.OnIrqPath := by
  simp only [switchToNext, setRunning, infoSync, bind_eq, take_bind, takeIrq_bind, leave_bind,
    update_bind, read_bind, Within]
  refine ⟨trivial, trivial, trivial, fun _ => ⟨trivial, trivial, fun w => ?_⟩⟩
  dsimp only
  split_ifs
  · exact ⟨trivial, trivial⟩
  · trivial

theorem within_scheduler : (scheduler none : KernelCode F Unit).Within LockId.OnIrqPath := by
  refine ⟨trivial, fun w => (within_lift _).bind fun _ => ⟨trivial, fun w' => ?_⟩⟩
  show Within _ (if w.kernel.runningList.length = 1 then _ else _)
  split_ifs
  · refine ⟨trivial, fun w => ?_⟩
    simp only [ret_bind]
    cases w.kernel.status w'.kernel.running <;> trivial
  · refine fun _ => ⟨trivial, (within_requeue _).bind fun _ => fun w => ?_⟩
    exact (within_lift _).bind fun next => (within_switchToNext _ next).bind fun _ => trivial

theorem within_irqHandler : (irqHandler : KernelCode F Unit).Within LockId.OnIrqPath := by
  refine ⟨trivial, fun w => ⟨trivial, fun w' w'' => ?_⟩⟩
  show Within _ (if w'.kernel.tic.1 = true then _ else _)
  split_ifs
  · exact within_scheduler
  · trivial

end Path

variable {U : Type}

/-- The machine after `__core_init`, on which the boot task runs with interrupts on. -/
def boot (fat : F) (user : ℕ → U) : Machine LockId (World F) U where
  data :=
    { kernel := .coreInit
      files := .boot
      pos := fun _ => 0
      pwd := fun _ => [0x2F]
      pwdInode := fun _ => 0
      fat := fat }
  inner := fun _ => false
  user := user
  threads := fun _ => .idle
  cpu := 0

/-- In a run the handler of the timer never meets a lock that the interrupted code holds,
and code that can be interrupted holds none of its locks, exactly if these locks are
never taken with `lock` while interrupts are on. -/
theorem unharmed_iff_locks_with_irq_off (mem : Memory U) (fat : F) (user : ℕ → U)
    {r : List (Move KernelCall × Machine LockId (World F) U)}
    (hrun : Trace.IsRun (Machine.Step mem (routines fs)) (boot fat user) r) :
    (∀ m ∈ Trace.states (boot fat user) r, m.Unharmed LockId.OnIrqPath) ↔
      ∀ x ∈ Trace.steps (boot fat user) r, x.1.LocksQuietly LockId.OnIrqPath x.2 :=
  Machine.unharmed_iff_locksQuietly within_irqHandler (fun _ => Thread.tame_idle) hrun

end KernelCode

namespace Machine

open KernelCode

variable {F U : Type} {fs : FatDriver F} {mem : Memory U} {m : Machine LockId (World F) U}

instance (w : World F) (t : ℕ) (c : KernelCall) : Decidable (MayCall w t c) := by
  cases c <;> unfold MayCall <;> infer_instance

def idleGuards (m : Machine LockId (World F) U) : Option (List (Guard LockId)) :=
  match m.current.frames with
  | [⟨.ret _, guards⟩] => some guards
  | _ => none

def next (fs : FatDriver F) (mem : Memory U) (m : Machine LockId (World F) U) :
    Move KernelCall → Machine LockId (World F) U
  | .call c => m.setCurrent ⟨[⟨call fs c, m.idleGuards.getD []⟩], m.current.sie⟩
  | .exec => ((m.exec mem).toOption).getD m
  | .interrupt => m.setCurrent ⟨⟨irqHandler, []⟩ :: m.current.frames, false⟩

def ready (mem : Memory U) (m : Machine LockId (World F) U) : Move KernelCall → Bool
  | .call c => m.idleGuards.isSome && decide (MayCall m.data m.cpu c)
  | .exec => (m.exec mem).isOk
  | .interrupt => m.current.sie

theorem idleGuards_eq_some {guards : List (Guard LockId)} (h : m.idleGuards = some guards) :
    m.current.frames = [⟨.ret (), guards⟩] := by
  unfold idleGuards at h
  split at h
  · next heq =>
    cases h
    exact heq
  · cases h

theorem step_next {a : Move KernelCall} (h : m.ready mem a = true) :
    m.Step mem (routines fs) a (m.next fs mem a) := by
  cases a with
  | call c =>
    rw [ready, Bool.and_eq_true, decide_eq_true_iff] at h
    obtain ⟨guards, hguards⟩ := Option.isSome_iff_exists.mp h.1
    refine ⟨guards, idleGuards_eq_some hguards, h.2, ?_⟩
    rw [next, hguards]
    rfl
  | exec =>
    rw [ready] at h
    show m.exec mem = .ok _
    rw [next]
    cases hexec : m.exec mem with
    | error e => simp [hexec, Except.isOk, Except.toBool] at h
    | ok m' => rfl
  | interrupt => exact ⟨h, rfl⟩

def noMemory : Memory Unit where
  load := fun _ _ => .error .outOfBounds
  store := fun _ _ _ => .error .outOfBounds

/-- The run of the boot task that makes the given moves. -/
def bootRun (moves : List (Move KernelCall)) :
    List (Move KernelCall × Machine LockId (World Unit) Unit) :=
  Trace.record (next noFiles noMemory) (boot () fun _ => ()) moves

theorem bootRun_isRun {moves : List (Move KernelCall)}
    (h : ∀ x ∈ Trace.steps (boot () fun _ => ()) (bootRun moves), x.1.ready noMemory x.2 = true) :
    Trace.IsRun (Step noMemory (routines noFiles)) (boot () fun _ => ()) (bootRun moves) :=
  Trace.isRun_record fun x hx => step_next (h x hx)

/-- A timer interrupt after which the boot task goes on. -/
def tick : List (Move KernelCall) := .interrupt :: List.replicate 9 .exec

/-- A line is logged, and the timer interrupts the boot task afterwards. -/
def logTick : List (Move KernelCall) := .call .infoSync :: .exec :: .exec :: tick

/-- Ten ticks pass, and the eleventh arrives while the boot task puts a new task on the
running list. -/
def addTaskTick : List (Move KernelCall) :=
  (List.replicate 10 tick).flatten ++
    .call .createKernTaskAndRun :: List.replicate 4 .exec ++ .interrupt :: List.replicate 8 .exec

set_option maxRecDepth 100000

theorem unharmed_iff_locks_with_irq_off_logTick :
    (∀ m ∈ Trace.states (boot () fun _ => ()) (bootRun logTick), m.Unharmed LockId.OnIrqPath) ↔
      ∀ x ∈ Trace.steps (boot () fun _ => ()) (bootRun logTick),
        x.1.LocksQuietly LockId.OnIrqPath x.2 :=
  unharmed_iff_locks_with_irq_off noFiles noMemory () (fun _ => ())
    (bootRun_isRun (by decide +kernel))

theorem not_unharmed {S : LockId → Prop} {l : LockId}
    (hcode : m.current.frames.head?.bind (·.code.acquires?) = some l)
    (hheld : ∃ f ∈ m.current.frames.tail, HoldsLock f.guards l) : ¬m.Unharmed S := by
  intro h
  obtain ⟨f, hf, hl⟩ := hheld
  cases hframes : m.current.frames with
  | nil =>
    rw [hframes] at hf
    cases hf
  | cons top rest =>
    rw [hframes] at hcode hf
    exact h.free top rest hframes l hcode f hf hl

/-- The handler gets as far as the running list, which the interrupted `add_task` has
locked. -/
theorem addTaskTick_deadLock :
    Trace.IsRun (Step noMemory (routines noFiles)) (boot () fun _ => ()) (bootRun addTaskTick) ∧
      ¬(Trace.final (boot () fun _ => ()) (bootRun addTaskTick)).Unharmed LockId.OnIrqPath ∧
      ((Trace.final (boot () fun _ => ()) (bootRun addTaskTick)).exec noMemory).map (fun _ => ()) =
        .error (.explicit "Dead Lock!") := by
  refine ⟨bootRun_isRun (by decide +kernel), not_unharmed (l := .runningList) ?_ ?_, ?_⟩
  · decide +kernel
  · decide +kernel
  · decide +kernel

end Machine

end Zinix
