import Zinix.Lib.Checked
import Zinix.Lib.Trace

/-!
# Tasks and run queues

A task is a handle into a store that only grows, since `exit_list` is never emptied. For the
same reason the task counter does not wrap. The wait lists of all pipes are numbered
together. Of the address space of a task only its presence matters here; the other parts
that the queues never look at are left out.
-/

namespace Zinix

inductive TaskStatus where
  | running
  | sleeping
  | zombie
  deriving DecidableEq, Repr

structure Task where
  tid : ℕ
  parent : Option ℕ
  status : TaskStatus
  exitCode : Int32
  /-- The task has an address space. -/
  isUser : Bool
  deriving DecidableEq, Repr

structure Kernel where
  tasks : ℕ → Task
  taskCnt : ℕ
  gTid : ℕ
  running : ℕ
  runningList : List ℕ
  sleepList : List ℕ
  exitList : List ℕ
  waits : ℕ → List ℕ
  waitCnt : ℕ
  ticCounter : ℕ
  /-- The calls of `exitSelf` so far, with their codes. -/
  exits : List (ℕ × Int32)

def ticMax : ℕ := 10

namespace Kernel

/-- The state after `Task::__core_init`, with the boot task as handle 0. -/
def coreInit : Kernel where
  tasks := fun _ =>
    { tid := 1, parent := none, status := .running, exitCode := 0, isUser := false }
  taskCnt := 1
  gTid := 2
  running := 0
  runningList := [0]
  sleepList := []
  exitList := []
  waits := fun _ => []
  waitCnt := 0
  ticCounter := 0
  exits := []

def status (k : Kernel) (h : ℕ) : TaskStatus := (k.tasks h).status

def setStatus (k : Kernel) (h : ℕ) (status : TaskStatus) : Kernel :=
  { k with tasks := Function.update k.tasks h { k.tasks h with status } }

def addTask (k : Kernel) (h : ℕ) : Kernel := { k with runningList := k.runningList ++ [h] }

def newTask (k : Kernel) (parent : Option ℕ) (isUser : Bool) : Kernel :=
  { k with
    tasks := Function.update k.tasks k.taskCnt
      { tid := k.gTid, parent, status := .running, exitCode := 0, isUser }
    taskCnt := k.taskCnt + 1
    gTid := k.gTid + 1 }

def create (k : Kernel) (parent : Option ℕ) (isUser : Bool) : Kernel :=
  (k.newTask parent isUser).addTask k.taskCnt

/-- `do_fork` with the `add_task` after it. The address space of the caller is unwrapped. -/
def fork (k : Kernel) : Checked Kernel := do
  Checked.ensure (k.tasks k.running).isUser .unwrapNone
  return k.create (some k.running) true

/-- The queue in which `scheduler` leaves the current task. -/
def requeue (k : Kernel) (sleepListAssign : Option ℕ) : Kernel :=
  match k.status k.running with
  | .running => { k with runningList := k.runningList ++ [k.running] }
  | .sleeping =>
    match sleepListAssign with
    | some j => { k with waits := Function.update k.waits j (k.waits j ++ [k.running]) }
    | none => { k with sleepList := k.sleepList ++ [k.running] }
  | .zombie => { k with exitList := k.exitList ++ [k.running] }

def scheduler (k : Kernel) (sleepListAssign : Option ℕ) : Checked Kernel := do
  Checked.ensure (k.runningList.length ≠ 0) .assertion
  if k.runningList.length = 1 then
    match k.status k.running with
    | .running => return k
    | _ => throw .todo
  else
    let k := requeue { k with runningList := k.runningList.tail } sleepListAssign
    let next ← Checked.unwrap k.runningList.head?
    return { k with running := next }

/-- The loop of `wakeUpAllSleeping`, which takes tasks off the back. -/
def wakeSleeping (k : Kernel) : ℕ → Checked Kernel
  | 0 => return k
  | n + 1 => do
    let t ← Checked.unwrap k.sleepList.getLast?
    let k := { k with sleepList := k.sleepList.dropLast }
    wakeSleeping ((k.setStatus t .running).addTask t) n

def wakeUpAllSleeping (k : Kernel) : Checked Kernel := k.wakeSleeping k.sleepList.length

def exitSelf (k : Kernel) (exitCode : Int32) : Checked Kernel := do
  let k := { k with
    tasks := Function.update k.tasks k.running { k.tasks k.running with exitCode }
    exits := k.exits ++ [(k.running, exitCode)] }
  let k ← (k.setStatus k.running .zombie).wakeUpAllSleeping
  k.scheduler none

def sleepSelfInSleepingList (k : Kernel) : Checked Kernel :=
  (k.setStatus k.running .sleeping).scheduler none

/-- `sleep_wait_read` and `sleep_wait_write`, on the wait list `j`. -/
def sleepWait (k : Kernel) (j : ℕ) : Checked Kernel :=
  (k.setStatus k.running .sleeping).scheduler (some j)

/-- The loop of the wake-up functions of a pipe, which take tasks off the front of a
wait list. Unlike `wakeUpAllSleeping` they leave the status alone. -/
def wakeWaiting (k : Kernel) (j : ℕ) : ℕ → Checked Kernel
  | 0 => return k
  | n + 1 => do
    let t ← Checked.unwrap (k.waits j).head?
    let k := { k with waits := Function.update k.waits j (k.waits j).tail }
    wakeWaiting (k.addTask t) j n

/-- `wake_up_read` and `wake_up_write`, on the wait list `j`. -/
def wakeUpWait (k : Kernel) (j : ℕ) : Checked Kernel := k.wakeWaiting j (k.waits j).length

/-- `tic`: whether this tick is to reschedule. -/
def tic (k : Kernel) : Bool × Kernel :=
  if k.ticCounter = ticMax then (true, { k with ticCounter := 0 })
  else (false, { k with ticCounter := k.ticCounter + 1 })

def timerEntry (k : Kernel) : Checked Kernel :=
  if k.tic.1 then k.tic.2.scheduler none else return k.tic.2

def newPipe (k : Kernel) : Kernel := { k with waitCnt := k.waitCnt + 2 }

end Kernel

inductive KernelAct where
  | fork
  | createTask (isUser : Bool)
  | tick
  | sleep
  | exit (exitCode : Int32)
  | newPipe
  | pipeSleep (j : ℕ)
  | pipeWake (j : ℕ)

namespace Kernel

def exec (k : Kernel) : KernelAct → Checked Kernel
  | .fork => k.fork
  | .createTask isUser => return k.create none isUser
  | .tick => k.timerEntry
  | .sleep => k.sleepSelfInSleepingList
  | .exit exitCode => k.exitSelf exitCode
  | .newPipe => return k.newPipe
  | .pipeSleep j => k.sleepWait j
  | .pipeWake j => k.wakeUpWait j

/-- Only user tasks make system calls, the boot task never sleeps or exits, and wait lists
belong to a pipe. -/
def Allowed (k : Kernel) : KernelAct → Prop
  | .fork => (k.tasks k.running).isUser
  | .sleep => k.running ≠ 0
  | .exit _ => k.running ≠ 0
  | .pipeSleep j => k.running ≠ 0 ∧ j < k.waitCnt
  | .pipeWake j => j < k.waitCnt
  | _ => True

def Step (k : Kernel) (a : KernelAct) (k' : Kernel) : Prop := k.Allowed a ∧ k.exec a = .ok k'

def occurrences (k : Kernel) (h : ℕ) : ℕ :=
  k.runningList.count h + k.sleepList.count h + k.exitList.count h +
    ∑ j ∈ Finset.range k.waitCnt, (k.waits j).count h

end Kernel

end Zinix
