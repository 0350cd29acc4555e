import Zinix.Fs.DFile
import Zinix.Lib.Chunks
import Zinix.Lib.Code
import Zinix.Task.Scheduler

/-!
# The locks of the scheduler

The functions of tasks and run queues operation by operation with the locks they take. A
guard that lives to the end of a statement, of a `match` or of a block is released there. A
loop that goes on after each sleep is bounded by the number of its passes.
-/

namespace Zinix

/-- Readers and writers of a pipe wait in different lists. -/
inductive PipeSide where
  | read
  | write
  deriving DecidableEq

def CloneFlags := BitVec 64

namespace CloneFlags

def SIGCHLD : CloneFlags := 17#64
def CLONE_VM : CloneFlags := 0x00000100#64
def CLONE_THREAD : CloneFlags := 0x00010000#64
def CLONE_CHILD_CLEARTID : CloneFlags := 0x00200000#64
def CLONE_CHILD_SETTID : CloneFlags := 0x01000000#64

def contains (f g : CloneFlags) : Bool := BitVec.and f g == g

end CloneFlags

inductive LockId where
  | running
  | runningList
  | sleepList
  | exitList
  | log
  | task (t : ℕ)
  | mm (t : ℕ)
  | kernelMm
  | wait (pipe : ℕ) (side : PipeSide)
  | buffer (pipe : ℕ)
  | dfile (d : ℕ)
  | pwdDfile (inode : ℕ)
  | inode (i : ℕ)
  deriving DecidableEq

/-- The data behind the locks. `fat` is the state of the file system. -/
structure World (F : Type) where
  kernel : Kernel
  files : Descriptors
  pos : ℕ → ℕ
  pwd : ℕ → List (BitVec 8)
  pwdInode : ℕ → ℕ
  fat : F

abbrev KernelCode (F : Type) : Type → Type := Code LockId (World F)

namespace World

variable {F : Type}

def isUser (w : World F) (t : ℕ) : Bool := (w.kernel.tasks t).isUser

def withKernel (w : World F) (f : Kernel → Kernel) : World F := { w with kernel := f w.kernel }

def withPipe (w : World F) (pipe : ℕ) (f : Pipe → Pipe) : World F :=
  { w with files := { w.files with
      pipes := replaceAt w.files.pipes pipe (f (w.files.pipes pipe)) } }

def waitList (w : World F) (pipe : ℕ) : PipeSide → List ℕ
  | .read => (w.files.pipes pipe).waitRead
  | .write => (w.files.pipes pipe).waitWrite

def setWaitList (w : World F) (pipe : ℕ) (side : PipeSide) (l : List ℕ) : World F :=
  match side with
  | .read => w.withPipe pipe fun p => { p with waitRead := l }
  | .write => w.withPipe pipe fun p => { p with waitWrite := l }

end World

namespace KernelCode

open Code

variable {F : Type}

/-- `info_sync!`, like the macros of the levels below it. -/
def infoSync : KernelCode F Unit := do
  takeIrq .log
  leave

/-- An error is logged, and the logger then shuts the machine down. -/
def errorSync : KernelCode F Unit := do
  takeIrq .log
  fail (.explicit "shutdown")

def getRunning : KernelCode F ℕ := do
  take .running
  let w ← read
  leave
  return w.kernel.running

def setRunning (t : ℕ) : KernelCode F Unit := do
  take .running
  update fun w => w.withKernel fun k => { k with running := t }
  leave

def current : KernelCode F (Option ℕ) := do
  take .runningList
  let w ← read
  leave
  return w.kernel.runningList.head?

def getTask : KernelCode F ℕ := do
  take .runningList
  let w ← read
  let t ← lift (Checked.unwrap w.kernel.runningList.head?)
  update fun w => w.withKernel fun k => { k with runningList := k.runningList.tail }
  leave
  return t

def addTask (t : ℕ) : KernelCode F Unit := do
  take .runningList
  update fun w => w.withKernel fun k => k.addTask t
  leave

def setStatus (t : ℕ) (status : TaskStatus) : KernelCode F Unit := do
  takeIrq (.task t)
  update fun w => w.withKernel fun k => k.setStatus t status
  leave

/-- The part of `scheduler` that puts the current task into a queue, with its lock held. -/
def requeue (current : ℕ) (sleepListAssign : Option (ℕ × PipeSide)) : KernelCode F Unit := do
  let w ← read
  match w.kernel.status current with
  | .running =>
    update fun w => w.withKernel fun k => { k with runningList := k.runningList ++ [current] }
  | .sleeping =>
    match sleepListAssign with
    | some (pipe, side) =>
      takeIrq (.wait pipe side)
      update fun w => w.setWaitList pipe side (w.waitList pipe side ++ [current])
      leave
    | none =>
      takeIrq .sleepList
      update fun w => w.withKernel fun k => { k with sleepList := k.sleepList ++ [current] }
      leave
  | .zombie =>
    takeIrq .exitList
    update fun w => w.withKernel fun k => { k with exitList := k.exitList ++ [current] }
    leave

/-- The switch to the task at the head of the queue, up to the point where the processor
runs it. -/
def switchToNext (current next : ℕ) : KernelCode F Unit := do
  take (.task current)
  leave
  take (.task next)
  leave
  setRunning next
  takeIrq (.task next)
  infoSync
  let w ← read
  if w.isUser next then
    takeIrq (.mm next)
    leave
  leave

def scheduler (sleepListAssign : Option (ℕ × PipeSide)) : KernelCode F Unit := do
  take .runningList
  let w ← read
  lift (Checked.ensure (w.kernel.runningList.length ≠ 0) .assertion)
  let current ← getRunning
  if w.kernel.runningList.length = 1 then
    takeIrq (.task current)
    let w ← read
    match w.kernel.status current with
    | .running =>
      leave
      leave
    | _ => fail .todo
  else
    update fun w => w.withKernel fun k => { k with runningList := k.runningList.tail }
    takeIrq (.task current)
    requeue current sleepListAssign
    leave
    let w ← read
    let next ← lift (Checked.unwrap w.kernel.runningList.head?)
    switchToNext current next
    leave
    switchTo next

/-- The loop of `wake_up_all_sleeping`. -/
def wakeSleeping : ℕ → KernelCode F Unit
  | 0 => return
  | n + 1 => do
    let w ← read
    let t ← lift (Checked.unwrap w.kernel.sleepList.getLast?)
    update fun w => w.withKernel fun k => { k with sleepList := k.sleepList.dropLast }
    setStatus t .running
    addTask t
    wakeSleeping n

def wakeUpAllSleeping : KernelCode F Unit := do
  takeIrq .sleepList
  let w ← read
  wakeSleeping w.kernel.sleepList.length
  leave

def exitSelf (exitCode : Int32) : KernelCode F Unit := do
  let thisTask ← getRunning
  takeIrq (.task thisTask)
  update fun w => w.withKernel fun k => { k with
    tasks := Function.update k.tasks thisTask { k.tasks thisTask with exitCode }
    exits := k.exits ++ [(thisTask, exitCode)] }
  update fun w => w.withKernel fun k => k.setStatus thisTask .zombie
  wakeUpAllSleeping
  leave
  scheduler none

def sleepSelfInSleepingList : KernelCode F Unit := do
  let t ← getRunning
  setStatus t .sleeping
  scheduler none

/-- The scan of `wait_for` and `wait_children`, with the list locked. -/
def findTask (found : ℕ → KernelCode F (Option (Int32 × ℕ))) :
    List ℕ → KernelCode F (Option (Int32 × ℕ))
  | [] => return none
  | t :: ts => do
    match ← found t with
    | some r => return some r
    | none => findTask found ts

def matchTid (tid t : ℕ) : KernelCode F (Option (Int32 × ℕ)) := do
  takeIrq (.task t)
  let w ← read
  leave
  return if (w.kernel.tasks t).tid = tid then some ((w.kernel.tasks t).exitCode, tid) else none

def matchParent (ptid t : ℕ) : KernelCode F (Option (Int32 × ℕ)) := do
  takeIrq (.task t)
  let w ← read
  match (w.kernel.tasks t).parent with
  | none =>
    leave
    return none
  | some p =>
    takeIrq (.task p)
    let w ← read
    leave
    leave
    return if (w.kernel.tasks p).tid = ptid then
      some ((w.kernel.tasks t).exitCode, (w.kernel.tasks t).tid) else none

/-- A pass of the loop of `wait_for` and `wait_children`, with the sleep that ends it. -/
def waitPass (found : ℕ → KernelCode F (Option (Int32 × ℕ))) :
    KernelCode F (Option (Int32 × ℕ)) := do
  takeIrq .sleepList
  let w ← read
  let r ← findTask found w.kernel.sleepList
  leave
  if r.isNone then
    sleepSelfInSleepingList
    takeIrq .sleepList
    leave
  return r

def waitLoop (found : ℕ → KernelCode F (Option (Int32 × ℕ))) : ℕ → KernelCode F (Int32 × ℕ)
  | 0 => fail .diverges
  | wakes + 1 => do
    match ← waitPass found with
    | some r => return r
    | none => waitLoop found wakes

def waitFor (tid wakes : ℕ) : KernelCode F (Int32 × ℕ) := waitLoop (matchTid tid) wakes

def waitChildren (ptid wakes : ℕ) : KernelCode F (Int32 × ℕ) := waitLoop (matchParent ptid) wakes

/-- `Task::create_kern_task_and_run`. -/
def createKernTaskAndRun : KernelCode F Unit := do
  let w ← read
  update fun w => w.withKernel fun k => k.newTask none false
  addTask w.kernel.taskCnt

def storeBytes (vaddr : ℕ) : List Byte → KernelCode F Unit
  | [] => return
  | b :: bs => do
    storeByte vaddr b
    storeBytes (vaddr + 1) bs

def loadBytes (vaddr : ℕ) : ℕ → KernelCode F (List Byte)
  | 0 => return []
  | n + 1 => do
    let b ← loadByte vaddr
    let bs ← loadBytes (vaddr + 1) n
    return b :: bs

/-- `write_single`, for a value of `size` bytes. -/
def writeSingle (vaddr size val : ℕ) : KernelCode F Unit := do
  lift (Checked.ensure (vaddr % size = 0) .assertion)
  storeBytes vaddr (leBytes size val)

/-- `do_fork`, which gives the handle and the identifier of the new task. -/
def doFork (t : ℕ) : KernelCode F (ℕ × ℕ) := do
  takeIrq (.task t)
  let w ← read
  lift (Checked.ensure (w.isUser t) .unwrapNone)
  takeIrq (.mm t)
  leave
  let w ← read
  update fun w => { w.withKernel fun k => k.newTask (some t) true with files := w.files.fork t }
  leave
  return (w.kernel.taskCnt, w.kernel.gTid)

/-- The identifier of the child is stored while no lock is held. -/
def sysClone (flags : CloneFlags) (stackPtr ctid : ℕ) : KernelCode F ℤ := do
  lift (Checked.ensure (!(flags.contains .CLONE_VM || flags.contains .CLONE_THREAD)) .todo)
  let running ← getRunning
  let (newTask, tid) ← doFork running
  if flags.contains .CLONE_CHILD_SETTID && ctid ≠ 0 then
    writeSingle ctid 4 tid
  lift (Checked.ensure (flags.contains .SIGCHLD) (.explicit "sys_fork: FLAG not supported!"))
  lift (Checked.ensure (stackPtr = 0) (.explicit "not support"))
  infoSync
  addTask newTask
  return tid

/-- Nothing runs after `exit_self`. -/
def sysExit (exitCode : Int32) : KernelCode F ℤ := do
  let t ← getRunning
  takeIrq (.task t)
  leave
  infoSync
  exitSelf exitCode
  fail .assertion

/-- `timer_entry`, where `tic` counts without a lock. -/
def timerEntry : KernelCode F Unit := do
  let w ← read
  update fun w => w.withKernel fun k => k.tic.2
  if w.kernel.tic.1 then scheduler none

def checkMagic : KernelCode F Unit := do
  let t ← getRunning
  takeIrq (.task t)
  leave

/-- `exc_handler` up to the search in `trap_page_fault_handler`, for a page fault in kernel
mode. -/
def pageFaultEntry : KernelCode F Unit := do
  irqOff
  infoSync
  infoSync
  infoSync
  infoSync
  checkMagic
  let t ← getRunning
  takeIrq (.task t)
  takeIrq .kernelMm

def pageFaultExit : KernelCode F Unit := do
  leave
  leave
  infoSync
  leave

/-- `irq_handler`, for the timer, which is the only interrupt that is enabled. -/
def irqHandler : KernelCode F Unit := do
  checkMagic
  timerEntry

end KernelCode

end Zinix
