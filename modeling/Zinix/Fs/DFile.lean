import Zinix.Fs.Pipe
import Zinix.Lib.OrdMap

/-!
# Open files and descriptor tables

A descriptor table holds counted references to open files, which are numbered in the order
in which they are opened. Tasks are never dropped, as `exit_list` is never emptied.
-/

namespace Zinix

structure OpenFlags where
  bits : BitVec 32
  deriving DecidableEq

namespace OpenFlags

def O_RDONLY : OpenFlags := ⟨0⟩

def O_WRONLY : OpenFlags := ⟨1#32 <<< 0⟩

def O_RDWR : OpenFlags := ⟨1#32 <<< 1⟩

def contains (f g : OpenFlags) : Bool := f.bits &&& g.bits == g.bits

def readwriteable (f : OpenFlags) : Bool := f.contains O_RDWR

def readable (f : OpenFlags) : Bool :=
  if f.readwriteable then true else !f.contains O_WRONLY

def writeable (f : OpenFlags) : Bool :=
  if f.readwriteable then true else f.contains O_WRONLY

end OpenFlags

inductive TerminalType where
  | stdin
  | stdout
  | stderr
  deriving DecidableEq

inductive DFileClass where
  | classInode (inode : ℕ)
  | classTerminal (ttype : TerminalType)
  | classPipe (pipe : ℕ)
  deriving DecidableEq

structure DFile where
  cls : DFileClass
  openFlags : OpenFlags
  cloexec : Bool
  deriving DecidableEq

inductive FcntlCmd where
  | dupfd
  | getfd
  | setfd
  | dupfdCloexec
  | other
  deriving DecidableEq

def maxOpened : ℕ := 64

/-- The open files with the number of references to each, the pipes, and the descriptor
tables of all tasks. -/
structure Descriptors where
  dfiles : ℕ → DFile
  dfileCnt : ℕ
  strong : ℕ → ℕ
  pipes : ℕ → Pipe
  pipeCnt : ℕ
  opened : ℕ → List (Option ℕ)
  exited : ℕ → Bool
  taskCnt : ℕ

namespace Descriptors

variable (s : Descriptors)

def cloneArc (d : ℕ) : Descriptors := { s with strong := replaceAt s.strong d (s.strong d + 1) }

/-- `Drop for DFile`. -/
def dropDFile (d : ℕ) : Descriptors :=
  match (s.dfiles d).cls with
  | .classPipe p =>
    if (s.dfiles d).openFlags.writeable then
      { s with pipes := replaceAt s.pipes p (s.pipes p).decWrite }
    else
      s
  | _ => s

def dropArc (d : ℕ) : Descriptors :=
  let s := { s with strong := replaceAt s.strong d (s.strong d - 1) }
  if s.strong d = 0 then s.dropDFile d else s

def cloneOpt : Option ℕ → Descriptors
  | some d => s.cloneArc d
  | none => s

def dropOpt : Option ℕ → Descriptors
  | some d => s.dropArc d
  | none => s

/-- A new open file with one reference, which the caller owns. -/
def newDFile (f : DFile) : ℕ × Descriptors :=
  (s.dfileCnt, { s with
    dfiles := replaceAt s.dfiles s.dfileCnt f
    dfileCnt := s.dfileCnt + 1
    strong := replaceAt s.strong s.dfileCnt 1 })

/-- `DFile::new_pipe`, with the read end and the write end. -/
def newPipe : (ℕ × ℕ) × Descriptors :=
  let p := s.pipeCnt
  let s := { s with pipes := replaceAt s.pipes p Pipe.new.incWrite, pipeCnt := p + 1 }
  let (read, s) := s.newDFile ⟨.classPipe p, .O_RDONLY, false⟩
  let (write, s) := s.newDFile ⟨.classPipe p, .O_WRONLY, false⟩
  ((read, write), s)

def slot (t fd : ℕ) : Option ℕ := ((s.opened t)[fd]?).join

def setSlot (t fd : ℕ) (file : Option ℕ) : Descriptors :=
  { s with opened := replaceAt s.opened t ((s.opened t).set fd file) }

def getOpened (t fd : ℕ) : Option ℕ × Descriptors := (s.slot t fd, s.cloneOpt (s.slot t fd))

/-- The caller gets a reference to the old file; the assignment drops the one of the
table. -/
def setOpened (t fd : ℕ) (file : Option ℕ) : Option (Option ℕ) × Descriptors :=
  if fd < (s.opened t).length then
    let ret := s.slot t fd
    (some ret, ((s.cloneOpt ret).setSlot t fd file).dropOpt ret)
  else
    (none, s.dropOpt file)

def clearOpened (t fd : ℕ) : Option (Option ℕ) × Descriptors := s.setOpened t fd none

/-- The first free descriptor from `fdStart` on. -/
def freeSlot (t fdStart : ℕ) : Option ℕ :=
  (List.range' fdStart ((s.opened t).length - fdStart)).find? fun i => (s.slot t i).isNone

/-- The loop that both ways to allocate a descriptor run. -/
def allocFrom (t file fdStart : ℕ) : Option ℕ × Descriptors :=
  match s.freeSlot t fdStart with
  | some i => (some i, s.setSlot t i (some file))
  | none => (none, s.dropArc file)

def allocOpened (t file : ℕ) : Option ℕ × Descriptors := s.allocFrom t file 0

def allocOpenedBiggerThan (t file fdStart : ℕ) : Option ℕ × Descriptors :=
  if (s.opened t).length ≤ fdStart then (none, s.dropArc file) else s.allocFrom t file fdStart

/-- Returns the value of the call and the two words stored for the caller, both of which
are the descriptor of the read end. -/
def sysPipe (t : ℕ) : (ℤ × ℕ × ℕ) × Descriptors :=
  let ((read, write), s) := s.newPipe
  match s.allocOpened t read with
  | (none, s) => ((-1, 0, 0), s.dropArc write)
  | (some readfd, s) =>
    match s.allocOpened t write with
    | (none, s) =>
      let (old, s) := s.clearOpened t readfd
      ((-1, readfd, readfd), s.dropOpt old.join)
    | (some _, s) => ((0, readfd, readfd), s)

def sysClose (t fd : ℕ) : ℤ × Descriptors :=
  match s.clearOpened t fd with
  | (some (some d), s) => (0, s.dropArc d)
  | (some none, s) => (-1, s)
  | (none, s) => (-1, s)

def doDup (t oldFd : ℕ) (newFd : Option ℕ) : ℤ × Descriptors :=
  match s.getOpened t oldFd with
  | (none, s) => (-1, s)
  | (some f, s) =>
    match newFd with
    | none =>
      match s.allocOpened t f with
      | (none, s) => (-1, s)
      | (some fd, s) => (fd, s)
    | some newfd =>
      match s.setOpened t newfd (some f) with
      | (some old, s) => (newfd, s.dropOpt old)
      | (none, s) => (-1, s)

def setCloexecTo (d : ℕ) (flag : Bool) : Descriptors :=
  { s with dfiles := replaceAt s.dfiles d { s.dfiles d with cloexec := flag } }

def sysFcntl (t fd : ℕ) (cmd : FcntlCmd) (arg : ℕ) : Checked (ℤ × Descriptors) :=
  match s.getOpened t fd with
  | (none, s) => return (-1, s)
  | (some file, s) =>
    match cmd with
    | .dupfd =>
      match s.allocOpenedBiggerThan t file arg with
      | (none, s) => return (-1, s)
      | (some newfd, s) => return (newfd, s)
    | .getfd => return (if (s.dfiles file).cloexec then 1 else 0, s.dropArc file)
    | .setfd => return (0, (s.setCloexecTo file (arg % 2 == 1)).dropArc file)
    | .dupfdCloexec =>
      match (s.cloneArc file).allocOpenedBiggerThan t file arg with
      | (none, s) => return (-1, s.dropArc file)
      | (some newfd, s) => return (newfd, (s.setCloexecTo file true).dropArc file)
    | .other => throw .todo

/-- The end of `sys_openat`; `found` is the inode that the path leads to. -/
def openFound (t : ℕ) (found : Option ℕ) (flags : OpenFlags) : ℤ × Descriptors :=
  match found with
  | none => (-1, s)
  | some inode =>
    let (file, s) := s.newDFile ⟨.classInode inode, flags, false⟩
    match s.allocOpened t file with
    | (none, s) => (-1, s)
    | (some fd, s) => (fd, s)

/-- The directory is given by a descriptor or is the working directory. -/
def sysOpenat (t : ℕ) (dirfd : Option ℕ) (found : Option ℕ) (flags : OpenFlags) :
    ℤ × Descriptors :=
  match dirfd with
  | none => s.openFound t found flags
  | some fd =>
    match s.getOpened t fd with
    | (none, s) => (-1, s)
    | (some dir, s) =>
      let (ret, s) := s.openFound t found flags
      (ret, s.dropArc dir)

/-- The files with which a user task starts, as its descriptor table. -/
def newStdFiles : List (Option ℕ) × Descriptors :=
  let (stdin, s) := s.newDFile ⟨.classTerminal .stdin, .O_RDONLY, false⟩
  let (stdout, s) := s.newDFile ⟨.classTerminal .stdout, .O_WRONLY, false⟩
  let (stderr, s) := s.newDFile ⟨.classTerminal .stderr, .O_WRONLY, false⟩
  ([some stdin, some stdout, some stderr] ++ List.replicate (maxOpened - 3) none, s)

def addTask (opened : List (Option ℕ)) : Descriptors :=
  { s with
    opened := replaceAt s.opened s.taskCnt opened
    exited := replaceAt s.exited s.taskCnt false
    taskCnt := s.taskCnt + 1 }

def createUserTask : Descriptors :=
  let (opened, s) := s.newStdFiles
  s.addTask opened

def fork (t : ℕ) : Descriptors :=
  ((s.opened t).foldl cloneOpt s).addTask (s.opened t)

/-- The loop of `execve_from_tsk`. Every entry of the table is replaced by a clone of the
one of the new task, and the value of `set_opened` is dropped. -/
def replaceOpened (t : ℕ) : Descriptors → ℕ → List (Option ℕ) → Descriptors
  | s, _, [] => s
  | s, fd, file :: rest =>
    let (old, s) := (s.cloneOpt file).setOpened t fd file
    replaceOpened t (s.dropOpt old.join) (fd + 1) rest

/-- The task that `execve` creates is dropped when its parts have been taken over. -/
def sysExecve (t : ℕ) : Descriptors :=
  let (opened, s) := s.newStdFiles
  opened.foldl dropOpt (replaceOpened t s 0 opened)

/-- `exit_self` does not touch the descriptor table. -/
def exitSelf (t : ℕ) : Descriptors := { s with exited := replaceAt s.exited t true }

/-- A stretch of a transfer through a descriptor. Only pipes are looked at. The reference
that a sleeping transfer keeps is left out: its descriptor stays open meanwhile. -/
def transfer (t fd : ℕ) (allowed : OpenFlags → Bool) (stretch : Pipe → Checked Pipe) :
    Checked Descriptors :=
  match s.slot t fd with
  | none => return s
  | some d =>
    if allowed (s.dfiles d).openFlags then
      match (s.dfiles d).cls with
      | .classPipe p => do
        let pipe ← stretch (s.pipes p)
        return { s with pipes := replaceAt s.pipes p pipe }
      | _ => return s
    else
      return s

/-- `DFile::read` through a descriptor, from the call or from a wake-up on. -/
def dfileRead (t fd : ℕ) (buf : List UInt8) (bufPos : ℕ) : Checked Descriptors :=
  s.transfer t fd OpenFlags.readable fun p => ReadStretch.pipe <$> p.readExact t buf bufPos

/-- `DFile::write` through a descriptor, which `sys_writev` calls without a lock. -/
def dfileWrite (t fd : ℕ) (buf : List UInt8) (bufPos : ℕ) : Checked Descriptors :=
  s.transfer t fd OpenFlags.writeable fun p => WriteStretch.pipe <$> p.writeExact t buf bufPos

/-- Going to sleep locks the task, which a caller may have locked already. -/
def lockedTask (pipe : Pipe) : Outcome → Checked Pipe
  | .returned _ => return pipe
  | .slept _ => throw (.explicit "Dead Lock!")

def sysRead (t fd : ℕ) (buf : List UInt8) : Checked Descriptors :=
  s.transfer t fd OpenFlags.readable fun p => do
    let r ← p.readExact t buf 0
    lockedTask r.pipe r.outcome

def sysWrite (t fd : ℕ) (buf : List UInt8) : Checked Descriptors := do
  -- an error is logged, and the logger shuts the machine down
  Checked.ensure (fd ≠ 0) (.explicit "shutdown")
  s.transfer t fd OpenFlags.writeable fun p => do
    let r ← p.writeExact t buf 0
    lockedTask r.pipe r.outcome

def boot : Descriptors where
  dfiles := fun _ => ⟨.classTerminal .stdin, .O_RDONLY, false⟩
  dfileCnt := 0
  strong := fun _ => 0
  pipes := fun _ => .new
  pipeCnt := 0
  opened := fun t => if t = 0 then List.replicate maxOpened none else []
  exited := fun _ => false
  taskCnt := 1

end Descriptors

inductive FileAction where
  | createUserTask
  | pipe (t : ℕ)
  | close (t fd : ℕ)
  | dup (t oldFd : ℕ) (newFd : Option ℕ)
  | fcntl (t fd : ℕ) (cmd : FcntlCmd) (arg : ℕ)
  | openat (t : ℕ) (dirfd found : Option ℕ) (flags : OpenFlags)
  | fork (t : ℕ)
  | execve (t : ℕ)
  | exit (t : ℕ)
  | read (t fd : ℕ) (buf : List UInt8)
  | write (t fd : ℕ) (buf : List UInt8)
  | dfileRead (t fd : ℕ) (buf : List UInt8) (bufPos : ℕ)
  | dfileWrite (t fd : ℕ) (buf : List UInt8) (bufPos : ℕ)

def FileAction.actor : FileAction → Option ℕ
  | .createUserTask => none
  | .pipe t => some t
  | .close t _ => some t
  | .dup t _ _ => some t
  | .fcntl t _ _ _ => some t
  | .openat t _ _ _ => some t
  | .fork t => some t
  | .execve t => some t
  | .exit t => some t
  | .read t _ _ => some t
  | .write t _ _ => some t
  | .dfileRead t _ _ _ => some t
  | .dfileWrite t _ _ _ => some t

namespace Descriptors

def CanRun (s : Descriptors) (t : ℕ) : Prop :=
  t < s.taskCnt ∧ s.exited t = false ∧
    ∀ p < s.pipeCnt, t ∉ (s.pipes p).waitRead ∧ t ∉ (s.pipes p).waitWrite

instance (s : Descriptors) (t : ℕ) : Decidable (s.CanRun t) := by
  unfold CanRun
  infer_instance

def exec (s : Descriptors) : FileAction → Checked Descriptors
  | .createUserTask => return s.createUserTask
  | .pipe t => return (s.sysPipe t).2
  | .close t fd => return (s.sysClose t fd).2
  | .dup t oldFd newFd => return (s.doDup t oldFd newFd).2
  | .fcntl t fd cmd arg => do
    let r ← s.sysFcntl t fd cmd arg
    return r.2
  | .openat t dirfd found flags => return (s.sysOpenat t dirfd found flags).2
  | .fork t => return s.fork t
  | .execve t => return s.sysExecve t
  | .exit t => return s.exitSelf t
  | .read t fd buf => s.sysRead t fd buf
  | .write t fd buf => s.sysWrite t fd buf
  | .dfileRead t fd buf bufPos => s.dfileRead t fd buf bufPos
  | .dfileWrite t fd buf bufPos => s.dfileWrite t fd buf bufPos

def Step (s : Descriptors) (a : FileAction) (s' : Descriptors) : Prop :=
  (∀ t ∈ a.actor, s.CanRun t) ∧ s.exec a = .ok s'

structure IsWriter (s : Descriptors) (d p : ℕ) : Prop where
  old : d < s.dfileCnt
  cls : (s.dfiles d).cls = .classPipe p
  writeable : (s.dfiles d).openFlags.writeable = true

instance (s : Descriptors) (d p : ℕ) : Decidable (s.IsWriter d p) :=
  decidable_of_iff (d < s.dfileCnt ∧ (s.dfiles d).cls = .classPipe p ∧
      (s.dfiles d).openFlags.writeable = true)
    ⟨fun h => ⟨h.1, h.2.1, h.2.2⟩, fun h => ⟨h.old, h.cls, h.writeable⟩⟩

/-- The task has a descriptor of the write end of the pipe. -/
def HoldsWrite (s : Descriptors) (t p : ℕ) : Prop := ∃ d, some d ∈ s.opened t ∧ s.IsWriter d p

instance (s : Descriptors) (t p : ℕ) : Decidable (s.HoldsWrite t p) :=
  decidable_of_iff (((s.opened t).any fun file => file.any fun d => s.IsWriter d p) = true) <| by
    simp [HoldsWrite, Option.any_eq_true]

/-- Every task with a descriptor of the write end has exited. -/
def Released (s : Descriptors) (p : ℕ) : Prop :=
  ∀ t < s.taskCnt, s.HoldsWrite t p → s.exited t = true

instance (s : Descriptors) (p : ℕ) : Decidable (s.Released p) := by
  unfold Released
  infer_instance

def Closed (s : Descriptors) (p : ℕ) : Prop :=
  (s.pipes p).writeCnt = 0 ∧ (s.pipes p).waitRead = []

instance (s : Descriptors) (p : ℕ) : Decidable (s.Closed p) := by
  unfold Closed
  infer_instance

end Descriptors

end Zinix
