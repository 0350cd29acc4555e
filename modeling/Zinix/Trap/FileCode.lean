import Zinix.Trap.TaskCode

/-!
# System calls that move bytes of the user

The calls that read or write a buffer of the caller, operation by operation. What the FAT
driver does with a file is given by its functions; the locks that a walk along a path takes
in the inodes are left out, and so are those of the block device below the driver.
-/

namespace Zinix

/-- The operations of the FAT driver that the calls use. -/
structure FatDriver (F : Type) where
  isFile : F → ℕ → Bool
  readOff : F → ℕ → ℕ → ℕ → Option (List Byte)
  writeOff : F → ℕ → ℕ → ℕ → Option ℕ
  store : F → ℕ → ℕ → List Byte → F
  getNodeByPath : F → ℕ → List Byte → Option ℕ
  /-- The record of `fill_stat`, unless a date makes it panic. -/
  stat : F → ℕ → Checked (List Byte)

def noFiles : FatDriver Unit where
  isFile := fun _ _ => false
  readOff := fun _ _ _ _ => none
  writeOff := fun _ _ _ _ => none
  store := fun _ _ _ _ => ()
  getNodeByPath := fun _ _ _ => none
  stat := fun _ _ => .ok []

/-- Where the bytes of a transfer are: in user memory, or in a buffer of the kernel. -/
inductive Buffer where
  | user (ptr len : ℕ)
  | kernel (bytes : List UInt8)

def Buffer.len : Buffer → ℕ
  | user _ len => len
  | kernel bytes => bytes.length

namespace KernelCode

open Code

variable {F : Type}

/-- The bytes that a pass of `read_exact` stores at the start of the buffer. -/
def Buffer.put (buf : Buffer) (bytes : List UInt8) : KernelCode F Unit :=
  match buf with
  | .user ptr _ => storeBytes ptr (bytes.map UInt8.toBitVec)
  | .kernel _ => return

/-- The first bytes of the buffer, which a pass of `write_exact` takes. -/
def Buffer.take (buf : Buffer) (n : ℕ) : KernelCode F (List UInt8) :=
  match buf with
  | .user ptr _ => do
    let bs ← loadBytes ptr n
    return bs.map UInt8.ofBitVec
  | .kernel bytes => return bytes.take n

/-- The loop of the wake-up functions of a pipe. The list stays locked while a task is put
on the running list. -/
def wakeWaiting (pipe : ℕ) (side : PipeSide) : ℕ → KernelCode F Unit
  | 0 => return
  | n + 1 => do
    takeIrq (.wait pipe side)
    let w ← read
    let t ← lift (Checked.unwrap (w.waitList pipe side).head?)
    update fun w => w.setWaitList pipe side (w.waitList pipe side).tail
    addTask t
    leave
    wakeWaiting pipe side n

/-- `wake_up_read` and `wake_up_write`. -/
def wakeUp (pipe : ℕ) (side : PipeSide) : KernelCode F Unit := do
  Code.take (.wait pipe side)
  let w ← read
  leave
  wakeWaiting pipe side (w.waitList pipe side).length

/-- `sleep_wait_read` and `sleep_wait_write`. -/
def sleepWait (pipe : ℕ) (side : PipeSide) : KernelCode F Unit := do
  let t ← getRunning
  setStatus t .sleeping
  scheduler (some (pipe, side))

/-- `read_exact`, from the loop head on. -/
def readExact (pipe : ℕ) (buf : Buffer) : ℕ → ℕ → KernelCode F ℕ
  | 0, _ => fail .diverges
  | passes + 1, bufPos =>
    if bufPos < buf.len then do
      takeIrq (.buffer pipe)
      let w ← read
      let p := w.files.pipes pipe
      let (readOnce, ring, out) := p.buffer.read (List.replicate buf.len 0)
      update fun w => w.withPipe pipe fun p => { p with buffer := ring }
      Buffer.put buf (out.take readOnce)
      if readOnce = 0 then
        if p.haveWriter then
          leave
          sleepWait pipe .read
          takeIrq (.buffer pipe)
          leave
          readExact pipe buf passes bufPos
        else
          leave
          return bufPos
      else
        leave
        readExact pipe buf passes (bufPos + readOnce)
    else do
      lift (Checked.ensure (bufPos = buf.len) .assertion)
      wakeUp pipe .write
      return bufPos

/-- `write_exact`, from the loop head on. -/
def writeExact (pipe : ℕ) (buf : Buffer) : ℕ → ℕ → KernelCode F ℕ
  | 0, _ => fail .diverges
  | passes + 1, bufPos =>
    if bufPos < buf.len then do
      takeIrq (.buffer pipe)
      let w ← read
      let p := w.files.pipes pipe
      let bytes ← Buffer.take buf (min p.buffer.availableWrite buf.len)
      let (writeOnce, ring) := p.buffer.write bytes
      update fun w => w.withPipe pipe fun p => { p with buffer := ring }
      if writeOnce = 0 then
        leave
        sleepWait pipe .write
        takeIrq (.buffer pipe)
        leave
        writeExact pipe buf passes bufPos
      else
        leave
        writeExact pipe buf passes (bufPos + writeOnce)
    else do
      lift (Checked.ensure (bufPos = buf.len) .assertion)
      wakeUp pipe .read
      return bufPos

variable (fs : FatDriver F)

def isFile (inode : ℕ) : KernelCode F Bool := do
  takeIrq (.inode inode)
  let w ← read
  leave
  return fs.isFile w.fat inode

/-- `Inode::read_off`. -/
def readOff (inode off ptr len : ℕ) : KernelCode F (Option ℕ) := do
  takeIrq (.inode inode)
  let w ← read
  match fs.readOff w.fat inode off len with
  | none =>
    leave
    return none
  | some bytes =>
    storeBytes ptr (bytes.take len)
    leave
    return some (bytes.take len).length

/-- `Inode::write_off`. -/
def writeOff (inode off ptr len : ℕ) : KernelCode F (Option ℕ) := do
  takeIrq (.inode inode)
  let w ← read
  match fs.writeOff w.fat inode off len with
  | none =>
    leave
    return none
  | some n =>
    let bytes ← loadBytes ptr (min n len)
    update fun w => { w with fat := fs.store w.fat inode off bytes }
    leave
    return some bytes.length

def advance (d : ℕ) (r : Option ℕ) : KernelCode F Unit :=
  update fun w => { w with pos := replaceAt w.pos d (w.pos d + r.getD 0) }

/-- `DFile::read`. -/
def dfileRead (d ptr len passes : ℕ) : KernelCode F (Option ℕ) := do
  takeIrq (.dfile d)
  let w ← read
  if (w.files.dfiles d).openFlags.readable then
    match (w.files.dfiles d).cls with
    | .classInode inode =>
      if ← isFile fs inode then
        let r ← readOff fs inode (w.pos d) ptr len
        advance d r
        leave
        return r
      else
        fail (.explicit "can`t read dir")
    | .classTerminal _ =>
      leave
      return some 0
    | .classPipe pipe =>
      let r ← readExact pipe (.user ptr len) passes 0
      leave
      return some r
  else
    leave
    return none

/-- The terminal shows the bytes that it is given, unless it is the input. -/
def terminalWrite (ttype : TerminalType) (ptr len : ℕ) : KernelCode F ℕ :=
  match ttype with
  | .stdin => return 0
  | _ => do
    let bytes ← loadBytes ptr len
    return bytes.length

/-- `DFile::write`. -/
def dfileWrite (d ptr len passes : ℕ) : KernelCode F (Option ℕ) := do
  takeIrq (.dfile d)
  let w ← read
  if (w.files.dfiles d).openFlags.writeable then
    match (w.files.dfiles d).cls with
    | .classInode inode =>
      if ← isFile fs inode then
        let r ← writeOff fs inode (w.pos d) ptr len
        advance d r
        leave
        return r
      else
        fail (.explicit "can`t write dir")
    | .classTerminal ttype =>
      let n ← terminalWrite ttype ptr len
      leave
      return some n
    | .classPipe pipe =>
      let r ← writeExact pipe (.user ptr len) passes 0
      leave
      return some r
  else
    leave
    return none

def ssize : Option ℕ → ℤ
  | some n => n
  | none => -1

def sysRead (fd ptr len passes : ℕ) : KernelCode F ℤ := do
  let t ← getRunning
  takeIrq (.task t)
  let w ← read
  match w.files.slot t fd with
  | none =>
    leave
    return -1
  | some d =>
    let r ← dfileRead fs d ptr len passes
    leave
    return ssize r

def sysWrite (fd ptr len passes : ℕ) : KernelCode F ℤ := do
  let t ← getRunning
  takeIrq (.task t)
  if fd = 0 then errorSync
  let w ← read
  match w.files.slot t fd with
  | none =>
    leave
    return -1
  | some d =>
    let r ← dfileWrite fs d ptr len passes
    leave
    return ssize r

/-- The loop of `sys_writev` from entry `i` of the vector on, with the number of entries
that are left to the loop. -/
def writevLoop (d iovArrayBase passes lenNeed : ℕ) : ℕ → ℕ → ℕ → KernelCode F ℤ
  | 0, _, _ => return lenNeed
  | n + 1, i, lenRes =>
    if lenRes = 0 then return lenNeed
    else do
      let iov ← lift (addUsize iovArrayBase (i * 16))
      let iovBase := ofLeBytes (← loadBytes iov 8)
      let iovLen := ofLeBytes (← loadBytes (iov + 8) 8)
      lift (Checked.ensure (iovBase ≠ 0) .unwrapNone)
      match ← dfileWrite fs d iovBase (min iovLen lenRes) passes with
      | none => return -1
      | some l =>
        lift (Checked.ensure (l = min iovLen lenRes) .assertion)
        writevLoop d iovArrayBase passes lenNeed n (i + 1) (lenRes - min iovLen lenRes)

/-- `len` counts bytes here, where callers pass the number of entries. -/
def sysWritev (fd iovArrayBase len passes : ℕ) : KernelCode F ℤ := do
  if fd = 0 then errorSync
  let t ← getRunning
  takeIrq (.task t)
  let w ← read
  leave
  match w.files.slot t fd with
  | none => return -1
  | some d => writevLoop fs d iovArrayBase passes len (wordSize - 1) 0 len

/-- Both words that are stored are the descriptor of the read end. -/
def sysPipe (pipe : ℕ) : KernelCode F ℤ := do
  let t ← getRunning
  takeIrq (.task t)
  let w ← read
  let ((status, readfd, readfd'), files) := w.files.sysPipe t
  update fun w => { w with files := files }
  writeSingle pipe 4 readfd
  writeSingle (pipe + 4) 4 readfd'
  infoSync
  leave
  return status

/-- `convert_cstr_from_vaddr`, for a string of less than `n` bytes. -/
def convertCstrFromVaddr (vaddr : ℕ) : ℕ → KernelCode F (List Byte)
  | 0 => fail .diverges
  | n + 1 => do
    let c ← loadByte vaddr
    if c = 0 then
      return []
    else
      let cs ← convertCstrFromVaddr (vaddr + 1) n
      return c :: cs

/-- The descriptor that stands for the working directory. -/
def atFdcwd : ℤ := -100

/-- The open file of the directory at which a path starts, by its lock and its class. -/
def dirFile (w : World F) (t : ℕ) (fd : ℤ) : Option (LockId × DFileClass) :=
  if fd = atFdcwd then some (.pwdDfile (w.pwdInode t), .classInode (w.pwdInode t))
  else if 0 ≤ fd then (w.files.slot t fd.toNat).map fun d => (.dfile d, (w.files.dfiles d).cls)
  else none

def sysNewfstatat (fd : ℤ) (pathAddr buf : ℕ) : KernelCode F ℤ := do
  let path ← convertCstrFromVaddr pathAddr wordSize
  infoSync
  let t ← getRunning
  takeIrq (.task t)
  let w ← read
  match dirFile w t fd with
  | none =>
    leave
    return -2
  | some (l, cls) =>
    takeIrq l
    leave
    match cls with
    | .classInode inode =>
      match fs.getNodeByPath w.fat inode path with
      | none =>
        leave
        return -2
      | some node =>
        let stat ← lift (fs.stat w.fat node)
        storeBytes buf stat
        leave
        return 0
    | _ =>
      leave
      return -2

def sysGetcwd (buf len : ℕ) : KernelCode F ℤ := do
  if buf = 0 then
    return -1
  else
    let t ← getRunning
    takeIrq (.task t)
    let w ← read
    leave
    let s := w.pwd t ++ [0]
    if len < s.length then
      return -1
    else
      storeBytes buf s
      return 0

/-- The test on `pid` is the wrong way round: any other value than -1 waits for a child. -/
def sysWait4 (pid : Int64) (wstatus : ℕ) (option : Int64) (passes : ℕ) : KernelCode F ℤ := do
  lift (Checked.ensure (option = 0) .assertion)
  let t ← getRunning
  takeIrq (.task t)
  let w ← read
  leave
  infoSync
  let (exitCode, tid) ←
    if pid ≠ -1 then waitChildren (w.kernel.tasks t).tid passes
    else waitFor pid.toUInt64.toNat passes
  infoSync
  writeSingle wstatus 4 exitCode.toUInt32.toNat
  return tid

end KernelCode

end Zinix
