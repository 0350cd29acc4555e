import Zinix.Lib.Checked
import Zinix.Lib.Trace
import Zinix.Fs.RingBuffer

/-!
# Pipes

A blocking transfer runs in stretches: from the call, or from a wake-up, to the next sleep
or to the return. One stretch is one step of the system.
-/

namespace Zinix

structure Pipe where
  buffer : PipeRingBuffer
  writeCnt : UInt8
  waitWrite : List ℕ
  waitRead : List ℕ

/-- How a stretch ends: asleep with the buffer position kept for later, or
returned with the value of `Ok`. -/
inductive Outcome where
  | slept (bufPos : ℕ)
  | returned (n : ℕ)
  deriving DecidableEq, Repr

namespace Pipe

def new : Pipe := { buffer := .new, writeCnt := 0, waitWrite := [], waitRead := [] }

def haveWriter (p : Pipe) : Bool := p.writeCnt != 0

def incWrite (p : Pipe) : Pipe := { p with writeCnt := p.writeCnt + 1 }

def wakeUpWrite (p : Pipe) : Pipe := { p with waitWrite := [] }

def wakeUpRead (p : Pipe) : Pipe := { p with waitRead := [] }

def decWrite (p : Pipe) : Pipe :=
  if p.writeCnt = 1 then wakeUpRead { p with writeCnt := p.writeCnt - 1 }
  else { p with writeCnt := p.writeCnt - 1 }

def sleepWaitWrite (p : Pipe) (self : ℕ) : Pipe := { p with waitWrite := p.waitWrite ++ [self] }

def sleepWaitRead (p : Pipe) (self : ℕ) : Pipe := { p with waitRead := p.waitRead ++ [self] }

end Pipe

/-- The result of a stretch of `readExact`. The bytes stored by its passes are
listed in the order in which they left the ring. -/
structure ReadStretch where
  pipe : Pipe
  buf : List UInt8
  stored : List UInt8
  outcome : Outcome

structure WriteStretch where
  pipe : Pipe
  outcome : Outcome

theorem PipeRingBuffer.length_read (rb : PipeRingBuffer) (buf : List UInt8) :
    (rb.read buf).2.2.length = buf.length := by
  obtain ⟨_, _, hbuf⟩ := rb.read_spec buf
  rw [hbuf, List.length_append, List.length_take, List.length_drop]
  omega

namespace Pipe

/-- `read_exact` from the loop head on. Every pass hands the whole buffer to the
ring, so it stores at offset 0 whatever `bufPos` is. -/
def readExact (self : ℕ) (p : Pipe) (buf : List UInt8) (bufPos : ℕ) : Checked ReadStretch :=
  if bufPos < buf.length then
    let readOnce := (p.buffer.read buf).1
    let ring := (p.buffer.read buf).2.1
    let buf' := (p.buffer.read buf).2.2
    if readOnce = 0 then
      if p.haveWriter then
        return ⟨{ p with buffer := ring }.sleepWaitRead self, buf', [], .slept bufPos⟩
      else
        return ⟨{ p with buffer := ring }, buf', [], .returned bufPos⟩
    else do
      let rest ← readExact self { p with buffer := ring } buf' (bufPos + readOnce)
      return { rest with stored := buf'.take readOnce ++ rest.stored }
  else do
    Checked.ensure (bufPos = buf.length) .assertion
    return ⟨p.wakeUpWrite, buf, [], .returned bufPos⟩
termination_by buf.length - bufPos
decreasing_by
  rw [PipeRingBuffer.length_read]
  omega

/-- `write_exact` from the loop head on, again with the whole buffer at every pass. -/
def writeExact (self : ℕ) (p : Pipe) (buf : List UInt8) (bufPos : ℕ) : Checked WriteStretch :=
  if bufPos < buf.length then
    let writeOnce := (p.buffer.write buf).1
    let ring := (p.buffer.write buf).2
    if writeOnce = 0 then
      return ⟨{ p with buffer := ring }.sleepWaitWrite self, .slept bufPos⟩
    else
      writeExact self { p with buffer := ring } buf (bufPos + writeOnce)
  else do
    Checked.ensure (bufPos = buf.length) .assertion
    return ⟨p.wakeUpRead, .returned bufPos⟩
termination_by buf.length - bufPos

def contents (p : Pipe) : List UInt8 := p.buffer.contents

end Pipe

/-- The call a task is inside of. For a reader, `orig` is the buffer it passed and
`got` the bytes it has taken from the ring so far; both only record history. -/
inductive Call where
  | read (orig buf : List UInt8) (bufPos : ℕ) (got : List UInt8)
  | write (buf : List UInt8) (bufPos : ℕ)

/-- A `readExact` that has returned `Ok(n)`. -/
structure ReadReturn where
  orig : List UInt8
  buf : List UInt8
  got : List UInt8
  n : ℕ
  /-- No writer was left at the return. -/
  closed : Bool

/-- A pipe with the pending call of every task. The last three fields record the
history: the bytes passed to `writeExact`, the bytes stored by readers, and the
reads that have returned. -/
structure PipeSys where
  pipe : Pipe
  calls : ℕ → Option Call
  sent : List UInt8
  taken : List UInt8
  returns : List ReadReturn

inductive PipeAct where
  | read (task : ℕ) (buf : List UInt8)
  | write (task : ℕ) (buf : List UInt8)
  | resume (task : ℕ)
  | incWrite
  | decWrite

namespace PipeSys

def init : PipeSys :=
  { pipe := .new, calls := fun _ => none, sent := [], taken := [], returns := [] }

/-- A task starts a call only when it is in none, and goes on with one only
when it is not asleep. -/
def Enabled (s : PipeSys) : PipeAct → Prop
  | .read t _ => s.calls t = none
  | .write t _ => s.calls t = none
  | .resume t => s.calls t ≠ none ∧ t ∉ s.pipe.waitRead ∧ t ∉ s.pipe.waitWrite
  | .incWrite => True
  | .decWrite => True

def stretchRead (s : PipeSys) (t : ℕ) (orig buf : List UInt8) (bufPos : ℕ) (got : List UInt8) :
    Checked PipeSys := do
  let r ← s.pipe.readExact t buf bufPos
  let got := got ++ r.stored
  let s := { s with pipe := r.pipe, taken := s.taken ++ r.stored }
  match r.outcome with
  | .slept pos => return { s with
      calls := Function.update s.calls t (some (.read orig r.buf pos got)) }
  | .returned n => return { s with
      calls := Function.update s.calls t none
      returns := s.returns ++ [⟨orig, r.buf, got, n, !r.pipe.haveWriter⟩] }

def stretchWrite (s : PipeSys) (t : ℕ) (buf : List UInt8) (bufPos : ℕ) : Checked PipeSys := do
  let r ← s.pipe.writeExact t buf bufPos
  match r.outcome with
  | .slept pos => return { s with
      pipe := r.pipe, calls := Function.update s.calls t (some (.write buf pos)) }
  | .returned _ => return { s with
      pipe := r.pipe, calls := Function.update s.calls t none }

def exec (s : PipeSys) : PipeAct → Checked PipeSys
  | .read t buf => s.stretchRead t buf buf 0 []
  | .write t buf => { s with sent := s.sent ++ buf }.stretchWrite t buf 0
  | .resume t =>
    match s.calls t with
    | some (.read orig buf bufPos got) => s.stretchRead t orig buf bufPos got
    | some (.write buf bufPos) => s.stretchWrite t buf bufPos
    | none => return s
  | .incWrite => return { s with pipe := s.pipe.incWrite }
  | .decWrite => return { s with pipe := s.pipe.decWrite }

/-- One step of the system: an enabled action that does not panic. -/
def Step (s : PipeSys) (a : PipeAct) (s' : PipeSys) : Prop := s.Enabled a ∧ s.exec a = .ok s'

end PipeSys

end Zinix
