import Zinix.Lib.Checked

/-!
# Code that takes spin locks

A program is a tree of operations: it takes and releases locks, reads and replaces the data
behind them, touches the memory of the user, and hands the processor to another thread. It
obeys a discipline if it never takes a lock that it holds, and does not hand over the
processor while it holds one that is pinned.
-/

namespace Zinix

/-- Programs over locks `L` and data `D`. -/
inductive Code (L D α : Type) where
  | ret (a : α)
  | lock (l : L) (next : Code L D α)
  | lockIrq (l : L) (next : Code L D α)
  | disableIrq (next : Code L D α)
  | release (next : Code L D α)
  | get (next : D → Code L D α)
  | set (d : D) (next : Code L D α)
  | load (vaddr : ℕ) (next : BitVec 8 → Code L D α)
  | store (vaddr : ℕ) (b : BitVec 8) (next : Code L D α)
  | switch (thread : ℕ) (next : Code L D α)
  | fail (e : Panic)

/-- What a guard keeps: the lock, and the interrupt state to restore if it changed it. -/
inductive Guard (L : Type) where
  | plain (l : L)
  | irq (l : L) (irqState : Bool)
  | off (irqState : Bool)

def Guard.lock? {L : Type} : Guard L → Option L
  | plain l => some l
  | irq l _ => some l
  | off _ => none

def HoldsLock {L : Type} (guards : List (Guard L)) (l : L) : Prop := ∃ g ∈ guards, g.lock? = some l

instance {L : Type} [DecidableEq L] (guards : List (Guard L)) (l : L) :
    Decidable (HoldsLock guards l) := by
  unfold HoldsLock
  infer_instance

/-- How the memory of a user answers to an access, or the panic in which it ends. -/
structure Memory (U : Type) where
  load : U → ℕ → Checked (BitVec 8)
  store : U → ℕ → BitVec 8 → Checked U

namespace Code

variable {L D U α β : Type}

def bind : Code L D α → (α → Code L D β) → Code L D β
  | ret a, f => f a
  | lock l next, f => lock l (next.bind f)
  | lockIrq l next, f => lockIrq l (next.bind f)
  | disableIrq next, f => disableIrq (next.bind f)
  | release next, f => release (next.bind f)
  | get next, f => get fun d => (next d).bind f
  | set d next, f => set d (next.bind f)
  | load v next, f => load v fun b => (next b).bind f
  | store v b next, f => store v b (next.bind f)
  | switch t next, f => switch t (next.bind f)
  | fail e, _ => fail e

instance : Monad (Code L D) where
  pure := ret
  bind := bind

@[simp] theorem pure_eq (a : α) : (pure a : Code L D α) = ret a := rfl

@[simp] theorem bind_eq (c : Code L D α) (f : α → Code L D β) : c >>= f = c.bind f := rfl

def take (l : L) : Code L D Unit := lock l (ret ())
def takeIrq (l : L) : Code L D Unit := lockIrq l (ret ())
def irqOff : Code L D Unit := disableIrq (ret ())
def leave : Code L D Unit := release (ret ())
def read : Code L D D := get ret
def update (f : D → D) : Code L D Unit := get fun d => set (f d) (ret ())
def loadByte (v : ℕ) : Code L D (BitVec 8) := load v ret
def storeByte (v : ℕ) (b : BitVec 8) : Code L D Unit := store v b (ret ())
def switchTo (t : ℕ) : Code L D Unit := switch t (ret ())

def lift : Checked α → Code L D α
  | .ok a => ret a
  | .error e => fail e

section Bind

variable (f : Unit → Code L D β) (l : L)

@[simp] theorem ret_bind (a : α) (f : α → Code L D β) : (ret a).bind f = f a := rfl

@[simp] theorem fail_bind (e : Panic) (f : α → Code L D β) : (fail e).bind f = fail e := rfl

@[simp] theorem take_bind : (take l).bind f = lock l (f ()) := rfl

@[simp] theorem takeIrq_bind : (takeIrq l).bind f = lockIrq l (f ()) := rfl

@[simp] theorem irqOff_bind : irqOff.bind f = disableIrq (f ()) := rfl

@[simp] theorem leave_bind : leave.bind f = release (f ()) := rfl

@[simp] theorem read_bind (f : D → Code L D β) : read.bind f = get f := rfl

@[simp] theorem update_bind (g : D → D) : (update g).bind f = get fun d => set (g d) (f ()) := rfl

@[simp] theorem loadByte_bind (v : ℕ) (f : BitVec 8 → Code L D β) :
    (loadByte v).bind f = load v f := rfl

@[simp] theorem storeByte_bind (v : ℕ) (b : BitVec 8) : (storeByte v b).bind f = store v b (f ()) :=
  rfl

@[simp] theorem switchTo_bind (t : ℕ) : (switchTo t).bind f = switch t (f ()) := rfl

@[simp] theorem lift_ok (a : α) : (lift (.ok a) : Code L D α) = ret a := rfl

@[simp] theorem lift_error (e : Panic) : (lift (.error e) : Code L D α) = fail e := rfl

@[simp] theorem bind_bind {γ : Type} (c : Code L D α) (f : α → Code L D β) (g : β → Code L D γ) :
    (c.bind f).bind g = c.bind fun a => (f a).bind g := by
  induction c with
  | ret a => rfl
  | lock l next ih => exact congrArg (lock l) ih
  | lockIrq l next ih => exact congrArg (lockIrq l) ih
  | disableIrq next ih => exact congrArg disableIrq ih
  | release next ih => exact congrArg release ih
  | get next ih => exact congrArg get (funext ih)
  | set d next ih => exact congrArg (set d) ih
  | load v next ih => exact congrArg (load v) (funext ih)
  | store v b next ih => exact congrArg (store v b) ih
  | switch t next ih => exact congrArg (switch t) ih
  | fail e => rfl

end Bind

def acquires? : Code L D α → Option L
  | lock l _ => some l
  | lockIrq l _ => some l
  | _ => none

section Within

variable {S : L → Prop}
  {c : Code L D α}

/-- All locks that the program may take are of a given kind. -/
def Within (S : L → Prop) : Code L D α → Prop
  | ret _ => True
  | lock l next => S l ∧ next.Within S
  | lockIrq l next => S l ∧ next.Within S
  | disableIrq next => next.Within S
  | release next => next.Within S
  | get next => ∀ d, (next d).Within S
  | set _ next => next.Within S
  | load _ next => ∀ b, (next b).Within S
  | store _ _ next => next.Within S
  | switch _ next => next.Within S
  | fail _ => True

theorem Within.bind {f : α → Code L D β} (hc : c.Within S) (hf : ∀ a, (f a).Within S) :
    (c.bind f).Within S := by
  induction c with
  | ret a => exact hf a
  | lock l next ih => exact ⟨hc.1, ih hc.2⟩
  | lockIrq l next ih => exact ⟨hc.1, ih hc.2⟩
  | disableIrq next ih => exact ih hc
  | release next ih => exact ih hc
  | get next ih => exact fun d => ih d (hc d)
  | set d next ih => exact ih hc
  | load v next ih => exact fun b => ih b (hc b)
  | store v b next ih => exact ih hc
  | switch t next ih => exact ih hc
  | fail e => trivial

theorem within_lift (c : Checked α) : (lift c : Code L D α).Within S := by
  cases c <;> trivial

theorem Within.of_acquires (hc : c.Within S) {l : L} (hl : c.acquires? = some l) : S l := by
  cases c with
  | lock l' next =>
    cases hl
    exact hc.1
  | lockIrq l' next =>
    cases hl
    exact hc.1
  | _ => cases hl

end Within

section Obeys

variable {c : Code L D α} {gs : List (Guard L)} {d : D} {u : U}

/-- What a program must keep to: the locks that it gives back before it hands over the
processor, and the guards with which an access to user memory may fail. -/
structure Discipline (L D U : Type) where
  pinned : L → Prop
  mem : Memory U
  mayFault : List (Guard L) → D → Prop

variable (rules : Discipline L D U)

/-- The program never takes a lock that it holds already, and hands over the processor
only while it holds no pinned lock. If it returns, `Q` holds of the value, the guards
that are left and the state. Other threads may change the state while it is away. -/
def Obeys (Q : α → List (Guard L) → D → U → Prop) :
    Code L D α → List (Guard L) → D → U → Prop
  | ret a, gs, d, u => Q a gs d u
  | lock l next, gs, d, u => ¬HoldsLock gs l ∧ next.Obeys Q (.plain l :: gs) d u
  | lockIrq l next, gs, d, u => ¬HoldsLock gs l ∧ next.Obeys Q (.irq l false :: gs) d u
  | disableIrq next, gs, d, u => next.Obeys Q (.off false :: gs) d u
  | release next, gs, d, u => next.Obeys Q gs.tail d u
  | get next, gs, d, u => (next d).Obeys Q gs d u
  | set d next, gs, _, u => next.Obeys Q gs d u
  | load v next, gs, d, u =>
    (∀ b, rules.mem.load u v = .ok b → (next b).Obeys Q gs d u) ∧
      ((rules.mem.load u v).isOk = false → rules.mayFault gs d)
  | store v b next, gs, d, u =>
    (∀ u', rules.mem.store u v b = .ok u' → next.Obeys Q gs d u') ∧
      ((rules.mem.store u v b).isOk = false → rules.mayFault gs d)
  | switch _ next, gs, _, _ =>
    (∀ l, HoldsLock gs l → ¬rules.pinned l) ∧ ∀ d' u', next.Obeys Q gs d' u'
  | fail _, _, _, _ => True

variable {rules}

theorem obeys_bind {f : α → Code L D β} {Q : β → List (Guard L) → D → U → Prop} :
    (c.bind f).Obeys rules Q gs d u ↔ c.Obeys rules (fun a => (f a).Obeys rules Q) gs d u := by
  induction c generalizing gs d u with
  | ret a => rfl
  | lock l next ih => exact and_congr_right fun _ => ih
  | lockIrq l next ih => exact and_congr_right fun _ => ih
  | disableIrq next ih => exact ih
  | release next ih => exact ih
  | get next ih => exact ih d
  | set d' next ih => exact ih
  | load v next ih =>
    exact and_congr_left fun _ => forall_congr' fun b => forall_congr' fun _ => ih b
  | store v b next ih =>
    exact and_congr_left fun _ => forall_congr' fun _ => forall_congr' fun _ => ih
  | switch t next ih =>
    exact and_congr_right fun _ => forall_congr' fun _ => forall_congr' fun _ => ih
  | fail e => rfl

theorem obeys_congr {Q Q' : α → List (Guard L) → D → U → Prop}
    (h : ∀ a gs d u, Q a gs d u ↔ Q' a gs d u) :
    c.Obeys rules Q gs d u ↔ c.Obeys rules Q' gs d u := by
  have heq : Q = Q' := by
    funext a gs d u
    exact propext (h a gs d u)
  rw [heq]

end Obeys

end Code

end Zinix
