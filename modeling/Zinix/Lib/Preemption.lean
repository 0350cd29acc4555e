import Zinix.Lib.Code
import Zinix.Lib.OrdMap
import Zinix.Lib.Trace

/-!
# Threads and interrupts on one processor

A thread is a stack of frames: the code it runs, below the handlers that have interrupted
it. A handler never finds one of its locks taken by the code below it exactly when no code
takes such a lock, without switching interrupts off, while they are on.
-/

namespace Zinix

/-- The code that is left to run, and the guards it holds. -/
structure CallFrame (L D : Type) where
  code : Code L D Unit
  guards : List (Guard L)

structure Thread (L D : Type) where
  frames : List (CallFrame L D)
  sie : Bool

def Thread.idle {L D : Type} : Thread L D := ⟨[⟨.ret (), []⟩], true⟩

structure Machine (L D U : Type) where
  data : D
  inner : L → Bool
  user : ℕ → U
  threads : ℕ → Thread L D
  cpu : ℕ

/-- The current thread calls a function or goes on, or an interrupt arrives. -/
inductive Move (C : Type) where
  | call (c : C)
  | exec
  | interrupt

namespace Machine

variable {L D U C : Type} [DecidableEq L]

def current (m : Machine L D U) : Thread L D := m.threads m.cpu

def setCurrent (m : Machine L D U) (t : Thread L D) : Machine L D U :=
  { m with threads := replaceAt m.threads m.cpu t }

/-- `compare_and_swap` on the flag of the lock. One that is taken is waited for in vain:
its owner is on this processor. -/
def acquire (m : Machine L D U) (l : L) (t : Thread L D) : Checked (Machine L D U) := do
  Checked.ensure (m.inner l = false) (.explicit "Dead Lock!")
  return { m.setCurrent t with inner := replaceAt m.inner l true }

def dropGuard (m : Machine L D U) (next : Code L D Unit) (guards : List (Guard L))
    (rest : List (CallFrame L D)) : Checked (Machine L D U) :=
  match guards with
  | [] => throw .unwrapNone
  | .plain l :: gs => return { m.setCurrent ⟨⟨next, gs⟩ :: rest, m.current.sie⟩ with
      inner := replaceAt m.inner l false }
  | .irq l irqState :: gs => return { m.setCurrent ⟨⟨next, gs⟩ :: rest, irqState⟩ with
      inner := replaceAt m.inner l false }
  | .off irqState :: gs => return m.setCurrent ⟨⟨next, gs⟩ :: rest, irqState⟩

/-- One operation of the innermost frame. A handler that is done returns to the code it
interrupted, which had interrupts on. -/
def execFrame (mem : Memory U) (m : Machine L D U) (top : CallFrame L D)
    (rest : List (CallFrame L D)) : Checked (Machine L D U) :=
  let goOn (next : Code L D Unit) : Thread L D := ⟨⟨next, top.guards⟩ :: rest, m.current.sie⟩
  match top.code with
  | .ret _ =>
    match rest with
    | [] => return m
    | below => do
      Checked.ensure (top.guards.isEmpty) .unwrapNone
      return m.setCurrent ⟨below, true⟩
  | .lock l next => m.acquire l ⟨⟨next, .plain l :: top.guards⟩ :: rest, m.current.sie⟩
  | .lockIrq l next => m.acquire l ⟨⟨next, .irq l m.current.sie :: top.guards⟩ :: rest, false⟩
  | .disableIrq next =>
    return m.setCurrent ⟨⟨next, .off m.current.sie :: top.guards⟩ :: rest, false⟩
  | .release next => m.dropGuard next top.guards rest
  | .get next => return m.setCurrent (goOn (next m.data))
  | .set d next => return { m.setCurrent (goOn next) with data := d }
  | .load v next => do
    let b ← mem.load (m.user m.cpu) v
    return m.setCurrent (goOn (next b))
  | .store v b next => do
    let u ← mem.store (m.user m.cpu) v b
    return { m.setCurrent (goOn next) with user := replaceAt m.user m.cpu u }
  | .switch t next => return { m.setCurrent (goOn next) with cpu := t }
  | .fail e => throw e

def exec (mem : Memory U) (m : Machine L D U) : Checked (Machine L D U) :=
  match m.current.frames with
  | [] => throw .unwrapNone
  | top :: rest => m.execFrame mem top rest

/-- The functions that threads call, who may call them, and the interrupt handler. -/
structure Routines (L D C : Type) where
  body : C → Code L D Unit
  may : D → ℕ → C → Prop
  handler : Code L D Unit

def Step (mem : Memory U) (code : Routines L D C) (m : Machine L D U) :
    Move C → Machine L D U → Prop
  | .call c, m' => ∃ guards, m.current.frames = [⟨.ret (), guards⟩] ∧
      code.may m.data m.cpu c ∧ m' = m.setCurrent ⟨[⟨code.body c, guards⟩], m.current.sie⟩
  | .exec, m' => m.exec mem = .ok m'
  | .interrupt, m' => m.current.sie = true ∧
      m' = m.setCurrent ⟨⟨code.handler, []⟩ :: m.current.frames, false⟩

/-- Code that can be interrupted holds no lock of the kind `S`, and a handler does not try
to take a lock that is held by the code it interrupted. -/
structure Unharmed (S : L → Prop) (m : Machine L D U) : Prop where
  quiet : m.current.sie = true → ∀ f ∈ m.current.frames, ∀ l, HoldsLock f.guards l → ¬S l
  free : ∀ top rest, m.current.frames = top :: rest → ∀ l, top.code.acquires? = some l →
    ∀ f ∈ rest, ¬HoldsLock f.guards l

/-- The step takes no lock of the kind `S` with interrupts on and leaves them on. -/
def LocksQuietly (S : L → Prop) (m : Machine L D U) : Move C → Prop
  | .exec => ∀ top rest, m.current.frames = top :: rest → ∀ l next, top.code = .lock l next →
      S l → m.current.sie = false
  | _ => True

end Machine

section Tame

variable {L D U C : Type} {S : L → Prop}
  {gs : List (Guard L)}

/-- None of the guards is one of a lock of the kind `S`. -/
def HoldsNone (S : L → Prop) (gs : List (Guard L)) : Prop := ∀ l, HoldsLock gs l → ¬S l

def Guard.Restores : Guard L → Prop
  | plain _ => False
  | irq _ irqState => irqState = true
  | off irqState => irqState = true

/-- Below a guard whose drop switches interrupts on there is no lock of the kind `S`. -/
def Nested (S : L → Prop) : List (Guard L) → Prop
  | [] => True
  | g :: gs => (g.Restores → HoldsNone S gs) ∧ Nested S gs

theorem HoldsNone.nil : HoldsNone S [] := by
  rintro l ⟨g, hg, -⟩
  cases hg

theorem HoldsNone.of_cons {g : Guard L} (h : HoldsNone S (g :: gs)) : HoldsNone S gs := by
  rintro l ⟨g', hg', hl⟩
  exact h l ⟨g', List.mem_cons_of_mem _ hg', hl⟩

theorem HoldsNone.cons_plain (h : HoldsNone S gs) {l : L} (hl : ¬S l) :
    HoldsNone S (.plain l :: gs) := by
  rintro l' ⟨g, hg, hl'⟩
  rcases List.mem_cons.mp hg with rfl | hg
  · cases hl'
    exact hl
  · exact h l' ⟨g, hg, hl'⟩

/-- What holds of a thread as long as no lock of the kind `S` is taken with interrupts on
and left on: such locks are held only with interrupts off, interrupted code holds
none, and handlers take no others. -/
structure Thread.Tame (S : L → Prop) (t : Thread L D) : Prop where
  nonempty : t.frames ≠ []
  nested : ∀ f ∈ t.frames, Nested S f.guards
  quiet : t.sie = true → ∀ f ∈ t.frames, HoldsNone S f.guards
  below : ∀ f ∈ t.frames.tail, HoldsNone S f.guards
  handlers : ∀ f ∈ t.frames.dropLast, f.code.Within S

theorem Thread.tame_idle : (Thread.idle : Thread L D).Tame S where
  nonempty := List.cons_ne_nil _ _
  nested := by simp [idle, Nested]
  quiet := by simp [idle, HoldsNone.nil]
  below := by simp [idle]
  handlers := by simp [idle]

variable {t : Thread L D} {top top' : CallFrame L D} {rest : List (CallFrame L D)} {sie : Bool}

/-- The innermost frame may go on as long as its own guards are in order. -/
theorem Thread.Tame.goOn (h : t.Tame S) (ht : t.frames = top :: rest)
    (hnested : Nested S top'.guards) (hquiet : sie = true → HoldsNone S top'.guards)
    (hcode : top.code.Within S → top'.code.Within S) :
    Thread.Tame S (⟨top' :: rest, sie⟩ : Thread L D) := by
  have hbelow : ∀ f ∈ rest, HoldsNone S f.guards := by
    have h := h.below
    rwa [ht] at h
  refine ⟨List.cons_ne_nil _ _, ?_, ?_, hbelow, ?_⟩
  · intro f hf
    rcases List.mem_cons.mp hf with rfl | hf
    · exact hnested
    · exact h.nested f (by rw [ht]; exact List.mem_cons_of_mem _ hf)
  · intro hsie f hf
    rcases List.mem_cons.mp hf with rfl | hf
    · exact hquiet hsie
    · exact hbelow f hf
  · have hhandlers := h.handlers
    rw [ht] at hhandlers
    cases rest with
    | nil => simp
    | cons r rest =>
      simp only [List.dropLast_cons_cons, List.forall_mem_cons] at hhandlers ⊢
      exact ⟨hcode hhandlers.1, hhandlers.2⟩

theorem Thread.Tame.interrupt (h : t.Tame S) (hsie : t.sie = true) {handler : Code L D Unit}
    (hcode : handler.Within S) :
    Thread.Tame S (⟨⟨handler, []⟩ :: t.frames, false⟩ : Thread L D) where
  nonempty := List.cons_ne_nil _ _
  nested := by
    intro f hf
    rcases List.mem_cons.mp hf with rfl | hf
    · trivial
    · exact h.nested f hf
  quiet := fun hfalse => by cases hfalse
  below := h.quiet hsie
  handlers := by
    rw [List.dropLast_cons_of_ne_nil h.nonempty]
    intro f hf
    rcases List.mem_cons.mp hf with rfl | hf
    · exact hcode
    · exact h.handlers f hf

theorem Thread.Tame.resume (h : t.Tame S) (ht : t.frames = top :: rest) (hne : rest ≠ []) :
    Thread.Tame S (⟨rest, true⟩ : Thread L D) := by
  have hbelow : ∀ f ∈ rest, HoldsNone S f.guards := by
    have h := h.below
    rwa [ht] at h
  refine ⟨hne, fun f hf => h.nested f (by rw [ht]; exact List.mem_cons_of_mem _ hf),
    fun _ => hbelow, fun f hf => hbelow f (List.mem_of_mem_tail hf), fun f hf => ?_⟩
  refine h.handlers f ?_
  rw [ht]
  cases rest with
  | nil => cases hf
  | cons r rest => exact List.mem_cons_of_mem _ hf

end Tame

namespace Machine

variable {L D U C : Type} {S : L → Prop} {mem : Memory U} {code : Routines L D C}
  {m m' : Machine L D U}
  {t : Thread L D} {top : CallFrame L D} {rest : List (CallFrame L D)} {a : Move C}

def Tame (S : L → Prop) (m : Machine L D U) : Prop := ∀ t, (m.threads t).Tame S

theorem Tame.setCurrent (h : m.Tame S) (ht : t.Tame S) :
    (m.setCurrent t).Tame S := by
  intro i
  show (replaceAt m.threads m.cpu t i).Tame S
  rw [replaceAt_apply]
  split_ifs
  · exact ht
  · exact h i

theorem Tame.unharmed (h : m.Tame S) : m.Unharmed S where
  quiet := fun hsie f hf l => (h m.cpu).quiet hsie f hf l
  free := by
    intro top rest hframes l hl f hf hheld
    have hbelow := (h m.cpu).below f (by
      show f ∈ m.current.frames.tail
      rwa [hframes])
    have hcode := (h m.cpu).handlers top (by
      show top ∈ m.current.frames.dropLast
      rw [hframes, List.dropLast_cons_of_ne_nil (List.ne_nil_of_mem hf)]
      exact List.mem_cons_self ..)
    exact hbelow l hheld (hcode.of_acquires hl)

variable [DecidableEq L]

theorem Tame.acquire (h : m.Tame S) {l : L} (ht : t.Tame S) (heq : m.acquire l t = .ok m') :
    m'.Tame S := by
  rw [Machine.acquire] at heq
  obtain ⟨-, -, heq⟩ := Checked.bind_eq_ok.mp heq
  cases heq
  exact h.setCurrent ht

theorem Tame.dropGuard (h : m.Tame S) (hframes : m.current.frames = top :: rest)
    {next : Code L D Unit} (hcode : top.code.Within S → next.Within S)
    (heq : m.dropGuard next top.guards rest = .ok m') : m'.Tame S := by
  have hnested := (h m.cpu).nested top (by
    show top ∈ m.current.frames
    rw [hframes]
    exact List.mem_cons_self ..)
  have hquiet : m.current.sie = true → HoldsNone S top.guards := fun hsie =>
    (h m.cpu).quiet hsie top (by
      show top ∈ m.current.frames
      rw [hframes]
      exact List.mem_cons_self ..)
  cases hgs : top.guards with
  | nil =>
    rw [hgs] at heq
    cases heq
  | cons g gs =>
    rw [hgs] at heq hnested hquiet
    cases g with
    | plain l =>
      cases heq
      exact h.setCurrent ((h m.cpu).goOn hframes hnested.2 (fun hsie => (hquiet hsie).of_cons)
        hcode)
    | irq l irqState =>
      cases heq
      exact h.setCurrent ((h m.cpu).goOn hframes hnested.2 (fun hsie => hnested.1 hsie) hcode)
    | off irqState =>
      cases heq
      exact h.setCurrent ((h m.cpu).goOn hframes hnested.2 (fun hsie => hnested.1 hsie) hcode)

theorem Tame.execFrame (h : m.Tame S) (hframes : m.current.frames = top :: rest)
    (hquietly : ∀ l next, top.code = .lock l next → S l → m.current.sie = false)
    (heq : m.execFrame mem top rest = .ok m') : m'.Tame S := by
  have htop : top ∈ m.current.frames := by
    rw [hframes]
    exact List.mem_cons_self ..
  have hnested : Nested S top.guards := (h m.cpu).nested top htop
  have hquiet : m.current.sie = true → HoldsNone S top.guards := fun hsie => (h m.cpu).quiet hsie top htop
  have hgoOn : ∀ next : Code L D Unit, (top.code.Within S → next.Within S) →
      Thread.Tame S (⟨⟨next, top.guards⟩ :: rest, m.current.sie⟩ : Thread L D) :=
    fun next hcode => (h m.cpu).goOn hframes hnested hquiet hcode
  unfold Machine.execFrame at heq
  -- one case for each operation of the frame
  cases hcode : top.code with
  | ret a =>
    rw [hcode] at heq
    cases rest with
    | nil =>
      cases heq
      exact h
    | cons r rest =>
      obtain ⟨-, -, heq⟩ := Checked.bind_eq_ok.mp heq
      cases heq
      exact h.setCurrent ((h m.cpu).resume hframes (List.cons_ne_nil _ _))
  | lock l next =>
    rw [hcode] at heq
    have hin : Nested S (.plain l :: top.guards) := ⟨False.elim, hnested⟩
    refine h.acquire ((h m.cpu).goOn hframes hin (fun hsie => ?_) ?_) heq
    · refine (hquiet hsie).cons_plain fun hl => ?_
      have hoff := hquietly l next hcode hl
      rw [hsie] at hoff
      cases hoff
    · rw [hcode]
      exact And.right
  | lockIrq l next =>
    rw [hcode] at heq
    have hin : Nested S (.irq l m.current.sie :: top.guards) := ⟨hquiet, hnested⟩
    refine h.acquire ((h m.cpu).goOn hframes hin (fun hsie => ?_) ?_) heq
    · cases hsie
    · rw [hcode]
      exact And.right
  | disableIrq next =>
    rw [hcode] at heq
    cases heq
    refine h.setCurrent ((h m.cpu).goOn hframes ⟨hquiet, hnested⟩ (fun hsie => ?_) ?_)
    · cases hsie
    · rw [hcode]
      exact id
  | release next =>
    rw [hcode] at heq
    refine h.dropGuard hframes ?_ heq
    rw [hcode]
    exact id
  | get next =>
    rw [hcode] at heq
    cases heq
    refine h.setCurrent (hgoOn _ ?_)
    rw [hcode]
    exact fun hw => hw m.data
  | set d next =>
    rw [hcode] at heq
    cases heq
    refine h.setCurrent (hgoOn _ ?_)
    rw [hcode]
    exact id
  | load v next =>
    rw [hcode] at heq
    obtain ⟨b, -, heq⟩ := Checked.bind_eq_ok.mp heq
    cases heq
    refine h.setCurrent (hgoOn _ ?_)
    rw [hcode]
    exact fun hw => hw b
  | store v b next =>
    rw [hcode] at heq
    obtain ⟨u, -, heq⟩ := Checked.bind_eq_ok.mp heq
    cases heq
    refine h.setCurrent (hgoOn _ ?_)
    rw [hcode]
    exact id
  | switch t next =>
    rw [hcode] at heq
    cases heq
    refine h.setCurrent (hgoOn _ ?_)
    rw [hcode]
    exact id
  | fail e =>
    rw [hcode] at heq
    cases heq

theorem Tame.step (h : m.Tame S) (hcode : code.handler.Within S) (hquietly : m.LocksQuietly S a)
    (hstep : Step mem code m a m') : m'.Tame S := by
  cases a with
  | call c =>
    obtain ⟨guards, hframes, -, rfl⟩ := hstep
    have htop : (⟨.ret (), guards⟩ : CallFrame L D) ∈ m.current.frames := by
      rw [hframes]
      exact List.mem_cons_self ..
    refine h.setCurrent ⟨List.cons_ne_nil _ _, ?_, fun hsie => ?_, by simp, by simp⟩
    · simpa using (h m.cpu).nested _ htop
    · simpa using (h m.cpu).quiet hsie _ htop
  | exec =>
    have hstep : m.exec mem = .ok m' := hstep
    unfold Machine.exec at hstep
    cases hframes : m.current.frames with
    | nil =>
      rw [hframes] at hstep
      cases hstep
    | cons top rest =>
      rw [hframes] at hstep
      exact h.execFrame hframes (hquietly top rest hframes) hstep
  | interrupt =>
    obtain ⟨hsie, rfl⟩ := hstep
    exact h.setCurrent ((h m.cpu).interrupt hsie hcode)

/-- Taking a lock of the kind `S` with interrupts on leaves the machine open to harm. -/
theorem Unharmed.locksQuietly (h : m'.Unharmed S) (hstep : Step mem code m a m') :
    m.LocksQuietly S a := by
  cases a with
  | call c => trivial
  | interrupt => trivial
  | exec =>
    intro top rest hframes l next hcode hl
    by_contra hsie
    have hsie : m.current.sie = true := by simpa using hsie
    have hstep : m.exec mem = .ok m' := hstep
    rw [Machine.exec, hframes] at hstep
    simp only [Machine.execFrame, hcode, Machine.acquire] at hstep
    obtain ⟨-, -, hstep⟩ := Checked.bind_eq_ok.mp hstep
    cases hstep
    have hcurrent : current { m.setCurrent ⟨⟨next, .plain l :: top.guards⟩ :: rest, m.current.sie⟩ with
        inner := replaceAt m.inner l true } =
          ⟨⟨next, .plain l :: top.guards⟩ :: rest, m.current.sie⟩ := replaceAt_self
    have hquiet := h.quiet
    rw [hcurrent] at hquiet
    exact hquiet hsie _ (List.mem_cons_self ..) l ⟨_, List.mem_cons_self .., rfl⟩ hl

/-- The states of a run are all unharmed exactly when its steps all lock quietly. -/
theorem unharmed_iff_locksQuietly (hcode : code.handler.Within S) (hstart : m.Tame S)
    {r : List (Move C × Machine L D U)} (hrun : Trace.IsRun (Step mem code) m r) :
    (∀ m' ∈ Trace.states m r, m'.Unharmed S) ↔
      ∀ x ∈ Trace.steps m r, x.1.LocksQuietly S x.2 :=
  Trace.all_states_iff_all_steps (Tame S) (Unharmed S) (LocksQuietly S)
    (fun _ _ _ h hquietly hstep => h.step hcode hquietly hstep)
    (fun _ _ _ h hstep =>
      ⟨fun hsafe => hsafe.locksQuietly hstep,
        fun hquietly => (h.step hcode hquietly hstep).unharmed⟩)
    hstart hstart.unharmed hrun

end Machine

end Zinix
