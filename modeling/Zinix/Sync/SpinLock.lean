import Zinix.Lib.OrdMap
import Zinix.Lib.Trace

/-!
# The spin lock

Its users take their steps in any order. A user is one call of `lock` with its guard: a task
that locks again while it has a guard is another user.
-/

namespace Zinix

namespace SpinLock

variable {ι α : Type}

/-- Where a user is. Within the guard it may have a copy of the data, which it has read or
written. -/
inductive Place (α : Type) where
  | outside
  | swapping
  | spinning (tryCount : ℕ)
  | inside (copy : Option α)
  | panicked

structure State (ι α : Type) where
  inner : Bool
  data : α
  place : ι → Place α
  /-- The writes so far. -/
  writes : List (α → α)

/-- `SpinLock::new`, before any use. -/
def new (data : α) : State ι α := ⟨false, data, fun _ => .outside, []⟩

/-- The loads after which `try_lock` panics with "Dead Lock!". -/
def maxTries : ℕ := 0x100000

def Inside (s : State ι α) (i : ι) : Prop := ∃ copy, s.place i = .inside copy

/-- At most one user is within its guard, as the flag says. What it has read stays what is
there, and no write is lost: the data is what the writes make of it one after the other. -/
structure Exclusive (data : α) (s : State ι α) : Prop where
  flag : s.inner = true ↔ ∃ i, Inside s i
  unique : ∀ i j, Inside s i → Inside s j → i = j
  copy : ∀ i v, s.place i = .inside (some v) → s.data = v
  writes : s.data = s.writes.foldl (fun d f => f d) data

theorem exclusive_new (data : α) : Exclusive data (new data : State ι α) := by
  constructor <;> simp [new, Inside]

variable [DecidableEq ι]

def State.move (s : State ι α) (i : ι) (p : Place α) : State ι α :=
  { s with place := replaceAt s.place i p }

/-- The steps of a user: the call of `lock`, the compare-and-swap, the load in the loop, a
read and a write through the guard, and its drop. -/
inductive Step : State ι α → ι → State ι α → Prop where
  | lock {s i} (h : s.place i = .outside) : Step s i (s.move i .swapping)
  | swapFails {s i} (h : s.place i = .swapping) (hinner : s.inner = true) :
      Step s i (s.move i (.spinning 0))
  | swap {s i} (h : s.place i = .swapping) (hinner : s.inner = false) :
      Step s i ({ s with inner := true }.move i (.inside none))
  | spin {s i tryCount} (h : s.place i = .spinning tryCount) (hinner : s.inner = true)
      (htry : tryCount + 1 ≠ maxTries) : Step s i (s.move i (.spinning (tryCount + 1)))
  | deadLock {s i tryCount} (h : s.place i = .spinning tryCount) (hinner : s.inner = true)
      (htry : tryCount + 1 = maxTries) : Step s i (s.move i .panicked)
  | retry {s i tryCount} (h : s.place i = .spinning tryCount) (hinner : s.inner = false) :
      Step s i (s.move i .swapping)
  | deref {s i copy} (h : s.place i = .inside copy) :
      Step s i (s.move i (.inside (some s.data)))
  | derefMut {s i v} (f : α → α) (h : s.place i = .inside (some v)) :
      Step s i ({ s with data := f v, writes := s.writes ++ [f] }.move i (.inside (some (f v))))
  | drop {s i copy} (h : s.place i = .inside copy) :
      Step s i ({ s with inner := false }.move i .outside)

variable {data : α} {s t : State ι α} {i : ι} {p : Place α}

theorem inside_move_self : Inside (s.move i p) i ↔ ∃ copy, p = .inside copy := by
  simp only [Inside, State.move, replaceAt_self]

theorem inside_move_of_ne {j : ι} (h : j ≠ i) : Inside (s.move i p) j ↔ Inside s j := by
  simp only [Inside, State.move, replaceAt_of_ne h]

theorem Exclusive.move (h : Exclusive data s) (hout : ¬Inside s i) (hp : ∀ copy, p ≠ .inside copy) :
    Exclusive data (s.move i p) := by
  have hinside : ∀ j, Inside (s.move i p) j ↔ Inside s j := by
    intro j
    by_cases hj : j = i
    · subst hj
      exact iff_of_false (fun hin => (inside_move_self.mp hin).elim hp) hout
    · exact inside_move_of_ne hj
  constructor
  case flag => exact h.flag.trans (exists_congr fun j => (hinside j).symm)
  case unique => exact fun j l hj hl => h.unique j l ((hinside j).mp hj) ((hinside l).mp hl)
  case copy =>
    intro j v hj
    have hne : j ≠ i := by
      rintro rfl
      exact hout ((hinside j).mp ⟨_, hj⟩)
    exact h.copy j v ((replaceAt_of_ne hne).symm.trans hj)
  case writes => exact h.writes

/-- A user with no other within, while the flag says whether it is within itself. -/
theorem exclusive_alone (halone : ∀ j ≠ i, ¬Inside s j)
    (hflag : s.inner = true ↔ ∃ copy, p = .inside copy)
    (hcopy : ∀ v, p = .inside (some v) → s.data = v)
    (hwrites : s.data = s.writes.foldl (fun d f => f d) data) : Exclusive data (s.move i p) := by
  have honly : ∀ j, Inside (s.move i p) j → j = i := by
    intro j hj
    by_contra hne
    exact halone j hne ((inside_move_of_ne hne).mp hj)
  constructor
  case flag =>
    refine hflag.trans ⟨fun hp => ⟨i, inside_move_self.mpr hp⟩, fun ⟨j, hj⟩ => ?_⟩
    exact inside_move_self.mp (honly j hj ▸ hj)
  case unique => exact fun j l hj hl => (honly j hj).trans (honly l hl).symm
  case copy =>
    intro j v hj
    obtain rfl := honly j ⟨_, hj⟩
    exact hcopy v (replaceAt_self.symm.trans hj)
  case writes => exact hwrites

theorem Exclusive.step (h : Exclusive data s) (hstep : Step s i t) : Exclusive data t := by
  have hout : ∀ {p : Place α}, s.place i = p → (∀ copy, p ≠ .inside copy) → ¬Inside s i := by
    rintro p rfl hne ⟨copy, hcopy⟩
    exact hne copy hcopy
  have halone : ∀ {copy}, s.place i = .inside copy → ∀ j ≠ i, ¬Inside s j :=
    fun hi j hj hin => hj (h.unique j i hin ⟨_, hi⟩)
  cases hstep with
  | lock hp | swapFails hp _ | spin hp _ _ | deadLock hp _ _ | retry hp _ =>
    exact h.move (hout hp (by simp)) (by simp)
  | swap hp hinner =>
    apply exclusive_alone
    case halone =>
      intro j _ hj
      exact Bool.false_ne_true (hinner.symm.trans (h.flag.mpr ⟨j, hj⟩))
    case hflag => simp
    case hcopy => simp
    case hwrites => exact h.writes
  | deref hp =>
    apply exclusive_alone
    case halone => exact halone hp
    case hflag => simpa using h.flag.mpr ⟨i, _, hp⟩
    case hcopy => simp
    case hwrites => exact h.writes
  | derefMut f hp =>
    apply exclusive_alone
    case halone => exact halone hp
    case hflag => simpa using h.flag.mpr ⟨i, _, hp⟩
    case hcopy => simp
    case hwrites => simp [← h.writes, h.copy i _ hp]
  | drop hp =>
    apply exclusive_alone
    case halone => exact halone hp
    case hflag => simp
    case hcopy => simp
    case hwrites => exact h.writes

/-- Whatever the order in which any number of users take their steps. -/
theorem exclusive_of_run {ι α : Type} [DecidableEq ι] (data : α) (r : List (ι × State ι α))
    (hrun : Trace.IsRun Step (new data) r) : ∀ s ∈ Trace.states (new data) r, Exclusive data s :=
  Trace.invariant (Exclusive data) (fun _ _ _ h hstep => h.step hstep) (exclusive_new data) hrun

/-- Two users add to a number. The second tries while the first has read it, and adds after
the first has written. -/
theorem exclusive_of_run_two : ∃ r : List (Bool × State Bool ℕ),
    Trace.IsRun Step (new 0) r ∧ r.length = 12 ∧ (Trace.final (new 0) r).data = 3 ∧
      ∀ s ∈ Trace.states (new 0) r, Exclusive 0 s := by
  have hrun : Trace.IsRun Step (new 0 : State Bool ℕ) [(true, _), (true, _), (true, _), (false, _),
      (false, _), (false, _), (true, _), (true, _), (false, _), (false, _), (false, _),
      (false, _)] :=
    ⟨.lock rfl, .swap rfl rfl, .deref rfl, .lock rfl, .swapFails rfl rfl,
      .spin rfl rfl (by decide), .derefMut (· + 1) rfl, .drop rfl, .retry rfl rfl, .swap rfl rfl,
      .deref rfl, .derefMut (· + 2) rfl, trivial⟩
  exact ⟨_, hrun, rfl, rfl, exclusive_of_run 0 _ hrun⟩

end SpinLock

end Zinix
