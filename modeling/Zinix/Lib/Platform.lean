import Zinix.Lib.Code

/-!
# Runs of a program on a platform

A platform says how a touch of user memory ends, and what other threads do. The rule at the
end compares two runs of one program of which one has more of the user memory.
-/

namespace Zinix

inductive Touch where
  | load (vaddr : ℕ)
  | store (vaddr : ℕ)
  deriving DecidableEq

/-- Why a run does not return: a panic of the program, or one that handling an exception
at an address ends in. -/
inductive Stop where
  | panic (e : Panic)
  | fault (vaddr : ℕ) (e : Panic)
  deriving DecidableEq

structure Platform (L D U : Type) where
  busy : D → L → Bool
  others : ℕ → D → D
  load : List (Guard L) → D → U → ℕ → Checked (BitVec 8 × D × U)
  store : List (Guard L) → D → U → ℕ → BitVec 8 → Checked (D × U)

/-- What a run touches, up to the touch in which it stops, and what it returns. -/
structure Run (L D U α : Type) where
  touched : List Touch
  result : Except Stop (α × List (Guard L) × D × U)

namespace Run

variable {L D U α : Type}

def after (t : Touch) (r : Run L D U α) : Run L D U α := { r with touched := t :: r.touched }

def Faults (r : Run L D U α) : Prop := ∃ v e, r.result = .error (.fault v e)

end Run

namespace Code

variable {L D U α : Type} [DecidableEq L]

def exec (M : Platform L D U) : Code L D α → List (Guard L) → D → U → Run L D U α
  | ret a, gs, d, u => ⟨[], .ok (a, gs, d, u)⟩
  | lock l next, gs, d, u =>
    if HoldsLock gs l ∨ M.busy d l then ⟨[], .error (.panic (.explicit "Dead Lock!"))⟩
    else next.exec M (.plain l :: gs) d u
  | lockIrq l next, gs, d, u =>
    if HoldsLock gs l ∨ M.busy d l then ⟨[], .error (.panic (.explicit "Dead Lock!"))⟩
    else next.exec M (.irq l false :: gs) d u
  | disableIrq next, gs, d, u => next.exec M (.off false :: gs) d u
  | release next, gs, d, u => next.exec M gs.tail d u
  | get next, gs, d, u => (next d).exec M gs d u
  | set d next, gs, _, u => next.exec M gs d u
  | load v next, gs, d, u =>
    match M.load gs d u v with
    | .error e => ⟨[.load v], .error (.fault v e)⟩
    | .ok (b, d, u) => ((next b).exec M gs d u).after (.load v)
  | store v b next, gs, d, u =>
    match M.store gs d u v b with
    | .error e => ⟨[.store v], .error (.fault v e)⟩
    | .ok (d, u) => (next.exec M gs d u).after (.store v)
  | switch t next, gs, d, u => next.exec M gs (M.others t d) u
  | fail e, _, _, _ => ⟨[], .error (.panic e)⟩

end Code

section Compare

variable {L D U α : Type}
  {r r' : Run L D U α} {u u' : U}

/-- The runs touch the same addresses and end in the same way, with related memories. -/
structure SameRun (R : U → U → Prop) (r r' : Run L D U α) : Prop where
  touched : r.touched = r'.touched
  result : match r.result, r'.result with
    | .ok (a, gs, d, u), .ok (a', gs', d', u') => a = a' ∧ gs = gs' ∧ d = d' ∧ R u u'
    | .error s, .error s' => s = s'
    | _, _ => False

/-- Of two related memories the first one answers a touch like the second if it has the
address. A memory that does not have it ends the touch in a panic. -/
structure Twins (M : Platform L D U) (R : U → U → Prop) (Has : U → Touch → Prop) : Prop where
  load : ∀ {u u'} gs d v, R u u' → Has u (.load v) →
    ∃ b, M.load gs d u v = .ok (b, d, u) ∧ M.load gs d u' v = .ok (b, d, u')
  store : ∀ {u u'} gs d v b, R u u' → Has u (.store v) →
    ∃ u₁ u₁', M.store gs d u v b = .ok (d, u₁) ∧ M.store gs d u' v b = .ok (d, u₁') ∧
      R u₁ u₁' ∧ ∀ t, Has u₁ t ↔ Has u t
  not_load : ∀ {u u'} gs d v, R u u' → ¬Has u (.load v) → ∃ e, M.load gs d u v = .error e
  not_store : ∀ {u u'} gs d v b, R u u' → ¬Has u (.store v) → ∃ e, M.store gs d u v b = .error e

variable {M : Platform L D U} {R : U → U → Prop} {Has : U → Touch → Prop}

theorem SameRun.after (h : SameRun R r r') (t : Touch) :
    SameRun R (r.after t) (r'.after t) := ⟨congrArg (t :: ·) h.touched, h.result⟩

/-- What the first of two memories makes of a run: it has all that the run touches, and the
runs are the same, or it lacks something that both runs touch, and the first one ends there. -/
def Follows (R : U → U → Prop) (Has : U → Touch → Prop) (u : U) (r r' : Run L D U α) : Prop :=
  (∀ t ∈ r.touched, Has u t) ∧ SameRun R r r' ∧ ¬r.Faults ∨
    (∃ t ∈ r'.touched, ¬Has u t) ∧ r.Faults

theorem Follows.after {u₁ : U} (h : Follows R Has u₁ r r') {t : Touch} (ht : Has u t)
    (hkeep : ∀ t, Has u₁ t ↔ Has u t) :
    Follows R Has u (r.after t) (r'.after t) := by
  rcases h with ⟨hall, hsame, hfine⟩ | ⟨⟨s, hs, hmiss⟩, hfault⟩
  · refine .inl ⟨?_, hsame.after t, hfine⟩
    intro s hs
    rcases List.mem_cons.mp hs with rfl | hs
    · exact ht
    · exact (hkeep s).mp (hall s hs)
  · exact .inr ⟨⟨s, List.mem_cons_of_mem _ hs, fun hhas => hmiss ((hkeep s).mpr hhas)⟩, hfault⟩

theorem follows_error (R : U → U → Prop) (Has : U → Touch → Prop) (u : U) (e : Panic) :
    Follows R Has u (⟨[], .error (.panic e)⟩ : Run L D U α) ⟨[], .error (.panic e)⟩ := by
  refine .inl ⟨by simp, ⟨rfl, rfl⟩, ?_⟩
  rintro ⟨v, e', hfault⟩
  cases hfault

variable [DecidableEq L]

theorem mem_touched_load (M : Platform L D U) (v : ℕ) (next : BitVec 8 → Code L D α)
    (gs : List (Guard L)) (d : D) (u : U) :
    .load v ∈ ((Code.load v next).exec M gs d u).touched := by
  unfold Code.exec
  cases M.load gs d u v with
  | error e => exact List.mem_cons_self
  | ok x => exact List.mem_cons_self

theorem mem_touched_store (M : Platform L D U) (v : ℕ) (b : BitVec 8) (next : Code L D α)
    (gs : List (Guard L)) (d : D) (u : U) :
    .store v ∈ ((Code.store v b next).exec M gs d u).touched := by
  unfold Code.exec
  cases M.store gs d u v b with
  | error e => exact List.mem_cons_self
  | ok x => exact List.mem_cons_self

/-- The two runs of a program go together until the first memory lacks an address. -/
theorem Twins.follows (hM : Twins M R Has) (c : Code L D α) (gs : List (Guard L)) (d : D)
    (hu : R u u') : Follows R Has u (c.exec M gs d u) (c.exec M gs d u') := by
  induction c generalizing gs d u u' with
  | ret a =>
    refine .inl ⟨by simp [Code.exec], ⟨rfl, rfl, rfl, rfl, hu⟩, ?_⟩
    rintro ⟨v, e, hfault⟩
    cases hfault
  | lock l next ih =>
    unfold Code.exec
    by_cases hlock : HoldsLock gs l ∨ M.busy d l
    · rw [if_pos hlock, if_pos hlock]
      exact follows_error R Has u _
    · rw [if_neg hlock, if_neg hlock]
      exact ih _ _ hu
  | lockIrq l next ih =>
    unfold Code.exec
    by_cases hlock : HoldsLock gs l ∨ M.busy d l
    · rw [if_pos hlock, if_pos hlock]
      exact follows_error R Has u _
    · rw [if_neg hlock, if_neg hlock]
      exact ih _ _ hu
  | disableIrq next ih => exact ih _ _ hu
  | release next ih => exact ih _ _ hu
  | get next ih => exact ih d _ _ hu
  | set d' next ih => exact ih _ _ hu
  | load v next ih =>
    by_cases hhas : Has u (.load v)
    · obtain ⟨b, hload, hload'⟩ := hM.load gs d v hu hhas
      unfold Code.exec
      rw [hload, hload']
      exact (ih b _ _ hu).after hhas fun _ => Iff.rfl
    · obtain ⟨e, he⟩ := hM.not_load gs d v hu hhas
      refine .inr ⟨⟨.load v, mem_touched_load M v next gs d u', hhas⟩, v, e, ?_⟩
      rw [Code.exec, he]
  | store v b next ih =>
    by_cases hhas : Has u (.store v)
    · obtain ⟨u₁, u₁', hstore, hstore', hu₁, hkeep⟩ := hM.store gs d v b hu hhas
      unfold Code.exec
      rw [hstore, hstore']
      exact (ih _ _ hu₁).after hhas hkeep
    · obtain ⟨e, he⟩ := hM.not_store gs d v b hu hhas
      refine .inr ⟨⟨.store v, mem_touched_store M v b next gs d u', hhas⟩, v, e, ?_⟩
      rw [Code.exec, he]
  | switch t next ih => exact ih _ _ hu
  | fail e => exact follows_error R Has u e

/-- The first memory makes no difference exactly when it has all that the program touches in
the second one. -/
theorem Twins.same_iff (hM : Twins M R Has) (c : Code L D α) (gs : List (Guard L)) (d : D)
    (hu : R u u') :
    SameRun R (c.exec M gs d u) (c.exec M gs d u') ∧ ¬(c.exec M gs d u).Faults ↔
      ∀ t ∈ (c.exec M gs d u').touched, Has u t := by
  rcases hM.follows c gs d hu with ⟨hall, hsame, hfine⟩ | ⟨⟨t, ht, hmiss⟩, hfault⟩
  · rw [← hsame.touched]
    exact ⟨fun _ => hall, fun _ => ⟨hsame, hfine⟩⟩
  · exact ⟨fun h => absurd hfault h.2, fun hall => absurd (hall t ht) hmiss⟩

end Compare

end Zinix
