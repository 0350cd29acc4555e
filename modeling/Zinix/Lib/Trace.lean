import Mathlib.Tactic

/-!
# Runs of a labelled transition system

A run from a state is a list of labels, each with the state it leads to. The rules lift a
fact about one step to a whole run.
-/

namespace Zinix.Trace

variable {σ ι : Type} {Step : σ → ι → σ → Prop}
  {s : σ} {κ : Type} {r : List (ι × σ)}

/-- The list records consecutive steps from `s`. -/
def IsRun (Step : σ → ι → σ → Prop) : σ → List (ι × σ) → Prop
  | _, [] => True
  | s, (a, t) :: r => Step s a t ∧ IsRun Step t r

/-- The states a run passes through, the first one included. -/
def states (s : σ) (r : List (ι × σ)) : List σ := s :: r.map Prod.snd

/-- The labels of a run, each with the state in which it is taken. -/
def steps : σ → List (ι × σ) → List (σ × ι)
  | _, [] => []
  | s, (a, t) :: r => (s, a) :: steps t r

def final : σ → List (ι × σ) → σ
  | s, [] => s
  | _, (_, t) :: r => final t r

/-- The run that takes the given labels one after the other. -/
def record (next : σ → ι → σ) : σ → List ι → List (ι × σ)
  | _, [] => []
  | s, a :: as => (a, next s a) :: record next (next s a) as

@[simp] theorem states_cons (s t : σ) (a : ι) (r : List (ι × σ)) :
    states s ((a, t) :: r) = s :: states t r := rfl

theorem isRun_append {r₁ r₂ : List (ι × σ)} :
    IsRun Step s (r₁ ++ r₂) ↔ IsRun Step s r₁ ∧ IsRun Step (final s r₁) r₂ := by
  induction r₁ generalizing s with
  | nil => simp [IsRun, final]
  | cons x r₁ ih => simp only [List.cons_append, IsRun, final, ih, and_assoc]

theorem final_append (s : σ) (r₁ r₂ : List (ι × σ)) :
    final s (r₁ ++ r₂) = final (final s r₁) r₂ := by
  induction r₁ generalizing s with
  | nil => rfl
  | cons x r₁ ih => exact ih x.2

/-- A run of one system is a run of another that has its steps under other labels. -/
theorem IsRun.map {T : σ → κ → σ → Prop} {g : ι → κ} (hstep : ∀ s a t, Step s a t → T s (g a) t)
    (h : IsRun Step s r) : IsRun T s (r.map (Prod.map g id)) := by
  induction r generalizing s with
  | nil => trivial
  | cons x r ih => exact ⟨hstep s x.1 x.2 h.1, ih h.2⟩

@[simp] theorem states_map (g : ι → κ) (s : σ) (r : List (ι × σ)) :
    states s (r.map (Prod.map g id)) = states s r := by
  simp [states]

theorem isRun_record {next : σ → ι → σ} {as : List ι}
    (h : ∀ x ∈ steps s (record next s as), Step x.1 x.2 (next x.1 x.2)) :
    IsRun Step s (record next s as) := by
  induction as generalizing s with
  | nil => trivial
  | cons a as ih =>
    exact ⟨h (s, a) (List.mem_cons_self ..), ih (fun x hx => h x (List.mem_cons_of_mem _ hx))⟩

/-- What holds at the start and survives every step that meets the condition
holds in all states of a run whose steps all meet it. -/
theorem invariant_of_steps (Inv : σ → Prop) (C : σ → ι → Prop)
    (hstep : ∀ s a t, Inv s → C s a → Step s a t → Inv t) (hs : Inv s) (hrun : IsRun Step s r)
    (hC : ∀ x ∈ steps s r, C x.1 x.2) :
    ∀ t ∈ states s r, Inv t := by
  induction r generalizing s with
  | nil =>
    intro t ht
    rwa [List.mem_singleton.mp ht]
  | cons x r ih =>
    obtain ⟨a, u⟩ := x
    have hu : Inv u := hstep s a u hs (hC (s, a) (List.mem_cons_self ..)) hrun.1
    intro t ht
    rw [states_cons] at ht
    rcases List.mem_cons.mp ht with rfl | ht
    · exact hs
    · exact ih hu hrun.2 (fun y hy => hC y (List.mem_cons_of_mem _ hy)) t ht

theorem invariant (Inv : σ → Prop) (hstep : ∀ s a t, Inv s → Step s a t → Inv t) (hs : Inv s)
    (hrun : IsRun Step s r) : ∀ t ∈ states s r, Inv t :=
  invariant_of_steps Inv (fun _ _ => True) (fun s a t h _ => hstep s a t h) hs hrun
    (fun _ _ => trivial)

/-- If the invariant survives the steps that meet the condition, and a step from it
leads to a good state exactly when it meets the condition, then the states of a
run are all good exactly when its steps all meet the condition. -/
theorem all_states_iff_all_steps (Inv P : σ → Prop) (C : σ → ι → Prop)
    (hinv : ∀ s a t, Inv s → C s a → Step s a t → Inv t)
    (hiff : ∀ s a t, Inv s → Step s a t → (P t ↔ C s a)) (hs : Inv s) (hP : P s)
    (hrun : IsRun Step s r) :
    (∀ t ∈ states s r, P t) ↔ ∀ x ∈ steps s r, C x.1 x.2 := by
  induction r generalizing s with
  | nil => simp [states, steps, hP]
  | cons x r ih =>
    obtain ⟨a, u⟩ := x
    have hstep := hiff s a u hs hrun.1
    rw [states_cons, steps]
    constructor
    · intro hall
      have hu : P u := hall u (List.mem_cons_of_mem _ (List.mem_cons_self ..))
      have hrest := (ih (hinv s a u hs (hstep.mp hu) hrun.1) hu hrun.2).mp
        (fun t ht => hall t (List.mem_cons_of_mem _ ht))
      intro y hy
      rcases List.mem_cons.mp hy with rfl | hy
      · exact hstep.mp hu
      · exact hrest y hy
    · intro hall
      have ha : C s a := hall (s, a) (List.mem_cons_self ..)
      have hrest := (ih (hinv s a u hs ha hrun.1) (hstep.mpr ha) hrun.2).mpr
        (fun y hy => hall y (List.mem_cons_of_mem _ hy))
      intro t ht
      rcases List.mem_cons.mp ht with rfl | ht
      · exact hP
      · exact hrest t ht

theorem final_mem_states (s : σ) (r : List (ι × σ)) : final s r ∈ states s r := by
  induction r generalizing s with
  | nil => exact List.mem_singleton_self s
  | cons x r ih => exact List.mem_cons_of_mem _ (ih x.2)

theorem step_of_mem_steps (hrun : IsRun Step s r) {x : σ × ι} (hx : x ∈ steps s r) :
    x.1 ∈ states s r ∧ ∃ t ∈ states s r, Step x.1 x.2 t := by
  induction r generalizing s with
  | nil => cases hx
  | cons y r ih =>
    obtain ⟨a, t⟩ := y
    rcases List.mem_cons.mp hx with rfl | hx
    · exact ⟨List.mem_cons_self .., t, List.mem_cons_of_mem _ (List.mem_cons_self ..), hrun.1⟩
    · obtain ⟨hstate, u, hu, hstep⟩ := ih hrun.2 hx
      exact ⟨List.mem_cons_of_mem _ hstate, u, List.mem_cons_of_mem _ hu, hstep⟩

end Zinix.Trace
