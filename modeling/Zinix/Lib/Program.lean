import Zinix.Lib.Checked

/-!
# Programs with a state that may panic

A program either returns a value and a new state or panics. `Sat` says what it does from a
given state: the first condition holds if it returns, the second one of the panic.
-/

namespace Zinix

abbrev Program (σ : Type) : Type → Type := StateT σ Checked

namespace Program

variable {σ α β γ : Type}
  {a : α} {t : σ} {e : Panic} {g : α → Program σ β} {c : Prop}

/-- The program returns with `Q` or panics with `E`. -/
def Sat (x : Program σ α) (s : σ) (Q : α → σ → Prop) (E : Panic → Prop) : Prop :=
  match x s with
  | .ok (a, t) => Q a t
  | .error e => E e

variable {x : Program σ α} {f : α → Program σ β} {s : σ} {Q R : α → σ → Prop} {E F : Panic → Prop}

theorem sat_iff :
    Sat x s Q E ↔ (∀ a t, x s = .ok (a, t) → Q a t) ∧ ∀ e, x s = .error e → E e := by
  unfold Sat
  cases hx : x s with
  | error e => simp
  | ok r =>
    obtain ⟨a, t⟩ := r
    simp

theorem Sat.of_ok (h : Sat x s Q E) (hx : x s = .ok (a, t)) : Q a t :=
  (sat_iff.mp h).1 a t hx

theorem Sat.of_error (h : Sat x s Q E) (hx : x s = .error e) : E e :=
  (sat_iff.mp h).2 e hx

theorem Sat.mono (h : Sat x s Q E) (hQ : ∀ a t, Q a t → R a t) (hE : ∀ e, E e → F e) :
    Sat x s R F := by
  rw [sat_iff] at h ⊢
  exact ⟨fun a t hx => hQ a t (h.1 a t hx), fun e hx => hE e (h.2 e hx)⟩

theorem Sat.imp (h : Sat x s Q E) (hQ : ∀ a t, Q a t → R a t) : Sat x s R E :=
  h.mono hQ (fun _ he => he)

theorem Sat.weaken (h : Sat x s Q E) (hE : ∀ e, E e → F e) : Sat x s Q F :=
  h.mono (fun _ _ hq => hq) hE

theorem Sat.and (h : Sat x s Q E) (h' : Sat x s R F) :
    Sat x s (fun a t => Q a t ∧ R a t) (fun e => E e ∧ F e) := by
  rw [sat_iff] at h h' ⊢
  exact ⟨fun a t hx => ⟨h.1 a t hx, h'.1 a t hx⟩, fun e hx => ⟨h.2 e hx, h'.2 e hx⟩⟩

theorem Sat.of_run (h : Sat x s Q E) : Sat x s (fun a t => x s = .ok (a, t) ∧ Q a t) E :=
  sat_iff.mpr ⟨fun _ _ hx => ⟨hx, h.of_ok hx⟩, fun _ hx => h.of_error hx⟩

protected theorem Sat.true (x : Program σ α) (s : σ) :
    Sat x s (fun _ _ => True) fun _ => True :=
  sat_iff.mpr ⟨fun _ _ _ => trivial, fun _ _ => trivial⟩

theorem Sat.returns (h : Sat x s Q fun _ => False) : ∃ a t, x s = .ok (a, t) ∧ Q a t := by
  cases hx : x s with
  | error e => exact (h.of_error hx).elim
  | ok r => exact ⟨r.1, r.2, rfl, h.of_ok hx⟩

theorem Sat.panics (h : Sat x s (fun _ _ => False) (· = e)) : x s = .error e := by
  cases hx : x s with
  | error e' => rw [h.of_error hx]
  | ok r => exact (h.of_ok hx).elim

theorem bind_apply (x : Program σ α) (f : α → Program σ β) (s : σ) :
    (x >>= f) s = (x s >>= fun r => f r.1 r.2) := rfl

theorem Sat.bind {Q : β → σ → Prop} (hx : Sat x s R E)
    (hf : ∀ a t, R a t → Sat (f a) t Q E) : Sat (x >>= f) s Q E := by
  unfold Sat at hx ⊢
  rw [bind_apply]
  cases hxs : x s with
  | error e =>
    rw [hxs] at hx
    exact hx
  | ok r =>
    rw [hxs] at hx
    exact hf r.1 r.2 hx

theorem sat_pure (h : Q a s) : Sat (pure a) s Q E := h

theorem sat_throw (h : E e) : Sat (throw e : Program σ α) s Q E := h

theorem Sat.get_bind {g : σ → Program σ β} {Q : β → σ → Prop} (h : Sat (g s) s Q E) :
    Sat (get >>= g) s Q E := h

theorem Sat.set_bind {g : PUnit → Program σ β} {Q : β → σ → Prop} (h : Sat (g ⟨⟩) t Q E) :
    Sat (set t >>= g) s Q E := h

theorem sat_modify {g : σ → σ} {Q : PUnit → σ → Prop} (h : Q ⟨⟩ (g s)) :
    Sat (modify g) s Q E := h

theorem Sat.modify_bind {u : σ → σ} {g : PUnit → Program σ β} {Q : β → σ → Prop}
    (h : Sat (g ⟨⟩) (u s) Q E) : Sat (modify u >>= g) s Q E := h

theorem Sat.lift_bind {c : Checked α} {Q : β → σ → Prop} (hok : ∀ a, c = .ok a → Sat (g a) s Q E)
    (herr : ∀ e, c = .error e → E e) :
    Sat (liftM c >>= g) s Q E := by
  cases c with
  | ok a => exact hok a rfl
  | error e => exact herr e rfl

theorem Sat.ok_bind {c : Checked α} {Q : β → σ → Prop} (hc : c = .ok a) (h : Sat (g a) s Q E) :
    Sat (liftM c >>= g) s Q E := by
  subst hc
  exact h

theorem lift_bind_apply (c : Checked α) (g : α → Program σ β) (s : σ) :
    ((liftM c : Program σ α) >>= g) s = c >>= fun a => g a s := by
  cases c with
  | ok a => rfl
  | error e => rfl

theorem Sat.ensure_bind [Decidable c] {g : Unit → Program σ β} {Q : β → σ → Prop}
    (hok : c → Sat (g ()) s Q E) (herr : ¬ c → E e) :
    Sat (liftM (Checked.ensure c e) >>= g) s Q E := by
  by_cases h : c
  · rw [Checked.ensure_pos h]
    exact hok h
  · rw [Checked.ensure_neg h]
    exact herr h

theorem Sat.unwrap_bind {o : Option α} {Q : β → σ → Prop} (ho : o = some a) (h : Sat (g a) s Q E) :
    Sat (liftM (Checked.unwrap o) >>= g) s Q E := by
  subst ho
  exact h

theorem Sat.ite [Decidable c] {y : Program σ α} (hx : c → Sat x s Q E) (hy : ¬ c → Sat y s Q E) :
    Sat (if c then x else y) s Q E := by
  split_ifs with h
  · exact hx h
  · exact hy h

/-- The rule for loops over a list: the invariant speaks of the part of the list
that is done. -/
theorem Sat.foldlM {g : β → γ → Program σ β} {E : Panic → Prop}
    (Inv : List γ → β → σ → Prop) {l : List γ} {b : β}
    (hstep : ∀ done a rest, l = done ++ a :: rest → ∀ b s, Inv done b s →
      Sat (g b a) s (Inv (done ++ [a])) E)
    (h : Inv [] b s) : Sat (l.foldlM g b) s (Inv l) E := by
  have hgen : ∀ rest done b s, l = done ++ rest → Inv done b s →
      Sat (rest.foldlM g b) s (Inv l) E := by
    intro rest
    induction rest with
    | nil =>
      intro done b s hl hinv
      rw [List.append_nil] at hl
      rw [List.foldlM_nil]
      exact sat_pure (hl ▸ hinv)
    | cons a rest ih =>
      intro done b s hl hinv
      rw [List.foldlM_cons]
      refine (hstep done a rest hl b s hinv).bind ?_
      intro b' s' hinv'
      exact ih (done ++ [a]) b' s' (by simpa using hl) hinv'
  exact hgen l [] b s rfl h

end Program

end Zinix
