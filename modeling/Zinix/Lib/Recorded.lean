import Zinix.Lib.Checked

/-!
# Programs with a record

A program that keeps a record of what it does leaves the record behind when it panics.
-/

namespace Zinix

/-- Computations that extend a record of type `List ω` and may panic. -/
abbrev Recorded (ω : Type) := ExceptT Panic (StateM (List ω))

namespace Recorded

variable {ω α β γ : Type}
  {f : α → Recorded ω β} {S : β → List ω → Prop}

def emit (e : ω) : Recorded ω Unit := fun log => (.ok (), log ++ [e])

def record (x : Recorded ω α) : List ω := (x []).2

/-- A run that begins with the record `log` ends with a value and a record in `Q`, or in a panic
with a record in `E`. -/
def Ends (x : Recorded ω α) (log : List ω) (Q : α → List ω → Prop) (E : List ω → Prop) : Prop :=
  match x log with
  | (.ok a, log') => Q a log'
  | (.error _, log') => E log'

variable {x : Recorded ω α} {log : List ω} {Q R : α → List ω → Prop} {E F : List ω → Prop}

theorem lift_bind_assoc (c : Checked α) (d : α → Checked β) (g : β → Recorded ω γ) :
    (liftM (c >>= d) >>= g : Recorded ω γ) = liftM c >>= fun a => liftM (d a) >>= g := by
  cases c with
  | ok a => rfl
  | error e => rfl

theorem lift_ok_bind (a : α) (g : α → Recorded ω β) :
    (liftM (.ok a : Checked α) >>= g : Recorded ω β) = g a := rfl

theorem ends_pure {a : α} (h : Q a log) : Ends (pure a : Recorded ω α) log Q E := h

theorem Ends.mono (h : Ends x log Q E) (hQ : ∀ a l, Q a l → R a l) (hE : ∀ l, E l → F l) :
    Ends x log R F := by
  unfold Ends at h ⊢
  split at h
  · exact hQ _ _ h
  · exact hE _ h

theorem Ends.weaken (h : Ends x log Q E) (hE : ∀ l, E l → F l) : Ends x log Q F :=
  h.mono (fun _ _ hq => hq) hE

theorem bind_apply (x : Recorded ω α) (f : α → Recorded ω β) (log : List ω) :
    (x >>= f) log = match x log with
      | (.ok a, l) => f a l
      | (.error e, l) => (.error e, l) := by
  change ExceptT.bindCont f (x log).1 (x log).2 = _
  rcases x log with ⟨_ | _, _⟩ <;> rfl

theorem Ends.bind (hx : Ends x log R E) (hf : ∀ a l, R a l → Ends (f a) l S E) :
    Ends (x >>= f) log S E := by
  unfold Ends at hx ⊢
  rw [bind_apply]
  split at hx
  · exact hf _ _ hx
  · exact hx

theorem Ends.lift_bind {c : Checked α} (hok : ∀ a, c = .ok a → Ends (f a) log S E)
    (herr : ∀ e, c = .error e → E log) :
    Ends (liftM c >>= f) log S E := by
  cases c with
  | ok a => exact hok a rfl
  | error e => exact herr e rfl

theorem Ends.record (h : Ends x [] Q E) : (∃ a, Q a (record x)) ∨ E (record x) := by
  unfold Ends at h
  unfold Recorded.record
  split at h
  · next a l heq =>
    rw [heq]
    exact .inl ⟨a, h⟩
  · next e l heq =>
    rw [heq]
    exact .inr h

end Recorded

end Zinix
