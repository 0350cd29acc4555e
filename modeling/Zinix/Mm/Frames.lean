import Zinix.Lib.Supply
import Zinix.Mm.TableTree

/-!
# How many frames are taken

The allocator is asked for one frame after the other. An operation that frees nothing panics
for want of memory exactly if the allocator cannot hand out as many frames in a row.
-/

namespace Zinix

open Program

namespace Phys

variable {m n : ℕ} {p p' p'' : Phys} {e : Panic} {α : Type} {x : Program Phys α}
  {Q : α → Phys → Prop}

def allocated (p : Phys) (f : Frame) : Phys :=
  { (p.setPage f (fun _ => 0)) with live := insert f p.live }

/-- The live frames after `n` more have been handed out. -/
def liveAfter (p : Phys) (n : ℕ) : Option (Finset Frame) := takeMany p.allocator.pick n p.live

/-- The allocator can hand out `n` frames in a row. -/
def Supplies (p : Phys) (n : ℕ) : Prop := (p.liveAfter n).isSome = true

instance : Decidable (p.Supplies n) := inferInstanceAs (Decidable (_ = true))

/-- The allocator has handed out `n` frames, and none was freed. -/
structure Spent (n : ℕ) (p p' : Phys) : Prop where
  allocator : p'.allocator = p.allocator
  live : p.liveAfter n = some p'.live

/-- There was no memory left, as the allocator cannot hand out `n` frames. -/
def Short (n : ℕ) (p : Phys) (e : Panic) : Prop := e = .outOfMemory ∧ ¬p.Supplies n

theorem Spent.refl (p : Phys) : Spent 0 p p := ⟨rfl, rfl⟩

theorem Spent.congr (h : Spent n p p') (hallocator : p''.allocator = p'.allocator)
    (hlive : p''.live = p'.live) : Spent n p p'' :=
  ⟨hallocator.trans h.allocator, by rw [h.live, hlive]⟩

theorem Spent.supplies (h : Spent n p p') : p.Supplies n := by
  rw [Supplies, h.live]
  rfl

theorem Spent.liveAfter_add (h : Spent m p p') (n : ℕ) :
    p.liveAfter (m + n) = p'.liveAfter n := by
  have hm : takeMany p.allocator.pick m p.live = some p'.live := h.live
  rw [liveAfter, liveAfter, takeMany_add, hm, h.allocator]
  rfl

theorem Spent.trans (h : Spent m p p') (h' : Spent n p' p'') : Spent (m + n) p p'' :=
  ⟨h'.allocator.trans h.allocator, by rw [h.liveAfter_add, h'.live]⟩

theorem Spent.subset (h : Spent n p p') : p.live ⊆ p'.live := subset_takeMany h.live

theorem Short.ne_todo (he : Short n p e) : e ≠ .todo := by
  rintro rfl
  cases he.1

theorem Short.of_spent (h : Spent m p p') (he : Short n p' e) : Short (m + n) p e := by
  refine ⟨he.1, ?_⟩
  rw [Supplies, h.liveAfter_add]
  exact he.2

theorem Short.mono (hle : m ≤ n) (he : Short m p e) : Short n p e := by
  have hnone : takeMany p.allocator.pick m p.live = none := by
    simpa [Supplies, liveAfter] using he.2
  refine ⟨he.1, ?_⟩
  rw [Supplies, liveAfter, takeMany_eq_none_of_le hle hnone]
  simp

/-- With `n` frames the program returns and `Q` holds, and without them it panics. -/
def Needs {α : Type} (n : ℕ) (x : Program Phys α) (p : Phys) (Q : α → Phys → Prop) : Prop :=
  if p.Supplies n then ∃ a p', x p = .ok (a, p') ∧ Q a p' else x p = .error .outOfMemory

theorem needs_of_sat (h : Sat x p (fun a p' => Spent n p p' ∧ Q a p') (Short n p)) :
    Needs n x p Q := by
  rw [Needs]
  cases hx : x p with
  | error e =>
    obtain ⟨rfl, hshort⟩ := h.of_error hx
    rw [if_neg hshort]
  | ok r =>
    obtain ⟨hspent, hQ⟩ := h.of_ok (a := r.1) (t := r.2) hx
    rw [if_pos hspent.supplies]
    exact ⟨r.1, r.2, rfl, hQ⟩

theorem sat_of_short_zero (h : Sat x p Q (Short n p)) (hn : n = 0) {E : Panic → Prop} :
    Sat x p Q E := by
  subst hn
  exact h.weaken fun _ he => absurd rfl he.2

theorem allocOrPanic_sat (p : Phys) :
    Sat allocOrPanic p (fun f p' => Spent 1 p p' ∧ f ∉ p.live ∧ p' = p.allocated f)
      (Short 1 p) := by
  unfold allocOrPanic allocOnePage
  rw [bind_assoc]
  apply Sat.get_bind
  cases hpick : p.allocator.pick p.live with
  | none =>
    refine sat_throw ⟨rfl, ?_⟩
    simp [Supplies, liveAfter, takeMany, hpick]
  | some f =>
    simp only [bind_assoc, pure_bind]
    refine Sat.set_bind (sat_pure ⟨⟨rfl, ?_⟩, p.allocator.fresh _ f hpick, rfl⟩)
    rw [liveAfter, takeMany, hpick]
    rfl

end Phys

end Zinix
