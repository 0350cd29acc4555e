import Zinix.Mm.Addr

/-!
# Rounding to pages

`floor` and `ceil` compute a sum that is not needed, which overflows in the last page of the
address space.
-/

namespace Zinix

namespace Paddr

/-- Physical addresses are rounded by the same code as virtual ones. -/
def isAlign (a : ℕ) : Bool := Vaddr.isAlign a

def floor (a : ℕ) : Checked ℕ := Vaddr.floor a

def ceil (a : ℕ) : Checked ℕ := Vaddr.ceil a

end Paddr

def boundariesBelow (x : ℕ) : Set ℕ := {m | pageSize ∣ m ∧ m ≤ x}

def boundariesAbove (x : ℕ) : Set ℕ := {m | pageSize ∣ m ∧ x ≤ m}

structure RoundsRight (floor ceil : ℕ → Checked ℕ) (isAlign : ℕ → Bool) (x : ℕ) : Prop where
  floor_greatest : ∃ d, floor x = .ok d ∧ IsGreatest (boundariesBelow x) d
  ceil_least : ∀ u < wordSize, IsLeast (boundariesAbove x) u → ceil x = .ok u
  floor_mono : ∀ y ≤ x, ∃ c d, floor y = .ok c ∧ floor x = .ok d ∧ c ≤ d
  ceil_mono : ∀ y ≤ x, ∀ u, ceil x = .ok u → ∃ t, ceil y = .ok t ∧ t ≤ u
  floor_floor : ∀ d, floor x = .ok d → floor d = .ok d
  ceil_ceil : ∀ u, ceil x = .ok u → ceil u = .ok u
  aligned : floor x = ceil x ↔ isAlign x = true

namespace Vaddr

variable {x y : ℕ}

theorem isGreatest_down (x : ℕ) : IsGreatest (boundariesBelow x) (down x) := by
  refine ⟨⟨Nat.dvd_of_mod_eq_zero (down_mod x), down_le x⟩, ?_⟩
  rintro m ⟨⟨k, rfl⟩, hle⟩
  simp only [down, pageSize] at hle ⊢
  omega

theorem isLeast_up (x : ℕ) : IsLeast (boundariesAbove x) (up x) := by
  refine ⟨⟨Nat.dvd_of_mod_eq_zero (up_mod x), le_up x⟩, ?_⟩
  rintro m ⟨⟨k, rfl⟩, hle⟩
  simp only [up, pageSize] at hle ⊢
  omega

theorem down_mono (h : y ≤ x) : down y ≤ down x :=
  (isGreatest_down x).2 ⟨(isGreatest_down y).1.1, (down_le y).trans h⟩

theorem up_mono (h : y ≤ x) : up y ≤ up x :=
  (isLeast_up y).2 ⟨(isLeast_up x).1.1, h.trans (le_up x)⟩

theorem down_of_dvd (h : pageSize ∣ x) : down x = x := Nat.div_mul_cancel h

theorem up_of_dvd (h : pageSize ∣ x) : up x = x :=
  (isLeast_up x).unique ⟨⟨h, le_rfl⟩, fun _ hm => hm.2⟩

theorem down_eq_up_iff : down x = up x ↔ isAlign x = true := by
  rw [isAlign, beq_iff_eq]
  constructor
  · intro h
    by_contra hne
    rw [up_of_unaligned hne, pageSize] at h
    omega
  · intro h
    exact (up_of_aligned h).symm

theorem roundsRight (h : up x + pageSize < wordSize) : RoundsRight floor ceil isAlign x := by
  have hx := le_up x
  have hfloor : ∀ y ≤ x, floor y = .ok (down y) := fun y hy => floor_eq (by omega)
  have hceil : ∀ y ≤ x, ceil y = .ok (up y) := fun y hy => ceil_eq (by omega)
  refine ⟨⟨_, hfloor x le_rfl, isGreatest_down x⟩, ?_, ?_, ?_, ?_, ?_, ?_⟩
  · intro u _ hu
    rw [hceil x le_rfl, hu.unique (isLeast_up x)]
  · intro y hy
    exact ⟨_, _, hfloor y hy, hfloor x le_rfl, down_mono hy⟩
  · intro y hy u hu
    obtain rfl := (ceil_eq_ok hu).2
    exact ⟨_, hceil y hy, up_mono hy⟩
  · intro d hd
    obtain rfl := (floor_eq_ok hd).2
    rw [hfloor _ (down_le x), down_of_dvd (isGreatest_down x).1.1]
  · intro u hu
    obtain rfl := (ceil_eq_ok hu).2
    rw [ceil_eq h, up_of_dvd (isLeast_up x).1.1]
  · rw [hfloor x le_rfl, hceil x le_rfl, Except.ok.injEq, down_eq_up_iff]

/-- In the last page `floor` overflows, and in the page before it `ceil` of `ceil` does. -/
theorem up_add_of_roundsRight (h : RoundsRight floor ceil isAlign x) :
    up x + pageSize < wordSize := by
  obtain ⟨d, hd, -⟩ := h.floor_greatest
  have hfit := (floor_eq_ok hd).1
  exact (ceil_eq_ok (h.ceil_ceil _ (ceil_eq hfit))).1

theorem up_add_lt_iff : up x + pageSize < wordSize ↔ x ≤ wordSize - 2 * pageSize := by
  simp only [up, pageSize, wordSize]
  omega

end Vaddr

/-- Addresses of both kinds are rounded as they should be exactly if they are not above the last
boundary but one. -/
theorem roundsRight_iff (x : ℕ) :
    (RoundsRight Vaddr.floor Vaddr.ceil Vaddr.isAlign x ∧
      RoundsRight Paddr.floor Paddr.ceil Paddr.isAlign x) ↔ x ≤ wordSize - 2 * pageSize := by
  rw [← Vaddr.up_add_lt_iff]
  constructor
  · rintro ⟨hright, -⟩
    exact Vaddr.up_add_of_roundsRight hright
  · intro h
    exact ⟨Vaddr.roundsRight h, Vaddr.roundsRight h⟩

/-- The last address: its page boundary is a word, but `floor` panics. -/
theorem floor_last_overflows : Vaddr.floor (wordSize - 1) = .error .overflow ∧
    IsGreatest (boundariesBelow (wordSize - 1)) (wordSize - pageSize) ∧
    ¬RoundsRight Vaddr.floor Vaddr.ceil Vaddr.isAlign (wordSize - 1) := by
  have hfloor : Vaddr.floor (wordSize - 1) = .error .overflow := by decide +kernel
  have hdown : Vaddr.down (wordSize - 1) = wordSize - pageSize := by decide +kernel
  refine ⟨hfloor, hdown ▸ Vaddr.isGreatest_down _, fun hright => ?_⟩
  obtain ⟨d, hd, -⟩ := hright.floor_greatest
  cases hfloor.symm.trans hd

end Zinix
