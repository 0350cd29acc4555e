import Zinix.Mm.VmaSpec

/-!
# The layout of an address space

New areas never reach the start of the next one, but nothing keeps them from starting
inside an earlier one, so areas may overlap and a page belongs to the first of them.
-/

namespace Zinix

open Program

/-- The range of an area stays when a page is added to it. -/
def SameRange (v w : Vma) : Prop := w.startVaddr = v.startVaddr ∧ w.endVaddr = v.endVaddr

section Range

variable (vma : Vma) (v : ℕ) (p : Phys)

theorem Vma.fastAllocOnePageAndGet_sameRange :
    Sat (vma.fastAllocOnePageAndGet v) p (fun r _ => SameRange vma r.2) fun _ => True := by
  refine (vma.fastAllocOnePageAndGet_area v p).imp ?_
  rintro r _ (heq | heq)
  · rw [heq]
    exact ⟨rfl, rfl⟩
  · rw [heq]
    exact ⟨rfl, rfl⟩

theorem Vma.allocAndFill_sameRange :
    Sat (vma.allocAndFill v) p (fun r _ => SameRange vma r.2) fun _ => True := by
  unfold Vma.allocAndFill
  refine Sat.ite (fun _ => vma.fastAllocOnePageAndGet_sameRange v p) fun _ => ?_
  refine Sat.lift_bind (fun piece _ => ?_) fun _ _ => trivial
  refine (vma.fastAllocOnePageAndGet_sameRange v p).bind ?_
  rintro ⟨pg, w⟩ p' hw
  cases piece with
  | none => exact sat_pure hw
  | some piece =>
    refine Sat.lift_bind (fun buf _ => ?_) fun _ _ => trivial
    exact Sat.modify_bind (sat_pure hw)

theorem Vma.doAllocOnePage_sameRange :
    Sat (vma.doAllocOnePage v) p (fun r _ => SameRange vma r.2) fun _ => True := by
  unfold Vma.doAllocOnePage
  refine Sat.ite (fun _ => sat_pure ⟨rfl, rfl⟩) fun _ => ?_
  refine (vma.allocAndFill_sameRange v p).bind ?_
  rintro ⟨pg, w⟩ p' hw
  refine sat_pure ?_
  simp only
  split_ifs
  · exact hw
  · exact hw

end Range

namespace Mm

variable {mm : Mm} {k v : ℕ} {vma : Vma}

def areas (mm : Mm) : ℕ → Option Vma := mm.vmas.get?

@[simp] theorem areas_setVma (mm : Mm) (k : ℕ) (vma : Vma) :
    (mm.setVma k vma).areas = replaceAt mm.areas k (some vma) :=
  funext fun j => OrdMap.get?_insert mm.vmas k j vma

@[simp] theorem setVma_pagetable (mm : Mm) (k : ℕ) (vma : Vma) :
    (mm.setVma k vma).pagetable = mm.pagetable := rfl

@[simp] theorem setVma_brk (mm : Mm) (k : ℕ) (vma : Vma) : (mm.setVma k vma).brk = mm.brk := rfl

@[simp] theorem setVma_startBrk (mm : Mm) (k : ℕ) (vma : Vma) :
    (mm.setVma k vma).startBrk = mm.startBrk := rfl

theorem setVma_get_self (h : mm.areas k = some vma) : (mm.setVma k vma).areas = mm.areas := by
  rw [areas_setVma, replaceAt_eq_self h]

theorem setVma_eq_self (h : mm.areas k = some vma) : mm.setVma k vma = mm := by
  have hvmas : mm.vmas.insert k vma = mm.vmas :=
    OrdMap.ext_get? (congrFun (setVma_get_self h))
  rw [setVma, hvmas]

end Mm

theorem Vma.inVma_iff {vma : Vma} {v : ℕ} :
    vma.inVma v ↔ vma.startVaddr ≤ v ∧ v < vma.endVaddr := by
  simp [Vma.inVma]

namespace Mm

variable {mm : Mm} {k v : ℕ} {vma w : Vma} {len top : ℕ}

theorem findVma_eq_some : mm.findVma v = some (k, vma) ↔ mm.areas k = some vma ∧ vma.inVma v ∧
    ∀ j w, mm.areas j = some w → j < k → w.inVma v = false :=
  OrdMap.find?_eq_some

theorem findVma_eq_none :
    mm.findVma v = none ↔ ∀ k vma, mm.areas k = some vma → vma.inVma v = false :=
  OrdMap.find?_eq_none

theorem allocUnmappedFixed_ok (h : mm.allocUnmappedFixed v len top = .ok (some w))
    (htop : v + len ≤ top) :
    w = .empty v (v + len) ∧ ∀ k vma, mm.areas k = some vma → v ≤ k → v + len ≤ k := by
  unfold allocUnmappedFixed at h
  cases hhead : (mm.vmas.range v top).head? with
  | none =>
    rw [hhead] at h
    obtain ⟨t, ht, hret⟩ := Checked.bind_eq_ok.mp h
    obtain ⟨_, rfl⟩ := addUsize_eq_ok.mp ht
    cases hret
    refine ⟨rfl, fun k vma hk hle => ?_⟩
    have := OrdMap.not_mem_of_head?_range hhead hk hle
    omega
  | some e =>
    obtain ⟨k₀, w₀⟩ := e
    rw [hhead] at h
    obtain ⟨gap, hgap, h⟩ := Checked.bind_eq_ok.mp h
    obtain ⟨hle₀, rfl⟩ := subUsize_eq_ok.mp hgap
    split_ifs at h with hlen
    · obtain ⟨t, ht, hret⟩ := Checked.bind_eq_ok.mp h
      obtain ⟨_, rfl⟩ := addUsize_eq_ok.mp ht
      cases hret
      refine ⟨rfl, fun k vma hk hle => ?_⟩
      by_cases hlt : k < top
      · have := OrdMap.le_of_head?_range hhead hk hle hlt
        omega
      · omega
    · cases h

-- The unifier looks into the sums with a page size.
set_option maxRecDepth 10000

theorem trapPageFaultHandler_sameRange (mm : Mm) (a : ℕ) (p : Phys) :
    Sat (mm.trapPageFaultHandler a) p (fun mm' _ => ∃ k vma w, mm.areas k = some vma ∧
      SameRange vma w ∧ mm' = mm.setVma k w) fun _ => True := by
  unfold Mm.trapPageFaultHandler
  refine Sat.lift_bind (fun v _ => ?_) fun _ _ => trivial
  cases hfind : mm.findVma v with
  | none => exact sat_throw trivial
  | some e =>
    obtain ⟨k, vma⟩ := e
    refine Sat.ite (fun _ => sat_throw trivial) fun _ => ?_
    refine (vma.doAllocOnePage_sameRange v p).bind ?_
    rintro ⟨r, w⟩ p' hw
    cases r with
    | error _ => exact sat_throw trivial
    | ok f => exact sat_pure ⟨k, vma, w, (findVma_eq_some.mp hfind).1, hw, rfl⟩

end Mm

end Zinix
