import Zinix.Mm.Layout

/-!
# Temporary mappings of the kernel

The areas of the kernel's own address space are placed between `KMAP_START` and `KMAP_END`.
The tokens are modelled without the page table that they install.
-/

namespace Zinix

open Program

def kmapStart : ℕ := 0xffffffc600000000
def kmapEnd : ℕ := 0xffffffc700000000

namespace Mm

def newKernMmByPagetable (pagetable : ℕ) : Mm where
  pagetable := pagetable
  vmas := ∅
  startBrk := 0
  brk := 0
  cowTarget := none

def allocKmapAnon (self : Mm) (len : ℕ) : Checked (Option Vma) := do
  let ret ← self.allocUnmappedCore none len true kmapStart kmapEnd
  return ret.map fun vma => { vma with
    pagetable := some self.pagetable
    vmFlags := .VM_READ ||| .VM_WRITE ||| .VM_EXEC ||| .VM_ANON }

def allocKmapFile (self : Mm) (len : ℕ) (file : MappedFile) (fileOff fileLen : ℕ) :
    Checked (Option Vma) := do
  Checked.ensure (fileLen ≤ len) .assertion
  let ret ← self.allocUnmappedCore none len true kmapStart kmapEnd
  return ret.map fun vma => { vma with
    pagetable := some self.pagetable
    fileOff := fileOff
    file := some file
    fileLen := fileLen
    fileInVmaOff := 0
    vmFlags := .VM_READ ||| .VM_WRITE ||| .VM_EXEC }

end Mm

inductive KmapCall where
  | newAnon (len : ℕ)
  | newFile (len : ℕ) (file : MappedFile) (fileOff fileLen : ℕ)
  | drop (vaddr : ℕ)
  | fault (vaddr : ℕ)

/-- `KmapToken::new_anon`, `KmapToken::new_file`, the drop of a token, and the page fault
handler for a fault in kernel mode, which looks for the page in this address space. -/
def KmapCall.run (mm : Mm) : KmapCall → Program Phys Mm
  | newAnon len => do
    Checked.ensure (Vaddr.isAlign len) .assertion
    match ← mm.allocKmapAnon len with
    | none => return mm
    | some vma => mm.insertNoCheck vma
  | newFile len file fileOff fileLen => do
    Checked.ensure (Vaddr.isAlign len) .assertion
    match ← mm.allocKmapFile len file fileOff fileLen with
    | none => return mm
    | some vma => mm.insertNoCheck vma
  | drop vaddr =>
    match mm.vmas.get? vaddr with
    | none => throw (.explicit "Kmap bug")
    | some vma => do
      vma.drop
      return { mm with vmas := mm.vmas.filter fun k => k ≠ vaddr }
  | fault vaddr => mm.trapPageFaultHandler vaddr

namespace Mm

/-- Every area of the address space is a mapping of the kernel. -/
def KmapOnly (mm : Mm) : Prop :=
  ∀ k vma, mm.areas k = some vma → kmapStart ≤ vma.startVaddr ∧ vma.startVaddr ≤ vma.endVaddr

variable {mm : Mm} {len : ℕ} {vma w : Vma}

theorem kmapOnly_newKernMmByPagetable (pagetable : ℕ) : KmapOnly (newKernMmByPagetable pagetable) := by
  intro k vma hk
  cases hk

theorem KmapOnly.findVma_eq_none (h : KmapOnly mm) {v : ℕ} (hv : v < kmapStart) :
    mm.findVma v = none := by
  rw [Mm.findVma_eq_none]
  intro k vma hk
  have hstart := (h k vma hk).1
  simp only [Vma.inVma, Bool.and_eq_false_iff, decide_eq_false_iff_not]
  exact .inl (by omega)

theorem le_of_fitHigh {rangeEnd lastEnd lo : ℕ} {l : List (ℕ × Vma)}
    (h : fitHigh len rangeEnd lastEnd l = .ok (some w)) (hlast : lo ≤ lastEnd)
    (hl : ∀ e ∈ l, lo ≤ e.2.endVaddr) : lo ≤ w.startVaddr ∧ w.startVaddr ≤ w.endVaddr := by
  induction l generalizing lastEnd with
  | nil =>
    obtain ⟨gap, -, h⟩ := Checked.bind_eq_ok.mp h
    split_ifs at h
    · obtain ⟨t, ht, hret⟩ := Checked.bind_eq_ok.mp h
      obtain ⟨-, rfl⟩ := addUsize_eq_ok.mp ht
      cases hret
      exact ⟨hlast, Nat.le_add_right lastEnd len⟩
    · cases h
  | cons e rest ih =>
    obtain ⟨gap, -, h⟩ := Checked.bind_eq_ok.mp h
    split_ifs at h
    · obtain ⟨t, ht, hret⟩ := Checked.bind_eq_ok.mp h
      obtain ⟨-, rfl⟩ := addUsize_eq_ok.mp ht
      cases hret
      exact ⟨hlast, Nat.le_add_right lastEnd len⟩
    · exact ih h (hl e List.mem_cons_self) fun e' he' => hl e' (List.mem_cons_of_mem e he')

theorem KmapOnly.allocUnmappedCore (h : KmapOnly mm)
    (hw : mm.allocUnmappedCore none len true kmapStart kmapEnd = .ok (some w)) :
    kmapStart ≤ w.startVaddr ∧ w.startVaddr ≤ w.endVaddr := by
  unfold Mm.allocUnmappedCore at hw
  iterate 4
    replace hw := (Checked.bind_eq_ok.mp hw).choose_spec.2
  obtain ⟨size, -, hw⟩ := Checked.bind_eq_ok.mp hw
  by_cases hsize : size ≤ len
  · rw [if_pos hsize] at hw
    cases hw
  · rw [if_neg hsize] at hw
    refine le_of_fitHigh hw le_rfl fun e he => ?_
    have hk := h e.1 e.2 (OrdMap.mem_range.mp he).1
    omega

theorem KmapOnly.allocKmapAnon (h : KmapOnly mm) (hw : mm.allocKmapAnon len = .ok (some w)) :
    kmapStart ≤ w.startVaddr ∧ w.startVaddr ≤ w.endVaddr := by
  obtain ⟨ret, hret, hw⟩ := Checked.bind_eq_ok.mp hw
  obtain ⟨vma, rfl, rfl⟩ := Option.map_eq_some_iff.mp (Except.ok.inj hw)
  have hvma := h.allocUnmappedCore hret
  exact hvma

theorem KmapOnly.allocKmapFile (h : KmapOnly mm) {file : MappedFile} {fileOff fileLen : ℕ}
    (hw : mm.allocKmapFile len file fileOff fileLen = .ok (some w)) :
    kmapStart ≤ w.startVaddr ∧ w.startVaddr ≤ w.endVaddr := by
  obtain ⟨-, -, hw⟩ := Checked.bind_eq_ok.mp hw
  obtain ⟨ret, hret, hw⟩ := Checked.bind_eq_ok.mp hw
  obtain ⟨vma, rfl, rfl⟩ := Option.map_eq_some_iff.mp (Except.ok.inj hw)
  have hvma := h.allocUnmappedCore hret
  exact hvma

theorem KmapOnly.setVma (h : KmapOnly mm) (k : ℕ)
    (hw : kmapStart ≤ w.startVaddr ∧ w.startVaddr ≤ w.endVaddr) : KmapOnly (mm.setVma k w) := by
  intro j vma hj
  rw [areas_setVma, replaceAt_apply] at hj
  split_ifs at hj
  · cases hj
    exact hw
  · exact h j vma hj

theorem KmapOnly.insertNoCheck (h : KmapOnly mm)
    (hw : kmapStart ≤ w.startVaddr ∧ w.startVaddr ≤ w.endVaddr) (p : Phys) :
    Sat (mm.insertNoCheck w) p (fun mm' _ => KmapOnly mm') fun _ => True := by
  unfold Mm.insertNoCheck
  cases mm.vmas.get? w.startVaddr with
  | none => exact sat_pure (h.setVma w.startVaddr hw)
  | some old =>
    refine (Sat.true old.drop p).bind ?_
    intro _ p' _
    exact sat_pure (h.setVma w.startVaddr hw)

-- The unifier looks into the sums with a page size.
set_option maxRecDepth 10000

theorem KmapOnly.trapPageFaultHandler (h : KmapOnly mm) (a : ℕ) (p : Phys) :
    Sat (mm.trapPageFaultHandler a) p (fun mm' _ => KmapOnly mm') fun _ => True := by
  refine (mm.trapPageFaultHandler_sameRange a p).mono ?_ fun _ _ => trivial
  rintro _ p' ⟨k, vma, w, hk, ⟨hstart, hend⟩, rfl⟩
  refine h.setVma k ?_
  rw [hstart, hend]
  exact h k vma hk

theorem KmapOnly.trapPageFaultHandler_user (h : KmapOnly mm) {v : ℕ} (hv : v < userSpaceEnd)
    (p : Phys) : mm.trapPageFaultHandler v p = .error (.explicit "error address access!") := by
  have hdown : Vaddr.down v < kmapStart := by
    have hle := Vaddr.down_le v
    simp only [userSpaceEnd, kmapStart] at hv ⊢
    omega
  have hfloor : Vaddr.floor v = .ok (Vaddr.down v) := by
    refine Vaddr.floor_eq ?_
    simp only [userSpaceEnd, wordSize, pageSize] at *
    omega
  rw [Mm.trapPageFaultHandler, hfloor, lift_bind_apply, Checked.ok_bind, h.findVma_eq_none hdown]
  rfl

theorem KmapOnly.run (h : KmapOnly mm) (call : KmapCall) (p : Phys) :
    Sat (call.run mm) p (fun mm' _ => KmapOnly mm') fun _ => True := by
  cases call with
  | newAnon len =>
    refine Sat.ensure_bind (fun _ => ?_) fun _ => trivial
    refine Sat.lift_bind (fun r hr => ?_) fun _ _ => trivial
    cases r with
    | none => exact sat_pure h
    | some w => exact h.insertNoCheck (h.allocKmapAnon hr) p
  | newFile len file fileOff fileLen =>
    refine Sat.ensure_bind (fun _ => ?_) fun _ => trivial
    refine Sat.lift_bind (fun r hr => ?_) fun _ _ => trivial
    cases r with
    | none => exact sat_pure h
    | some w => exact h.insertNoCheck (h.allocKmapFile hr) p
  | drop vaddr =>
    simp only [KmapCall.run]
    cases mm.vmas.get? vaddr with
    | none => exact sat_throw trivial
    | some old =>
      refine (Sat.true old.drop p).bind ?_
      intro _ p' _
      refine sat_pure fun k vma hk => h k vma ?_
      have hfilter := OrdMap.get?_filter mm.vmas (fun k => k ≠ vaddr) k
      simp only [Mm.areas] at hk ⊢
      rw [hk] at hfilter
      split_ifs at hfilter
      exact hfilter.symm
  | fault vaddr => exact h.trapPageFaultHandler vaddr p

theorem kmapOnly_runs (pagetable : ℕ) (calls : List KmapCall) (p : Phys) :
    Sat (calls.foldlM KmapCall.run (newKernMmByPagetable pagetable)) p (fun mm _ => KmapOnly mm)
      fun _ => True := by
  refine Sat.foldlM (fun _ (mm : Mm) _ => KmapOnly mm) ?_ (kmapOnly_newKernMmByPagetable pagetable)
  intro done call rest _ mm p' hmm
  exact hmm.run call p'

end Mm

end Zinix
