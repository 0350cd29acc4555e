import Zinix.Mm.Arrangement

/-!
# The heap and `sys_brk`

The test at the start of `split` is the wrong way round, so `sys_brk` never makes the heap
smaller. It makes it larger as it should, unless the area of the heap has been replaced.
-/

namespace Zinix

open Program

variable {vma : Vma} {vaddr : ℕ}

/-- What `split` should do: divide the area and its pages at an address inside of it, and
leave it alone otherwise. -/
structure Vma.SplitsAt (vma : Vma) (vaddr : ℕ) : Prop where
  inside : vma.startVaddr < vaddr → vaddr < vma.endVaddr → ∃ new self,
    vma.split vaddr = .ok (some new, self) ∧
      self.startVaddr = vma.startVaddr ∧ self.endVaddr = vaddr ∧
      new.startVaddr = vaddr ∧ new.endVaddr = vma.endVaddr ∧
      new.vmFlags = vma.vmFlags ∧ new.pagetable = vma.pagetable ∧
      (∀ v f, self.pagesTree.get? v = some f ↔ vma.pagesTree.get? v = some f ∧ v < vaddr) ∧
      ∀ v f, new.pagesTree.get? v = some f ↔ vma.pagesTree.get? v = some f ∧ vaddr ≤ v
  outside : ¬(vma.startVaddr < vaddr ∧ vaddr < vma.endVaddr) → vma.split vaddr = .ok (none, vma)

theorem Vma.split_of_inVma (h : vma.inVma vaddr) :
    vma.split vaddr = .ok (none, vma) := by
  rw [Vma.split, if_pos h]
  rfl

theorem Vma.split_of_not_inVma (h : ¬vma.inVma vaddr) {r : Option Vma × Vma}
    (hr : vma.split vaddr = .ok r) :
    ∃ new, r.1 = some new ∧ r.2.startVaddr = vma.startVaddr ∧ r.2.endVaddr = vaddr := by
  rw [Vma.split, if_neg h] at hr
  simp only at hr
  split_ifs at hr
  · obtain ⟨pt, -, hr⟩ := Checked.bind_eq_ok.mp hr
    cases hr
    exact ⟨_, rfl, rfl, rfl⟩

/-- The only address at which `split` does what it should is the start of the area. -/
theorem Vma.splitsAt_iff (vma : Vma) (vaddr : ℕ) :
    vma.SplitsAt vaddr ↔ vaddr = vma.startVaddr ∧ vma.startVaddr < vma.endVaddr := by
  constructor
  · intro h
    by_cases hin : vma.inVma vaddr
    · have hnone := Vma.split_of_inVma hin
      rw [Vma.inVma_iff] at hin
      by_cases hstart : vaddr = vma.startVaddr
      · exact ⟨hstart, by omega⟩
      · obtain ⟨new, self, hsome, -⟩ := h.inside (by omega) hin.2
        rw [hnone] at hsome
        cases hsome
    · have hnone := h.outside fun hmid => hin (Vma.inVma_iff.mpr ⟨hmid.1.le, hmid.2⟩)
      obtain ⟨new, hnew, -⟩ := Vma.split_of_not_inVma hin hnone
      cases hnew
  · rintro ⟨rfl, hlt⟩
    refine ⟨fun h => absurd h (lt_irrefl _), fun _ => ?_⟩
    exact Vma.split_of_inVma (Vma.inVma_iff.mpr ⟨le_rfl, hlt⟩)

def twoPages : Vma :=
  { Vma.empty 0x1000 0x3000 with vmFlags := anonVmFlags, pagetable := some 0 }

/-- It is not divided between its pages. -/
theorem twoPages_not_split : twoPages.isAnon ∧ twoPages.split 0x2000 = .ok (none, twoPages) :=
  ⟨rfl, rfl⟩

def Vma.PagesBelow (vma : Vma) (b : ℕ) : Prop :=
  ∀ v f, vma.pagesTree.get? v = some f → v < Vaddr.up b

namespace Mm

variable {len newBrk b : ℕ} {vaddr : Option ℕ} {flags prot : BitVec 64} {file : MappedFile}
  {r : Except Unit Unit × Mm}

/-- The address spaces of user tasks. Between two steps the physical memory may be changed in
any way by other tasks. -/
inductive Reachable : Mm → Prop where
  | create {headers file args mm p p'} :
      createUserTask headers file args p = .ok (some mm, p') → Reachable mm
  | mmap {mm mm' p p' va len prot flags file offset r} : Reachable mm →
      mm.sysMmap va len prot flags file offset p = .ok ((r, mm'), p') → Reachable mm'
  | brk {mm mm' p p' brk r} : Reachable mm → mm.sysBrk brk p = .ok ((r, mm'), p') → Reachable mm'
  | fault {mm mm' p p' vaddr} : Reachable mm →
      mm.trapPageFaultHandler vaddr p = .ok (mm', p') → Reachable mm'
  | fork {mm mm' p p'} : Reachable mm → mm.newMmByOld p = .ok (mm', p') → Reachable mm'

/-- Every area stands under its start address, there is one at `start_brk`, and those below
do not reach over it. -/
structure HeapKept (mm : Mm) : Prop where
  keyed : ∀ k vma, mm.areas k = some vma → vma.startVaddr = k
  aligned : ∀ k vma, mm.areas k = some vma → k % pageSize = 0
  ordered : ∀ k vma, mm.areas k = some vma → k ≤ vma.endVaddr
  present : ∃ vma, mm.areas mm.startBrk = some vma
  below : ∀ k vma, mm.areas k = some vma → k < mm.startBrk → vma.endVaddr ≤ mm.startBrk
  low : mm.startBrk < userSpaceEnd

variable {mm mm' : Mm} {k : ℕ} {vma w : Vma}

theorem HeapKept.setVma (h : mm.HeapKept) (hstart : w.startVaddr = k) (halign : k % pageSize = 0)
    (hend : k ≤ w.endVaddr) (hbelow : k < mm.startBrk → w.endVaddr ≤ mm.startBrk) :
    (mm.setVma k w).HeapKept := by
  have hcases : ∀ j v, (mm.setVma k w).areas j = some v →
      j = k ∧ v = w ∨ j ≠ k ∧ mm.areas j = some v := by
    intro j v hj
    rw [areas_setVma] at hj
    by_cases heq : j = k
    · rw [heq, replaceAt_self] at hj
      exact .inl ⟨heq, (Option.some.inj hj).symm⟩
    · rw [replaceAt_of_ne heq] at hj
      exact .inr ⟨heq, hj⟩
  refine ⟨?_, ?_, ?_, ?_, ?_, h.low⟩
  · intro j v hj
    rcases hcases j v hj with ⟨rfl, rfl⟩ | ⟨-, hj⟩
    · exact hstart
    · exact h.keyed j v hj
  · intro j v hj
    rcases hcases j v hj with ⟨rfl, rfl⟩ | ⟨-, hj⟩
    · exact halign
    · exact h.aligned j v hj
  · intro j v hj
    rcases hcases j v hj with ⟨rfl, rfl⟩ | ⟨-, hj⟩
    · exact hend
    · exact h.ordered j v hj
  · obtain ⟨heap, hheap⟩ := h.present
    by_cases heq : mm.startBrk = k
    · exact ⟨w, by rw [areas_setVma, setVma_startBrk, heq, replaceAt_self]⟩
    · exact ⟨heap, by rw [areas_setVma, setVma_startBrk, replaceAt_of_ne heq, hheap]⟩
  · intro j v hj hlt
    rcases hcases j v hj with ⟨rfl, rfl⟩ | ⟨-, hj⟩
    · exact hbelow hlt
    · exact h.below j v hj hlt

theorem HeapKept.sameRange (h : mm.HeapKept) (hk : mm.areas k = some vma) (hw : SameRange vma w) :
    (mm.setVma k w).HeapKept := by
  obtain ⟨hstart, hend⟩ := hw
  refine h.setVma (hstart.trans (h.keyed k vma hk)) (h.aligned k vma hk) ?_ ?_
  · rw [hend]
    exact h.ordered k vma hk
  · rw [hend]
    exact h.below k vma hk

theorem HeapKept.congr (h : mm.HeapKept) (hareas : mm'.areas = mm.areas)
    (hstart : mm'.startBrk = mm.startBrk) : mm'.HeapKept := by
  obtain ⟨hkeyed, haligned, hordered, hpresent, hbelow, hlow⟩ := h
  rw [← hareas] at hkeyed haligned hordered hpresent hbelow
  rw [← hstart] at hpresent hbelow hlow
  exact ⟨hkeyed, haligned, hordered, hpresent, hbelow, hlow⟩

theorem HeapKept.key_of_findVma (h : mm.HeapKept) (hfind : mm.findVma mm.startBrk = some (k, vma)) :
    k = mm.startBrk := by
  obtain ⟨hk, hin, -⟩ := findVma_eq_some.mp hfind
  rw [Vma.inVma_iff, h.keyed k vma hk] at hin
  by_contra hne
  have hend := h.below k vma hk (by omega)
  omega

/-- The search downwards ends below the areas it has passed, and does not start below the one
at which it stops. -/
theorem fitLow_between {rangeStart last : ℕ} {l : List (ℕ × Vma)}
    (h : fitLow len rangeStart last l = .ok (some w)) (hlast : last % pageSize = 0)
    (hsorted : l.Pairwise fun a b => b.1 < a.1)
    (hkey : ∀ e ∈ l, e.2.startVaddr = e.1 ∧ e.1 % pageSize = 0 ∧ e.1 ≤ e.2.endVaddr) :
    ∃ t ≤ last, t % pageSize = 0 ∧ len ≤ t ∧ w = .empty (t - len) t ∧
      ∀ e ∈ l, t ≤ e.1 ∨ e.1 ≤ t - len := by
  induction l generalizing last with
  | nil =>
    obtain ⟨gap, hgap, h⟩ := Checked.bind_eq_ok.mp h
    split_ifs at h with hfit
    · obtain ⟨t, ht, hret⟩ := Checked.bind_eq_ok.mp h
      obtain ⟨hlen, rfl⟩ := subUsize_eq_ok.mp ht
      cases hret
      exact ⟨last, le_rfl, hlast, hlen, rfl, by simp⟩
    · cases h
  | cons e rest ih =>
    obtain ⟨hfirst, hrest⟩ := List.pairwise_cons.mp hsorted
    obtain ⟨hstart, halign, hend⟩ := hkey e List.mem_cons_self
    obtain ⟨gap, hgap, h⟩ := Checked.bind_eq_ok.mp h
    obtain ⟨hle, rfl⟩ := subUsize_eq_ok.mp hgap
    split_ifs at h with hfit
    · obtain ⟨t, ht, hret⟩ := Checked.bind_eq_ok.mp h
      obtain ⟨hlen, rfl⟩ := subUsize_eq_ok.mp ht
      cases hret
      refine ⟨last, le_rfl, hlast, hlen, rfl, fun d hd => .inr ?_⟩
      rcases List.mem_cons.mp hd with rfl | hd
      · omega
      · have hbelow := hfirst d hd
        omega
    · rw [hstart] at h
      obtain ⟨t, ht, htal, hlen, hw, hout⟩ :=
        ih h halign hrest fun d hd => hkey d (List.mem_cons_of_mem e hd)
      refine ⟨t, by omega, htal, hlen, hw, fun d hd => ?_⟩
      rcases List.mem_cons.mp hd with rfl | hd
      · exact .inl ht
      · exact hout d hd

/-- A place that `mmap` may give to an area. -/
structure Spot (mm : Mm) (len : ℕ) (w : Vma) : Prop where
  end_eq : w.endVaddr = w.startVaddr + len
  aligned : w.startVaddr % pageSize = 0
  top : w.endVaddr ≤ mmapTop
  below : w.startVaddr < mm.startBrk → w.endVaddr ≤ mm.startBrk

theorem HeapKept.allocUnmappedCore (h : mm.HeapKept)
    (hw : mm.allocUnmappedCore vaddr len false userSpaceStart mmapTop = .ok (some w)) :
    Spot mm len w ∧ len % pageSize = 0 ∧ w = .empty w.startVaddr w.endVaddr := by
  obtain ⟨heap, hheap⟩ := h.present
  obtain ⟨hlen, hfixed⟩ := allocUnmappedCore_aligned hw
  cases vaddr with
  | some vi =>
    obtain ⟨rfl, htop, hnext⟩ := allocUnmappedCore_fixed hw
    refine ⟨⟨rfl, hfixed vi rfl, htop, fun hlt => ?_⟩, hlen, rfl⟩
    exact hnext _ heap hheap (Nat.le_of_lt hlt)
  | none =>
    unfold Mm.allocUnmappedCore at hw
    iterate 4
      replace hw := (Checked.bind_eq_ok.mp hw).choose_spec.2
    obtain ⟨size, -, hw⟩ := Checked.bind_eq_ok.mp hw
    by_cases hsize : size ≤ len
    · rw [if_pos hsize] at hw
      cases hw
    · rw [if_neg hsize] at hw
      have hkey : ∀ e ∈ (mm.vmas.range userSpaceStart mmapTop).reverse,
          e.2.startVaddr = e.1 ∧ e.1 % pageSize = 0 ∧ e.1 ≤ e.2.endVaddr := by
        intro e he
        have hk := (OrdMap.mem_range.mp (List.mem_reverse.mp he)).1
        exact ⟨h.keyed e.1 e.2 hk, h.aligned e.1 e.2 hk, h.ordered e.1 e.2 hk⟩
      obtain ⟨t, ht, htal, hle, rfl, hout⟩ := fitLow_between hw rfl
        (List.pairwise_reverse.mpr (mm.vmas.range_sorted _ _)) hkey
      refine ⟨⟨(Nat.sub_add_cancel hle).symm, ?_, ht, fun hlt => ?_⟩, hlen, rfl⟩
      · show (t - len) % pageSize = 0
        rw [pageSize] at *
        omega
      by_cases htop : mm.startBrk < mmapTop
      · have hmem : (mm.startBrk, heap) ∈ (mm.vmas.range userSpaceStart mmapTop).reverse :=
          List.mem_reverse.mpr (OrdMap.mem_range.mpr ⟨hheap, Nat.zero_le _, htop⟩)
        rcases hout _ hmem with hle | hle
        · exact hle
        · exact absurd hlt (Nat.not_lt.mpr hle)
      · exact ht.trans (Nat.not_lt.mp htop)

theorem HeapKept.insertNoCheck (h : mm.HeapKept) (hspot : Spot mm len w) (p : Phys) :
    Sat (mm.insertNoCheck w) p (fun mm' _ => mm' = mm.setVma w.startVaddr w ∧ mm'.HeapKept)
      fun _ => True := by
  have hend : w.startVaddr ≤ w.endVaddr := by
    rw [hspot.end_eq]
    exact Nat.le_add_right _ _
  unfold Mm.insertNoCheck
  cases mm.vmas.get? w.startVaddr with
  | none => exact sat_pure ⟨rfl, h.setVma rfl hspot.aligned hend hspot.below⟩
  | some old =>
    refine (Sat.true old.drop p).bind ?_
    intro _ p' _
    exact sat_pure ⟨rfl, h.setVma rfl hspot.aligned hend hspot.below⟩

theorem HeapKept.allocMmapAnon (h : mm.HeapKept)
    (hw : mm.allocMmapAnon vaddr len flags prot = .ok (some w)) :
    Spot mm len w := by
  obtain ⟨ret, hret, hw⟩ := Checked.bind_eq_ok.mp hw
  obtain ⟨vma, rfl, rfl⟩ := Option.map_eq_some_iff.mp (Except.ok.inj hw)
  obtain ⟨hend, halign, htop, hbelow⟩ := (h.allocUnmappedCore hret).1
  exact ⟨hend, halign, htop, hbelow⟩

def fileArea (pt start len : ℕ) (file : MappedFile) (off fileLen : ℕ) (flags prot : BitVec 64) :
    Vma :=
  { Vma.empty start (start + len) with
    pagetable := some pt
    fileOff := off
    file := some file
    vmFlags := .fromMmap flags prot
    fileLen := fileLen }

theorem HeapKept.allocMmapFile (h : mm.HeapKept) {off fileLen : ℕ}
    (hw : mm.allocMmapFile vaddr len file off fileLen flags prot = .ok (some w)) :
    Spot mm len w ∧ len % pageSize = 0 ∧
      w = fileArea mm.pagetable w.startVaddr len file off fileLen flags prot := by
  obtain ⟨-, -, hw⟩ := Checked.bind_eq_ok.mp hw
  obtain ⟨ret, hret, hw⟩ := Checked.bind_eq_ok.mp hw
  obtain ⟨vma, rfl, rfl⟩ := Option.map_eq_some_iff.mp (Except.ok.inj hw)
  obtain ⟨⟨hend, halign, htop, hbelow⟩, hlen, hempty⟩ := h.allocUnmappedCore hret
  refine ⟨⟨hend, halign, htop, hbelow⟩, hlen, ?_⟩
  rw [hempty, hend]
  rfl

theorem HeapKept.sysMmap (h : mm.HeapKept) (va len : ℕ) (prot flags : BitVec 64)
    (file : Option MappedFile) (offset : ℕ) (p : Phys) :
    Sat (mm.sysMmap va len prot flags file offset) p (fun r _ => r.2.HeapKept) fun _ => True := by
  unfold Mm.sysMmap
  refine Sat.ite (fun _ => ?_) fun _ => ?_
  · refine Sat.lift_bind (fun r hr => ?_) fun _ _ => trivial
    cases r with
    | none => exact sat_pure h
    | some w =>
      refine (h.insertNoCheck (h.allocMmapAnon hr) p).bind ?_
      rintro mm' p' ⟨-, hmm'⟩
      exact sat_pure hmm'
  · cases file with
    | none => exact sat_pure h
    | some file =>
      refine Sat.lift_bind (fun r hr => ?_) fun _ _ => trivial
      cases r with
      | none => exact sat_pure h
      | some w =>
        refine (h.insertNoCheck (h.allocMmapFile hr).1 p).bind ?_
        rintro mm' p' ⟨-, hmm'⟩
        exact sat_pure hmm'

theorem HeapKept.shrinkBrk (h : mm.HeapKept) (hlow : mm.startBrk ≤ newBrk) (p : Phys) :
    Sat (mm.shrinkBrk newBrk) p (fun r _ => r.2.HeapKept ∧ r.2.brk = mm.brk) fun _ => True := by
  unfold Mm.shrinkBrk
  refine Sat.lift_bind (fun e he => ?_) fun _ _ => trivial
  obtain ⟨k, vma⟩ := e
  have hfind := Checked.unwrap_eq_ok.mp he
  have hkey := h.key_of_findVma hfind
  have hk := (findVma_eq_some.mp hfind).1
  refine Sat.lift_bind (fun r hr => ?_) fun _ _ => trivial
  by_cases hin : vma.inVma newBrk
  · rw [Vma.split_of_inVma hin] at hr
    cases hr
    exact sat_pure ⟨h.sameRange hk ⟨rfl, rfl⟩, rfl⟩
  · obtain ⟨new, w⟩ := r
    obtain ⟨new', rfl, hstart, hend⟩ := Vma.split_of_not_inVma hin hr
    refine (Sat.true new'.drop p).bind ?_
    intro _ p' _
    refine sat_pure ⟨h.setVma (hstart.trans (h.keyed k vma hk)) (h.aligned k vma hk) ?_ ?_, rfl⟩
    · rw [hend, hkey]
      exact hlow
    · intro hlt
      exact absurd hlt (by omega)

theorem expandBrk_cases (hr : mm.expandBrk newBrk = .ok r) : mm.startBrk ≤ mmapTop ∧
      (mm.brkLimit < newBrk ∧ r = (.error (), mm) ∨
        newBrk ≤ mm.brkLimit ∧ ∃ k vma, mm.findVma mm.startBrk = some (k, vma) ∧
          r = (.ok (), { mm.setVma k { vma with endVaddr := newBrk } with brk := newBrk })) := by
  unfold Mm.expandBrk at hr
  obtain ⟨u, hrange, hr⟩ := Checked.bind_eq_ok.mp hr
  refine ⟨Checked.ensure_eq_ok.mp hrange, ?_⟩
  replace hr : (if newBrk ≤ mm.brkLimit then _ else _) = Except.ok r := hr
  split_ifs at hr with hfit
  · obtain ⟨⟨k, vma⟩, he, hr⟩ := Checked.bind_eq_ok.mp hr
    cases hr
    exact .inr ⟨hfit, k, vma, Checked.unwrap_eq_ok.mp he, rfl⟩
  · cases hr
    exact .inl ⟨Nat.not_le.mp hfit, rfl⟩

theorem areas_grown : areas { mm.setVma k w with brk := b } k = some w := by
  show (mm.setVma k w).areas k = some w
  rw [areas_setVma, replaceAt_self]

theorem HeapKept.expandBrk (h : mm.HeapKept) (hlow : mm.startBrk ≤ newBrk)
    (hr : mm.expandBrk newBrk = .ok r) : r.2.HeapKept := by
  obtain ⟨-, ⟨-, rfl⟩ | ⟨-, k, vma, hfind, rfl⟩⟩ := expandBrk_cases hr
  · exact h
  · have hkey := h.key_of_findVma hfind
    have hk := (findVma_eq_some.mp hfind).1
    have hset : (mm.setVma k { vma with endVaddr := newBrk }).HeapKept := by
      refine h.setVma (h.keyed k vma hk) (h.aligned k vma hk) ?_ ?_
      · rw [hkey]
        exact hlow
      · intro hlt
        exact absurd hlt (by omega)
    exact hset.congr rfl rfl

theorem HeapKept.sysBrk (h : mm.HeapKept) (brk : ℕ) (p : Phys) :
    Sat (mm.sysBrk brk) p (fun r _ => r.2.HeapKept) fun _ => True := by
  unfold Mm.sysBrk
  refine Sat.ite (fun _ => sat_pure h) fun _ => ?_
  refine Sat.ite (fun _ => sat_pure h) fun hlow => ?_
  refine Sat.ite (fun _ => sat_pure h) fun _ => ?_
  refine Sat.ite (fun _ => ?_) fun _ => ?_
  · refine (h.shrinkBrk (Nat.not_lt.mp hlow) p).bind ?_
    rintro ⟨r, mm'⟩ p' ⟨hmm', -⟩
    cases r with
    | ok _ => exact sat_pure hmm'
    | error _ => exact sat_pure hmm'
  · refine Sat.lift_bind (fun r hr => ?_) fun _ _ => trivial
    have hmm' := h.expandBrk (Nat.not_lt.mp hlow) hr
    obtain ⟨r, mm'⟩ := r
    cases r with
    | ok _ => exact sat_pure hmm'
    | error _ => exact sat_pure hmm'

theorem copyPage_sameRange (w : Vma) (e : ℕ × Frame) (p : Phys) :
    Sat (copyPage w e) p (fun w' _ => SameRange w w') fun _ => True := by
  unfold copyPage
  refine (w.fastAllocOnePageAndGet_sameRange e.1 p).bind ?_
  rintro ⟨pg, w'⟩ p' hw'
  exact Sat.modify_bind (sat_pure hw')

theorem copyVma_sameRange (new : Mm) (e : ℕ × Vma) (p : Phys) :
    Sat (copyVma new e) p (fun new' _ => ∃ w, SameRange e.2 w ∧ new' = new.setVma e.1 w)
      fun _ => True := by
  obtain ⟨k, vma⟩ := e
  unfold copyVma
  refine Sat.lift_bind (fun pt _ => ?_) fun _ _ => trivial
  have hpages : Sat (vma.pagesTree.entries.foldlM copyPage (vma.childOf new.pagetable)) p
      (fun w _ => SameRange vma w) fun _ => True := by
    refine Sat.foldlM (fun _ (w : Vma) _ => SameRange vma w) ?_ ⟨rfl, rfl⟩
    intro done e rest _ w p' hw
    refine (copyPage_sameRange w e p').imp ?_
    intro w' _ hw'
    exact ⟨hw'.1.trans hw.1, hw'.2.trans hw.2⟩
  refine hpages.bind ?_
  intro w p' hw
  refine Sat.ensure_bind (fun _ => ?_) fun _ => trivial
  exact sat_pure ⟨w, hw, rfl⟩

structure Copied (old : Mm) (done : List (ℕ × Vma)) (new : Mm) : Prop where
  startBrk : new.startBrk = old.startBrk
  brk : new.brk = old.brk
  copy : ∀ k w, new.areas k = some w → ∃ vma, (k, vma) ∈ done ∧ SameRange vma w
  all : ∀ e ∈ done, ∃ w, new.areas e.1 = some w

theorem newMmByOld_copied (old : Mm) (p : Phys) :
    Sat old.newMmByOld p
      (fun new _ => Copied old (old.vmas.range userSpaceStart userSpaceEnd) new)
      fun _ => True := by
  unfold newMmByOld
  refine (Sat.true _ p).bind fun pt p' _ => ?_
  refine Sat.foldlM (fun done new _ => Copied old done new) ?_ ⟨rfl, rfl, ?_, by simp⟩
  · intro done e rest _ new p'' hnew
    refine (copyVma_sameRange new e p'').imp ?_
    rintro _ _ ⟨w, hw, rfl⟩
    refine ⟨hnew.startBrk, hnew.brk, ?_, ?_⟩
    · intro k w' hk
      rw [areas_setVma] at hk
      by_cases heq : k = e.1
      · rw [heq, replaceAt_self] at hk
        cases hk
        exact ⟨e.2, by simp [heq], hw⟩
      · rw [replaceAt_of_ne heq] at hk
        obtain ⟨vma, hmem, hsame⟩ := hnew.copy k w' hk
        exact ⟨vma, List.mem_append_left _ hmem, hsame⟩
    · intro d hd
      by_cases heq : d.1 = e.1
      · exact ⟨w, by rw [areas_setVma, heq, replaceAt_self]⟩
      · rw [areas_setVma, replaceAt_of_ne heq]
        rcases List.mem_append.mp hd with hd | hd
        · exact hnew.all d hd
        · rw [List.mem_singleton.mp hd] at heq
          exact absurd rfl heq
  · intro k w hk
    cases hk

theorem HeapKept.newMmByOld (h : mm.HeapKept) (p : Phys) :
    Sat mm.newMmByOld p (fun new _ => new.HeapKept) fun _ => True := by
  refine (newMmByOld_copied mm p).imp ?_
  intro new _ hnew
  have hold : ∀ k w, new.areas k = some w → ∃ vma, mm.areas k = some vma ∧ SameRange vma w := by
    intro k w hk
    obtain ⟨vma, hmem, hsame⟩ := hnew.copy k w hk
    exact ⟨vma, (OrdMap.mem_range.mp hmem).1, hsame⟩
  refine ⟨?_, ?_, ?_, ?_, ?_, by rw [hnew.startBrk]; exact h.low⟩
  · intro k w hk
    obtain ⟨vma, hvma, hstart, -⟩ := hold k w hk
    rw [hstart, h.keyed k vma hvma]
  · intro k w hk
    obtain ⟨vma, hvma, -⟩ := hold k w hk
    exact h.aligned k vma hvma
  · intro k w hk
    obtain ⟨vma, hvma, -, hend⟩ := hold k w hk
    rw [hend]
    exact h.ordered k vma hvma
  · obtain ⟨heap, hheap⟩ := h.present
    rw [hnew.startBrk]
    exact hnew.all (mm.startBrk, heap) (OrdMap.mem_range.mpr ⟨hheap, Nat.zero_le _, h.low⟩)
  · intro k w hk hlt
    obtain ⟨vma, hvma, -, hend⟩ := hold k w hk
    rw [hnew.startBrk] at hlt ⊢
    rw [hend]
    exact h.below k vma hvma hlt

theorem Built.heapKept {headers : List ProgramHeader} {p : Phys} (h : Built headers file mm p) :
    mm.HeapKept := by
  have hheap := h.heap_lt
  have hstack := h.brk_le
  have htop : stackTop < userSpaceEnd := by decide
  have hmax : userStackMaxAddr = userSpaceEnd := rfl
  refine ⟨fun k vma hk => (h.place hk).1, ?_, ?_, ?_, ?_, by omega⟩
  · intro k vma hk
    obtain ⟨-, ⟨ph, -, -, hstart, -⟩ | ⟨hstart, -⟩ | ⟨hstart, -⟩⟩ := h.place hk
    · rw [hstart]
      exact Vaddr.down_mod _
    · rw [hstart]
      exact h.aligned
    · rw [hstart]
      rfl
  · intro k vma hk
    obtain ⟨-, ⟨ph, -, -, hstart, hend, -⟩ | ⟨hstart, hend⟩ | ⟨hstart, hend⟩⟩ := h.place hk
    · rw [hstart, hend]
      exact pageStart_le_pageEnd ph
    · omega
    · omega
  · obtain ⟨heap, hareas, -⟩ := h.heap
    exact ⟨heap, hareas⟩
  · intro k vma hk hlt
    obtain ⟨-, ⟨ph, -, -, -, hend, hbelow⟩ | ⟨hstart, hend⟩ | ⟨hstart, hend⟩⟩ := h.place hk
    · omega
    · omega
    · omega

theorem heapKept_createUserTask (headers : List ProgramHeader) (file : MappedFile)
    (args : List (BitVec 8)) (p : Phys) :
    Sat (createUserTask headers file args) p (fun r _ => ∀ mm, r = some mm → mm.HeapKept)
      fun _ => True := by
  unfold createUserTask
  refine (newFromElf_sat headers file).bind ?_
  intro mm p' hmm
  cases hfind : mm.findVma (userStackMaxAddr - pageSize) with
  | none =>
    refine sat_pure ?_
    rintro _ ⟨⟩
  | some e =>
    obtain ⟨k, vma⟩ := e
    refine (vma.fastAllocOnePageAndGet_sameRange _ p').bind ?_
    rintro ⟨pg, w⟩ p'' hw
    refine Sat.lift_bind (fun sp _ => ?_) fun _ _ => trivial
    refine Sat.modify_bind (sat_pure ?_)
    rintro _ ⟨⟩
    exact hmm.heapKept.sameRange (findVma_eq_some.mp hfind).1 hw

-- The unifier looks into the sums with a page size.
set_option maxRecDepth 10000 in
theorem Reachable.heapKept (h : mm.Reachable) : mm.HeapKept := by
  induction h with
  | create hrun => exact (heapKept_createUserTask _ _ _ _).of_ok hrun _ rfl
  | mmap _ hrun ih => exact (ih.sysMmap _ _ _ _ _ _ _).of_ok hrun
  | brk _ hrun ih => exact (ih.sysBrk _ _).of_ok hrun
  | @fault mm _ p _ vaddr _ hrun ih =>
    obtain ⟨k, vma, w, hk, hw, rfl⟩ := (trapPageFaultHandler_sameRange mm vaddr p).of_ok hrun
    exact ih.sameRange hk hw
  | fork _ hrun ih => exact (ih.newMmByOld _).of_ok hrun

/-- The area at `start` is `[start, b)`, with no page above. -/
def HeapIs (mm : Mm) (start b : ℕ) : Prop :=
  ∃ vma, mm.areas start = some vma ∧ vma.startVaddr = start ∧ vma.endVaddr = b ∧ vma.PagesBelow b

def Blocked (mm : Mm) (b : ℕ) : Prop :=
  mm.brk < b ∧ (mmapTop < b ∨ ∃ k vma, mm.areas k = some vma ∧ mm.startBrk < k ∧ k < b)

/-- What `sys_brk` should do. -/
def BrkRight (mm : Mm) (b : ℕ) (p : Phys) : Prop :=
  if b = 0 then mm.sysBrk b p = .ok ((mm.brk, mm), p)
  else if b < mm.startBrk then mm.sysBrk b p = .ok ((-1, mm), p)
  else (∃ mm' p', mm.sysBrk b p = .ok ((b, mm'), p') ∧ mm'.brk = b ∧ mm'.HeapIs mm.startBrk b) ∨
    mm.sysBrk b p = .ok ((-1, mm), p) ∧ mm.Blocked b

theorem exists_of_brkLimit_lt (h : mm.brkLimit < b) :
    mmapTop < b ∨ ∃ k vma, mm.areas k = some vma ∧ mm.startBrk < k ∧ k < b := by
  have hmem : ∀ e ∈ mm.vmas.range mm.startBrk mmapTop,
      mm.areas e.1 = some e.2 ∧ mm.startBrk ≤ e.1 := fun e he =>
    ⟨(OrdMap.mem_range.mp he).1, (OrdMap.mem_range.mp he).2.1⟩
  have hsorted := mm.vmas.range_sorted mm.startBrk mmapTop
  unfold brkLimit at h
  generalize mm.vmas.range mm.startBrk mmapTop = l at h hmem hsorted
  match l with
  | [] => exact .inl h
  | [_] => exact .inl h
  | first :: second :: rest =>
    have hfirst := (hmem first (by simp)).2
    have hlt := (List.pairwise_cons.mp hsorted).1 second (by simp)
    exact .inr ⟨second.1, second.2, (hmem second (by simp)).1, by omega, h⟩

theorem HeapKept.findVma_startBrk_iff (h : mm.HeapKept) :
    mm.findVma mm.startBrk = some (k, vma) ↔
      k = mm.startBrk ∧ mm.areas mm.startBrk = some vma ∧ mm.startBrk < vma.endVaddr := by
  constructor
  · intro hfind
    have hkey := h.key_of_findVma hfind
    obtain ⟨hk, hin, -⟩ := findVma_eq_some.mp hfind
    rw [Vma.inVma_iff] at hin
    exact ⟨hkey, hkey ▸ hk, hin.2⟩
  · rintro ⟨rfl, hk, hlt⟩
    refine findVma_eq_some.mpr ⟨hk, Vma.inVma_iff.mpr ⟨(h.keyed _ _ hk).le, hlt⟩, ?_⟩
    intro j v hj hjlt
    have hend := h.below j v hj hjlt
    rw [← Bool.not_eq_true, Vma.inVma_iff]
    omega

theorem sysBrk_of_brk_lt (h : mm.brk < b) (hlow : mm.startBrk ≤ b) (p : Phys) :
    mm.sysBrk b p = (mm.expandBrk b).map fun r =>
      ((match r.1 with | .ok _ => (b : ℤ) | .error _ => -1, r.2), p) := by
  rw [sysBrk, if_neg (by omega), if_neg (by omega), if_neg (by omega), if_neg (by omega)]
  rw [Program.bind_apply]
  rcases hr : mm.expandBrk b with e | ⟨e | u, mm'⟩
  · rfl
  · rfl
  · rfl

theorem expandBrk_of_brkLimit_lt (hrange : mm.startBrk ≤ mmapTop) (h : mm.brkLimit < b) :
    mm.expandBrk b = .ok (.error (), mm) := by
  unfold Mm.expandBrk
  rw [Checked.ensure_pos hrange, Checked.ok_bind]
  show (if b ≤ mm.brkLimit then _ else _) = _
  rw [if_neg (by omega)]
  rfl

def Grows (mm : Mm) (b : ℕ) : Prop :=
  mm.startBrk ≤ mmapTop ∧ (mm.brkLimit < b ∨
    ∃ vma, mm.areas mm.startBrk = some vma ∧ mm.startBrk < vma.endVaddr ∧ vma.PagesBelow b)

theorem HeapKept.brkRight_grow (h : mm.HeapKept) (hlow : mm.startBrk ≤ b) (hgt : mm.brk < b)
    (p : Phys) : mm.BrkRight b p ↔ mm.Grows b := by
  rw [BrkRight, if_neg (by omega), if_neg (by omega), sysBrk_of_brk_lt hgt hlow]
  constructor
  · intro hright
    have hrun : ∃ r, mm.expandBrk b = .ok r := by
      rcases hright with ⟨mm', p', hrun, -⟩ | ⟨hrun, -⟩
      · exact (Checked.map_eq_ok.mp hrun).imp fun _ hr => hr.1
      · exact (Checked.map_eq_ok.mp hrun).imp fun _ hr => hr.1
    obtain ⟨r, hr⟩ := hrun
    obtain ⟨hrange, ⟨hlimit, -⟩ | ⟨-, k, vma, hfind, rfl⟩⟩ := expandBrk_cases hr
    · exact ⟨hrange, .inl hlimit⟩
    · obtain ⟨rfl, hvma, hlt⟩ := h.findVma_startBrk_iff.mp hfind
      refine ⟨hrange, .inr ⟨vma, hvma, hlt, ?_⟩⟩
      rw [hr] at hright
      rcases hright with ⟨mm', p', hrun, -, heap, hheap, -, -, hpages⟩ | ⟨hrun, -⟩
      · cases hrun
        cases hheap.symm.trans areas_grown
        exact hpages
      · have hret : (b : ℤ) = -1 := congrArg (fun x => x.1.1) (Except.ok.inj hrun)
        omega
  · rintro ⟨hrange, hlimit | ⟨vma, hvma, hlt, hpages⟩⟩
    · rw [expandBrk_of_brkLimit_lt hrange hlimit]
      exact .inr ⟨rfl, hgt, exists_of_brkLimit_lt hlimit⟩
    · have hfind := h.findVma_startBrk_iff.mpr ⟨rfl, hvma, hlt⟩
      rw [expandBrk_eq hrange hfind]
      by_cases hfit : b ≤ mm.brkLimit
      · have hstart := h.keyed _ _ hvma
        rw [if_pos hfit]
        exact .inl ⟨_, p, rfl, rfl, _, areas_grown, hstart, rfl, hpages⟩
      · rw [if_neg hfit]
        exact .inr ⟨rfl, hgt, exists_of_brkLimit_lt (Nat.not_le.mp hfit)⟩

theorem HeapKept.not_brkRight_shrink (h : mm.HeapKept) (hne : b ≠ 0) (hlow : mm.startBrk ≤ b)
    (hlt : b < mm.brk) (p : Phys) : ¬mm.BrkRight b p := by
  rw [BrkRight, if_neg hne, if_neg (by omega)]
  rintro (⟨mm', p', hrun, hbrk, -⟩ | ⟨-, hgt, -⟩)
  · rw [Mm.sysBrk, if_neg hne, if_neg (by omega), if_neg (by omega), if_pos hlt] at hrun
    rw [Program.bind_apply, Checked.bind_eq_ok] at hrun
    obtain ⟨⟨⟨r, mm''⟩, p''⟩, hshrink, hrun⟩ := hrun
    have hkept := ((h.shrinkBrk hlow p).of_ok hshrink).2
    cases r with
    | ok _ =>
      cases hrun
      exact absurd (hkept.symm.trans hbrk) (by omega)
    | error _ =>
      have hret : (-1 : ℤ) = b := congrArg (fun x => x.1.1) (Except.ok.inj hrun)
      omega
  · omega

/-- The break is right without a change, and when the heap grows from a whole area. -/
theorem brkRight_iff (h : mm.Reachable) (b : ℕ) (p : Phys) : mm.BrkRight b p ↔
    b = 0 ∨ b < mm.startBrk ∨ b = mm.brk ∧ mm.HeapIs mm.startBrk b ∨ mm.brk < b ∧ mm.Grows b := by
  have hkept := h.heapKept
  by_cases hzero : b = 0
  · simp only [hzero, true_or, iff_true]
    rw [BrkRight, if_pos rfl, sysBrk, if_pos rfl]
    rfl
  by_cases hlow : b < mm.startBrk
  · simp only [hlow, true_or, or_true, iff_true]
    rw [BrkRight, if_neg hzero, if_pos hlow, sysBrk, if_neg hzero, if_pos hlow]
    rfl
  rw [Nat.not_lt] at hlow
  rcases Nat.lt_trichotomy b mm.brk with hlt | heq | hgt
  · have hnot := hkept.not_brkRight_shrink hzero hlow hlt p
    refine ⟨fun hright => absurd hright hnot, ?_⟩
    omega
  · rw [BrkRight, if_neg hzero, if_neg (by omega), sysBrk, if_neg hzero, if_neg (by omega),
      if_pos heq.symm]
    constructor
    · rintro (⟨mm', p', hrun, -, hheap⟩ | ⟨-, hgt, -⟩)
      · cases hrun
        exact .inr (.inr (.inl ⟨heq, hheap⟩))
      · omega
    · rintro (hb | hb | ⟨-, hheap⟩ | ⟨hb, -⟩)
      · exact absurd hb hzero
      · omega
      · exact .inl ⟨mm, p, rfl, heq.symm, hheap⟩
      · omega
  · rw [hkept.brkRight_grow hlow hgt]
    constructor
    · exact fun hgrows => .inr (.inr (.inr ⟨hgt, hgrows⟩))
    · rintro (hb | hb | ⟨hb, -⟩ | ⟨-, hgrows⟩)
      · exact absurd hb hzero
      · omega
      · omega
      · exact hgrows

/-- A program without segments: its heap is the page at `0x1000`. -/
def emptyTask : Program Phys (Option Mm) := createUserTask [] ⟨0, []⟩ []

theorem emptyTask_heap : ∃ mm p, emptyTask .bare = .ok (some mm, p) ∧
    mm.startBrk = 0x1000 ∧ mm.brk = 0x2000 ∧
      (mm.sysBrk 0x1800 p).map (fun r => (r.1.1, r.1.2.brk)) = .ok (-1, 0x2000) := by
  have hrun : (emptyTask .bare).map (fun r => r.1.map fun mm => (mm.startBrk, mm.brk,
      (mm.sysBrk 0x1800 r.2).map fun r => (r.1.1, r.1.2.brk))) =
        .ok (some (0x1000, 0x2000, .ok (-1, 0x2000))) := by
    decide +kernel
  obtain ⟨⟨created, p⟩, hcreate, hmm⟩ := Checked.map_eq_ok.mp hrun
  obtain ⟨mm, rfl, hfields⟩ := Option.map_eq_some_iff.mp hmm
  simp only [Prod.mk.injEq] at hfields
  exact ⟨mm, p, hcreate, hfields⟩

theorem brkRight_iff_emptyTask : ∃ mm p, emptyTask .bare = .ok (some mm, p) ∧
    (mm.BrkRight 0x3000 p ↔ 0x3000 = 0 ∨ 0x3000 < mm.startBrk ∨
      0x3000 = mm.brk ∧ mm.HeapIs mm.startBrk 0x3000 ∨ mm.brk < 0x3000 ∧ mm.Grows 0x3000) := by
  obtain ⟨mm, p, hcreate, -⟩ := emptyTask_heap
  exact ⟨mm, p, hcreate, brkRight_iff (.create hcreate) 0x3000 p⟩

/-- The upper half of the heap's page cannot be given back. -/
theorem emptyTask_not_shrunk : ∃ mm p, emptyTask .bare = .ok (some mm, p) ∧
    mm.startBrk = 0x1000 ∧ mm.brk = 0x2000 ∧
      (mm.sysBrk 0x1800 p).map (fun r => (r.1.1, r.1.2.brk)) = .ok (-1, 0x2000) ∧
      ¬mm.BrkRight 0x1800 p := by
  obtain ⟨mm, p, hcreate, hstart, hbrk, hrun⟩ := emptyTask_heap
  have hkept := (Reachable.create hcreate).heapKept
  exact ⟨mm, p, hcreate, hstart, hbrk, hrun,
    hkept.not_brkRight_shrink (by decide) (by omega) (by omega) p⟩

end Mm

end Zinix
