import Zinix.Mm.Layout

/-!
# Demand paging

What user code sees at a page is the frame that is resident there, or else the content that
the page would get. A page fault turns the second into the first.
-/

namespace Zinix

open Program

/-- Two states of one area, which differ in its pages and the mark of a write. -/
structure SameArea (v w : Vma) : Prop where
  startVaddr : w.startVaddr = v.startVaddr
  endVaddr : w.endVaddr = v.endVaddr
  file : w.file = v.file
  fileOff : w.fileOff = v.fileOff
  fileInVmaOff : w.fileInVmaOff = v.fileInVmaOff
  fileLen : w.fileLen = v.fileLen
  anon : w.isAnon = v.isAnon
  rights : w.vmFlags &&& 0b1111 = v.vmFlags &&& 0b1111

/-- Whether user code may touch the pages of an area in this way. -/
def Vma.permits (vma : Vma) (prot : PgFaultProt) : Bool :=
  (PTE.leaf 0 (vmaFlags2PteFlags vma.vmFlags)).permits prot

namespace SameArea

variable {v w x : Vma}

theorem refl (v : Vma) : SameArea v v := ⟨rfl, rfl, rfl, rfl, rfl, rfl, rfl, rfl⟩

theorem trans (h : SameArea v w) (h' : SameArea w x) : SameArea v x :=
  ⟨h'.1.trans h.1, h'.2.trans h.2, h'.3.trans h.3, h'.4.trans h.4, h'.5.trans h.5,
    h'.6.trans h.6, h'.7.trans h.7, h'.8.trans h.8⟩

theorem inVma (h : SameArea v w) (a : ℕ) : w.inVma a = v.inVma a := by
  rw [Vma.inVma, Vma.inVma, h.startVaddr, h.endVaddr]

theorem backing (h : SameArea v w) (a : ℕ) : w.backing a = v.backing a := by
  simp only [Vma.backing, Vma.filePiece, Vma.readPiece, h.anon, h.startVaddr, h.fileInVmaOff,
    h.fileLen, h.fileOff, h.file]

theorem permits (h : SameArea v w) (prot : PgFaultProt) : w.permits prot = v.permits prot := by
  rw [Vma.permits, Vma.permits, vmaFlags2PteFlags_congr h.rights]

end SameArea

theorem Vma.sameArea_touched (vma : Vma) : SameArea vma vma.touched := by
  unfold touched
  split_ifs
  · refine ⟨rfl, rfl, rfl, rfl, rfl, rfl, ?_, or_dirty_low _⟩
    simp only [isAnon, setDirty, VmFlags.contains]
    rw [BitVec.and_or_distrib_right]
    simp [VmFlags.VM_DIRTY, VmFlags.VM_ANON]
  · exact .refl vma

theorem Vma.sameArea_withPage (vma : Vma) (v : ℕ) (f : Frame) : SameArea vma (vma.withPage v f) :=
  ⟨rfl, rfl, rfl, rfl, rfl, rfl, rfl, rfl⟩

theorem PTE.leaf_permits (f : Frame) (vma : Vma) (prot : PgFaultProt) :
    (PTE.leaf f (vmaFlags2PteFlags vma.vmFlags)).permits prot = vma.permits prot := by
  simp only [Vma.permits, PTE.permits, PTE.valid, PTE.getBits, PTE.leaf_flags]

namespace Mm

def content (mm : Mm) (p : Phys) (v : ℕ) : Option (Checked PageData) :=
  (mm.findVma v).map fun e =>
    match e.2.findPage v with
    | some f => .ok (p.mem f)
    | none => e.2.backing v

def Allows (mm : Mm) (a : ℕ) (prot : PgFaultProt) : Prop :=
  ∃ k vma, mm.findVma (Vaddr.down a) = some (k, vma) ∧ vma.permits prot

/-- An address space of the default build in which every resident page is found in
the area that holds it. -/
structure Tidy (mm : Mm) (p : Phys) : Prop where
  ok : AreasOk p mm.pagetable mm.areas
  low : ∀ k vma, mm.areas k = some vma → vma.endVaddr ≤ userSpaceEnd
  plain : ∀ k vma, mm.areas k = some vma → vma.cowWriteReservePgs = none
  first : ∀ k vma v f, mm.areas k = some vma → vma.pagesTree.get? v = some f →
    mm.findVma v = some (k, vma)

/-- Two states of an address space that user code cannot tell apart. -/
structure Alike (mm mm' : Mm) (p p' : Phys) : Prop where
  pagetable : mm'.pagetable = mm.pagetable
  startBrk : mm'.startBrk = mm.startBrk
  brk : mm'.brk = mm.brk
  areas : ∀ k, Option.Rel SameArea (mm.areas k) (mm'.areas k)
  content : ∀ v, mm'.content p' v = mm.content p v

section Areas

variable {mm mm' : Mm} {k v : ℕ} {vma : Vma}
  {vma' : Vma}

theorem rel_refl (o : Option Vma) : Option.Rel SameArea o o := by
  cases o with
  | none => exact .none
  | some vma => exact .some (.refl vma)

theorem rel_trans {x y z : Option Vma} (h : Option.Rel SameArea x y)
    (h' : Option.Rel SameArea y z) : Option.Rel SameArea x z := by
  cases h with
  | none => exact h'
  | some hsame =>
    cases h' with
    | some hsame' => exact .some (hsame.trans hsame')

theorem areas_of_rel (h : ∀ k, Option.Rel SameArea (mm.areas k) (mm'.areas k))
    (hk : mm.areas k = some vma) : ∃ vma', mm'.areas k = some vma' ∧ SameArea vma vma' := by
  have hrel := h k
  rw [hk] at hrel
  cases hm : mm'.areas k with
  | none =>
    rw [hm] at hrel
    cases hrel
  | some vma' =>
    rw [hm] at hrel
    cases hrel with
    | some hsame => exact ⟨vma', rfl, hsame⟩

theorem areas_of_rel' (h : ∀ k, Option.Rel SameArea (mm.areas k) (mm'.areas k))
    (hk : mm'.areas k = some vma') : ∃ vma, mm.areas k = some vma ∧ SameArea vma vma' := by
  have hrel := h k
  rw [hk] at hrel
  cases hm : mm.areas k with
  | none =>
    rw [hm] at hrel
    cases hrel
  | some vma =>
    rw [hm] at hrel
    cases hrel with
    | some hsame => exact ⟨vma, rfl, hsame⟩

theorem findVma_of_rel (h : ∀ k, Option.Rel SameArea (mm.areas k) (mm'.areas k))
    (hfind : mm.findVma v = some (k, vma)) :
    ∃ vma', mm'.findVma v = some (k, vma') ∧ SameArea vma vma' := by
  obtain ⟨hk, hin, hfirst⟩ := findVma_eq_some.mp hfind
  obtain ⟨vma', hk', hsame⟩ := areas_of_rel h hk
  refine ⟨vma', findVma_eq_some.mpr ⟨hk', ?_, ?_⟩, hsame⟩
  · rw [hsame.inVma, hin]
  · intro j w' hj hlt
    obtain ⟨w, hw, hsame'⟩ := areas_of_rel' h hj
    rw [hsame'.inVma, hfirst j w hw hlt]

theorem findVma_none_of_rel (h : ∀ k, Option.Rel SameArea (mm.areas k) (mm'.areas k))
    (hfind : mm.findVma v = none) : mm'.findVma v = none := by
  rw [findVma_eq_none] at hfind ⊢
  intro k vma' hk
  obtain ⟨vma, hk, hsame⟩ := areas_of_rel' h hk
  rw [hsame.inVma, hfind k vma hk]

theorem rel_setVma (hk : mm.areas k = some vma) (hsame : SameArea vma vma') (j : ℕ) :
    Option.Rel SameArea (mm.areas j) ((mm.setVma k vma').areas j) := by
  rw [areas_setVma]
  by_cases hj : j = k
  · rw [hj, hk, replaceAt_self]
    exact .some hsame
  · rw [replaceAt_of_ne hj]
    exact rel_refl _

end Areas

section Tidy

variable {mm mm' : Mm} {p p' : Phys} {a v k : ℕ} {f : Frame} {vma : Vma} {prot : PgFaultProt}

theorem Alike.refl (mm : Mm) (p : Phys) : Alike mm mm p p :=
  ⟨rfl, rfl, rfl, fun _ => rel_refl _, fun _ => rfl⟩

theorem Alike.allows_iff (h : Alike mm mm' p p') : mm'.Allows a prot ↔ mm.Allows a prot := by
  constructor
  · rintro ⟨k, vma', hfind, hpermits⟩
    obtain ⟨vma, hk, hsame⟩ := areas_of_rel' h.areas (findVma_eq_some.mp hfind).1
    cases hm : mm.findVma (Vaddr.down a) with
    | none =>
      rw [findVma_none_of_rel h.areas hm] at hfind
      cases hfind
    | some e =>
      obtain ⟨w', hfind', hsame⟩ := findVma_of_rel h.areas hm
      cases hfind.symm.trans hfind'
      exact ⟨e.1, e.2, hm, by rwa [← hsame.permits]⟩
  · rintro ⟨k, vma, hfind, hpermits⟩
    obtain ⟨vma', hfind', hsame⟩ := findVma_of_rel h.areas hfind
    exact ⟨k, vma', hfind', by rwa [hsame.permits]⟩

theorem lt_of_findVma (hlow : ∀ k vma, mm.areas k = some vma → vma.endVaddr ≤ userSpaceEnd)
    (hfind : mm.findVma (Vaddr.down a) = some (k, vma)) : a < userSpaceEnd := by
  obtain ⟨hk, hin, -⟩ := findVma_eq_some.mp hfind
  have hend := hlow k vma hk
  rw [Vma.inVma_iff] at hin
  have hdown : Vaddr.down a < userSpaceEnd := by omega
  simp only [Vaddr.down, userSpaceEnd, pageSize] at hdown ⊢
  omega

theorem Tidy.entryFlags (h : Tidy mm p) (hk : mm.areas k = some vma) {flags : BitVec 8}
    (hflags : vma.EntryFlags flags) : flags = vmaFlags2PteFlags vma.vmFlags := by
  rcases hflags with hflags | ⟨hsome, -⟩
  · exact hflags
  · rw [h.plain k vma hk] at hsome
    cases hsome

theorem Tidy.translate_resident (h : Tidy mm p)
    (hfind : mm.findVma (Vaddr.down a) = some (k, vma))
    (hget : vma.pagesTree.get? (Vaddr.down a) = some f) (prot : PgFaultProt) :
    mm.translate p a prot = if vma.permits prot then some f else none := by
  have ha := lt_of_findVma h.low hfind
  have hk := (findVma_eq_some.mp hfind).1
  obtain ⟨flags, hflags, hpte⟩ := h.ok.mapped k vma hk _ f hget
  rw [h.entryFlags hk hflags] at hpte
  rw [Mm.translate, if_pos ha, Phys.translate_eq h.ok.table (userOwn_of_lt ha),
    ← Phys.pte_down, hpte, PTE.leaf_permits, PTE.leaf_frame]

theorem Tidy.pte_absent (h : Tidy mm p) (hv : IsUserPage v)
    (habsent : ∀ k vma, mm.findVma v = some (k, vma) → vma.pagesTree.get? v = none) :
    (p.pte mm.pagetable v).valid = false := by
  cases hvalid : (p.pte mm.pagetable v).valid with
  | false => rfl
  | true =>
    obtain ⟨k, f, vma, hk, hget⟩ := h.ok.covered v hv hvalid
    rw [habsent k vma (h.first k vma v f hk hget)] at hget
    cases hget

theorem Tidy.translate_absent (h : Tidy mm p)
    (habsent : ∀ k vma, mm.findVma (Vaddr.down a) = some (k, vma) →
      vma.pagesTree.get? (Vaddr.down a) = none) (prot : PgFaultProt) :
    mm.translate p a prot = none := by
  unfold Mm.translate
  split_ifs with ha
  · have hpte := h.pte_absent (isUserPage_down ha) habsent
    rw [Phys.translate_eq h.ok.table (userOwn_of_lt ha), ← Phys.pte_down, if_neg]
    simp [PTE.permits, hpte]
  · rfl

/-- A page has been brought into the area in which it is found. -/
structure PagedIn (mm : Mm) (p : Phys) (v : ℕ) (mm' : Mm) (p' : Phys) (k : ℕ) (vma : Vma)
    (f : Frame) (pg : PageData) : Prop where
  found : mm.findVma v = some (k, vma)
  absent : vma.pagesTree.get? v = none
  backing : vma.backing v = .ok pg
  added : Added userRegion p p' mm.pagetable mm.areas k vma v f pg
  result : mm' = mm.setVma k (vma.withPage v f).touched

namespace PagedIn

variable {pg : PageData}
  {j u : ℕ} {w : Vma} {g : Frame}

theorem sameArea (vma : Vma) (v : ℕ) (f : Frame) : SameArea vma (vma.withPage v f).touched :=
  (vma.sameArea_withPage v f).trans (Vma.sameArea_touched _)

theorem areas_rel (h : PagedIn mm p v mm' p' k vma f pg) (j : ℕ) :
    Option.Rel SameArea (mm.areas j) (mm'.areas j) := by
  rw [h.result]
  exact rel_setVma (findVma_eq_some.mp h.found).1 (sameArea vma v f) j

theorem get?_iff (h : PagedIn mm p v mm' p' k vma f pg) {w' : Vma} (hw : mm.areas j = some w)
    (hw' : mm'.areas j = some w') :
    w'.pagesTree.get? u = some g ↔ w.pagesTree.get? u = some g ∨ j = k ∧ u = v ∧ g = f := by
  have hk := (findVma_eq_some.mp h.found).1
  rw [h.result, areas_setVma] at hw'
  by_cases hj : j = k
  · subst hj
    rw [replaceAt_self] at hw'
    cases hw'
    cases hw.symm.trans hk
    rw [Vma.touched_pagesTree, Vma.withPage, OrdMap.get?_insert]
    by_cases hu : u = v
    · subst hu
      simp [h.absent, eq_comm]
    · simp [hu]
  · rw [replaceAt_of_ne hj] at hw'
    cases hw.symm.trans hw'
    simp [hj]

theorem found' (h : PagedIn mm p v mm' p' k vma f pg) :
    mm'.findVma v = some (k, (vma.withPage v f).touched) := by
  obtain ⟨vma', hfind, -⟩ := findVma_of_rel h.areas_rel h.found
  have hk := (findVma_eq_some.mp hfind).1
  rw [h.result, areas_setVma, replaceAt_self] at hk
  cases hk
  exact hfind

theorem plain (h : PagedIn mm p v mm' p' k vma f pg)
    (hplain : ∀ k vma, mm.areas k = some vma → vma.cowWriteReservePgs = none)
    (hj : mm'.areas j = some w) : w.cowWriteReservePgs = none := by
  have hk := (findVma_eq_some.mp h.found).1
  rw [h.result, areas_setVma] at hj
  by_cases hjk : j = k
  · subst hjk
    rw [replaceAt_self] at hj
    cases hj
    unfold Vma.touched
    split_ifs
    · exact hplain j vma hk
    · exact hplain j vma hk
  · rw [replaceAt_of_ne hjk] at hj
    exact hplain j w hj

theorem tidy (h : PagedIn mm p v mm' p' k vma f pg) (hmm : Tidy mm p) : Tidy mm' p' := by
  refine ⟨?_, ?_, fun j w hj => h.plain hmm.plain hj, ?_⟩
  · rw [h.result, areas_setVma, setVma_pagetable]
    exact h.added.ok_touched
  · intro j w' hj
    obtain ⟨w, hw, hsame⟩ := areas_of_rel' h.areas_rel hj
    rw [hsame.endVaddr]
    exact hmm.low j w hw
  · intro j w' u g hj hget
    obtain ⟨w, hw, -⟩ := areas_of_rel' h.areas_rel hj
    rcases (h.get?_iff hw hj).mp hget with hold | ⟨rfl, rfl, -⟩
    · obtain ⟨w'', hfind, -⟩ := findVma_of_rel h.areas_rel (hmm.first j w u g hw hold)
      cases (findVma_eq_some.mp hfind).1.symm.trans hj
      exact hfind
    · have hfind := h.found'
      cases (findVma_eq_some.mp hfind).1.symm.trans hj
      exact hfind

theorem mem_resident (h : PagedIn mm p v mm' p' k vma f pg) (hmm : Tidy mm p)
    (hw : mm.areas j = some w) (hget : w.pagesTree.get? u = some g) :
    p'.mem g = p.mem g := by
  obtain ⟨hlive, htab⟩ := hmm.ok.live j u g (Holds.of_get hw hget)
  exact h.added.grows.mem g hlive htab

theorem alike (h : PagedIn mm p v mm' p' k vma f pg) (hmm : Tidy mm p) : Alike mm mm' p p' := by
  refine ⟨by rw [h.result]; rfl, by rw [h.result]; rfl, by rw [h.result]; rfl, h.areas_rel, ?_⟩
  intro u
  unfold Mm.content
  cases hfind : mm.findVma u with
  | none =>
    rw [findVma_none_of_rel h.areas_rel hfind]
    rfl
  | some e =>
    obtain ⟨j, w⟩ := e
    obtain ⟨w', hfind', hsame⟩ := findVma_of_rel h.areas_rel hfind
    have hw := (findVma_eq_some.mp hfind).1
    have hw' := (findVma_eq_some.mp hfind').1
    rw [hfind']
    simp only [Option.map_some, Option.some.injEq, Vma.findPage]
    cases hold : w.pagesTree.get? u with
    | some g =>
      rw [(h.get?_iff hw hw').mpr (.inl hold)]
      simp only [h.mem_resident hmm hw hold]
    | none =>
      cases hnew : w'.pagesTree.get? u with
      | none => simp only [hsame.backing]
      | some g =>
        -- only the page of the fault has become resident
        rcases (h.get?_iff hw hw').mp hnew with hget | ⟨rfl, rfl, rfl⟩
        · rw [hold] at hget
          cases hget
        · cases hfind.symm.trans h.found
          simp only [h.added.mem, h.backing]

end PagedIn

def FaultPanic (mm : Mm) (p : Phys) (v : ℕ) (e : Panic) : Prop :=
  e = .outOfMemory ∧ ¬p.Supplies (1 + (p.missing mm.pagetable v).card) ∨ mm.findVma v = none ∨
    ∃ k vma, mm.findVma v = some (k, vma) ∧
    ((∃ f, vma.pagesTree.get? v = some f) ∨ vma.backing v = .error e)

-- The unifier looks into the sums with a page size.
set_option maxRecDepth 10000

/-- The handler brings the page in, unless it panics. The last panic is for a page whose entry
is in use though the area that is found has no page there. -/
theorem trapPageFaultHandler_sat (hok : AreasOk p mm.pagetable mm.areas)
    (hlow : ∀ k vma, mm.areas k = some vma → vma.endVaddr ≤ userSpaceEnd) (a : ℕ) :
    Sat (mm.trapPageFaultHandler a) p
      (fun mm' p' => ∃ k vma f pg, PagedIn mm p (Vaddr.down a) mm' p' k vma f pg)
      (fun e => FaultPanic mm p (Vaddr.down a) e ∨ (p.pte mm.pagetable (Vaddr.down a)).valid ∧
        ∃ k vma, mm.findVma (Vaddr.down a) = some (k, vma) ∧
          vma.pagesTree.get? (Vaddr.down a) = none) := by
  unfold Mm.trapPageFaultHandler
  refine Sat.lift_bind ?_ ?_
  · intro v hv
    obtain ⟨-, rfl⟩ := Vaddr.floor_eq_ok hv
    cases hfind : mm.findVma (Vaddr.down a) with
    | none => exact sat_throw (.inl (.inr (.inl hfind)))
    | some e =>
      obtain ⟨k, vma⟩ := e
      obtain ⟨hk, hin, -⟩ := findVma_eq_some.mp hfind
      refine Sat.ite ?_ ?_
      · intro hsome
        obtain ⟨f, hget⟩ := Option.isSome_iff_exists.mp hsome
        exact sat_throw (.inl (.inr (.inr ⟨k, vma, hfind, .inl ⟨f, hget⟩⟩)))
      · intro hnone
        have hget : vma.pagesTree.get? (Vaddr.down a) = none := by
          rwa [Option.not_isSome_iff_eq_none] at hnone
        have halign : Vaddr.isAlign (Vaddr.down a) := by
          simp [Vaddr.isAlign, Vaddr.down_mod]
        refine ((Vma.doAllocOnePage_sat hok hk (isUserPage_of_inVma (hlow k vma hk) hin halign) hget
          hin halign).weaken ?_).bind ?_
        · rintro e (he | ⟨-, hvalid⟩ | he)
          · exact .inl (.inl he)
          · exact .inr ⟨hvalid, k, vma, rfl, hget⟩
          · exact .inl (.inr (.inr ⟨k, vma, hfind, .inr he⟩))
        · rintro _ p' ⟨f, pg, rfl, hpg, hadd⟩
          exact sat_pure ⟨k, vma, f, pg, hfind, hget, hpg, hadd, rfl⟩
  · intro e he
    refine .inl (.inr (.inl ?_))
    cases hfind : mm.findVma (Vaddr.down a) with
    | none => rfl
    | some e =>
      have hlt := lt_of_findVma hlow hfind
      rw [Vaddr.floor_eq (by simp only [userSpaceEnd, pageSize, wordSize] at *; omega)] at he
      cases he

theorem Tidy.trapPageFaultHandler (h : Tidy mm p) (a : ℕ) :
    Sat (mm.trapPageFaultHandler a) p
      (fun mm' p' => ∃ k vma f pg, PagedIn mm p (Vaddr.down a) mm' p' k vma f pg)
      (FaultPanic mm p (Vaddr.down a)) := by
  refine (trapPageFaultHandler_sat h.ok h.low a).weaken ?_
  rintro e (he | ⟨hvalid, k, vma, hfind, hget⟩)
  · exact he
  · have hv := isUserPage_down (lt_of_findVma h.low hfind)
    rw [h.pte_absent hv fun j w hw => by cases hfind.symm.trans hw; exact hget] at hvalid
    cases hvalid

theorem Alike.trans {mm'' : Mm} {p'' : Phys} (h : Alike mm mm' p p') (h' : Alike mm' mm'' p' p'') :
    Alike mm mm'' p p'' :=
  ⟨h'.pagetable.trans h.pagetable, h'.startBrk.trans h.startBrk, h'.brk.trans h.brk,
    fun k => rel_trans (h.areas k) (h'.areas k), fun v => (h'.content v).trans (h.content v)⟩

def Resident (mm : Mm) (v : ℕ) (f : Frame) : Prop :=
  ∃ k vma, mm.findVma v = some (k, vma) ∧ vma.pagesTree.get? v = some f

theorem content_of_resident (h : Resident mm v f) : mm.content p v = some (.ok (p.mem f)) := by
  obtain ⟨k, vma, hfind, hget⟩ := h
  simp only [content, hfind, Option.map_some, Vma.findPage, hget]

structure Touched (mm : Mm) (p : Phys) (a : ℕ) (prot : PgFaultProt) (f : Frame) (mm' : Mm)
    (p' : Phys) : Prop where
  tidy : Tidy mm' p'
  alike : Alike mm mm' p p'
  allowed : mm.Allows a prot
  resident : Resident mm' (Vaddr.down a) f

/-- A page is mapped, or the allocator has frames for it and for the tables above it. -/
def HasRoom (mm : Mm) (p : Phys) (v : ℕ) : Prop :=
  (p.pte mm.pagetable v).valid ∨ p.Supplies (1 + (p.missing mm.pagetable v).card)

instance (mm : Mm) (p : Phys) (v : ℕ) : Decidable (mm.HasRoom p v) :=
  inferInstanceAs (Decidable (_ ∨ _))

def TouchPanic (mm : Mm) (p : Phys) (a : ℕ) (prot : PgFaultProt) (e : Panic) : Prop :=
  e = .outOfMemory ∧ ¬mm.HasRoom p (Vaddr.down a) ∨ ¬mm.Allows a prot ∨
    mm.content p (Vaddr.down a) = some (.error e)

theorem Tidy.translate_eq_some (h : Tidy mm p) (hf : Resident mm (Vaddr.down a) f)
    (hallow : mm.Allows a prot) : mm.translate p a prot = some f := by
  obtain ⟨k, vma, hfind, hget⟩ := hf
  obtain ⟨_, _, hfind', hpermits⟩ := hallow
  cases hfind.symm.trans hfind'
  rw [h.translate_resident hfind hget, if_pos hpermits]

theorem Tidy.touched_of_translate (h : Tidy mm p) (hf : mm.translate p a prot = some f) :
    Touched mm p a prot f mm p := by
  cases hfind : mm.findVma (Vaddr.down a) with
  | none =>
    rw [h.translate_absent (by simp [hfind])] at hf
    cases hf
  | some e =>
    obtain ⟨k, vma⟩ := e
    cases hget : vma.pagesTree.get? (Vaddr.down a) with
    | none =>
      rw [h.translate_absent] at hf
      · cases hf
      · intro j w hw
        cases hfind.symm.trans hw
        exact hget
    | some g =>
      rw [h.translate_resident hfind hget] at hf
      split_ifs at hf with hpermits
      cases hf
      exact ⟨h, .refl mm p, ⟨k, vma, hfind, hpermits⟩, k, vma, hfind, hget⟩

theorem Tidy.access_one (h : Tidy mm p) (hf : Resident mm (Vaddr.down a) f) :
    Sat (access a prot 1 mm) p (fun r p' => Touched mm p a prot r.1 r.2 p')
      fun _ => ¬mm.Allows a prot := by
  unfold access
  apply Sat.get_bind
  cases htrans : mm.translate p a prot with
  | some g => exact sat_pure (h.touched_of_translate htrans)
  | none =>
    have hdenied : ¬mm.Allows a prot := by
      intro hallow
      rw [h.translate_eq_some hf hallow] at htrans
      cases htrans
    refine ((h.trapPageFaultHandler a).weaken fun _ _ => hdenied).bind ?_
    intro mm' p' _
    exact sat_throw hdenied

/-- An access succeeds exactly when user code may touch the address and its page has a
content, as long as there is memory. -/
theorem Tidy.access (h : Tidy mm p) (a : ℕ) (prot : PgFaultProt) :
    Sat (access a prot accessTries mm) p (fun r p' => Touched mm p a prot r.1 r.2 p')
      (TouchPanic mm p a prot) := by
  rw [accessTries, Mm.access]
  apply Sat.get_bind
  cases htrans : mm.translate p a prot with
  | some f => exact sat_pure (h.touched_of_translate htrans)
  | none =>
    refine ((h.trapPageFaultHandler a).weaken ?_).bind ?_
    · intro e he
      by_cases hallow : mm.Allows a prot
      · have ⟨k, vma, hfind, _⟩ := hallow
        have hget : vma.pagesTree.get? (Vaddr.down a) = none := by
          refine Option.eq_none_iff_forall_ne_some.mpr fun f hget => ?_
          rw [h.translate_eq_some ⟨k, vma, hfind, hget⟩ hallow] at htrans
          cases htrans
        have hpte := h.pte_absent (isUserPage_down (lt_of_findVma h.low hfind)) fun j w hw => by
          cases hfind.symm.trans hw
          exact hget
        rcases he with ⟨he, hshort⟩ | hnone | ⟨j, w, hfind', ⟨f, hget'⟩ | he⟩
        · refine .inl ⟨he, ?_⟩
          rintro (hvalid | hroom)
          · rw [hpte] at hvalid
            cases hvalid
          · exact hshort hroom
        · cases hfind.symm.trans hnone
        · cases hfind.symm.trans hfind'
          cases hget.symm.trans hget'
        · cases hfind.symm.trans hfind'
          refine .inr (.inr ?_)
          simp only [content, hfind, Option.map_some, Vma.findPage, hget, he]
      · exact .inr (.inl hallow)
    · rintro mm' p' ⟨k, vma, f, pg, hin⟩
      have hresident : Resident mm' (Vaddr.down a) f :=
        ⟨k, _, hin.found', by simp [Vma.withPage]⟩
      have halike := hin.alike h
      refine ((hin.tidy h).access_one hresident).mono ?_ ?_
      · rintro r p'' htouched
        exact ⟨htouched.tidy, halike.trans htouched.alike, halike.allows_iff.mp htouched.allowed,
          htouched.resident⟩
      · intro e hdenied
        exact .inr (.inl fun hallow => hdenied (halike.allows_iff.mpr hallow))

theorem Tidy.userLoad (h : Tidy mm p) (a : ℕ) (prot : PgFaultProt) :
    Sat (mm.userLoad a prot) p
      (fun r p' => Tidy r.2 p' ∧ Alike mm r.2 p p' ∧ mm.Allows a prot ∧
        ∃ pg, mm.content p (Vaddr.down a) = some (.ok pg) ∧ r.1 = pg.byte (a % pageSize))
      (TouchPanic mm p a prot) := by
  unfold Mm.userLoad
  refine (h.access a prot).bind ?_
  rintro ⟨f, mm'⟩ p' htouched
  apply Sat.get_bind
  refine sat_pure ⟨htouched.tidy, htouched.alike, htouched.allowed, p'.mem f, ?_, rfl⟩
  rw [← htouched.alike.content, content_of_resident htouched.resident]

end Tidy

end Mm

end Zinix
