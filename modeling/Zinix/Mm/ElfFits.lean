import Zinix.Mm.ElfLoad

/-!
# Which images can be loaded

Whether the segments of a program, its heap and its stack fit can be told from the program
headers, and the frames taken are those of the stack and of the tables above it.
-/

namespace Zinix

open Program Phys

/-- There is room for the heap and the stack above the segments, and no segment reaches the
first page of an earlier one. -/
structure ImageFits (headers : List ProgramHeader) : Prop where
  below : ∀ ph ∈ headers, ph.isLoad → ph.pageEnd + 2 * pageSize ≤ Mm.stackTop
  apart : SegmentsApart headers

theorem imageFits_iff (headers : List ProgramHeader) : ImageFits headers ↔
    (∀ ph ∈ headers, ph.isLoad → ph.pageEnd + 2 * pageSize ≤ Mm.stackTop) ∧
      SegmentsApart headers :=
  ⟨fun h => ⟨h.below, h.apart⟩, fun h => ⟨h.1, h.2⟩⟩

instance (headers : List ProgramHeader) : Decidable (ImageFits headers) :=
  decidable_of_iff _ (imageFits_iff headers).symm

namespace Mm

variable {mm : Mm} {p : Phys} {headers : List ProgramHeader} {file : MappedFile}
  {v len : ℕ}

theorem pageEnd_mod (ph : ProgramHeader) : ph.pageEnd % pageSize = 0 := by
  have hstart := Vaddr.down_mod ph.virtualAddr
  have hup := Vaddr.up_mod (ph.memSize + (ph.virtualAddr - ph.pageStart))
  rw [ProgramHeader.pageEnd, Nat.add_mod, hup, ProgramHeader.pageStart, hstart]
  rfl

theorem Built.imageFits (h : Built headers file mm p) : ImageFits headers := by
  refine ⟨fun ph hph hload => ?_, h.apart⟩
  have hbelow := h.below ph hph hload
  have hmod := pageEnd_mod ph
  have halign := h.aligned
  have hheap := h.heap_lt
  have hbrk := h.brk_le
  have hstack : stackTop % pageSize = 0 := by decide
  have hbrkMod : mm.brk = mm.startBrk + pageSize := h.brk_eq
  rw [pageSize] at *
  omega

theorem allocUnmappedFixed_free {top : ℕ} (htop : v + len ≤ top) (hword : top < wordSize)
    (hnext : ∀ k vma, mm.areas k = some vma → v ≤ k → v + len ≤ k) :
    mm.allocUnmappedFixed v len top = .ok (some (.empty v (v + len))) := by
  have hadd : addUsize v len = .ok (v + len) := addUsize_ok (by omega)
  unfold allocUnmappedFixed
  cases hhead : (mm.vmas.range v top).head? with
  | none =>
    simp only [hadd, Checked.ok_bind]
    rfl
  | some e =>
    obtain ⟨k, w⟩ := e
    obtain ⟨hk, hle, -⟩ := OrdMap.mem_range.mp (List.mem_of_head? hhead)
    have hroom := hnext k w hk hle
    simp only [subUsize_ok hle, Checked.ok_bind, if_pos (show len ≤ k - v by omega), hadd]
    rfl

theorem allocUnmappedCore_free (mm : Mm) (hv : v % pageSize = 0) (hlen : len % pageSize = 0)
    (hpos : v < userSpaceEnd) (hlt : len < userSpaceEnd) (htop : v + len ≤ userSpaceEnd)
    (hnext : ∀ k vma, mm.areas k = some vma → v ≤ k → v + len ≤ k) :
    mm.allocUnmappedCore (some v) len true userSpaceStart userSpaceEnd =
      .ok (some (.empty v (v + len))) := by
  have hword : userSpaceEnd < wordSize := by decide
  have hstart : Vaddr.isAlign userSpaceStart = true := by decide
  have hend : Vaddr.isAlign userSpaceEnd = true := by decide
  have hsize : subUsize userSpaceEnd userSpaceStart = .ok userSpaceEnd := rfl
  have hv' : Vaddr.isAlign v = true := beq_iff_eq.mpr hv
  have hlen' : Vaddr.isAlign len = true := beq_iff_eq.mpr hlen
  unfold allocUnmappedCore
  rw [Checked.ensure_pos hlen', Checked.ensure_pos hstart, Checked.ensure_pos hend,
    Checked.ensure_pos (by decide)]
  simp only [Checked.ok_bind, hsize, if_neg (Nat.not_le.mpr hlt), addUsize_ok (htop.trans_lt hword),
    if_neg (Nat.not_lt.mpr htop)]
  rw [Checked.ensure_pos hv', Checked.ensure_pos (show userSpaceStart ≤ v from v.zero_le),
    Checked.ensure_pos hpos]
  simp only [Checked.ok_bind]
  exact allocUnmappedFixed_free htop hword hnext

-- The unifier looks into the sums with a page size.
set_option maxRecDepth 10000

theorem loadSegment_returns {pt : ℕ} {done rest : List ProgramHeader} {ph : ProgramHeader}
    {st : Mm × ℕ} (hfits : ImageFits (done ++ ph :: rest)) (h : Loaded file pt done st) :
    Sat (loadSegment file st ph) p (fun _ _ => True) fun _ => False := by
  obtain ⟨mm, loadEnd⟩ := st
  unfold loadSegment
  refine Sat.ite (fun hload => ?_) fun _ => sat_pure trivial
  have hbelow := hfits.below ph (by simp) hload
  have hdown := Vaddr.down_le ph.virtualAddr
  have hstart : ph.pageStart = Vaddr.down ph.virtualAddr := rfl
  have hend : ph.pageEnd =
      ph.pageStart + Vaddr.up (ph.memSize + (ph.virtualAddr - ph.pageStart)) := rfl
  have hup := Vaddr.le_up (ph.memSize + (ph.virtualAddr - ph.pageStart))
  have hstack : stackTop + pageSize < userSpaceEnd := by decide
  have hword : userSpaceEnd < wordSize := by decide
  have hpage : ph.virtualAddr < ph.pageStart + pageSize := by
    rw [hstart, Vaddr.down, pageSize]
    omega
  have hnext : ∀ k vma, mm.areas k = some vma → ph.pageStart ≤ k → ph.pageEnd ≤ k := by
    intro k vma hk hle
    have harea : mm.areas k = ((segmentsOf done).get? k).map fun ph => ph.area file pt := h.areas k
    rw [hk] at harea
    obtain ⟨S, hS, -⟩ := Option.map_eq_some_iff.mp harea.symm
    obtain ⟨hmem, hload', rfl⟩ := mem_of_segmentsOf hS
    have hpair := (List.pairwise_append.mp hfits.apart).2.2 S hmem ph List.mem_cons_self
    exact hpair hload' hload hle
  have hfloor := Vaddr.floor_eq (a := ph.virtualAddr) (by omega)
  have hceil := Vaddr.ceil_eq (a := ph.memSize + (ph.virtualAddr - ph.pageStart)) (by omega)
  have hplace := allocUnmappedCore_free mm (hstart ▸ Vaddr.down_mod ph.virtualAddr)
    (Vaddr.up_mod (ph.memSize + (ph.virtualAddr - ph.pageStart))) (by omega) (by omega)
    (by omega) (hend ▸ hnext)
  refine Sat.ok_bind hfloor ?_
  refine Sat.ok_bind (subUsize_ok hdown) ?_
  refine Sat.ok_bind (addUsize_ok (by omega)) ?_
  refine Sat.ok_bind hceil ?_
  refine Sat.ok_bind hplace ?_
  refine Sat.ensure_bind (fun _ => ?_) fun hnot => hnot (by omega)
  refine (insertNoCheck_bare fun old hold => (h.bare hold).1).bind ?_
  rintro mm' p' -
  exact sat_pure trivial

theorem addHeap_returns {loadEnd : ℕ} (hbare : ∀ k vma, mm.areas k = some vma → Bare vma)
    (hbelow : ∀ k vma, mm.areas k = some vma → k ≤ loadEnd)
    (hroom : Vaddr.up loadEnd + 2 * pageSize ≤ stackTop) :
    Sat (mm.addHeap loadEnd) p (fun mm' p' => mm'.brk ≤ stackTop ∧ p' = p)
      fun _ => False := by
  have hle := Vaddr.le_up loadEnd
  have hmod := Vaddr.up_mod loadEnd
  have hstack : stackTop + pageSize < userSpaceEnd := by decide
  have hword : userSpaceEnd < wordSize := by decide
  have hsize : userHeapVmaInitNrPages * pageSize = pageSize := by decide
  have hpos : 0 < pageSize := by decide
  unfold addHeap
  refine Sat.ok_bind (Vaddr.ceil_eq (by omega)) ?_
  refine Sat.ok_bind (addUsize_ok (by omega)) ?_
  refine Sat.ok_bind (addUsize_ok (by omega)) ?_
  refine Sat.ok_bind (allocUnmappedCore_free _ (by rw [Nat.add_mod_right, hmod]) (by decide)
    (by omega) (by omega) (by omega) fun k vma hk hge => ?_) ?_
  · have hk' := hbelow k vma hk
    omega
  · refine (insertNoCheck_bare ?_).imp ?_
    · exact fun old hold => hbare _ old hold
    · rintro _ _ ⟨rfl, rfl⟩
      refine ⟨?_, rfl⟩
      show Vaddr.up loadEnd + pageSize + userHeapVmaInitNrPages * pageSize ≤ stackTop
      omega

def stackPages : List ℕ := (List.range userStackSizeNrPages).map fun i => stackTop + i * pageSize

/-- The frames of a new address space: the root of its page table, the stack and the tables
above it. -/
def stackFrames : ℕ := framesFor stackPages

example : stackFrames = 19 := by decide

theorem addStack_returns {p₀ : Phys} (hok : AreasOk p mm.pagetable mm.areas)
    (hbare : ∀ k vma, mm.areas k = some vma → Bare vma)
    (hbelow : ∀ k vma, mm.areas k = some vma → k < stackTop)
    (hpaid : Paid p₀ p mm.pagetable []) :
    Sat mm.addStack p (fun _ p' => Spent stackFrames p₀ p')
      (Short stackFrames p₀) := by
  have hempty : ∀ v f, ¬Holds mm.areas stackTop v f := by
    rintro v f ⟨vma, hvma, -⟩
    exact (hbelow stackTop vma hvma).false
  have hplace : mm.allocUnmappedCore (some stackTop) (userStackSizeNrPages * pageSize) true
      userSpaceStart userSpaceEnd = .ok (some (.empty stackTop userStackMaxAddr)) :=
    allocUnmappedCore_free mm (by decide) (by decide) (by decide) (by decide) (by decide)
      fun k vma hk hge => absurd (hbelow k vma hk) (Nat.not_lt.mpr hge)
  unfold addStack
  refine Sat.ok_bind hplace ?_
  refine Sat.bind (R := fun (v : Vma) p' => Growing mm p' (List.range userStackSizeNrPages) v ∧
    Paid p₀ p' mm.pagetable stackPages) ?_ ?_
  · refine Sat.foldlM (fun done (v : Vma) p' => Growing mm p' done v ∧
      Paid p₀ p' mm.pagetable (done.map fun i => stackTop + i * pageSize)) ?_ ⟨.start hok hempty, hpaid⟩
    rintro done i rest hsplit v p' ⟨hv, hpaid⟩
    obtain ⟨hi, hnew⟩ := stackPage_next hsplit
    have hown := (isUserPage_of_inVma hv.spans.2.le (hv.inVma hi) (isAlign_stackPage i)).own
    have hpages : (done ++ [i]).map (fun i => stackTop + i * pageSize) =
        done.map (fun i => stackTop + i * pageSize) ++ [stackTop + i * pageSize] := by
      simp
    have hnext : (done ++ [i]).map (fun i => stackTop + i * pageSize) <+: stackPages := by
      refine List.IsPrefix.map _ ⟨rest, ?_⟩
      rw [hsplit, List.append_assoc]
      rfl
    refine ((hv.doAllocOnePage hi hnew hbare).weaken fun e he => ?_).bind ?_
    · have hall := he.of_spent hpaid.spent
      rw [← hpaid.framesFor_concat hown, ← hpages] at hall
      exact hall.mono (framesFor_mono hnext)
    · rintro ⟨r, v'⟩ p'' ⟨hv', -, -, hspent, hhung⟩
      exact ⟨hv', hpages ▸ hpaid.concat hown hspent hhung⟩
  · rintro v p' ⟨hv, hpaid⟩
    refine (insertNoCheck_bare fun old hold => hbare _ old hold).imp ?_
    rintro mm' p'' ⟨-, rfl⟩
    exact hpaid.spent

theorem newEmptyUserMm_paid (hkernel : p.tables kernelPagetable ≠ []) :
    Sat newEmptyUserMm p (fun mm p' => Paid p p' mm.pagetable [])
      (Short stackFrames p) := by
  unfold newEmptyUserMm
  refine ((PageTable.newUser_sat hkernel).weaken fun _ he => he.mono (by decide)).bind ?_
  rintro pt p' ⟨-, -, -, -, hspent, htables⟩
  refine sat_pure ⟨hspent, fun q hq => ?_⟩
  show p'.hasTable pt q = true ↔ _
  rw [htables q hq]
  simp [tablesOf]

theorem newFromElf_returns (hfits : ImageFits headers) (hkernel : p.tables kernelPagetable ≠ []) :
    Sat (newFromElf headers file) p (fun _ p' => Spent stackFrames p p')
      (Short stackFrames p) := by
  unfold newFromElf
  refine (((newEmptyUserMm_paid hkernel).and newEmptyUserMm_sat).weaken
    fun _ he => he.1).bind ?_
  rintro mm₀ p₀ ⟨hpaid, hblank⟩
  refine Sat.bind (R := fun st p' => p' = p₀ ∧ Loaded file mm₀.pagetable headers st) ?_ ?_
  · refine Sat.foldlM (fun done st p' => p' = p₀ ∧ Loaded file mm₀.pagetable done st) ?_
      ⟨rfl, hblank.loaded file⟩
    rintro done ph rest hsplit st _ ⟨rfl, hst⟩
    exact ((loadSegment_sat hst ph).and (loadSegment_returns (hsplit ▸ hfits) hst)).mono
      (fun _ _ hq => hq.1) fun _ he => he.2.elim
  rintro ⟨mm₁, loadEnd⟩ _ ⟨rfl, hloaded⟩
  have hkeys : ∀ k vma, mm₁.areas k = some vma → k ≤ loadEnd := by
    intro k vma hk
    have harea : mm₁.areas k = ((segmentsOf headers).get? k).map fun ph =>
      ph.area file mm₀.pagetable := hloaded.areas k
    rw [hk] at harea
    obtain ⟨ph, hget, -⟩ := Option.map_eq_some_iff.mp harea.symm
    obtain ⟨hmem, hload, rfl⟩ := mem_of_segmentsOf hget
    exact (pageStart_le_pageEnd ph).trans (hloaded.below ph hmem hload)
  have hroom : Vaddr.up loadEnd + 2 * pageSize ≤ stackTop := by
    rcases hloaded.reached with hzero | ⟨ph, hmem, hload, hlast⟩
    · rw [show loadEnd = 0 from hzero]
      decide
    · have hmod := pageEnd_mod ph
      rw [show loadEnd = ph.pageEnd from hlast, Vaddr.up_of_aligned hmod]
      exact (Nat.add_le_add_right (Vaddr.down_le _) _).trans (hfits.below ph hmem hload)
  refine (((addHeap_heaped hblank hloaded).and (addHeap_returns (fun k vma hk =>
    (hloaded.bare hk).1) hkeys hroom)).weaken fun _ he => he.2.elim).bind ?_
  rintro mm₂ _ ⟨hheaped, hbrk, rfl⟩
  refine addStack_returns hheaped.ok hheaped.bare ?_ ?_
  · intro k vma hk
    have hend := hheaped.brk_eq
    have hpos : 0 < pageSize := by decide
    rcases hheaped.only k vma hk with ⟨ph, hget, -⟩ | rfl
    · obtain ⟨hmem, hload, rfl⟩ := mem_of_segmentsOf hget
      have hbelow := hheaped.below ph hmem hload
      have hle := pageStart_le_pageEnd ph
      omega
    · omega
  · rwa [hheaped.pagetable, ← hblank.pagetable]

end Mm

end Zinix
