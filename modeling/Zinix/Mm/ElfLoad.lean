import Zinix.Mm.Paging

/-!
# What `new_from_elf` builds

The address space has an area for each loaded segment, a heap one page above them and the
stack at the top. A segment whose first page is that of an earlier one replaces it.
-/

namespace Zinix

open Program Phys

variable {headers : List ProgramHeader} {ph : ProgramHeader}

namespace ProgramHeader

def pageStart (ph : ProgramHeader) : ℕ := Vaddr.down ph.virtualAddr

def pageEnd (ph : ProgramHeader) : ℕ :=
  ph.pageStart + Vaddr.up (ph.memSize + (ph.virtualAddr - ph.pageStart))

def area (ph : ProgramHeader) (file : MappedFile) (pagetable : ℕ) : Vma :=
  { Vma.empty ph.pageStart ph.pageEnd with
    fileInVmaOff := ph.virtualAddr - ph.pageStart
    file := some file
    vmFlags := ph.vmFlags
    pagetable := some pagetable
    fileLen := ph.fileSize
    fileOff := ph.offset }

end ProgramHeader

/-- The loaded segments by the addresses of their first pages. -/
def segmentsOf (headers : List ProgramHeader) : OrdMap ProgramHeader :=
  headers.foldl (fun m ph => if ph.isLoad then m.insert ph.pageStart ph else m) ∅

/-- A segment does not reach the first page of an earlier one from below. -/
def SegmentsApart (headers : List ProgramHeader) : Prop :=
  headers.Pairwise fun a b => a.isLoad → b.isLoad → b.pageStart ≤ a.pageStart →
    b.pageEnd ≤ a.pageStart

instance (headers : List ProgramHeader) : Decidable (SegmentsApart headers) :=
  inferInstanceAs (Decidable (List.Pairwise _ headers))

theorem segmentsOf_append (headers : List ProgramHeader) (ph : ProgramHeader) :
    segmentsOf (headers ++ [ph]) =
      if ph.isLoad then (segmentsOf headers).insert ph.pageStart ph else segmentsOf headers := by
  rw [segmentsOf, List.foldl_append]
  rfl

theorem mem_of_segmentsOf {k : ℕ} (h : (segmentsOf headers).get? k = some ph) :
    ph ∈ headers ∧ ph.isLoad ∧ ph.pageStart = k := by
  induction headers using List.reverseRecOn with
  | nil => cases h
  | append_singleton headers last ih =>
    have hold : (segmentsOf headers).get? k = some ph →
        ph ∈ headers ++ [last] ∧ ph.isLoad ∧ ph.pageStart = k := by
      intro hget
      obtain ⟨hmem, hrest⟩ := ih hget
      exact ⟨List.mem_append_left _ hmem, hrest⟩
    rw [segmentsOf_append] at h
    by_cases hload : last.isLoad
    · rw [if_pos hload, OrdMap.get?_insert] at h
      by_cases hk : k = last.pageStart
      · rw [if_pos hk] at h
        cases h
        exact ⟨by simp, hload, hk.symm⟩
      · rw [if_neg hk] at h
        exact hold h
    · rw [if_neg hload] at h
      exact hold h

theorem exists_segmentsOf (hph : ph ∈ headers) (hload : ph.isLoad) :
    ∃ S, (segmentsOf headers).get? ph.pageStart = some S := by
  induction headers using List.reverseRecOn with
  | nil => cases hph
  | append_singleton headers last ih =>
    rw [segmentsOf_append]
    rcases List.mem_append.mp hph with hmem | hmem
    · obtain ⟨S, hS⟩ := ih hmem
      split_ifs
      · rw [OrdMap.get?_insert]
        split_ifs
        · exact ⟨last, rfl⟩
        · exact ⟨S, hS⟩
      · exact ⟨S, hS⟩
    · obtain rfl := List.mem_singleton.mp hmem
      rw [if_pos hload, OrdMap.get?_insert, if_pos rfl]
      exact ⟨ph, rfl⟩

namespace Mm

variable {mm : Mm} {p : Phys}
  {len rangeStart rangeEnd : ℕ} {toHigh : Bool} {w : Vma} {vaddr : Option ℕ}
  {E : Panic → Prop}

/-- A place at a fixed address lies in the range and does not reach the next area. -/
theorem allocUnmappedCore_fixed {vi : ℕ}
    (h : mm.allocUnmappedCore (some vi) len toHigh rangeStart rangeEnd = .ok (some w)) :
    w = .empty vi (vi + len) ∧ vi + len ≤ rangeEnd ∧
      ∀ k vma, mm.areas k = some vma → vi ≤ k → vi + len ≤ k := by
  unfold Mm.allocUnmappedCore at h
  obtain ⟨-, -, h⟩ := Checked.bind_eq_ok.mp h
  obtain ⟨-, -, h⟩ := Checked.bind_eq_ok.mp h
  obtain ⟨-, -, h⟩ := Checked.bind_eq_ok.mp h
  obtain ⟨-, -, h⟩ := Checked.bind_eq_ok.mp h
  obtain ⟨size, -, h⟩ := Checked.bind_eq_ok.mp h
  by_cases hbig : size ≤ len
  · rw [if_pos hbig] at h
    cases h
  rw [if_neg hbig] at h
  obtain ⟨e, he, h⟩ := Checked.bind_eq_ok.mp h
  obtain ⟨-, rfl⟩ := addUsize_eq_ok.mp he
  split_ifs at h with hend
  · cases h
  obtain ⟨-, -, h⟩ := Checked.bind_eq_ok.mp h
  obtain ⟨-, -, h⟩ := Checked.bind_eq_ok.mp h
  obtain ⟨-, -, h⟩ := Checked.bind_eq_ok.mp h
  obtain ⟨hw, hnext⟩ := allocUnmappedFixed_ok h (Nat.not_lt.mp hend)
  exact ⟨hw, Nat.not_lt.mp hend, hnext⟩

theorem allocUnmappedCore_aligned
    (h : mm.allocUnmappedCore vaddr len toHigh rangeStart rangeEnd = .ok (some w)) :
    len % pageSize = 0 ∧ ∀ vi, vaddr = some vi → vi % pageSize = 0 := by
  unfold Mm.allocUnmappedCore at h
  obtain ⟨u, hlen, h⟩ := Checked.bind_eq_ok.mp h
  refine ⟨by simpa [Vaddr.isAlign] using Checked.ensure_eq_ok.mp hlen, ?_⟩
  rintro vi rfl
  obtain ⟨-, -, h⟩ := Checked.bind_eq_ok.mp h
  obtain ⟨-, -, h⟩ := Checked.bind_eq_ok.mp h
  obtain ⟨-, -, h⟩ := Checked.bind_eq_ok.mp h
  obtain ⟨size, -, h⟩ := Checked.bind_eq_ok.mp h
  by_cases hbig : size ≤ len
  · rw [if_pos hbig] at h
    cases h
  rw [if_neg hbig] at h
  obtain ⟨e, he, h⟩ := Checked.bind_eq_ok.mp h
  split_ifs at h
  · cases h
  obtain ⟨u, halign, -⟩ := Checked.bind_eq_ok.mp h
  simpa [Vaddr.isAlign] using Checked.ensure_eq_ok.mp halign

/-- The search for a place stops with a failed assertion or an overflow only. -/
theorem avoids_allocUnmappedCore :
    (mm.allocUnmappedCore vaddr len toHigh rangeStart rangeEnd).Avoids .todo := by
  have hplace : ∀ a b, Checked.Avoids (do return some (Vma.empty a (← addUsize a b))) .todo := by
    intro a b
    refine .bind (avoids_addUsize nofun) fun _ => ?_
    exact Checked.avoids_ok _
  have hbelow : ∀ a b, Checked.Avoids (do return some (Vma.empty (← subUsize a b) a)) .todo := by
    intro a b
    refine .bind (avoids_subUsize nofun) fun _ => ?_
    exact Checked.avoids_ok _
  have hhigh : ∀ last l, (fitHigh len rangeEnd last l).Avoids .todo := by
    intro last l
    induction l generalizing last with
    | nil =>
      refine .bind (avoids_subUsize nofun) fun gap => ?_
      split_ifs
      · exact hplace _ _
      · exact Checked.avoids_ok _
    | cons e rest ih =>
      refine .bind (avoids_subUsize nofun) fun gap => ?_
      split_ifs
      · exact hplace _ _
      · exact ih _
  have hlow : ∀ last l, (fitLow len rangeStart last l).Avoids .todo := by
    intro last l
    induction l generalizing last with
    | nil =>
      refine .bind (avoids_subUsize nofun) fun gap => ?_
      split_ifs
      · exact hbelow _ _
      · exact Checked.avoids_ok _
    | cons e rest ih =>
      refine .bind (avoids_subUsize nofun) fun gap => ?_
      split_ifs
      · exact hbelow _ _
      · exact ih _
  unfold Mm.allocUnmappedCore
  refine .bind (Checked.avoids_ensure nofun) fun _ => ?_
  refine .bind (Checked.avoids_ensure nofun) fun _ => ?_
  refine .bind (Checked.avoids_ensure nofun) fun _ => ?_
  refine .bind (Checked.avoids_ensure nofun) fun _ => ?_
  refine .bind (avoids_subUsize nofun) fun size => ?_
  by_cases hsize : size ≤ len
  · rw [if_pos hsize]
    exact Checked.avoids_ok _
  rw [if_neg hsize]
  cases vaddr with
  | none =>
    split_ifs
    · exact hhigh _ _
    · exact hlow _ _
  | some vi =>
    refine .bind (avoids_addUsize nofun) fun top => ?_
    split_ifs
    · exact Checked.avoids_ok _
    refine .bind (Checked.avoids_ensure nofun) fun _ => ?_
    refine .bind (Checked.avoids_ensure nofun) fun _ => ?_
    refine .bind (Checked.avoids_ensure nofun) fun _ => ?_
    unfold Mm.allocUnmappedFixed
    cases (mm.vmas.range vi rangeEnd).head? with
    | none => exact hplace _ _
    | some e =>
      refine .bind (avoids_subUsize nofun) fun gap => ?_
      split_ifs
      · exact hplace _ _
      · exact Checked.avoids_ok _

def Bare (vma : Vma) : Prop := vma.pagesTree = ∅ ∧ vma.cowWriteReservePgs = none

theorem drop_bare {vma : Vma} (h : Bare vma) :
    Sat vma.drop p (fun _ p' => p' = p) E := by
  have hfilter : (p.live.filter fun f => f ∉ vma.pagesTree.entries.map Prod.snd ∧
      f ∉ (vma.cowWriteReservePgs.getD ∅).entries.map Prod.snd) = p.live := by
    refine Finset.filter_true_of_mem fun f _ => ?_
    rw [h.1, h.2]
    exact ⟨List.not_mem_nil, List.not_mem_nil⟩
  unfold Vma.drop
  rw [h.1]
  refine Sat.bind (R := fun _ p' => p' = p) rfl ?_
  rintro _ _ rfl
  refine sat_modify ?_
  rw [h.1] at hfilter
  rw [hfilter]

theorem insertNoCheck_bare {new : Vma} (h : ∀ old, mm.areas new.startVaddr = some old → Bare old) :
    Sat (mm.insertNoCheck new) p (fun mm' p' => mm' = mm.setVma new.startVaddr new ∧ p' = p) E := by
  unfold Mm.insertNoCheck
  cases hold : mm.vmas.get? new.startVaddr with
  | none => exact ⟨rfl, rfl⟩
  | some old =>
    refine (drop_bare (h old hold)).bind ?_
    rintro _ _ rfl
    exact ⟨rfl, rfl⟩

section Load

variable {file : MappedFile} {pt : ℕ} {done headers : List ProgramHeader} {st : Mm × ℕ} {v : Vma}
  {p' : Phys}

-- The unifier looks into the sums with a page size.
set_option maxRecDepth 10000

/-- The areas made so far are those of the segments that were visited. -/
structure Loaded (file : MappedFile) (pt : ℕ) (done : List ProgramHeader) (st : Mm × ℕ) :
    Prop where
  pagetable : st.1.pagetable = pt
  areas : ∀ k, st.1.areas k = ((segmentsOf done).get? k).map fun ph => ph.area file pt
  below : ∀ ph ∈ done, ph.isLoad → ph.pageEnd ≤ st.2
  end_le : st.2 ≤ userSpaceEnd
  reached : st.2 = 0 ∨ ∃ ph ∈ done, ph.isLoad ∧ st.2 = ph.pageEnd
  apart : SegmentsApart done

theorem Loaded.bare (h : Loaded file pt done st) {k : ℕ} {vma : Vma}
    (hk : st.1.areas k = some vma) :
    Bare vma ∧ vma.pagetable = some pt := by
  rw [h.areas] at hk
  obtain ⟨ph, -, rfl⟩ := Option.map_eq_some_iff.mp hk
  exact ⟨⟨rfl, rfl⟩, rfl⟩

theorem loadSegment_sat (h : Loaded file pt done st) (ph : ProgramHeader) :
    Sat (loadSegment file st ph) p
      (fun st' p' => p' = p ∧ Loaded file pt (done ++ [ph]) st') (· ≠ .todo) := by
  obtain ⟨mm, loadEnd⟩ := st
  unfold loadSegment
  refine Sat.ite (fun hload => ?_) fun hload => ?_
  swap
  · refine sat_pure ⟨rfl, ?_⟩
    obtain ⟨hpt, hareas, hbelow, hend, hreached, hapart⟩ := h
    refine ⟨hpt, ?_, ?_, hend, ?_, ?_⟩
    · rwa [segmentsOf_append, if_neg hload]
    · intro ph' hmem hload'
      rcases List.mem_append.mp hmem with hmem | hmem
      · exact hbelow ph' hmem hload'
      · rw [List.mem_singleton.mp hmem] at hload'
        exact absurd hload' hload
    · refine hreached.imp_right ?_
      rintro ⟨ph', hmem, hlast⟩
      exact ⟨ph', List.mem_append_left _ hmem, hlast⟩
    · refine List.pairwise_append.mpr ⟨hapart, List.pairwise_singleton .., fun a _ b hb _ hload' => ?_⟩
      rw [List.mem_singleton.mp hb] at hload'
      exact absurd hload' hload
  refine Sat.lift_bind (fun sAddr hs => ?_) (Vaddr.avoids_floor nofun)
  refine Sat.lift_bind (fun offset hoff => ?_) (avoids_subUsize nofun)
  refine Sat.lift_bind (fun size hsize => ?_) (avoids_addUsize nofun)
  refine Sat.lift_bind (fun sizeAligned haligned => ?_) (Vaddr.avoids_ceil nofun)
  refine Sat.lift_bind (fun place hplace => ?_) avoids_allocUnmappedCore
  obtain ⟨-, rfl⟩ := Vaddr.floor_eq_ok hs
  obtain ⟨-, rfl⟩ := subUsize_eq_ok.mp hoff
  obtain ⟨-, rfl⟩ := addUsize_eq_ok.mp hsize
  obtain ⟨-, rfl⟩ := Vaddr.ceil_eq_ok haligned
  cases place with
  | none => exact sat_throw nofun
  | some w =>
    obtain ⟨rfl, hrange, hnext⟩ := allocUnmappedCore_fixed hplace
    refine Sat.ensure_bind (fun _ => ?_) fun _ => nofun
    refine (insertNoCheck_bare fun old hold => (h.bare hold).1).bind ?_
    rintro mm' p' ⟨rfl, rfl⟩
    refine sat_pure ⟨rfl, h.pagetable, ?_, ?_, max_le h.end_le hrange, ?_, ?_⟩
    · intro k
      rw [segmentsOf_append, if_pos hload, OrdMap.get?_insert, areas_setVma]
      by_cases hk : k = ph.pageStart
      · rw [if_pos hk, hk, Option.map_some, ← h.pagetable]
        exact replaceAt_self
      · rw [if_neg hk, ← h.areas k]
        exact replaceAt_of_ne hk
    · intro ph' hmem hload'
      rcases List.mem_append.mp hmem with hmem | hmem
      · exact (h.below ph' hmem hload').trans (le_max_left _ _)
      · rw [List.mem_singleton.mp hmem]
        exact le_max_right _ _
    · rcases max_choice loadEnd ph.pageEnd with hmax | hmax
      · refine h.reached.imp hmax.trans ?_
        rintro ⟨ph', hmem, hload', hlast⟩
        exact ⟨ph', List.mem_append_left _ hmem, hload', hmax.trans hlast⟩
      · exact .inr ⟨ph, by simp, hload, hmax⟩
    · refine List.pairwise_append.mpr ⟨h.apart, List.pairwise_singleton .., ?_⟩
      intro a ha b hb hload' _ hle
      obtain rfl := List.mem_singleton.mp hb
      obtain ⟨S, hS⟩ := exists_segmentsOf ha hload'
      have harea := h.areas a.pageStart
      rw [hS] at harea
      exact hnext _ _ harea hle

def Spans (vma : Vma) (startVaddr endVaddr : ℕ) : Prop :=
  vma.startVaddr = startVaddr ∧ vma.endVaddr = endVaddr

theorem addHeap_sat {loadEnd : ℕ} (hbare : ∀ k vma, mm.areas k = some vma → Bare vma) :
    Sat (mm.addHeap loadEnd) p
      (fun mm' p' => p' = p ∧ mm'.pagetable = mm.pagetable ∧
        (∃ heap, mm'.areas = replaceAt mm.areas mm'.startBrk (some heap) ∧
          Spans heap mm'.startBrk mm'.brk ∧ Bare heap ∧ heap.pagetable = some mm.pagetable) ∧
        loadEnd < mm'.startBrk ∧ mm'.startBrk % pageSize = 0 ∧
        mm'.brk = mm'.startBrk + pageSize ∧ mm'.brk ≤ userSpaceEnd) (· ≠ .todo) := by
  unfold addHeap
  refine Sat.lift_bind (fun up hup => ?_) (Vaddr.avoids_ceil nofun)
  refine Sat.lift_bind (fun heapStart hstart => ?_) (avoids_addUsize nofun)
  refine Sat.lift_bind (fun brk hbrk => ?_) (avoids_addUsize nofun)
  refine Sat.lift_bind (fun place hplace => ?_) avoids_allocUnmappedCore
  obtain ⟨-, rfl⟩ := Vaddr.ceil_eq_ok hup
  obtain ⟨-, rfl⟩ := addUsize_eq_ok.mp hstart
  obtain ⟨-, rfl⟩ := addUsize_eq_ok.mp hbrk
  cases place with
  | none => exact sat_throw nofun
  | some w =>
    obtain ⟨rfl, hrange, -⟩ := allocUnmappedCore_fixed hplace
    refine (insertNoCheck_bare ?_).imp ?_
    · exact fun old hold => hbare _ old hold
    rintro mm' p' ⟨rfl, rfl⟩
    refine ⟨rfl, rfl, ⟨_, areas_setVma .., ⟨rfl, rfl⟩, ⟨rfl, rfl⟩, rfl⟩, ?_, ?_, ?_, hrange⟩
    · have hle := Vaddr.le_up loadEnd
      show loadEnd < Vaddr.up loadEnd + pageSize
      rw [pageSize]
      omega
    · have hmod := Vaddr.up_mod loadEnd
      show (Vaddr.up loadEnd + pageSize) % pageSize = 0
      rw [Nat.add_mod_right, hmod]
    · show Vaddr.up loadEnd + pageSize + userHeapVmaInitNrPages * pageSize = _
      rw [userHeapVmaInitNrPages, Nat.one_mul]
      rfl

structure Growing (mm : Mm) (p : Phys) (done : List ℕ) (v : Vma) : Prop where
  spans : Spans v stackTop userStackMaxAddr
  plain : v.cowWriteReservePgs = none
  anon : v.isAnon
  ok : AreasOk p mm.pagetable (replaceAt mm.areas stackTop (some v))
  pages : ∀ u f, v.pagesTree.get? u = some f → ∃ i ∈ done, u = stackTop + i * pageSize
  permits : v.permits .read = true
  resident : ∀ i ∈ done, ∃ f, v.pagesTree.get? (stackTop + i * pageSize) = some f

theorem permits_anonVmFlags (h : v.vmFlags = anonVmFlags) : v.permits .read = true := by
  rw [Vma.permits, h]
  decide

theorem isAnon_anonVmFlags (h : v.vmFlags = anonVmFlags) : v.isAnon := by
  rw [Vma.isAnon, h]
  decide

theorem isAlign_stackPage (i : ℕ) : Vaddr.isAlign (stackTop + i * pageSize) := by
  simp only [Vaddr.isAlign, beq_iff_eq, Nat.add_mul_mod_self_right]
  rfl

theorem Growing.start (hok : AreasOk p mm.pagetable mm.areas)
    (hempty : ∀ v f, ¬Holds mm.areas stackTop v f) :
    Growing mm p [] { Vma.empty stackTop (stackTop + userStackSizeNrPages * pageSize) with
      vmFlags := anonVmFlags, pagetable := some mm.pagetable } := by
  refine ⟨⟨rfl, rfl⟩, rfl, isAnon_anonVmFlags rfl, hok.insertEmpty hempty rfl rfl, ?_,
    permits_anonVmFlags rfl, ?_⟩
  · intro u f hget
    cases hget
  · intro i hi
    cases hi

section Growing

variable {done : List ℕ} {v : Vma} (h : Growing mm p done v) {i : ℕ}

include h

theorem Growing.inVma (hi : i < userStackSizeNrPages) : v.inVma (stackTop + i * pageSize) := by
  simp only [userStackSizeNrPages] at hi
  rw [Vma.inVma_iff, h.spans.1, h.spans.2]
  simp only [stackTop, userStackMaxAddr, userStackSizeNrPages, pageSize]
  omega

theorem Growing.absent (hnew : i ∉ done) : v.pagesTree.get? (stackTop + i * pageSize) = none := by
  cases hget : v.pagesTree.get? (stackTop + i * pageSize) with
  | none => rfl
  | some f =>
    obtain ⟨j, hj, heq⟩ := h.pages _ f hget
    simp only [pageSize] at heq
    have hij : i = j := by omega
    exact absurd (hij ▸ hj) hnew

theorem Growing.doAllocOnePage (hi : i < userStackSizeNrPages) (hnew : i ∉ done)
    (hbare : ∀ k vma, mm.areas k = some vma → Bare vma) :
    Sat (v.doAllocOnePage (stackTop + i * pageSize)) p
      (fun r p' => Growing mm p' (done ++ [i]) r.2 ∧ p'.tableCnt = p.tableCnt ∧
        Local p (replaceAt mm.areas stackTop (some v)) p'
          (replaceAt mm.areas stackTop (some r.2)) mm.pagetable ∧
        Spent (1 + (p.missing mm.pagetable (stackTop + i * pageSize)).card) p p' ∧
        Hung userOwn p p' mm.pagetable (tablePaths (stackTop + i * pageSize)))
      (Short (1 + (p.missing mm.pagetable (stackTop + i * pageSize)).card) p) := by
  have hin := h.inVma hi
  have hnone := h.absent hnew
  have halign := isAlign_stackPage i
  obtain ⟨hstart, hend⟩ := h.spans
  have hv := isUserPage_of_inVma hend.le hin halign
  refine (Vma.doAllocOnePage_sat h.ok replaceAt_self hv hnone hin halign).mono ?_ ?_
  swap
  · rintro _ (he | ⟨-, hvalid⟩ | hback)
    · exact he
    · -- no other area has a page
      obtain ⟨k, f, hf⟩ := h.ok.covered _ hv hvalid
      rcases holds_replaceAt.mp hf with ⟨-, hget⟩ | ⟨-, vma, hvma, hget⟩
      · rw [hnone] at hget
        cases hget
      · rw [(hbare k vma hvma).1, OrdMap.get?_empty] at hget
        cases hget
    · rw [Vma.backing, if_pos h.anon] at hback
      cases hback
  rintro _ p' ⟨f, pg, rfl, -, hadd⟩
  have hsame := PagedIn.sameArea v (stackTop + i * pageSize) f
  have hlocal := hadd.isLocal replaceAt_self hnone (Vma.touched_pagesTree (v.withPage _ f))
  rw [replaceAt_replaceAt] at hlocal
  refine ⟨⟨⟨hsame.startVaddr.trans hstart, hsame.endVaddr.trans hend⟩, ?_,
    hsame.anon.trans h.anon, ?_, ?_, ?_, ?_⟩, hadd.grows.cnt, hlocal, hadd.spent, hadd.hung⟩
  · show ((v.withPage _ f).touched).cowWriteReservePgs = none
    unfold Vma.touched
    split_ifs
    · exact h.plain
    · exact h.plain
  · have hok := hadd.ok_touched
    rwa [replaceAt_replaceAt] at hok
  · intro u g hget
    simp only [Vma.touched_pagesTree, Vma.withPage, OrdMap.get?_insert] at hget
    split_ifs at hget with hu
    · exact ⟨i, by simp, hu⟩
    · obtain ⟨j, hj, heq⟩ := h.pages u g hget
      exact ⟨j, by simp [hj], heq⟩
  · rw [hsame.permits, h.permits]
  · intro j hj
    simp only [Vma.touched_pagesTree, Vma.withPage, OrdMap.get?_insert]
    split_ifs with hu
    · exact ⟨f, rfl⟩
    · rcases List.mem_append.mp hj with hj | hj
      · exact h.resident j hj
      · exact absurd (by rw [List.mem_singleton.mp hj]) hu

end Growing

theorem stackPage_next {done rest : List ℕ} {i : ℕ}
    (h : List.range userStackSizeNrPages = done ++ i :: rest) :
    i < userStackSizeNrPages ∧ i ∉ done := by
  have hmem : i ∈ List.range userStackSizeNrPages := by
    rw [h]
    simp
  have hnodup : (done ++ i :: rest).Nodup := h ▸ List.nodup_range
  exact ⟨List.mem_range.mp hmem, fun hi =>
    (List.nodup_append.mp hnodup).2.2 i hi i List.mem_cons_self rfl⟩

theorem addStack_sat (hok : AreasOk p mm.pagetable mm.areas)
    (hbare : ∀ k vma, mm.areas k = some vma → Bare vma) :
    Sat mm.addStack p
      (fun mm' p' => ∃ stack, mm' = mm.setVma stackTop stack ∧
        (∀ k vma, mm.areas k = some vma → stackTop ≤ k → userSpaceEnd ≤ k) ∧
        Growing mm p' (List.range userStackSizeNrPages) stack ∧ p'.tableCnt = p.tableCnt ∧
        Local p mm.areas p' mm'.areas mm.pagetable) (· ≠ .todo) := by
  unfold addStack
  refine Sat.lift_bind (fun place hplace => ?_) avoids_allocUnmappedCore
  cases place with
  | none => exact sat_throw nofun
  | some w =>
    obtain ⟨rfl, -, hnext⟩ := allocUnmappedCore_fixed hplace
    have hfree : ∀ vma, mm.areas stackTop ≠ some vma := by
      intro vma hvma
      have hle := hnext stackTop vma hvma le_rfl
      revert hle
      decide
    have hempty : ∀ v f, ¬Holds mm.areas stackTop v f := by
      rintro v f ⟨vma, hvma, -⟩
      exact hfree vma hvma
    refine Sat.bind (R := fun (v : Vma) p' => Growing mm p' (List.range userStackSizeNrPages) v ∧
      p'.tableCnt = p.tableCnt ∧
        Local p mm.areas p' (replaceAt mm.areas stackTop (some v)) mm.pagetable) ?_ ?_
    · refine Sat.foldlM (fun done (v : Vma) p' => Growing mm p' done v ∧ p'.tableCnt = p.tableCnt ∧
        Local p mm.areas p' (replaceAt mm.areas stackTop (some v)) mm.pagetable) ?_ ?_
      · rintro done i rest hsplit v p' ⟨hv, hcnt, hlocal⟩
        obtain ⟨hi, hnew⟩ := stackPage_next hsplit
        refine ((hv.doAllocOnePage hi hnew hbare).weaken fun _ he => he.ne_todo).bind ?_
        rintro ⟨r, v'⟩ p'' ⟨hv', hcnt', hlocal', -⟩
        exact ⟨hv', hcnt'.trans hcnt, hlocal.trans hlocal'⟩
      · refine ⟨.start hok hempty, rfl, .of_grows (.refl p _) ?_⟩
        intro k v f hf
        rcases holds_replaceAt.mp hf with ⟨-, hget⟩ | ⟨-, hf⟩
        · cases hget
        · exact .inl ⟨k, v, hf⟩
    · rintro v p' ⟨hv, hcnt, hlocal⟩
      have hstart := hv.spans.1
      refine (insertNoCheck_bare fun old hold => hbare _ old hold).imp ?_
      rintro mm' p'' ⟨rfl, rfl⟩
      rw [hstart]
      exact ⟨v, rfl, hnext, hv, hcnt, by rwa [areas_setVma]⟩

/-- An address space without areas and with a page table of its own. -/
structure Blank (p : Phys) (mm : Mm) (p' : Phys) : Prop where
  pagetable : mm.pagetable = p.tableCnt
  cnt : p'.tableCnt = p.tableCnt + 1
  areas : mm.areas = fun _ => none
  ok : AreasOk p' mm.pagetable fun _ => none
  isLocal : Local p (fun _ => none) p' (fun _ => none) mm.pagetable

theorem Blank.loaded (h : Blank p mm p') (file : MappedFile) :
    Loaded file mm.pagetable [] (mm, 0) := by
  refine ⟨rfl, fun k => ?_, ?_, Nat.zero_le _, .inl rfl, .nil⟩
  · rw [h.areas]
    rfl
  · intro ph hmem
    cases hmem

theorem newEmptyUserMm_sat : Sat newEmptyUserMm p (Blank p) (· ≠ .todo) := by
  have hnew : Sat PageTable.newUser p (fun pt p' => pt = p.tableCnt ∧
      p'.tableCnt = p.tableCnt + 1 ∧ AreasOk p' pt (fun _ => none) ∧
        Local p (fun _ => none) p' (fun _ => none) pt) (· ≠ .todo) := by
    by_cases hkernel : p.tables kernelPagetable = []
    · unfold PageTable.newUser
      refine ((allocOrPanic_sat p).weaken fun _ he => he.ne_todo).bind ?_
      rintro root _ ⟨-, -, rfl⟩
      refine Sat.bind (R := fun _ _ => False) ?_ fun _ _ hfalse => hfalse.elim
      unfold PageTable.getRootPage
      apply Sat.get_bind
      have hhead : ((p.allocated root).tables kernelPagetable).head? = none := by
        rw [List.head?_eq_none_iff]
        exact hkernel
      rw [hhead]
      exact sat_throw nofun
    · refine (PageTable.newUser_sat hkernel).mono ?_ fun _ he => he.ne_todo
      exact fun _ _ h => ⟨h.1, h.2.1, h.2.2.1, h.2.2.2.1⟩
  unfold newEmptyUserMm
  refine hnew.bind ?_
  rintro pt p' ⟨hpt, hcnt, hok, hlocal⟩
  exact sat_pure ⟨hpt, hcnt, rfl, hok, hlocal⟩

structure Heaped (headers : List ProgramHeader) (file : MappedFile) (p : Phys) (mm : Mm)
    (p' : Phys) : Prop where
  pagetable : mm.pagetable = p.tableCnt
  cnt : p'.tableCnt = p.tableCnt + 1
  ok : AreasOk p' mm.pagetable mm.areas
  isLocal : Local p (fun _ => none) p' mm.areas mm.pagetable
  bare : ∀ k vma, mm.areas k = some vma → Bare vma
  segment : ∀ k ph, (segmentsOf headers).get? k = some ph →
    mm.areas k = some (ph.area file mm.pagetable)
  below : ∀ ph ∈ headers, ph.isLoad → ph.pageEnd < mm.startBrk
  apart : SegmentsApart headers
  heap : ∃ heap, mm.areas mm.startBrk = some heap ∧ Spans heap mm.startBrk mm.brk
  end_le : ∀ k vma, mm.areas k = some vma → vma.endVaddr ≤ mm.brk
  only : ∀ k vma, mm.areas k = some vma →
    (∃ ph, (segmentsOf headers).get? k = some ph ∧ vma = ph.area file mm.pagetable) ∨
      k = mm.startBrk
  aligned : mm.startBrk % pageSize = 0
  brk_eq : mm.brk = mm.startBrk + pageSize
  brk_le : mm.brk ≤ userSpaceEnd

theorem pageStart_le_pageEnd (ph : ProgramHeader) : ph.pageStart ≤ ph.pageEnd :=
  Nat.le_add_right _ _

theorem areasOk_of_bare {A : Areas} (h : AreasOk p pt fun _ => none)
    (hA : ∀ k vma, A k = some vma → Bare vma ∧ vma.pagetable = some pt) : AreasOk p pt A := by
  refine h.retag ⟨fun k vma hk => (hA k vma hk).2, ?_, ?_⟩
  · intro k vma hk u g hget
    rw [(hA k vma hk).1.1, OrdMap.get?_empty] at hget
    cases hget
  · rintro k u g ⟨vma, hvma, -⟩
    cases hvma

theorem addHeap_heaped {p₀ : Phys} {mm₀ : Mm} (hblank : Blank p₀ mm₀ p)
    (h : Loaded file mm₀.pagetable headers st) :
    Sat (st.1.addHeap st.2) p (fun mm p' => Heaped headers file p₀ mm p') (· ≠ .todo) := by
  obtain ⟨mm₁, loadEnd⟩ := st
  have hpt : mm₁.pagetable = mm₀.pagetable := h.pagetable
  refine (addHeap_sat fun k vma hk => (h.bare hk).1).imp ?_
  rintro mm p' ⟨rfl, hpt', ⟨heap, hareas, hspans, hbare, hheap⟩, hgap, halign, hbrk, htop⟩
  have htable : mm.pagetable = mm₀.pagetable := hpt'.trans hpt
  have hself : mm.areas mm.startBrk = some heap := by rw [hareas, replaceAt_self]
  have hother : ∀ k, k ≠ mm.startBrk →
      mm.areas k = ((segmentsOf headers).get? k).map fun ph => ph.area file mm.pagetable := by
    intro k hk
    rw [hareas, replaceAt_of_ne hk, h.areas, htable]
  have hbelow : ∀ ph ∈ headers, ph.isLoad → ph.pageEnd < mm.startBrk := by
    intro ph hmem hload
    exact (h.below ph hmem hload).trans_lt hgap
  have hcases : ∀ k vma, mm.areas k = some vma → k = mm.startBrk ∧ vma = heap ∨
      ∃ ph, (segmentsOf headers).get? k = some ph ∧ vma = ph.area file mm.pagetable := by
    intro k vma hk
    by_cases heq : k = mm.startBrk
    · rw [heq, hself] at hk
      exact .inl ⟨heq, (Option.some.inj hk).symm⟩
    · rw [hother k heq] at hk
      obtain ⟨ph, hget, rfl⟩ := Option.map_eq_some_iff.mp hk
      exact .inr ⟨ph, hget, rfl⟩
  have hempty : ∀ k vma, mm.areas k = some vma → Bare vma ∧ vma.pagetable = some mm.pagetable := by
    intro k vma hk
    rcases hcases k vma hk with ⟨-, rfl⟩ | ⟨ph, -, rfl⟩
    · exact ⟨hbare, by rw [hheap, hpt']⟩
    · exact ⟨⟨rfl, rfl⟩, rfl⟩
  refine ⟨htable.trans hblank.pagetable, hblank.cnt, areasOk_of_bare (htable ▸ hblank.ok) hempty,
    ?_, fun k vma hk => (hempty k vma hk).1, ?_, hbelow, h.apart, ⟨heap, hself, hspans⟩, ?_, ?_,
    halign, hbrk, htop⟩
  · rw [htable]
    refine hblank.isLocal.trans (.of_grows (.refl p' _) ?_)
    rintro k v f ⟨vma, hk, hget⟩
    rw [(hempty k vma hk).1.1, OrdMap.get?_empty] at hget
    cases hget
  · intro k ph hget
    obtain ⟨hmem, hload, hk⟩ := mem_of_segmentsOf hget
    have hend := hbelow ph hmem hload
    have hpage := pageStart_le_pageEnd ph
    rw [hother k (by omega), hget]
    rfl
  · intro k vma hk
    rcases hcases k vma hk with ⟨-, rfl⟩ | ⟨ph, hget, rfl⟩
    · exact hspans.2.le
    · obtain ⟨hmem, hload, -⟩ := mem_of_segmentsOf hget
      have hend := hbelow ph hmem hload
      show ph.pageEnd ≤ mm.brk
      omega
  · intro k vma hk
    rcases hcases k vma hk with ⟨hstart, -⟩ | hseg
    · exact .inr hstart
    · exact .inl hseg

theorem newFromElf_of_addStack {Q : Mm → Phys → Prop}
    (h : ∀ mm p', Heaped headers file p mm p' → Sat mm.addStack p' Q (· ≠ .todo)) :
    Sat (newFromElf headers file) p Q (· ≠ .todo) := by
  unfold newFromElf
  refine newEmptyUserMm_sat.bind ?_
  intro mm₀ p₀ hblank
  have hload : Sat (headers.foldlM (loadSegment file) (mm₀, 0)) p₀
      (fun st p' => p' = p₀ ∧ Loaded file mm₀.pagetable headers st) (· ≠ .todo) := by
    refine Sat.foldlM (fun done st p' => p' = p₀ ∧ Loaded file mm₀.pagetable done st) ?_
      ⟨rfl, hblank.loaded file⟩
    rintro done ph rest - st _ ⟨rfl, hst⟩
    exact loadSegment_sat hst ph
  refine hload.bind ?_
  rintro st _ ⟨rfl, hloaded⟩
  exact (addHeap_heaped hblank hloaded).bind h

/-- What `new_from_elf` returns. -/
structure Built (headers : List ProgramHeader) (file : MappedFile) (mm : Mm) (p : Phys) :
    Prop where
  tidy : Tidy mm p
  segment : ∀ k ph, (segmentsOf headers).get? k = some ph →
    mm.areas k = some (ph.area file mm.pagetable)
  below : ∀ ph ∈ headers, ph.isLoad → ph.pageEnd < mm.startBrk
  apart : SegmentsApart headers
  heap : ∃ heap, mm.areas mm.startBrk = some heap ∧ Spans heap mm.startBrk mm.brk
  stack : ∃ stack, mm.areas stackTop = some stack ∧ Spans stack stackTop userStackMaxAddr
  only : ∀ k vma, mm.areas k = some vma →
    (∃ ph, (segmentsOf headers).get? k = some ph ∧ vma = ph.area file mm.pagetable) ∨
      k = mm.startBrk ∨ k = stackTop
  heap_lt : mm.startBrk < mm.brk
  brk_eq : mm.brk = mm.startBrk + pageSize
  brk_le : mm.brk ≤ stackTop
  aligned : mm.startBrk % pageSize = 0
  topPage : ∃ stack f, mm.areas stackTop = some stack ∧ stack.permits .read = true ∧
    stack.pagesTree.get? (userStackMaxAddr - pageSize) = some f

theorem Heaped.brk_le_stackTop (h : Heaped headers file p mm p')
    (hnext : ∀ k vma, mm.areas k = some vma → stackTop ≤ k → userSpaceEnd ≤ k) :
    mm.brk ≤ stackTop := by
  obtain ⟨heap, hheap, -⟩ := h.heap
  have hbrk := h.brk_eq
  have halign := h.aligned
  have htop := h.brk_le
  have hpos : 0 < pageSize := by decide
  by_contra hnot
  have hstart : stackTop ≤ mm.startBrk := by
    have htopAlign : stackTop % pageSize = 0 := rfl
    rw [hbrk] at hnot
    rw [pageSize] at *
    omega
  have hend := hnext mm.startBrk heap hheap hstart
  omega

theorem newFromElf_sat (headers : List ProgramHeader) (file : MappedFile) :
    Sat (newFromElf headers file) p (Built headers file) fun _ => True := by
  refine (newFromElf_of_addStack fun mm p₂ h => ?_).weaken fun _ _ => trivial
  refine (addStack_sat h.ok h.bare).imp ?_
  rintro _ p₃ ⟨stack, rfl, hnext, hgrown, -⟩
  have hbrkTop := h.brk_le_stackTop hnext
  have hlt : mm.startBrk < mm.brk := by
    rw [h.brk_eq]
    exact Nat.lt_add_of_pos_right (by decide)
  have hother : ∀ k vma, k ≠ stackTop → (mm.setVma stackTop stack).areas k = some vma →
      mm.areas k = some vma := by
    intro k vma hne hk
    rwa [areas_setVma, replaceAt_of_ne hne] at hk
  have hstack : (mm.setVma stackTop stack).areas stackTop = some stack := by
    rw [areas_setVma, replaceAt_self]
  have hkeep : ∀ k, k < stackTop → (mm.setVma stackTop stack).areas k = mm.areas k := by
    intro k hk
    rw [areas_setVma, replaceAt_of_ne hk.ne]
  refine ⟨⟨?_, ?_, ?_, ?_⟩, ?_, h.below, h.apart, ?_, ⟨stack, hstack, hgrown.spans⟩, ?_, hlt,
    h.brk_eq, hbrkTop, h.aligned, ?_⟩
  · rw [areas_setVma, setVma_pagetable]
    exact hgrown.ok
  · intro k vma hk
    by_cases hne : k = stackTop
    · rw [hne, hstack] at hk
      cases hk
      exact hgrown.spans.2.le
    · exact (h.end_le k vma (hother k vma hne hk)).trans h.brk_le
  · intro k vma hk
    by_cases hne : k = stackTop
    · rw [hne, hstack] at hk
      cases hk
      exact hgrown.plain
    · exact (h.bare k vma (hother k vma hne hk)).2
  · intro k vma v f hk hget
    by_cases hne : k = stackTop
    · subst hne
      cases hstack.symm.trans hk
      obtain ⟨i, hi, rfl⟩ := hgrown.pages v f hget
      have hi := List.mem_range.mp hi
      refine findVma_eq_some.mpr ⟨hstack, ?_, ?_⟩
      · rw [Vma.inVma_iff, hgrown.spans.1, hgrown.spans.2]
        simp only [stackTop, userStackMaxAddr, userStackSizeNrPages, pageSize] at hi ⊢
        omega
      · intro j w hj hjlt
        have hend := h.end_le j w (hother j w hjlt.ne hj)
        rw [← Bool.not_eq_true, Vma.inVma_iff]
        omega
    · rw [(h.bare k vma (hother k vma hne hk)).1, OrdMap.get?_empty] at hget
      cases hget
  · intro k ph hget
    obtain ⟨hmem, hload, hk⟩ := mem_of_segmentsOf hget
    have hend := h.below ph hmem hload
    have hpage := pageStart_le_pageEnd ph
    rw [hkeep k (by omega), h.segment k ph hget, setVma_pagetable]
  · obtain ⟨heap, hheap, hspans⟩ := h.heap
    refine ⟨heap, ?_, hspans⟩
    rw [setVma_startBrk, hkeep _ (by omega), hheap]
  · intro k vma hk
    by_cases hne : k = stackTop
    · exact .inr (.inr hne)
    · rcases h.only k vma (hother k vma hne hk) with hseg | hheapk
      · exact .inl hseg
      · exact .inr (.inl hheapk)
  · obtain ⟨f, hf⟩ := hgrown.resident 15 (by decide)
    exact ⟨stack, f, hstack, hgrown.permits, hf⟩

/-- A program is loaded into frames that were free, and no page of its stack is mapped twice. -/
theorem newFromElf_isLocal (headers : List ProgramHeader) (file : MappedFile) :
    Sat (newFromElf headers file) p
      (fun mm p' => mm.pagetable = p.tableCnt ∧ p'.tableCnt = p.tableCnt + 1 ∧
        Local p (fun _ => none) p' mm.areas mm.pagetable) (· ≠ .todo) := by
  refine newFromElf_of_addStack fun mm p₂ h => ?_
  refine (addStack_sat h.ok h.bare).imp ?_
  rintro _ p₃ ⟨stack, rfl, -, -, hcnt, hlocal⟩
  exact ⟨h.pagetable, hcnt.trans h.cnt, h.isLocal.trans hlocal⟩

end Load

end Mm

end Zinix
