import Zinix.Mm.ElfLoad
import Zinix.Mm.Fill

/-!
# What a program reads in its segments

The pages of a segment are filled from the area that `find_vma` finds at the page. Segments
may share a page, which then has the content and the rights of the lower one alone.
-/

namespace Zinix

open Program

namespace ProgramHeader

def Covers (ph : ProgramHeader) (a : ℕ) : Prop :=
  ph.virtualAddr ≤ a ∧ a < ph.virtualAddr + ph.memSize

def coversPage (ph : ProgramHeader) (v : ℕ) : Bool := ph.pageStart ≤ v && v < ph.pageEnd

def byteAt (ph : ProgramHeader) (file : MappedFile) (a : ℕ) : BitVec 8 :=
  if ph.virtualAddr ≤ a ∧ a < ph.virtualAddr + ph.fileSize then
    file.bytes.getD (ph.offset + (a - ph.virtualAddr)) 0
  else
    0

def permits (ph : ProgramHeader) (prot : PgFaultProt) : Bool :=
  (PTE.leaf 0 (vmaFlags2PteFlags ph.vmFlags)).permits prot

/-- A segment in the user space, with its file part in a file of a FAT volume. -/
structure InFile (ph : ProgramHeader) (file : MappedFile) : Prop where
  user : ph.virtualAddr + ph.memSize ≤ userSpaceEnd
  fileSize_le : ph.fileSize ≤ ph.memSize
  congruent : ph.offset % pageSize = ph.virtualAddr % pageSize
  inFile : ph.offset + ph.fileSize ≤ file.bytes.length
  fat : file.bytes.length < 2 ^ 32

end ProgramHeader

structure ElfImage (headers : List ProgramHeader) (file : MappedFile) : Prop where
  segment : ∀ ph ∈ headers, ph.isLoad → ph.InFile file
  disjoint : headers.Pairwise fun a b =>
    a.isLoad → b.isLoad → ∀ x, ¬(a.Covers x ∧ b.Covers x)

/-- The segment that a page is filled from: of those with pages there, the one whose
pages start lowest. -/
def segmentAt (headers : List ProgramHeader) (v : ℕ) : Option ProgramHeader :=
  ((segmentsOf headers).entries.find? fun e => e.2.coversPage v).map Prod.snd

section Backing

variable {ph : ProgramHeader} {file : MappedFile} {v pt : ℕ}

theorem ProgramHeader.area_isAnon (ph : ProgramHeader) (file : MappedFile) (pt : ℕ) :
    (ph.area file pt).isAnon = false := by
  show (ph.vmFlags).contains .VM_ANON = false
  unfold ProgramHeader.vmFlags
  cases ph.isRead <;> cases ph.isWrite <;> cases ph.isExecute <;> decide

section Page

variable (h : ph.InFile file) (hhigh : v < ph.pageEnd)

include h in
theorem ProgramHeader.area_backed (pt : ℕ) : (ph.area file pt).Backed := fun _ =>
  ⟨file, rfl, h.fat, h.inFile⟩

theorem ProgramHeader.area_mapStart (ph : ProgramHeader) (file : MappedFile) (pt : ℕ) :
    (ph.area file pt).mapStart = ph.virtualAddr :=
  Nat.add_sub_cancel' (Vaddr.down_le ph.virtualAddr)

theorem ProgramHeader.area_byteAt (ph : ProgramHeader) (file : MappedFile) (pt a : ℕ) :
    (ph.area file pt).byteAt a = ph.byteAt file a := by
  have hend : (ph.area file pt).mapEnd = ph.virtualAddr + ph.fileSize := by
    rw [Vma.mapEnd, ph.area_mapStart]
    rfl
  rw [ProgramHeader.byteAt]
  show (if _ ∧ (ph.area file pt).mapStart ≤ a ∧ a < (ph.area file pt).mapEnd then
    file.bytes.getD (ph.offset + (a - (ph.area file pt).mapStart)) 0 else 0) = _
  rw [ph.area_isAnon, ph.area_mapStart, hend]
  simp only [true_and]

include h hhigh in
theorem ProgramHeader.area_not_overflows (pt : ℕ) : ¬(ph.area file pt).Overflows v := by
  obtain ⟨huser, hle, -, -, -⟩ := h
  have hword : userSpaceEnd + pageSize + pageSize < wordSize := by decide
  have hsmall : v < userSpaceEnd + pageSize := by
    simp only [ProgramHeader.pageEnd, Vaddr.up, ProgramHeader.pageStart, Vaddr.down, pageSize,
      userSpaceEnd] at *
    omega
  rw [Vma.Overflows, Vma.mapEnd, ph.area_mapStart]
  show ¬(wordSize ≤ ph.virtualAddr + ph.fileSize ∨ wordSize ≤ v + pageSize)
  omega

include h hhigh in
theorem ProgramHeader.backing_eq : ∃ pg, (ph.area file pt).backing v = .ok pg ∧
    ∀ off < pageSize, pg.byte off = ph.byteAt file (v + off) := by
  rcases (ProgramHeader.area_backed h pt).backing v with ⟨-, -, hover⟩ | ⟨pg, hpg, hbytes⟩
  · exact absurd hover (ProgramHeader.area_not_overflows h hhigh pt)
  · refine ⟨pg, hpg, fun off hoff => ?_⟩
    rw [hbytes off hoff, ph.area_byteAt]

end Page

end Backing

namespace Mm

variable {headers : List ProgramHeader} {file : MappedFile} {mm : Mm} {p : Phys}
  {v : ℕ} {S : ProgramHeader}

theorem area_inVma (ph : ProgramHeader) (file : MappedFile) (pt v : ℕ) :
    (ph.area file pt).inVma v = ph.coversPage v := rfl

theorem Built.findVma_eq (h : Built headers file mm p) (hv : v < mm.startBrk) :
    (mm.findVma v).map Prod.snd = (segmentAt headers v).map fun S => S.area file mm.pagetable := by
  have hheap := h.heap_lt
  have hstack := h.brk_le
  unfold segmentAt
  cases hfind : (segmentsOf headers).entries.find? fun e => e.2.coversPage v with
  | none =>
    have hnone : mm.findVma v = none := by
      refine findVma_eq_none.mpr fun k vma hk => ?_
      rcases h.only k vma hk with ⟨ph, hget, rfl⟩ | hk' | hk'
      · rw [area_inVma]
        exact OrdMap.find?_eq_none.mp hfind k ph hget
      · obtain ⟨heap, hareas, hspans⟩ := h.heap
        rw [hk', hareas] at hk
        cases hk
        rw [← Bool.not_eq_true, Vma.inVma_iff, hspans.1]
        omega
      · obtain ⟨stack, hareas, hspans⟩ := h.stack
        rw [hk', hareas] at hk
        cases hk
        rw [← Bool.not_eq_true, Vma.inVma_iff, hspans.1]
        omega
    rw [hnone]
    rfl
  | some e =>
    obtain ⟨k, ph⟩ := e
    obtain ⟨hget, hcovers, hfirst⟩ := OrdMap.find?_eq_some.mp hfind
    have hk : k ≤ v := by
      rw [← (mem_of_segmentsOf hget).2.2]
      simp only [ProgramHeader.coversPage, Bool.and_eq_true, decide_eq_true_eq] at hcovers
      exact hcovers.1
    have hsome : mm.findVma v = some (k, ph.area file mm.pagetable) := by
      refine findVma_eq_some.mpr ⟨h.segment k ph hget, hcovers, fun j w hj hlt => ?_⟩
      rcases h.only j w hj with ⟨ph', hget', rfl⟩ | hj' | hj'
      · rw [area_inVma]
        exact hfirst j ph' hget' hlt
      · omega
      · omega
    rw [hsome]
    rfl

theorem segmentAt_mem (h : segmentAt headers v = some S) :
    S ∈ headers ∧ S.isLoad ∧ S.pageStart ≤ v ∧ v < S.pageEnd := by
  obtain ⟨⟨k, S⟩, hfind, rfl⟩ := Option.map_eq_some_iff.mp h
  obtain ⟨hget, hcovers, -⟩ := OrdMap.find?_eq_some.mp hfind
  obtain ⟨hmem, hload, -⟩ := mem_of_segmentsOf hget
  simp only [ProgramHeader.coversPage, Bool.and_eq_true, decide_eq_true_eq] at hcovers
  exact ⟨hmem, hload, hcovers⟩

theorem Built.findVma_some (h : Built headers file mm p) (hv : v < mm.startBrk)
    (hS : segmentAt headers v = some S) :
    ∃ k, mm.findVma v = some (k, S.area file mm.pagetable) := by
  have hfind := h.findVma_eq hv
  rw [hS] at hfind
  obtain ⟨⟨k, vma⟩, hsome, hvma⟩ := Option.map_eq_some_iff.mp hfind
  cases hvma
  exact ⟨k, hsome⟩

theorem Built.allows_iff (h : Built headers file mm p) {a : ℕ} (ha : Vaddr.down a < mm.startBrk)
    {prot : PgFaultProt} : mm.Allows a prot ↔
      ∃ S, segmentAt headers (Vaddr.down a) = some S ∧ S.permits prot := by
  constructor
  · rintro ⟨k, vma, hfind, hpermits⟩
    have hmap := h.findVma_eq ha
    rw [hfind] at hmap
    obtain ⟨S, hS, hvma⟩ := Option.map_eq_some_iff.mp hmap.symm
    cases hvma
    exact ⟨S, hS, hpermits⟩
  · rintro ⟨S, hS, hpermits⟩
    obtain ⟨k, hfind⟩ := h.findVma_some ha hS
    exact ⟨k, _, hfind, hpermits⟩

theorem Built.content_eq (h : Built headers file mm p) (himage : ElfImage headers file)
    (hv : v < mm.startBrk) (hS : segmentAt headers v = some S) :
    ∃ pg, mm.content p v = some (.ok pg) ∧
      ∀ off < pageSize, pg.byte off = S.byteAt file (v + off) := by
  obtain ⟨hmem, hload, hlow, hhigh⟩ := segmentAt_mem hS
  obtain ⟨k, hfind⟩ := h.findVma_some hv hS
  obtain ⟨pg, hpg, hbytes⟩ := ProgramHeader.backing_eq (himage.segment S hmem hload) hhigh
  refine ⟨pg, ?_, hbytes⟩
  rw [content, hfind, Option.map_some, ← hpg]
  rfl

def loadAll (mm : Mm) (addrs : List (ℕ × PgFaultProt)) : Program Phys Mm :=
  addrs.foldlM (fun mm e => do
    let (_, mm) ← mm.userLoad e.1 e.2
    return mm) mm

theorem Tidy.loadAll (h : Tidy mm p) (addrs : List (ℕ × PgFaultProt)) :
    Sat (mm.loadAll addrs) p (fun mm' p' => Tidy mm' p' ∧ Alike mm mm' p p') fun _ => True := by
  refine Sat.foldlM (fun _ (mm' : Mm) p' => Tidy mm' p' ∧ Alike mm mm' p p') ?_ ⟨h, .refl mm p⟩
  rintro done e rest - mm' p' ⟨hmm', halike⟩
  refine ((hmm'.userLoad e.1 e.2).weaken fun _ _ => trivial).bind ?_
  rintro ⟨b, mm''⟩ p'' ⟨htidy, halike', -, -⟩
  exact ⟨htidy, halike.trans halike'⟩

theorem ProgramHeader.down_lt_pageEnd {ph : ProgramHeader} {i : ℕ} (hi : i < ph.memSize) :
    Vaddr.down (ph.virtualAddr + i) < ph.pageEnd := by
  simp only [ProgramHeader.pageEnd, ProgramHeader.pageStart, Vaddr.down, Vaddr.up, pageSize]
  omega

/-- A load in a segment reads the byte of the segment exactly when the page belongs to
a segment with the same byte there and the right to read it. -/
theorem userLoad_eq_iff (himage : ElfImage headers file) {mm₀ mm : Mm} {p₀ p₁ p : Phys}
    (hload : newFromElf headers file p₀ = .ok (mm₀, p₁)) {earlier : List (ℕ × PgFaultProt)}
    (hearlier : mm₀.loadAll earlier p₁ = .ok (mm, p)) {ph : ProgramHeader} (hph : ph ∈ headers)
    (hisLoad : ph.isLoad) {i : ℕ} (hi : i < ph.memSize) {prot : PgFaultProt}
    (hmemory : mm.HasRoom p (Vaddr.down (ph.virtualAddr + i))) :
    (∃ mm' p', mm.userLoad (ph.virtualAddr + i) prot p =
        .ok ((if i < ph.fileSize then file.bytes.getD (ph.offset + i) 0 else 0, mm'), p')) ↔
      ∃ S, segmentAt headers (Vaddr.down (ph.virtualAddr + i)) = some S ∧ S.permits prot ∧
        S.byteAt file (ph.virtualAddr + i) = ph.byteAt file (ph.virtualAddr + i) := by
  have hbuilt := (newFromElf_sat headers file).of_ok hload
  obtain ⟨htidy, halike⟩ := (hbuilt.tidy.loadAll earlier).of_ok hearlier
  have hbelow : Vaddr.down (ph.virtualAddr + i) < mm₀.startBrk :=
    (ProgramHeader.down_lt_pageEnd hi).trans (hbuilt.below ph hph hisLoad)
  have hbyte : (if i < ph.fileSize then file.bytes.getD (ph.offset + i) 0 else 0) =
      ph.byteAt file (ph.virtualAddr + i) := by
    rw [ProgramHeader.byteAt, Nat.add_sub_cancel_left]
    by_cases hfile : i < ph.fileSize
    · rw [if_pos hfile, if_pos (by omega)]
    · rw [if_neg hfile, if_neg (by omega)]
  have hload := htidy.userLoad (ph.virtualAddr + i) prot
  -- what the load sees if the page has a segment
  have hseen : ∀ S, segmentAt headers (Vaddr.down (ph.virtualAddr + i)) = some S →
      ∃ pg, mm.content p (Vaddr.down (ph.virtualAddr + i)) = some (.ok pg) ∧
        pg.byte ((ph.virtualAddr + i) % pageSize) = S.byteAt file (ph.virtualAddr + i) := by
    intro S hS
    obtain ⟨pg, hpg, hbytes⟩ := hbuilt.content_eq himage hbelow hS
    refine ⟨pg, (halike.content _).trans hpg, ?_⟩
    rw [hbytes _ (Nat.mod_lt _ (by decide)), Vaddr.down, Nat.div_add_mod']
  rw [hbyte]
  constructor
  · rintro ⟨mm', p', hok⟩
    obtain ⟨-, -, hallow, pg, hpg, hread⟩ := hload.of_ok hok
    obtain ⟨S, hS, hpermits⟩ := (hbuilt.allows_iff hbelow).mp (halike.allows_iff.mp hallow)
    obtain ⟨pg', hpg', hbyte'⟩ := hseen S hS
    cases hpg.symm.trans hpg'
    exact ⟨S, hS, hpermits, hbyte'.symm.trans hread.symm⟩
  · rintro ⟨S, hS, hpermits, hsame⟩
    have hallow := halike.allows_iff.mpr ((hbuilt.allows_iff hbelow).mpr ⟨S, hS, hpermits⟩)
    obtain ⟨pg, hpg, hbyte'⟩ := hseen S hS
    cases hresult : mm.userLoad (ph.virtualAddr + i) prot p with
    | error e =>
      rcases hload.of_error hresult with ⟨-, hshort⟩ | hdenied | herror
      · exact absurd hmemory hshort
      · exact absurd hallow hdenied
      · rw [hpg] at herror
        cases herror
    | ok r =>
      obtain ⟨⟨b, mm'⟩, p'⟩ := r
      obtain ⟨-, -, -, pg', hpg', hread⟩ := hload.of_ok hresult
      cases hpg.symm.trans hpg'
      have hb : b = ph.byteAt file (ph.virtualAddr + i) := hread.trans (hbyte'.trans hsame)
      rw [hb]
      exact ⟨mm', p', rfl⟩

/-- A file with room for its headers, of which only the last byte matters here. -/
def smallFile : MappedFile := ⟨0, List.replicate 4104 0 ++ [0x7f]⟩

def lastByte : ProgramHeader := ⟨true, 0x11008, 1, 1, 4104, true, false, false⟩

def twoSegments (memSize : ℕ) : List ProgramHeader :=
  [⟨true, 0x10000, memSize, 0, 0, true, true, false⟩, lastByte]

theorem length_smallFile : smallFile.bytes.length = 4105 := by
  rw [smallFile, List.length_append, List.length_replicate, List.length_singleton]

theorem smallFile_last : smallFile.bytes.getD lastByte.offset 0 = 0x7f := by
  have hle : (List.replicate 4104 (0 : BitVec 8)).length ≤ 4104 := List.length_replicate.le
  rw [List.getD_eq_getElem?_getD, smallFile, lastByte, List.getElem?_append_right hle,
    List.length_replicate]
  rfl

theorem twoSegments_elfImage {memSize : ℕ} (h : memSize ≤ 0x1001) :
    ElfImage (twoSegments memSize) smallFile := by
  refine ⟨?_, ?_⟩
  · intro ph hph _
    simp only [twoSegments, List.mem_cons, List.not_mem_nil, or_false] at hph
    rcases hph with rfl | rfl
    · exact ⟨by simp only [userSpaceEnd]; omega, Nat.zero_le _, by simp [pageSize],
        Nat.zero_le _, by rw [length_smallFile]; decide⟩
    · exact ⟨by decide, by decide, rfl, by rw [length_smallFile]; decide,
        by rw [length_smallFile]; decide⟩
  · simp only [twoSegments, List.pairwise_cons, List.mem_singleton, forall_eq, List.not_mem_nil,
      false_imp_iff, implies_true, List.Pairwise.nil, and_true]
    rintro - - x ⟨⟨-, hlt⟩, hle, -⟩
    simp only [lastByte] at hlt hle
    omega

/-- The second segment has its own page, which is read after a page of the stack. -/
theorem userLoad_eq_iff_ownPages :
    ∃ mm₀ p₁ mm p mm' p', newFromElf (twoSegments 0x1000) smallFile .bare = .ok (mm₀, p₁) ∧
      mm₀.loadAll [(0xfffffff, .read)] p₁ = .ok (mm, p) ∧
      mm.userLoad lastByte.virtualAddr .read p = .ok ((0x7f, mm'), p') := by
  have hrun : ((newFromElf (twoSegments 0x1000) smallFile >>= fun mm =>
      mm.loadAll [(0xfffffff, .read)]) .bare).map
        (fun r => decide (r.1.HasRoom r.2 (Vaddr.down (lastByte.virtualAddr + 0)))) =
      .ok true := by
    decide +kernel
  obtain ⟨⟨mm, p⟩, hrun, hmemory⟩ := Checked.map_eq_ok.mp hrun
  simp only [decide_eq_true_eq] at hmemory
  rw [bind_apply, Checked.bind_eq_ok] at hrun
  obtain ⟨⟨mm₀, p₁⟩, hload, hearlier⟩ := hrun
  have hph : lastByte ∈ twoSegments 0x1000 := List.mem_cons_of_mem _ List.mem_cons_self
  have hseg : segmentAt (twoSegments 0x1000) (Vaddr.down (lastByte.virtualAddr + 0)) =
      some lastByte := by
    decide
  have hpermits : lastByte.permits .read := rfl
  obtain ⟨mm', p', hread⟩ := (userLoad_eq_iff (twoSegments_elfImage (by decide)) hload hearlier hph
    rfl (by decide) hmemory).mpr ⟨lastByte, hseg, hpermits, rfl⟩
  rw [if_pos (by decide), Nat.add_zero, Nat.add_zero, smallFile_last] at hread
  exact ⟨mm₀, p₁, mm, p, mm', p', hload, hearlier, hread⟩

/-- The second segment shares a page with the first, and its byte is lost. -/
theorem sharedPage_reads_zero :
    ElfImage (twoSegments 0x1001) smallFile ∧
      ((newFromElf (twoSegments 0x1001) smallFile >>= fun mm =>
        mm.userLoad lastByte.virtualAddr .read) .bare).map (fun r => r.1.1) = .ok 0 ∧
      smallFile.bytes.getD lastByte.offset 0 = 0x7f := by
  refine ⟨twoSegments_elfImage le_rfl, ?_, smallFile_last⟩
  decide +kernel

end Mm

end Zinix
