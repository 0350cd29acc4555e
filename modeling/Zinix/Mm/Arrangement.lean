import Zinix.Mm.ElfLoad
import Zinix.Mm.Placement

/-!
# Where `brk` and `mmap` put areas

Insertion never checks whether an area overlaps another one. The areas stay apart as long
as the segments have pages of their own and the caller leaves the choice of addresses to
`mmap`.
-/

namespace Zinix

namespace ProgramHeader

def Separate (a b : ProgramHeader) : Prop :=
  a.isLoad → b.isLoad → a.pageEnd ≤ b.pageStart ∨ b.pageEnd ≤ a.pageStart

instance : Std.Symm Separate := ⟨fun _ _ h hb ha => (h ha hb).symm⟩

/-- Each segment has pages, and no two segments have one in common. -/
structure OwnPages (headers : List ProgramHeader) : Prop where
  nonempty : ∀ ph ∈ headers, ph.isLoad → ph.pageStart < ph.pageEnd
  disjoint : headers.Pairwise Separate

end ProgramHeader

namespace Mm

variable {len newBrk : ℕ}

/-- The areas of a process: the heap ends at `brk`, and only the stack lies above the
range of `mmap`. -/
structure Arranged (mm : Mm) : Prop extends Apart mm.areas where
  heap : ∃ vma, mm.areas mm.startBrk = some vma ∧ vma.endVaddr = mm.brk
  brk_le : mm.brk ≤ mmapTop
  belowTop : ∀ k vma, mm.areas k = some vma →
    k = stackTop ∧ vma.endVaddr = userStackMaxAddr ∨ vma.endVaddr ≤ mmapTop

variable {mm : Mm}

theorem Arranged.congr (h : mm.Arranged) {mm' : Mm} (hareas : mm'.areas = mm.areas)
    (hstart : mm'.startBrk = mm.startBrk) (hbrk : mm'.brk = mm.brk) : mm'.Arranged := by
  obtain ⟨hapart, hheap, hle, htop⟩ := h
  rw [← hareas] at hapart hheap htop
  rw [← hstart, ← hbrk] at hheap
  exact ⟨hapart, hheap, hbrk ▸ hle, htop⟩

/-- A place in the range of `mmap` that keeps clear of all areas. -/
structure Clear (mm : Mm) (len : ℕ) (new : Vma) : Prop where
  length : new.endVaddr = new.startVaddr + len
  inRange : new.endVaddr ≤ mmapTop
  apart : ∀ k vma, mm.areas k = some vma → new.endVaddr ≤ k ∨ vma.endVaddr ≤ new.startVaddr

theorem Arranged.uncrossed (h : mm.Arranged) : mm.Uncrossed userSpaceStart mmapTop := by
  refine ⟨h.toApart, ?_, fun k vma _ hlt => absurd hlt (Nat.not_lt_zero k)⟩
  intro k vma hk _ hlt
  rcases h.belowTop k vma hk with ⟨hstack, -⟩ | hle
  · exact absurd hlt (by rw [hstack]; decide)
  · exact hle

theorem Arranged.clear_of_mem_places (h : mm.Arranged) {a : ℕ} (hlen : 0 < len)
    (ha : a ∈ mm.places userSpaceStart mmapTop len) : mm.Clear len (.empty a (a + len)) := by
  obtain ⟨-, htop, hfree⟩ := ha
  refine ⟨rfl, htop, fun k vma hk => ?_⟩
  have hkey := h.keyed k vma hk
  have hne := h.nonempty k vma hk
  by_contra hmeet
  simp only [Vma.empty, not_or, Nat.not_le] at hmeet
  have hin := hfree k vma hk (max a k) (le_max_left a k) (by omega)
  rw [Bool.eq_false_iff] at hin
  exact hin (Vma.inVma_iff.mpr (by omega))

theorem Arranged.allocUnmappedCore (h : mm.Arranged) (hlen : len % pageSize = 0) (hpos : len ≠ 0) :
    ∃ r, mm.allocUnmappedCore none len false userSpaceStart mmapTop = .ok r ∧
      ∀ w, r = some w → mm.Clear len w := by
  by_cases hsmall : len < mmapTop - userSpaceStart
  · have hrange : PageRange userSpaceStart mmapTop len :=
      ⟨hlen, by decide, by decide, hsmall, by decide⟩
    obtain ⟨r, hr, hfound⟩ := h.uncrossed.allocUnmappedCore hrange false (Nat.pos_of_ne_zero hpos)
    refine ⟨r, hr, ?_⟩
    rintro w rfl
    obtain ⟨a, rfl, ha⟩ := hfound
    exact h.clear_of_mem_places (Nat.pos_of_ne_zero hpos) ha.1
  · have halign : Vaddr.isAlign len := by simpa [Vaddr.isAlign] using hlen
    have hrange : subUsize mmapTop userSpaceStart = .ok mmapTop := rfl
    have hbig : mmapTop ≤ len := Nat.not_lt.mp hsmall
    refine ⟨none, ?_, by simp⟩
    simp only [Mm.allocUnmappedCore, Checked.ensure_pos halign, Checked.ok_bind, hrange, hbig, if_true]
    rfl

theorem Arranged.insertNoCheck (h : mm.Arranged) {new : Vma} (hlen : len ≠ 0)
    (hclear : mm.Clear len new) (p : Phys) :
    Program.Sat (mm.insertNoCheck new) p (fun mm' p' => p' = p ∧ mm'.Arranged) fun _ => False := by
  have hpos : new.startVaddr < new.endVaddr := by
    have := hclear.length
    omega
  have hnone : mm.areas new.startVaddr = none := by
    by_contra hsome
    obtain ⟨vma, hvma⟩ := Option.ne_none_iff_exists'.mp hsome
    have hkey := h.keyed _ vma hvma
    have hne := h.nonempty _ vma hvma
    rcases hclear.apart _ vma hvma with hle | hle
    · omega
    · omega
  have hapart := h.toApart.insert rfl hpos fun k vma hk _ => hclear.apart k vma hk
  rw [Mm.insertNoCheck, show mm.vmas.get? new.startVaddr = none from hnone]
  refine ⟨rfl, by rwa [areas_setVma], ?_, h.brk_le, ?_⟩
  · obtain ⟨heap, hheap, hbrk⟩ := h.heap
    refine ⟨heap, ?_, hbrk⟩
    rw [areas_setVma, replaceAt_of_ne]
    · exact hheap
    · rintro heq
      rw [setVma_startBrk] at heq
      rw [heq, hnone] at hheap
      cases hheap
  · intro k vma hk
    rw [areas_setVma] at hk
    by_cases heq : k = new.startVaddr
    · rw [heq, replaceAt_self] at hk
      cases hk
      exact .inr hclear.inRange
    · rw [replaceAt_of_ne heq] at hk
      exact h.belowTop k vma hk

inductive MemoryCall where
  | brk (brk : ℕ)
  | mmap (len : ℕ) (prot flags : BitVec 64) (file : Option MappedFile) (offset : ℕ)

/-- A length is a positive number of whole pages; the caller leaves the address to the
kernel. -/
def MemoryCall.WholePages : MemoryCall → Prop
  | brk _ => True
  | mmap len _ _ _ _ => len % pageSize = 0 ∧ len ≠ 0

def call (mm : Mm) : MemoryCall → Program Phys (ℤ × Mm)
  | .brk brk => mm.sysBrk brk
  | .mmap len prot flags file offset => mm.sysMmap 0 len prot flags file offset

def calls (mm : Mm) (cs : List MemoryCall) : Program Phys Mm :=
  cs.foldlM (fun mm c => do
    let (_, mm) ← mm.call c
    return mm) mm

abbrev Returns (x : Program Phys (ℤ × Mm)) (p : Phys) : Prop :=
  x.Sat p (fun r p' => p' = p ∧ r.2.Arranged) fun _ => False

theorem Arranged.sysMmap (h : mm.Arranged) (hlen : len % pageSize = 0) (hpos : len ≠ 0)
    (prot flags : BitVec 64) (file : Option MappedFile) (offset : ℕ) (p : Phys) :
    Returns (mm.sysMmap 0 len prot flags file offset) p := by
  obtain ⟨r, hr, hfound⟩ := h.allocUnmappedCore hlen hpos
  have hplace : ∀ w new, r = some w → new.startVaddr = w.startVaddr → new.endVaddr = w.endVaddr →
      mm.Clear len new := by
    intro w new hw hstart hend
    have hclear := hfound w hw
    exact ⟨by rw [hend, hstart, hclear.length], by rw [hend]; exact hclear.inRange,
      by rw [hend, hstart]; exact hclear.apart⟩
  have hanon : mm.allocMmapAnon none len flags prot = .ok (r.map fun vma => { vma with
      pagetable := some mm.pagetable
      vmFlags := .fromMmap flags prot }) := by
    rw [allocMmapAnon, hr]
    rfl
  have hfile : ∀ file : MappedFile, mm.allocMmapFile none len file offset
      (min len file.bytes.length) flags prot = .ok (r.map fun vma => { vma with
        pagetable := some mm.pagetable
        fileOff := offset
        file := some file
        vmFlags := .fromMmap flags prot
        fileLen := min len file.bytes.length
        fileInVmaOff := 0 }) := by
    intro file
    rw [allocMmapFile, Checked.ensure_pos (Nat.min_le_left _ _), hr]
    rfl
  have hinsert : ∀ (w new : Vma) (k : ℤ), r = some w → new.startVaddr = w.startVaddr →
      new.endVaddr = w.endVaddr →
      Returns (do return (k, ← mm.insertNoCheck new)) p := by
    intro w new k hw hstart hend
    refine (h.insertNoCheck hpos (hplace w new hw hstart hend) p).bind ?_
    rintro mm' p' hmm'
    exact hmm'
  unfold Mm.sysMmap
  simp only [ne_eq, not_true_eq_false, if_false]
  refine Program.Sat.ite (fun _ => ?_) (fun _ => ?_)
  · rw [hanon]
    cases hcase : r with
    | none => exact ⟨rfl, h⟩
    | some w => exact hinsert w _ _ hcase rfl rfl
  · cases file with
    | none => exact ⟨rfl, h⟩
    | some file =>
      simp only [hfile]
      cases hcase : r with
      | none => exact ⟨rfl, h⟩
      | some w => exact hinsert w _ _ hcase rfl rfl

theorem Arranged.findVma_startBrk (h : mm.Arranged) :
    ∃ heap, mm.areas mm.startBrk = some heap ∧ heap.startVaddr = mm.startBrk ∧
      heap.endVaddr = mm.brk ∧ mm.startBrk < mm.brk ∧
      mm.findVma mm.startBrk = some (mm.startBrk, heap) := by
  obtain ⟨heap, hheap, hend⟩ := h.heap
  have hstart := h.keyed _ heap hheap
  have hne := h.nonempty _ heap hheap
  have hin : heap.inVma mm.startBrk := by
    rw [Vma.inVma_iff]
    omega
  refine ⟨heap, hheap, hstart, hend, by omega, findVma_eq_some.mpr ⟨hheap, hin, ?_⟩⟩
  intro j w hj hlt
  have hother := h.disjoint j _ w heap hj hheap hlt.ne mm.startBrk
  simpa [hin] using hother

theorem Arranged.shrinkBrk (h : mm.Arranged) (hlow : mm.startBrk ≤ newBrk) (hlt : newBrk < mm.brk)
    (p : Phys) :
    (mm.shrinkBrk newBrk).Sat p (fun r p' => p' = p ∧ r.1 = .error () ∧ r.2.Arranged)
      fun _ => False := by
  obtain ⟨heap, hheap, hstart, hend, -, hfind⟩ := h.findVma_startBrk
  have hin : heap.inVma newBrk := by
    rw [Vma.inVma_iff]
    omega
  have hsplit : heap.split newBrk = .ok (none, heap) := by
    rw [Vma.split, if_pos hin]
    rfl
  refine Program.Sat.unwrap_bind hfind ?_
  show (liftM (heap.split newBrk) >>= _ : Program Phys (Except Unit Unit × Mm)).Sat _ _ _
  rw [hsplit]
  exact ⟨rfl, rfl, h.congr (setVma_get_self hheap) rfl rfl⟩

def brkLimit (mm : Mm) : ℕ :=
  match ((mm.vmas.range mm.startBrk mmapTop).drop 1).head? with
  | none => mmapTop
  | some (startVaddr, _) => startVaddr

theorem expandBrk_eq (hrange : mm.startBrk ≤ mmapTop) {k : ℕ} {vma : Vma}
    (hfind : mm.findVma mm.startBrk = some (k, vma)) (newBrk : ℕ) :
    mm.expandBrk newBrk = .ok (if newBrk ≤ mm.brkLimit
      then (.ok (), { mm.setVma k { vma with endVaddr := newBrk } with brk := newBrk })
      else (.error (), mm)) := by
  unfold Mm.expandBrk
  rw [Checked.ensure_pos hrange, Checked.ok_bind, hfind]
  show (if newBrk ≤ mm.brkLimit then _ else _) = _
  split_ifs
  · rfl
  · rfl

theorem Arranged.brkLimit_le (h : mm.Arranged) :
    mm.brkLimit ≤ mmapTop ∧
      ∀ k vma, mm.areas k = some vma → mm.startBrk < k → mm.brkLimit ≤ k := by
  obtain ⟨heap, hheap, -, -, hlt, -⟩ := h.findVma_startBrk
  have hle := h.brk_le
  have hmem : (mm.startBrk, heap) ∈ mm.vmas.range mm.startBrk mmapTop :=
    OrdMap.mem_range.mpr ⟨hheap, le_rfl, by omega⟩
  have hlow : ∀ e ∈ mm.vmas.range mm.startBrk mmapTop, mm.startBrk ≤ e.1 ∧ e.1 < mmapTop :=
    fun e he => (OrdMap.mem_range.mp he).2
  have hareas : ∀ k vma, mm.areas k = some vma → mm.startBrk ≤ k → k < mmapTop →
      (k, vma) ∈ mm.vmas.range mm.startBrk mmapTop := fun k vma hk hle hlt =>
    OrdMap.mem_range.mpr ⟨hk, hle, hlt⟩
  have hsorted := mm.vmas.range_sorted mm.startBrk mmapTop
  unfold brkLimit
  generalize mm.vmas.range mm.startBrk mmapTop = l at hmem hlow hareas hsorted
  cases l with
  | nil => cases hmem
  | cons first rest =>
    obtain ⟨hfirst, hrest⟩ := List.pairwise_cons.mp hsorted
    have hkey : first.1 = mm.startBrk := by
      rcases List.mem_cons.mp hmem with heq | hin
      · rw [← heq]
      · have hbelow := hfirst _ hin
        have habove := (hlow first List.mem_cons_self).1
        simp only at hbelow
        omega
    have htail : ∀ k vma, mm.areas k = some vma → mm.startBrk < k → k < mmapTop →
        (k, vma) ∈ rest := by
      intro k vma hk hgt hlt
      rcases List.mem_cons.mp (hareas k vma hk hgt.le hlt) with heq | hin
      · rw [← heq] at hkey
        simp only at hkey
        omega
      · exact hin
    rw [List.drop_one, List.tail_cons]
    cases rest with
    | nil =>
      refine ⟨le_rfl, fun k vma hk hgt => ?_⟩
      by_contra hnot
      cases htail k vma hk hgt (Nat.not_le.mp hnot)
    | cons second more =>
      have hsecond := (hlow second (by simp)).2
      refine ⟨hsecond.le, fun k vma hk hgt => ?_⟩
      by_cases hin : k < mmapTop
      · rcases List.mem_cons.mp (htail k vma hk hgt hin) with heq | hmore
        · rw [← heq]
          exact le_rfl
        · exact ((List.pairwise_cons.mp hrest).1 _ hmore).le
      · exact hsecond.le.trans (Nat.not_lt.mp hin)

theorem Arranged.expandBrk (h : mm.Arranged) (hgt : mm.brk < newBrk) :
    ∃ r mm', mm.expandBrk newBrk = .ok (r, mm') ∧ mm'.Arranged := by
  obtain ⟨heap, hheap, hstart, hend, hlt, hfind⟩ := h.findVma_startBrk
  obtain ⟨htop, hnext⟩ := h.brkLimit_le
  have hle := h.brk_le
  rw [expandBrk_eq (by omega) hfind]
  by_cases hfit : newBrk ≤ mm.brkLimit
  · rw [if_pos hfit]
    refine ⟨_, _, rfl, ?_⟩
    have hclear : ∀ k vma, mm.areas k = some vma → k ≠ mm.startBrk →
        newBrk ≤ k ∨ vma.endVaddr ≤ mm.startBrk := by
      intro k vma hk hne
      rcases Nat.lt_or_gt_of_ne hne with hbelow | habove
      · exact .inr (h.end_le hk hheap hbelow)
      · exact .inl (hfit.trans (hnext k vma hk habove))
    have hareas : areas { mm.setVma mm.startBrk { heap with endVaddr := newBrk } with
        brk := newBrk } = replaceAt mm.areas mm.startBrk (some { heap with endVaddr := newBrk }) :=
      areas_setVma ..
    refine ⟨?_, ?_, hfit.trans htop, ?_⟩
    · rw [hareas]
      exact h.toApart.insert hstart (show mm.startBrk < newBrk by omega) hclear
    · refine ⟨{ heap with endVaddr := newBrk }, ?_, rfl⟩
      rw [hareas]
      exact replaceAt_self
    · intro k vma hk
      rw [hareas] at hk
      by_cases heq : k = mm.startBrk
      · rw [heq, replaceAt_self] at hk
        cases hk
        exact .inr (hfit.trans htop)
      · rw [replaceAt_of_ne heq] at hk
        exact h.belowTop k vma hk
  · rw [if_neg hfit]
    exact ⟨_, _, rfl, h⟩

theorem Arranged.sysBrk (h : mm.Arranged) (brk : ℕ) (p : Phys) : Returns (mm.sysBrk brk) p := by
  unfold Mm.sysBrk
  refine Program.Sat.ite (fun _ => ⟨rfl, h⟩) fun _ => ?_
  refine Program.Sat.ite (fun _ => ⟨rfl, h⟩) fun hlow => ?_
  refine Program.Sat.ite (fun _ => ⟨rfl, h⟩) fun hne => ?_
  refine Program.Sat.ite (fun hlt => ?_) fun hge => ?_
  · refine (h.shrinkBrk (Nat.not_lt.mp hlow) hlt p).bind ?_
    rintro ⟨r, mm'⟩ p' ⟨hp, rfl, hmm'⟩
    exact ⟨hp, hmm'⟩
  · obtain ⟨r, mm', hr, hmm'⟩ := h.expandBrk (show mm.brk < brk by omega)
    rw [hr]
    cases r with
    | ok u => exact ⟨rfl, hmm'⟩
    | error u => exact ⟨rfl, hmm'⟩

theorem Arranged.call (h : mm.Arranged) {c : MemoryCall} (hc : c.WholePages) (p : Phys) :
    Returns (mm.call c) p := by
  cases c with
  | brk brk => exact h.sysBrk brk p
  | mmap len prot flags file offset => exact h.sysMmap hc.1 hc.2 prot flags file offset p

theorem Arranged.calls (h : mm.Arranged) {cs : List MemoryCall} (hcs : ∀ c ∈ cs, c.WholePages)
    (p : Phys) :
    (mm.calls cs).Sat p (fun (mm' : Mm) p' => p' = p ∧ mm'.Arranged) fun _ => False := by
  refine Program.Sat.foldlM (fun _ (mm' : Mm) p' => p' = p ∧ mm'.Arranged) ?_ ⟨rfl, h⟩
  rintro done c rest hsplit mm' _ ⟨rfl, hmm'⟩
  have hc : c.WholePages := hcs c (by rw [hsplit]; simp)
  refine (hmm'.call hc _).bind ?_
  rintro ⟨r, mm''⟩ p'' h''
  exact h''

section Load

variable {headers : List ProgramHeader} {file : MappedFile} {p p' : Phys}

/-- Each area with its place: a segment below the heap, the heap, or the stack above it. -/
theorem Built.place (h : Built headers file mm p) {k : ℕ} {vma : Vma} (hk : mm.areas k = some vma) :
    vma.startVaddr = k ∧
      ((∃ ph ∈ headers, ph.isLoad ∧ k = ph.pageStart ∧ vma.endVaddr = ph.pageEnd ∧
        ph.pageEnd < mm.startBrk) ∨
      k = mm.startBrk ∧ vma.endVaddr = mm.brk ∨ k = stackTop ∧ vma.endVaddr = userStackMaxAddr) := by
  rcases h.only k vma hk with ⟨ph, hget, rfl⟩ | rfl | rfl
  · obtain ⟨hmem, hload, hkey⟩ := mem_of_segmentsOf hget
    exact ⟨hkey, .inl ⟨ph, hmem, hload, hkey.symm, rfl, h.below ph hmem hload⟩⟩
  · obtain ⟨heap, hareas, hspans⟩ := h.heap
    cases hk.symm.trans hareas
    exact ⟨hspans.1, .inr (.inl ⟨rfl, hspans.2⟩)⟩
  · obtain ⟨stack, hareas, hspans⟩ := h.stack
    cases hk.symm.trans hareas
    exact ⟨hspans.1, .inr (.inr ⟨rfl, hspans.2⟩)⟩

/-- The areas that `new_from_elf` makes do not overlap if the segments do not. -/
theorem Built.apart_areas (h : Built headers file mm p) (hpages : ProgramHeader.OwnPages headers) :
    Apart mm.areas := by
  have hheap := h.heap_lt
  have hstack := h.brk_le
  have htop : stackTop < userStackMaxAddr := by decide
  constructor
  · exact fun k vma hk => (h.place hk).1
  · intro k vma hk
    obtain ⟨hkey, ⟨ph, hmem, hload, hstart, hend, -⟩ | ⟨hstart, hend⟩ | ⟨hstart, hend⟩⟩ :=
      h.place hk
    · have := hpages.nonempty ph hmem hload
      omega
    · omega
    · omega
  · rintro j k v w hj hk hne a ⟨hv, hw⟩
    rw [Vma.inVma_iff] at hv hw
    obtain ⟨hkey, hv'⟩ := h.place hj
    obtain ⟨hkey', hw'⟩ := h.place hk
    rcases hv' with ⟨ph, hmem, hload, hstart, hend, hbelow⟩ | hv' | hv'
    · rcases hw' with ⟨ph', hmem', hload', hstart', hend', -⟩ | hw' | hw'
      · have hph : ph ≠ ph' := by
          rintro rfl
          exact hne (hstart.trans hstart'.symm)
        rcases hpages.disjoint.forall hmem hmem' hph hload hload' with hle | hle
        · omega
        · omega
      · omega
      · omega
    · rcases hw' with ⟨ph', -, -, hstart', hend', hbelow'⟩ | hw' | hw'
      · omega
      · omega
      · omega
    · rcases hw' with ⟨ph', -, -, hstart', hend', hbelow'⟩ | hw' | hw'
      · omega
      · omega
      · omega

/-- What `new_from_elf` returns is arranged, if the segments have their own pages and the
heap starts out below the range of `mmap`. -/
theorem arranged_newFromElf (hload : newFromElf headers file p = .ok (mm, p'))
    (hpages : ProgramHeader.OwnPages headers) (hbrk : mm.brk ≤ mmapTop) : mm.Arranged := by
  have h := (newFromElf_sat headers file).of_ok hload
  have hheap := h.heap_lt
  refine ⟨h.apart_areas hpages, ?_, hbrk, ?_⟩
  · obtain ⟨heap, hareas, hspans⟩ := h.heap
    exact ⟨heap, hareas, hspans.2⟩
  · intro k vma hk
    obtain ⟨-, ⟨ph, -, -, -, hend, hbelow⟩ | ⟨-, hend⟩ | hstack⟩ := h.place hk
    · exact .inr (by omega)
    · exact .inr (hend.le.trans hbrk)
    · exact .inl hstack

end Load

/-- The calls of a process that leaves the choice of addresses to the kernel never panic,
and its areas stay arranged. -/
theorem arranged_of_calls {headers : List ProgramHeader} {file : MappedFile} {p p' : Phys}
    (hload : newFromElf headers file p = .ok (mm, p')) (hpages : ProgramHeader.OwnPages headers)
    (hbrk : mm.brk ≤ mmapTop) {cs : List MemoryCall} (hcs : ∀ c ∈ cs, c.WholePages) :
    ∃ mm', mm.calls cs p' = .ok (mm', p') ∧ mm'.Arranged := by
  obtain ⟨mm', p'', hcalls, rfl, harranged⟩ :=
    ((arranged_newFromElf hload hpages hbrk).calls hcs p').returns
  exact ⟨mm', hcalls, harranged⟩

def oneSegment : List ProgramHeader :=
  [⟨true, 0x10234, 0x2000, 0x1000, 0x234, true, true, false⟩]

def growAndMap : List MemoryCall :=
  [.brk 0x20001, .mmap 0x3000 3 0x20 none 0, .brk 0x7ffe000, .mmap 0x1000 1 0x20 none 0, .brk 1]

theorem arranged_of_calls_oneSegment :
    ∃ mm p', newFromElf oneSegment ⟨0, []⟩ .bare = .ok (mm, p') ∧
      ∃ mm', mm.calls growAndMap p' = .ok (mm', p') ∧ mm'.Arranged := by
  have hrun : ((newFromElf oneSegment ⟨0, []⟩ .bare).map fun r => decide (r.1.brk ≤ mmapTop)) =
      .ok true := by
    decide +kernel
  cases hload : newFromElf oneSegment ⟨0, []⟩ .bare with
  | error e =>
    rw [hload] at hrun
    cases hrun
  | ok r =>
    rw [hload] at hrun
    have hbrk : r.1.brk ≤ mmapTop := of_decide_eq_true (Except.ok.inj hrun)
    refine ⟨r.1, r.2, rfl, arranged_of_calls hload ⟨?_, ?_⟩ hbrk ?_⟩
    · decide
    · simp [oneSegment]
    · simp [growAndMap, MemoryCall.WholePages, pageSize]

end Mm

end Zinix
