import Zinix.Fs.Paths
import Zinix.Mm.ElfFits
import Zinix.Mm.KmapPages
import Zinix.Task.Clone
import Zinix.Task.Spaces

/-!
# A new task from a file

`create_user_task` maps a file into the address space of the kernel for as long as it reads
the program headers, makes the address space of the program, takes a block of pages for the
kernel stack, and writes the arguments to the stack of the program.

All that the parser reads is read before the address space is made, and the trap frame, which
the source keeps at the end of the kernel stack, is passed on as a value.
-/

namespace Zinix

open Program Phys

structure ElfFile where
  headers : List ProgramHeader
  phEntrySize : ℕ
  entry : ℕ
  deriving DecidableEq

/-- The disk with the bytes of its files, and the parser, which refuses bytes that are no
program. -/
structure Loader where
  disk : Disk
  file : List String → MappedFile
  parser : Reader (Option ElfFile)

/-- The parts of a new task that are taken over, and its kernel stack. -/
structure NewTask where
  mm : Mm
  regs : UserStack.Regs
  entry : ℕ
  kernelStack : Frame

def Frame.block (f : Frame) : Finset Frame :=
  (Finset.range (2 ^ kernelStackSizeOrder)).image f.inBlock

/-- `Drop for Stack`. -/
def Phys.withoutBlock (p : Phys) (f : Frame) : Phys := { p with live := p.live \ f.block }

/-- `KmapToken::new_file` and the `unwrap` of its result. The token is known by its address. -/
def Mm.newKmapFile (kern : Mm) (len : ℕ) (file : MappedFile) (fileOff fileLen : ℕ) :
    Program Phys (ℕ × Mm) := do
  Checked.ensure (Vaddr.isAlign len) .assertion
  let vma ← Checked.unwrap (← kern.allocKmapFile len file fileOff fileLen)
  let kern ← kern.insertNoCheck vma
  return (vma.startVaddr, kern)

namespace Loader

variable (ld : Loader) (image : KernelImage)

/-- What is seen of a file that is mapped: the last page is filled up with zeros. -/
def mapped (place : List String) (len : ℕ) : List Byte :=
  (ld.file place).bytes ++ List.replicate (len - (ld.file place).bytes.length) 0

/-- The part of `create_user_task` after the parser. The token is dropped when the address space
has been made, before its stack is written. -/
def loadTask (elf : ElfFile) (file : MappedFile) (token : ℕ) (args : List String) (kern : Mm) :
    Program Phys (Option NewTask × Mm) := do
  let mm ← Mm.newFromElf elf.headers file
  let kern ← (KmapCall.drop token).run kern
  let kernelStack ← CloneState.stackNew image
  let _ ← subUsize (← CloneState.stackEnd kernelStack) TrapFrame.size
  let created ← mm.writeArgs elf.phEntrySize elf.entry (args.map asBytes)
  return (created.map fun (mm, regs) => ⟨mm, regs, elf.entry, kernelStack⟩, kern)

/-- `create_user_task`. The walk along the path leads where the disk leads. -/
def createUserTask (kern : Mm) (path : String) (args : List String) :
    Program Phys (Option NewTask × Mm) :=
  match ld.disk.lookup [] (components path) with
  | none => return (none, kern)
  | some place => do
    -- the root is in no directory
    Checked.ensure (place ≠ []) .unwrapNone
    let file := ld.file place
    let fileLen := file.bytes.length
    let kmapLen ← Vaddr.ceil fileLen
    let (token, kern) ← kern.newKmapFile kmapLen file 0 fileLen
    let (elf, kern) ← ld.parser.runSlice token kmapLen kern
    let elf ← Checked.unwrap elf
    loadTask image elf file token args kern

/-- A program can be made of a path and arguments: the path leads to a file, not to the root,
which can be mapped and is a program, its image fits into the user space, and its strings fit
into a page. -/
structure Loadable (path : String) (args : List String) (place : List String) (elf : ElfFile) :
    Prop where
  found : ld.disk.lookup [] (components path) = some place
  notRoot : place ≠ []
  fits : Vaddr.up (ld.file place).bytes.length < kmapEnd - kmapStart
  parsed : ld.parser.run (ld.mapped place (Vaddr.up (ld.file place).bytes.length)) = some (some elf)
  image : ImageFits elf.headers
  strings : UserStack.stackUsed (elfAuxv elf.phEntrySize elf.entry) (args.map asBytes) < pageSize

/-- As many frames as a new task takes at most: three for each page of the file, and those of
its address space. -/
def framesAt (place : List String) : ℕ :=
  3 * (Vaddr.up (ld.file place).bytes.length / pageSize) + Mm.stackFrames

end Loader

/-- The page can be reached through the direct map, also with an offset of the stack. -/
def DirectMapped (f : Frame) : Prop :=
  f.paddr + phyMemOffset + pageSize + userStackMaxAddr < wordSize

instance (f : Frame) : Decidable (DirectMapped f) := inferInstanceAs (Decidable (_ < _))

/-- The allocator can hand out `n` frames. Those that are not in `base` are in the direct map, and
there is a block for a kernel stack whichever of them are in use. -/
structure HasFrames (image : KernelImage) (base : Finset Frame) (p : Phys) (n : ℕ)
    (live : Finset Frame) : Prop where
  frames : p.liveAfter n = some live
  direct : ∀ f ∈ live, f ∉ base → DirectMapped f
  block : ∀ used, base ⊆ used → used ⊆ live →
    ∃ f, image.pickBlock used = some f ∧ DirectMapped (CloneState.stackBack f)

section Frames

variable {image : KernelImage} {base live : Finset Frame} {p p' : Phys} {m n : ℕ}

theorem HasFrames.supplies (h : HasFrames image base p n live) : p.Supplies n := by
  rw [Phys.Supplies, h.frames]
  rfl

theorem HasFrames.spent (h : HasFrames image base p (m + n) live) (hspent : Spent m p p') :
    HasFrames image base p' n live :=
  ⟨by rw [← hspent.liveAfter_add, h.frames], h.direct, h.block⟩

theorem HasFrames.mono (h : HasFrames image base p n live) (hle : m ≤ n) :
    ∃ live', HasFrames image base p m live' := by
  obtain ⟨k, rfl⟩ := Nat.exists_eq_add_of_le hle
  have hframes := h.frames
  rw [Phys.liveAfter, takeMany_add] at hframes
  obtain ⟨live', hlive, hrest⟩ := Option.bind_eq_some_iff.mp hframes
  have hsub := subset_takeMany hrest
  exact ⟨live', hlive, fun f hf => h.direct f (hsub hf),
    fun used hbase hused => h.block used hbase (hused.trans hsub)⟩

end Frames

section Stack

variable {image : KernelImage} {p p' : Phys} {K : Set Frame} {f : Frame}

structure StackMade (image : KernelImage) (p : Phys) (f : Frame) (p' : Phys) : Prop where
  pick : image.pickBlock p.live = some f
  live : p'.live = p.live ∪ f.block
  keep : ∀ g ∈ p.live, p'.mem g = p.mem g
  tables : p'.tables = p.tables
  cnt : p'.tableCnt = p.tableCnt

theorem notMem_live_of_block (hpick : image.pickBlock p.live = some f) {g : Frame}
    (hg : g ∈ f.block) : g ∉ p.live := by
  rw [Frame.block, Finset.mem_image] at hg
  obtain ⟨i, hi, rfl⟩ := hg
  exact image.fresh p.live f hpick i (Finset.mem_range.mp hi)

theorem stackNew_made (image : KernelImage) (p : Phys) :
    Sat (CloneState.stackNew image) p (StackMade image p)
      fun _ => image.pickBlock p.live = none := by
  have hshape : Sat (CloneState.stackNew image) p
      (fun f p' => image.pickBlock p.live = some f ∧ p'.live = p.live ∪ f.block)
      fun _ => image.pickBlock p.live = none := by
    unfold CloneState.stackNew
    apply Sat.get_bind
    cases hpick : image.pickBlock p.live with
    | none => exact sat_throw rfl
    | some f => exact Sat.set_bind (Sat.modify_bind (sat_pure ⟨rfl, rfl⟩))
  refine (hshape.and (CloneState.stackNew_sat image p)).mono ?_ fun _ he => he.1
  rintro f p' ⟨⟨hpick, hlive⟩, hput⟩
  exact ⟨hpick, hlive, fun g hg => (hput.keep g hg).2, hput.tables, hput.cnt⟩

theorem StackMade.kernelStep (h : StackMade image p f p') (hK : ∀ g ∈ K, g ∈ p.live)
    (hkernel : p.tables kernelPagetable ≠ []) :
    KernelStep p K p' (K ∪ f.block) where
  keep := by
    intro g hg _
    rw [h.live]
    exact ⟨Finset.mem_union_left _ hg, h.keep g hg⟩
  fresh := by
    rintro g (hg | hg)
    · exact .inl hg
    · exact .inr (notMem_live_of_block h.pick hg)
  live := by
    rintro g (hg | hg)
    · rw [h.live]
      exact Finset.mem_union_left _ (hK g hg)
    · rw [h.live]
      exact Finset.mem_union_right _ hg
  others := fun q _ => by rw [h.tables]
  kernel := by rwa [h.tables]
  cnt := h.cnt.ge

theorem kernelStep_withoutBlock (hK : ∀ g ∈ K, g ∈ p.live ∧ g ∉ f.block)
    (hkernel : p.tables kernelPagetable ≠ []) :
    KernelStep p (K ∪ f.block) (p.withoutBlock f) K where
  keep := fun _ hg hnot => ⟨Finset.mem_sdiff.mpr ⟨hg, fun hb => hnot (.inr hb)⟩, rfl⟩
  fresh := fun _ hg => .inl (.inl hg)
  live := fun g hg => Finset.mem_sdiff.mpr (hK g hg)
  others := fun _ _ => rfl
  kernel := hkernel
  cnt := le_rfl

end Stack

/-- The stack of a new program is laid out, and its registers show where. -/
def UserStack.SetUp (peek : ℕ → Option Byte) (regs : UserStack.Regs) (auxv : List AuxHeader)
    (args : List (List Byte)) : Prop :=
  ∃ start, regs = UserStack.regsOf start auxv args ∧ start % pageSize = 0 ∧
    0 < UserStack.argcSp start auxv args ∧ start < UserStack.argcSp start auxv args + pageSize ∧
    UserStack.Laid peek start auxv args

theorem Mm.Built.congr {headers : List ProgramHeader} {file : MappedFile} {mm : Mm} {p p' : Phys}
    (h : Built headers file mm p) (hsane : mm.Sane p') : Built headers file mm p' :=
  { h with tidy := ⟨hsane.sound.ok, h.tidy.low, h.tidy.plain, h.tidy.first⟩ }

section Load

variable {ι : Type} {F : ι → Option Mm} {a : ι} {image : KernelImage}
  {p p' : Phys} {vma : Vma}
  {K : Set Frame} {elf : ElfFile} {file : MappedFile} {mm : Mm} {f : Frame}

/-- A new task beside address spaces, with what is in its memory. -/
structure TaskMade [DecidableEq ι] (F : ι → Option Mm) (a : ι) (p : Phys) (elf : ElfFile)
    (file : MappedFile) (args : List (List Byte)) (task : NewTask) (p' : Phys) : Prop where
  entry : task.entry = elf.entry
  built : Mm.Built elf.headers file task.mm p'
  stack : UserStack.SetUp (task.mm.peek p') task.regs (elfAuxv elf.phEntrySize elf.entry) args
  unmapped : Unmapped p'
  beside : Beside p' (replaceAt F a (some task.mm)) (kernelTables p' ∪ task.kernelStack.block)
  tables : ∀ f ∈ p'.tables kernelPagetable, f ∉ task.kernelStack.block
  others : ∀ i mm, i ≠ a → F i = some mm → Untouched mm p p'

/-- The address space of a program is made beside the mapping of its file. -/
theorem Beside.newFromElf [DecidableEq ι] (h : Beside p F (kernelFrames p (kmapAreas vma)))
    (hk : Kmapped p vma) (a : ι) (headers : List ProgramHeader) (file : MappedFile) :
    Sat (Mm.newFromElf headers file) p
      (fun mm p' => ImageFits headers ∧ Mm.Built headers file mm p' ∧ mm.Made p p' ∧
        Spent Mm.stackFrames p p' ∧ Kmapped p' vma ∧
        Beside p' (replaceAt F a (some mm)) (kernelFrames p' (kmapAreas vma)) ∧
        ∀ i mm, i ≠ a → F i = some mm → Untouched mm p p')
      fun _ => ImageFits headers → ¬p.Supplies Mm.stackFrames := by
  by_cases hfits : ImageFits headers
  · refine ((Mm.newFromElf_made headers file).and
      (Mm.newFromElf_returns hfits hk.areas.table.ne_nil)).mono ?_ fun _ he _ => he.2.2
    rintro mm p' ⟨⟨hbuilt, hmade⟩, hspent⟩
    have hc : Separate.Change p F a p' (some mm) p.tableCnt (fun _ => none) mm.areas :=
      h.separate.change_made hmade
    have htables := hc.isLocal.others kernelPagetable hc.notKernel.symm
    have hframes : kernelFrames p' (kmapAreas vma) = kernelFrames p (kmapAreas vma) := by
      unfold kernelFrames Owned
      rw [htables]
    refine ⟨hfits, hbuilt, hmade, hspent, hk.congr htables fun f hf => h.kept hc hf, ?_, ?_⟩
    · rw [hframes]
      exact h.change hc
    · exact fun i mm hi hmm => h.separate.untouched hc hi hmm
  · refine (Mm.newFromElf_made headers file).mono ?_ fun _ _ hfits' => absurd hfits' hfits
    rintro mm p' ⟨hbuilt, -⟩
    exact absurd hbuilt.imageFits hfits

theorem Beside.dropKmap (h : Beside p F (kernelFrames p (kmapAreas vma))) (hk : Kmapped p vma)
    {E : Panic → Prop} :
    Sat ((KmapCall.drop kmapStart).run (Mm.withKmap vma)) p
      (fun kern p' => kern = Mm.newKernMmByPagetable kernelPagetable ∧ Unmapped p' ∧
        Beside p' F (kernelTables p') ∧
        p'.live = (p.live.filter fun f => f ∉ vma.pagesTree.entries.map Prod.snd) ∧
        ∀ i mm, F i = some mm → Untouched mm p p') E := by
  have hget : (Mm.withKmap vma).vmas.get? kmapStart = some vma := by
    rw [Mm.withKmap, Mm.setVma, OrdMap.get?_insert, if_pos rfl]
  rw [KmapCall.run, hget]
  refine hk.drop.bind ?_
  rintro _ p' ⟨hunmapped, hstep, hlive⟩
  refine sat_pure ⟨?_, hunmapped, h.kernelStep hstep, hlive, fun i mm hi => h.untouched hstep hi⟩
  have hempty : ((Mm.withKmap vma).vmas.filter fun k => k ≠ kmapStart) = ∅ := by
    ext k
    rw [OrdMap.get?_filter, Mm.withKmap, Mm.setVma, OrdMap.get?_insert]
    by_cases hk : k = kmapStart
    · simp [hk]
    · simp [hk, Mm.newKernMmByPagetable]
  rw [hempty]
  rfl

theorem Beside.stackNew (h : Beside p F (kernelTables p)) (hp : Unmapped p)
    (image : KernelImage) :
    Sat (CloneState.stackNew image) p
      (fun f p' => image.pickBlock p.live = some f ∧ Unmapped p' ∧
        Beside p' F (kernelTables p' ∪ f.block) ∧
        (∀ g ∈ p'.tables kernelPagetable, g ∉ f.block) ∧
        ∀ i mm, F i = some mm → Untouched mm p p')
      fun _ => image.pickBlock p.live = none := by
  refine (stackNew_made image p).imp ?_
  intro f p' hmade
  have hstep := hmade.kernelStep (K := kernelTables p) h.live hp.table.ne_nil
  have htables : p'.tables kernelPagetable = p.tables kernelPagetable := by rw [hmade.tables]
  have hframes := kernelTables_congr htables
  refine ⟨hmade.pick, hp.congr htables (fun g hg => hmade.keep g (h.live g hg)) fun g hg => ?_, ?_,
    fun g hg hblock => ?_, fun i mm hi => h.untouched hstep hi⟩
  · exact hstep.live g (.inl (owned_none.mp hg))
  · rw [hframes]
    exact h.kernelStep hstep
  · rw [htables] at hg
    exact notMem_live_of_block hmade.pick hblock (h.live g hg)

-- The unifier looks into the sums with a page size.
set_option maxRecDepth 10000

theorem Beside.writeArgs [DecidableEq ι] (h : Beside p (replaceAt F a (some mm)) K)
    (hbuilt : Mm.Built elf.headers file mm p) (args : List (List Byte)) :
    Sat (mm.writeArgs elf.phEntrySize elf.entry args) p
      (fun r p' => ∃ regs f pg, r = some (mm, regs) ∧ p' = p.setPage f pg ∧
        UserStack.stackUsed (elfAuxv elf.phEntrySize elf.entry) args < pageSize ∧
        UserStack.SetUp (mm.peek p') regs (elfAuxv elf.phEntrySize elf.entry) args ∧
        mm.Sane p' ∧ Beside p' (replaceAt F a (some mm)) K ∧ (∀ g ∈ K, p'.mem g = p.mem g) ∧
        ∀ i mm, i ≠ a → F i = some mm → Untouched mm p p')
      fun _ => pageSize ≤ UserStack.stackUsed (elfAuxv elf.phEntrySize elf.entry) args ∨
        ∃ f, Owned p mm.pagetable mm.areas f ∧ ¬DirectMapped f := by
  obtain ⟨stack, f, hstack, hread, hget⟩ := hbuilt.topPage
  have hself : replaceAt F a (some mm) a = some mm := replaceAt_self
  have hsame : replaceAt (replaceAt F a (some mm)) a (some mm) = replaceAt F a (some mm) :=
    replaceAt_replaceAt ..
  refine (Mm.writeArgs_laid hbuilt hstack hread hget elf.phEntrySize elf.entry args).mono ?_ ?_
  · rintro _ _ ⟨pg, start, rfl, rfl, hused, halign, hpos, hlt, hlaid⟩
    have hworked := (h.separate.sane a mm hself).setPage (.of_get hstack hget) pg
    have hc := h.separate.change_worked hself hworked
    have hbeside := h.change hc
    rw [hsame] at hbeside
    refine ⟨_, f, pg, rfl, rfl, hused, ⟨start, rfl, halign, hpos, hlt, hlaid⟩, hworked.sane, hbeside,
      fun g hg => (h.kept hc hg).2, fun i mm' hi hmm' => ?_⟩
    refine h.separate.untouched hc hi ?_
    rw [replaceAt_of_ne hi, hmm']
  · rintro e ⟨-, hfull | hword⟩
    · exact .inl hfull
    · exact .inr ⟨f, .inr ⟨_, _, .of_get hstack hget⟩, Nat.not_lt.mpr hword⟩

theorem Beside.fresh_of_made (h : Beside p F K) (hmade : mm.Made p p')
    (hf : Owned p' mm.pagetable mm.areas f) : f ∉ p.live := by
  refine (hmade.isLocal.fresh f hf).resolve_left ?_
  rintro (ht | ⟨_, _, _, hnone, _⟩)
  · rw [hmade.pagetable, h.separate.booted.next _ le_rfl] at ht
    cases ht
  · cases hnone

theorem stackEnd_eq (h : DirectMapped (CloneState.stackBack f)) :
    ∃ top, CloneState.stackEnd f = .ok top ∧ TrapFrame.size ≤ top := by
  have hword : phyMemOffset + (CloneState.stackBack f).paddr + pageSize < wordSize := by
    rw [DirectMapped] at h
    omega
  have hsize : TrapFrame.size ≤ pageSize := by decide
  exact ⟨_, addUsize_ok hword, by omega⟩

theorem loadTask_sat [DecidableEq ι] {base : Finset Frame} (h : Beside p F (kernelFrames p (kmapAreas vma)))
    (hk : Kmapped p vma) (hbase : base ⊆ p.live)
    (hpages : ∀ v f, vma.pagesTree.get? v = some f → f ∉ base) (a : ι) (image : KernelImage)
    (elf : ElfFile) (file : MappedFile) (args : List String) :
    Sat (Loader.loadTask image elf file kmapStart args (Mm.withKmap vma)) p
      (fun r p' => ∃ task, r = (some task, Mm.newKernMmByPagetable kernelPagetable) ∧
        ImageFits elf.headers ∧ UserStack.stackUsed (elfAuxv elf.phEntrySize elf.entry)
          (args.map asBytes) < pageSize ∧
        TaskMade F a p elf file (args.map asBytes) task p')
      fun _ => ∀ live, HasFrames image base p Mm.stackFrames live → ImageFits elf.headers →
        pageSize ≤ UserStack.stackUsed (elfAuxv elf.phEntrySize elf.entry) (args.map asBytes) := by
  unfold Loader.loadTask
  refine ((h.newFromElf hk a elf.headers file).weaken ?_).bind ?_
  · exact fun e he live hframes hfits => absurd hframes.supplies (he hfits)
  rintro mm p₁ ⟨hfits, hbuilt, hmade, hspent, hk₁, hB₁, hothers₁⟩
  have hself : ∀ {G : ι → Option Mm}, replaceAt G a (some mm) a = some mm := replaceAt_self
  have hother : ∀ {i mm'}, i ≠ a → F i = some mm' → replaceAt F a (some mm) i = some mm' :=
    fun hi hmm => (replaceAt_of_ne hi).trans hmm
  refine (hB₁.dropKmap hk₁).bind ?_
  rintro _ p₂ ⟨rfl, hun₂, hB₂, hlive₂, hunt₂⟩
  -- the frames that are in use when the kernel stack is taken
  have hpick : ∀ live, HasFrames image base p Mm.stackFrames live →
      ∃ f, image.pickBlock p₂.live = some f ∧ DirectMapped (CloneState.stackBack f) := by
    intro live hframes
    obtain rfl : p₁.live = live := Option.some.inj (hspent.live.symm.trans hframes.frames)
    refine hframes.block p₂.live (fun f hf => ?_) ?_
    · rw [hlive₂, Finset.mem_filter]
      refine ⟨hspent.subset (hbase hf), fun hmem => ?_⟩
      obtain ⟨⟨v, f⟩, he, rfl⟩ := List.mem_map.mp hmem
      exact hpages v f (OrdMap.get?_eq_some.mpr he) hf
    · rw [hlive₂]
      exact Finset.filter_subset ..
  refine ((hB₂.stackNew hun₂ image).weaken ?_).bind ?_
  · intro e hnone live hframes
    obtain ⟨f, hf, -⟩ := hpick live hframes
    cases hnone.symm.trans hf
  rintro f p₃ ⟨hf, hun₃, hB₃, htable₃, hunt₃⟩
  have hdirect : ∀ live, HasFrames image base p Mm.stackFrames live →
      DirectMapped (CloneState.stackBack f) := by
    intro live hframes
    obtain ⟨g, hg, hdirect⟩ := hpick live hframes
    cases hf.symm.trans hg
    exact hdirect
  refine Sat.lift_bind (fun top htop => ?_) fun e he live hframes => ?_
  swap
  · obtain ⟨top, htop, -⟩ := stackEnd_eq (hdirect live hframes)
    cases he.symm.trans htop
  refine Sat.lift_bind (fun _ _ => ?_) fun e he live hframes => ?_
  swap
  · obtain ⟨top', htop', hle⟩ := stackEnd_eq (hdirect live hframes)
    cases htop.symm.trans htop'
    cases he.symm.trans (subUsize_ok hle)
  have huntouched := (hunt₂ a mm hself).trans (hunt₃ a mm hself)
  have hbuilt₃ := hbuilt.congr (hB₃.separate.sane a mm hself)
  refine ((hB₃.writeArgs hbuilt₃ (args.map asBytes)).weaken ?_).bind ?_
  · rintro e (hfull | ⟨g, hown, hnot⟩) live hframes -
    · exact hfull
    · rw [huntouched.owned_iff] at hown
      obtain rfl : p₁.live = live := Option.some.inj (hspent.live.symm.trans hframes.frames)
      have hlive := hbuilt.tidy.ok.owned_live hown
      exact absurd (hframes.direct g hlive fun hin => h.fresh_of_made hmade hown (hbase hin)) hnot
  rintro _ p₄ ⟨regs, g, pg, rfl, hp₄, hused, hstack, hsane, hB₄, hkept, hunt₄⟩
  have htables : p₄.tables = p₃.tables := by
    rw [hp₄]
    rfl
  have hframes : kernelTables p₄ = kernelTables p₃ := kernelTables_congr (by rw [htables])
  refine sat_pure ⟨_, rfl, hfits, hused, rfl, hbuilt.congr hsane, hstack,
    hun₃.congr (by rw [htables]) (fun f hf => hkept f (.inl hf))
      fun f hf => hB₄.live f (.inl (owned_none.mp hf)), ?_, ?_, ?_⟩
  · rw [hframes]
    exact hB₄
  · rw [htables]
    exact htable₃
  · intro i mm' hi hmm'
    exact ((hothers₁ i mm' hi hmm').trans ((hunt₂ i mm' (hother hi hmm')).trans
      (hunt₃ i mm' (hother hi hmm')))).trans (hunt₄ i mm' hi hmm')

/-- The end of an old address space and of the kernel stack leaves the new task in its place. -/
theorem TaskMade.takeOver [DecidableEq ι] {args : List (List Byte)} {task : NewTask} {i : ι}
    {old : Mm} (h : TaskMade (fun a : Option ι => a.bind F) none p elf file args task p')
    (hi : F i = some old) : ∃ p₁, old.drop p' = .ok ((), p₁) ∧
      KernelApart (p₁.withoutBlock task.kernelStack) (replaceAt F i (some task.mm)) ∧
      Untouched task.mm p' (p₁.withoutBlock task.kernelStack) ∧
      ∀ j mm, j ≠ i → F j = some mm → Untouched mm p (p₁.withoutBlock task.kernelStack) := by
  have hold : replaceAt (fun a : Option ι => a.bind F) none (some task.mm) (some i) = some old := hi
  obtain ⟨_, p₁, hdrop, -, hlocal⟩ := (h.beside.separate.sane _ _ hold).drop.returns
  have hc := h.beside.separate.change_dropped hold hlocal
  have htables := hc.isLocal.others kernelPagetable hc.notKernel.symm
  have hframes := kernelTables_congr htables
  have hdropped := h.beside.change hc
  rw [← hframes] at hdropped
  have hstep : KernelStep p₁ (kernelTables p₁ ∪ task.kernelStack.block)
      (p₁.withoutBlock task.kernelStack) (kernelTables p₁) := by
    refine kernelStep_withoutBlock (fun g hg => ⟨hdropped.live g (.inl hg), ?_⟩) ?_
    · rw [hframes] at hg
      exact h.tables g hg
    · rw [htables]
      exact h.unmapped.table.ne_nil
  have hfinal := hdropped.kernelStep hstep
  refine ⟨p₁, hdrop, ⟨?_, h.unmapped.congr htables (fun f hf => (h.beside.kept hc (.inl hf)).2)
    fun f hf => hstep.live f (hframes ▸ owned_none.mp hf)⟩, ?_, fun j mm hj hmm => ?_⟩
  · rw [← bind_exchanged]
    exact hfinal.comp fun _ _ k ha hb => exchanged_inj k ha hb
  · have hne : none ≠ some i := (Option.some_ne_none i).symm
    have hnew : replaceAt (replaceAt (fun a : Option ι => a.bind F) none (some task.mm)) (some i)
        none none = some task.mm := (replaceAt_of_ne hne).trans replaceAt_self
    exact (h.beside.separate.untouched hc hne rfl).trans (hdropped.untouched hstep hnew)
  · have hne : some j ≠ some i := fun heq => hj (Option.some.inj heq)
    have hmm' : replaceAt (fun a : Option ι => a.bind F) none (some task.mm) (some j) = some mm := hmm
    have hkept := (replaceAt_of_ne hne (b := none)).trans hmm'
    exact (h.others (some j) mm (Option.some_ne_none j) hmm).trans
      ((h.beside.separate.untouched hc hne hmm').trans (hdropped.untouched hstep hkept))

end Load

section Kmap

variable {kern : Mm} {p : Phys} {file : MappedFile} {len fileLen : ℕ}
  {ld : Loader} {place : List String}

theorem Mm.allocUnmappedCore_kmap (hkern : kern.vmas = ∅) (hlen : len % pageSize = 0) :
    kern.allocUnmappedCore none len true kmapStart kmapEnd = .ok
      (if len < kmapEnd - kmapStart then some (.empty kmapStart (kmapStart + len)) else none) := by
  have hstart : Vaddr.isAlign kmapStart = true := by decide
  have hend : Vaddr.isAlign kmapEnd = true := by decide
  have hlt : kmapStart < kmapEnd := by decide
  have hsub : subUsize kmapEnd kmapStart = .ok (kmapEnd - kmapStart) := subUsize_ok hlt.le
  have halign : Vaddr.isAlign len = true := beq_iff_eq.mpr hlen
  unfold Mm.allocUnmappedCore
  rw [Checked.ensure_pos halign, Checked.ensure_pos hstart, Checked.ensure_pos hend,
    Checked.ensure_pos hlt]
  simp only [Checked.ok_bind, hsub]
  by_cases hfits : len < kmapEnd - kmapStart
  · have hword : kmapStart + len < wordSize := by
      simp only [kmapStart, kmapEnd, wordSize] at hfits ⊢
      omega
    have hrange : kern.vmas.range kmapStart kmapEnd = [] := by
      rw [hkern]
      rfl
    rw [if_neg (Nat.not_le.mpr hfits), if_pos hfits, hrange]
    simp [Mm.fitHigh, hsub, hfits.le, addUsize_ok hword]
  · rw [if_pos (Nat.le_of_not_lt hfits), if_neg hfits]
    rfl

def kmapArea (file : MappedFile) (len : ℕ) : Vma :=
  { Vma.empty kmapStart (kmapStart + len) with
    pagetable := some kernelPagetable
    fileOff := 0
    file := some file
    fileLen := file.bytes.length
    fileInVmaOff := 0
    vmFlags := .VM_READ ||| .VM_WRITE ||| .VM_EXEC }

theorem Mm.newKmapFile_sat (hlen : len % pageSize = 0) (hfile : file.bytes.length ≤ len) :
    Sat ((newKernMmByPagetable kernelPagetable).newKmapFile len file 0 file.bytes.length) p
      (fun r p' => p' = p ∧ len < kmapEnd - kmapStart ∧
        r = (kmapStart, withKmap (kmapArea file len)))
      fun _ => ¬len < kmapEnd - kmapStart := by
  unfold Mm.newKmapFile
  refine Sat.ensure_bind (fun _ => ?_) fun hnot => absurd (beq_iff_eq.mpr hlen) hnot
  rw [Mm.allocKmapFile, Checked.ensure_pos hfile, Checked.ok_bind,
    Mm.allocUnmappedCore_kmap rfl hlen, Checked.ok_bind]
  refine Sat.lift_bind (fun ret hret => ?_) nofun
  obtain rfl := Except.ok.inj hret
  by_cases hfits : len < kmapEnd - kmapStart
  · rw [if_pos hfits]
    refine Sat.unwrap_bind rfl ?_
    refine (Mm.insertNoCheck_bare fun old hold => ?_).bind ?_
    · cases hold
    · rintro _ _ ⟨rfl, rfl⟩
      exact sat_pure ⟨rfl, hfits, rfl⟩
  · rw [if_neg hfits]
    exact hfits

theorem kmapped_kmapArea (h : Unmapped p) (hlen : len % pageSize = 0)
    (hfits : len < kmapEnd - kmapStart) (hfile : file.bytes.length ≤ len) :
    Kmapped p (kmapArea file len) := by
  have hend : kmapStart + len ≤ kmapEnd := by omega
  refine ⟨h.insertEmpty (fun _ _ => not_holds_none) rfl rfl, rfl, rfl, rfl, ?_, hend, fun _ => ⟨file, rfl, ?_, ?_⟩, ?_, nofun⟩
  · show (kmapStart + len) % pageSize = 0
    simp only [kmapStart, pageSize] at hlen ⊢
    omega
  · simp only [kmapEnd, kmapStart] at hfits
    omega
  · exact (Nat.zero_add _).le
  · show kmapStart + 0 + file.bytes.length ≤ kmapEnd
    omega

theorem kernelFrames_kmapArea :
    kernelFrames p (kmapAreas (kmapArea file len)) = kernelTables p := by
  refine Set.ext fun f => ⟨fun hf => hf.resolve_right ?_, .inl⟩
  rintro ⟨k, v, hv⟩
  cases (holds_kmapAreas.mp hv).2

theorem card_pagesLeft_le : (kmapArea file len).pagesLeft.card ≤ len / pageSize := by
  refine (Finset.card_filter_le ..).trans ?_
  have hlen : kmapStart + len - kmapStart = len := Nat.add_sub_cancel_left ..
  rw [Finset.card_range]
  exact (congrArg (· / pageSize) hlen).le

theorem mapped_getElem? {off : ℕ} (hfile : (ld.file place).bytes.length ≤ len) (hoff : off < len) :
    (ld.mapped place len)[off]? =
      some ((kmapArea (ld.file place) len).byteAt (kmapStart + off)) := by
  have hbyte : (kmapArea (ld.file place) len).byteAt (kmapStart + off) =
      (ld.file place).bytes.getD off 0 := by
    have hanon : (kmapArea (ld.file place) len).isAnon = false := by
      show VmFlags.contains (.VM_READ ||| .VM_WRITE ||| .VM_EXEC) .VM_ANON = false
      decide
    have hstart : (kmapArea (ld.file place) len).mapStart = kmapStart := Nat.add_zero _
    have hend : (kmapArea (ld.file place) len).mapEnd = kmapStart + (ld.file place).bytes.length := by
      rw [Vma.mapEnd, hstart]
      rfl
    by_cases hin : off < (ld.file place).bytes.length
    · rw [Vma.byteAt_mapped rfl hanon (by omega), hstart]
      exact congrArg (fun i => (ld.file place).bytes.getD i 0) (by
        show 0 + (kmapStart + off - kmapStart) = off
        omega)
    · rw [Vma.byteAt_outside (by omega), List.getD_eq_default _ _ (Nat.le_of_not_lt hin)]
  rw [hbyte, Loader.mapped, List.getD_eq_getElem?_getD]
  by_cases hin : off < (ld.file place).bytes.length
  · rw [List.getElem?_append_left hin, List.getElem?_eq_getElem hin]
    rfl
  · rw [List.getElem?_append_right (Nat.le_of_not_lt hin),
      List.getElem?_eq_none (Nat.le_of_not_lt hin), List.getElem?_replicate, if_pos (by omega)]
    rfl

theorem length_mapped (hfile : (ld.file place).bytes.length ≤ len) :
    (ld.mapped place len).length = len := by
  rw [Loader.mapped, List.length_append, List.length_replicate]
  omega

end Kmap

namespace Loader

variable {ι : Type} {F : ι → Option Mm} {ld : Loader} {p : Phys} {path : String}
  {args : List String}

theorem Loadable.eq {place place' : List String} {elf elf' : ElfFile}
    (h : ld.Loadable path args place elf) (h' : ld.Loadable path args place' elf') :
    place = place' ∧ elf = elf' := by
  obtain rfl := Option.some.inj (h.found.symm.trans h'.found)
  exact ⟨rfl, Option.some.inj (Option.some.inj (h.parsed.symm.trans h'.parsed))⟩

/-- `create_user_task` returns if the program can be made and there are enough frames. -/
theorem createUserTask_sat [DecidableEq ι] (h : Beside p F (kernelTables p)) (hp : Unmapped p)
    (a : ι) (ld : Loader) (image : KernelImage) (path : String) (args : List String) :
    Sat (ld.createUserTask image (.newKernMmByPagetable kernelPagetable) path args) p
      (fun r p' => ld.disk.lookup [] (components path) = none ∧ r.1 = none ∨
        ∃ place elf task, ld.Loadable path args place elf ∧
          r = (some task, .newKernMmByPagetable kernelPagetable) ∧
          TaskMade F a p elf (ld.file place) (args.map asBytes) task p')
      fun _ => ∀ place elf live, ld.Loadable path args place elf →
        ¬HasFrames image p.live p (ld.framesAt place) live := by
  unfold createUserTask
  cases hfound : ld.disk.lookup [] (components path) with
  | none => exact sat_pure (.inl ⟨rfl, rfl⟩)
  | some place =>
    have hplace : ∀ {place' elf}, ld.Loadable path args place' elf → place' = place :=
      fun h => Option.some.inj (h.found.symm.trans hfound)
    refine Sat.ensure_bind (fun hroot => ?_) ?_
    swap
    · intro hroot place' elf live hload
      exact absurd (hplace hload ▸ hload.notRoot) hroot
    refine Sat.lift_bind (fun kmapLen hceil => ?_) ?_
    swap
    · intro e he place' elf live hload
      obtain rfl := hplace hload
      have hfits := hload.fits
      have hle := Vaddr.le_up (ld.file place').bytes.length
      rw [Vaddr.ceil_eq] at he
      · cases he
      · simp only [kmapStart, kmapEnd, wordSize, pageSize] at hfits ⊢
        omega
    obtain ⟨-, rfl⟩ := Vaddr.ceil_eq_ok hceil
    have hmod := Vaddr.up_mod (ld.file place).bytes.length
    have hfile := Vaddr.le_up (ld.file place).bytes.length
    refine ((Mm.newKmapFile_sat hmod hfile).weaken ?_).bind ?_
    · intro e he place' elf live hload
      obtain rfl := hplace hload
      exact absurd hload.fits he
    rintro _ p₀ ⟨hp₀, hfits, rfl⟩
    rw [hp₀]
    have hk := kmapped_kmapArea hp hmod hfits hfile
    have hlen := length_mapped hfile
    have hleft : ∀ {live}, HasFrames image p.live p (ld.framesAt place) live → ∃ live',
        HasFrames image p.live p (3 * (kmapArea (ld.file place)
          (Vaddr.up (ld.file place).bytes.length)).pagesLeft.card + Mm.stackFrames) live' := by
      intro live hframes
      refine hframes.mono ?_
      have hle : (kmapArea (ld.file place) (Vaddr.up (ld.file place).bytes.length)).pagesLeft.card ≤
          Vaddr.up (ld.file place).bytes.length / pageSize := card_pagesLeft_le
      rw [framesAt]
      omega
    have hslice := ld.parser.runSlice_sat
      (ld.mapped place (Vaddr.up (ld.file place).bytes.length)) hk (by rw [hlen]; rfl)
      fun off hoff => mapped_getElem? hfile (hlen ▸ hoff)
    rw [hlen] at hslice
    refine (hslice.weaken ?_).bind ?_
    · rintro e he place' elf live hload hframes
      obtain rfl := hplace hload
      obtain ⟨live', hframes⟩ := hleft hframes
      obtain ⟨live', hframes⟩ := hframes.mono (Nat.le_add_right ..)
      rcases he with hnone | hshort
      · cases hnone.symm.trans hload.parsed
      · exact hshort.2 hframes.supplies
    rintro ⟨parsed, _⟩ p₁ ⟨vma, hparsed, rfl, hread⟩
    refine Sat.lift_bind (fun elf helf => ?_) ?_
    swap
    · rintro e he place' elf live hload -
      obtain rfl := hplace hload
      cases hparsed.symm.trans hload.parsed
      cases he
    obtain rfl := Checked.unwrap_eq_ok.mp helf
    obtain ⟨m, hm, hspent⟩ := hread.spent
    rw [← kernelFrames_kmapArea] at h
    have hpages : ∀ v f, vma.pagesTree.get? v = some f → f ∉ p.live := by
      intro v f hv
      refine (hread.step.fresh f (.inr ⟨_, v, holds_kmapAreas.mpr ⟨rfl, hv⟩⟩)).resolve_left fun hold => ?_
      rw [kernelFrames_kmapArea] at hold
      exact (hread.kmapped.live hv).2 (hread.tables.subset hold)
    refine (loadTask_sat (h.kernelStep hread.step) hread.kmapped hspent.subset hpages a image elf
      (ld.file place) args).mono ?_ ?_
    · rintro _ p₂ ⟨task, rfl, himage, hused, htask⟩
      refine .inr ⟨place, elf, task, ⟨hfound, hroot, hfits, hparsed, himage, hused⟩, rfl,
        { htask with others := fun i mm hi hmm => ?_ }⟩
      exact (h.untouched hread.step hmm).trans (htask.others i mm hi hmm)
    · intro e he place' elf' live hload hframes
      obtain rfl := hplace hload
      cases hparsed.symm.trans hload.parsed
      obtain ⟨live', hframes⟩ := hleft hframes
      obtain ⟨live'', hframes⟩ := hframes.mono (show m + Mm.stackFrames ≤ _ by omega)
      exact absurd (he live'' (hframes.spent hspent) hload.image) (Nat.not_le.mpr hload.strings)

end Loader

end Zinix
