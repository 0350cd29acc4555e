import Zinix.Lib.Chunks
import Zinix.Mm.Fill
import Zinix.Mm.Kmap
import Zinix.Mm.KernelFrames

/-!
# The pages of a temporary mapping

The kernel reads a file through a temporary mapping, and its page fault handler brings in
the pages that are touched. When the mapping goes its pages are free again, and the tables
stay in the page table of the kernel.
-/

namespace Zinix

open Program Phys PageTable

def kmapOwn (i : Fin 512) : Prop := 280 ≤ i.val ∧ i.val < 284

def IsKmapPage (v : ℕ) : Prop := v % pageSize = 0 ∧ kmapStart ≤ v ∧ v < kmapEnd

section Pages

variable {u v : ℕ}

theorem IsKmapPage.own (h : IsKmapPage v) : kmapOwn (addrGetPpn2 v) := by
  simp only [kmapOwn, addrGetPpn2, Fin.val_ofNat, Nat.shiftRight_eq_div_pow, IsKmapPage, kmapStart,
    kmapEnd] at *
  omega

theorem IsKmapPage.samePage_iff (hu : IsKmapPage u) (hv : IsKmapPage v) :
    SamePage u v ↔ u = v := by
  refine samePage_iff_eq hu.1 hv.1 ?_
  simp only [IsKmapPage, kmapStart, kmapEnd] at hu hv
  omega

theorem isKmapPage_down (hlow : kmapStart ≤ v) (hhigh : v < kmapEnd) :
    IsKmapPage (Vaddr.down v) := by
  refine ⟨Vaddr.down_mod v, ?_, (Vaddr.down_le v).trans_lt hhigh⟩
  simp only [Vaddr.down, kmapStart, pageSize] at *
  omega

end Pages

abbrev kmapRegion : Region := ⟨kmapOwn, IsKmapPage, IsKmapPage.own, IsKmapPage.samePage_iff⟩

def kmapFlags : BitVec 8 := vmaFlags2PteFlags (.VM_READ ||| .VM_WRITE ||| .VM_EXEC)

def kmapAreas (vma : Vma) : Areas := replaceAt (fun _ => none) kmapStart (some vma)

theorem holds_kmapAreas {vma : Vma} {k v : ℕ} {f : Frame} :
    Holds (kmapAreas vma) k v f ↔ k = kmapStart ∧ vma.pagesTree.get? v = some f := by
  rw [kmapAreas, holds_replaceAt]
  exact or_iff_left fun hf => not_holds_none hf.2

/-- The page table of the kernel with a temporary mapping: it shows the pages of the mapping,
which hold the bytes of the file. -/
structure Kmapped (p : Phys) (vma : Vma) : Prop where
  areas : AreasIn kmapRegion p kernelPagetable (kmapAreas vma)
  plain : vma.cowWriteReservePgs = none
  flags : vmaFlags2PteFlags vma.vmFlags = kmapFlags
  start : vma.startVaddr = kmapStart
  endAligned : vma.endVaddr % pageSize = 0
  high : vma.endVaddr ≤ kmapEnd
  backed : vma.Backed
  mapEnd_le : vma.mapEnd ≤ kmapEnd
  bytes : ∀ v f, vma.pagesTree.get? v = some f →
    ∀ i < pageSize, (p.mem f).byte i = vma.byteAt (v + i)

/-- The page table of the kernel without temporary mappings. -/
abbrev Unmapped (p : Phys) : Prop := AreasIn kmapRegion p kernelPagetable fun _ => none

def kernelTables (p : Phys) : Set Frame := fun f => f ∈ p.tables kernelPagetable

theorem kernelFrames_none (p : Phys) : kernelFrames p (fun _ => none) = kernelTables p :=
  Set.ext fun _ => owned_none

/-- The pages of a mapping that have not been brought in. -/
def Vma.pagesLeft (vma : Vma) : Finset ℕ :=
  (Finset.range ((vma.endVaddr - vma.startVaddr) / pageSize)).filter fun i =>
    vma.pagesTree.get? (vma.startVaddr + i * pageSize) = none

/-- The address space of the kernel with one temporary mapping. -/
def Mm.withKmap (vma : Vma) : Mm := (newKernMmByPagetable kernelPagetable).setVma kmapStart vma

def Phys.kernelRead (p : Phys) (pt vaddr : ℕ) : Option Frame := do
  let root ← (p.tables pt).head?
  let e ← p.mmuWalk root [addrGetPpn2 vaddr, addrGetPpn1 vaddr, addrGetPpn0 vaddr]
  if e.valid && e.getBits PTEFlags.R then some e.frame else none

/-- A load of the kernel through its own page table, tried again after each fault. -/
def Mm.kernelLoad (vaddr : ℕ) : ℕ → Mm → Program Phys (Byte × Mm)
  | 0, _ => throw .diverges
  | n + 1, kern => do
    let p ← get
    match p.kernelRead kern.pagetable vaddr with
    | some f => return ((p.mem f).byte (vaddr % pageSize), kern)
    | none => kernelLoad vaddr n (← (KmapCall.fault vaddr).run kern)

/-- A computation on the bytes of a file, which reads those that it needs one after the
other. -/
inductive Reader (α : Type) where
  | done (a : α)
  | read (off : ℕ) (next : Byte → Reader α)

namespace Reader

variable {α : Type}

def run (bytes : List Byte) : Reader α → Option α
  | done a => some a
  | read off next => (bytes[off]?).bind fun b => (next b).run bytes

def runSlice (start len : ℕ) : Reader α → Mm → Program Phys (α × Mm)
  | done a, kern => return (a, kern)
  | read off next, kern => do
    Checked.ensure (off < len) .outOfBounds
    let (b, kern) ← Mm.kernelLoad (start + off) Mm.accessTries kern
    (next b).runSlice start len kern

end Reader

theorem Mm.setVma_setVma (mm : Mm) (k : ℕ) (vma vma' : Vma) :
    (mm.setVma k vma).setVma k vma' = mm.setVma k vma' := by
  have hvmas : (mm.vmas.insert k vma).insert k vma' = mm.vmas.insert k vma' := by
    ext j
    simp only [OrdMap.get?_insert]
    split_ifs
    · rfl
    · rfl
  rw [setVma, setVma, setVma, hvmas]

theorem Phys.kernelRead_eq {own : Fin 512 → Prop} {p : Phys} {pt a : ℕ} (h : PtOk own p pt)
    (ha : own (addrGetPpn2 a)) : p.kernelRead pt a =
      if (p.pte pt a).valid && (p.pte pt a).getBits PTEFlags.R then some (p.pte pt a).frame
      else none := by
  have hdefault : (default : PTE).valid = false := by decide
  simp only [Phys.kernelRead, h.head, Option.bind_eq_bind, Option.bind_some]
  rw [mmuWalk_eq p h.tree ha, Phys.pte, leafEntry]
  cases tableAt p.mem (p.root pt) [addrGetPpn1 a, addrGetPpn2 a] with
  | none => simp [hdefault]
  | some f => rfl

/-- Address spaces beside the kernel, which has no temporary mapping. -/
structure KernelApart {ι : Type} (p : Phys) (F : ι → Option Mm) : Prop where
  beside : Beside p F (kernelTables p)
  unmapped : Unmapped p

section Apart

variable {ι : Type} {p p' : Phys} {F : ι → Option Mm}

theorem kernelTables_congr (h : p'.tables kernelPagetable = p.tables kernelPagetable) :
    kernelTables p' = kernelTables p := by
  unfold kernelTables
  rw [h]

theorem KernelApart.change [DecidableEq ι] {i : ι} {o : Option Mm} {pt : ℕ} {A A' : Areas}
    (h : KernelApart p F) (hc : Separate.Change p F i p' o pt A A') :
    KernelApart p' (replaceAt F i o) := by
  have htables := hc.isLocal.others kernelPagetable hc.notKernel.symm
  refine ⟨?_, h.unmapped.congr htables (fun f hf => (h.beside.kept hc hf).2) fun f hf =>
    (h.beside.kept hc (owned_none.mp hf)).1⟩
  rw [kernelTables_congr htables]
  exact h.beside.change hc

theorem KernelApart.comp {κ : Type} (h : KernelApart p F) {g : κ → Option ι}
    (hg : ∀ a b i, g a = some i → g b = some i → a = b) :
    KernelApart p fun a => (g a).bind F :=
  ⟨h.beside.comp hg, h.unmapped⟩

theorem KernelApart.wide (h : KernelApart p F) : KernelApart p fun a : Option ι => a.bind F :=
  h.comp (g := fun a => a) fun _ _ _ ha hb => ha.trans hb.symm

theorem KernelApart.exchange [DecidableEq ι] {i : ι} {mm new : Mm} {p₁ : Phys}
    (h : KernelApart p F) (hi : F i = some mm) (hm : new.Made p p₁)
    (hlocal : Local p₁ mm.areas p' (fun _ => none) mm.pagetable) :
    KernelApart p' (replaceAt F i (some new)) := by
  have hmade := h.wide.change (h.wide.beside.separate.change_made (i := none) hm)
  have hold : replaceAt (fun a : Option ι => a.bind F) none (some new) (some i) = some mm := hi
  have hboth := hmade.change (hmade.beside.separate.change_dropped hold hlocal)
  rw [← bind_exchanged]
  exact hboth.comp fun _ _ k ha hb => exchanged_inj k ha hb

end Apart

section Area

variable {v w : Vma}

theorem SameArea.byteAt (h : SameArea v w) (a : ℕ) : w.byteAt a = v.byteAt a := by
  simp only [Vma.byteAt, Vma.mapStart, Vma.mapEnd, h.file, h.anon, h.startVaddr, h.fileInVmaOff,
    h.fileLen, h.fileOff]
  rfl

theorem SameArea.mapEnd (h : SameArea v w) : w.mapEnd = v.mapEnd := by
  rw [Vma.mapEnd, Vma.mapEnd, Vma.mapStart, Vma.mapStart, h.startVaddr, h.fileInVmaOff, h.fileLen]

theorem SameArea.backed (h : SameArea v w) (hv : v.Backed) : w.Backed := by
  simp only [Vma.Backed, h.anon, h.file, h.fileOff, h.fileLen]
  exact hv

theorem Vma.touched_plain (vma : Vma) : vma.touched.cowWriteReservePgs = vma.cowWriteReservePgs := by
  unfold touched
  split_ifs
  · rfl
  · rfl

end Area

namespace Kmapped

variable {p p' p'' : Phys} {vma vma' vma'' : Vma} {v : ℕ} {f : Frame} {pg : PageData}

theorem live (h : Kmapped p vma) (hget : vma.pagesTree.get? v = some f) :
    f ∈ p.live ∧ f ∉ p.tables kernelPagetable :=
  h.areas.live kmapStart v f (holds_kmapAreas.mpr ⟨rfl, hget⟩)

theorem pte (h : Kmapped p vma) (hget : vma.pagesTree.get? v = some f) :
    p.pte kernelPagetable v = PTE.leaf f kmapFlags := by
  obtain ⟨flags, hflags, hpte⟩ := h.areas.mapped kmapStart vma replaceAt_self v f hget
  rcases hflags with rfl | ⟨hsome, -⟩
  · rw [hpte, h.flags]
  · rw [h.plain] at hsome
    cases hsome

theorem invalid (h : Kmapped p vma) (hv : IsKmapPage v) (hnone : vma.pagesTree.get? v = none) :
    (p.pte kernelPagetable v).valid = false := by
  rw [Bool.eq_false_iff]
  intro hvalid
  obtain ⟨k, f, hf⟩ := h.areas.covered v hv hvalid
  cases hnone.symm.trans (holds_kmapAreas.mp hf).2

theorem added (h : Kmapped p vma)
    (hadd : Added kmapRegion p p' kernelPagetable (kmapAreas vma) kmapStart vma v f pg)
    (hpg : ∀ i < pageSize, pg.byte i = vma.byteAt (v + i)) :
    Kmapped p' (vma.withPage v f).touched := by
  have hsame := Mm.PagedIn.sameArea vma v f
  have hok := hadd.ok_touched
  rw [kmapAreas, replaceAt_replaceAt] at hok
  refine ⟨hok, ?_, ?_, ?_, ?_, ?_, hsame.backed h.backed, ?_, ?_⟩
  · rw [Vma.touched_plain]
    exact h.plain
  · rw [vmaFlags2PteFlags_congr hsame.rights, h.flags]
  · rw [hsame.startVaddr, h.start]
  · rw [hsame.endVaddr]
    exact h.endAligned
  · rw [hsame.endVaddr]
    exact h.high
  · rw [hsame.mapEnd]
    exact h.mapEnd_le
  · intro u g hg
    simp only [hsame.byteAt]
    rw [Vma.touched_pagesTree, Vma.withPage, OrdMap.get?_insert] at hg
    split_ifs at hg with heq
    · cases hg
      rw [heq, hadd.mem]
      exact hpg
    · rw [hadd.mem_holds h.areas (holds_kmapAreas.mpr ⟨rfl, hg⟩)]
      exact h.bytes u g hg

theorem congr (h : Kmapped p vma) (htables : p'.tables kernelPagetable = p.tables kernelPagetable)
    (hkeep : ∀ f ∈ kernelFrames p (kmapAreas vma), f ∈ p'.live ∧ p'.mem f = p.mem f) :
    Kmapped p' vma := by
  refine { h with
    areas := h.areas.congr htables (fun f hf => (hkeep f (.inl hf)).2) fun f hf => (hkeep f hf).1
    bytes := fun v f hf => ?_ }
  rw [(hkeep f (.inr ⟨_, v, holds_kmapAreas.mpr ⟨rfl, hf⟩⟩)).2]
  exact h.bytes v f hf

end Kmapped

/-- What reading through a mapping does: pages join it, and each takes three frames at most. -/
structure ReadIn (p : Phys) (vma : Vma) (p' : Phys) (vma' : Vma) : Prop where
  kmapped : Kmapped p' vma'
  same : SameArea vma vma'
  tables : p.tables kernelPagetable <+: p'.tables kernelPagetable
  step : KernelStep p (kernelFrames p (kmapAreas vma)) p' (kernelFrames p' (kmapAreas vma'))
  spent : ∃ m, m + 3 * vma'.pagesLeft.card ≤ 3 * vma.pagesLeft.card ∧ Spent m p p'

namespace ReadIn

variable {p p' p'' : Phys} {vma vma' vma'' : Vma} {v : ℕ} {f : Frame} {pg : PageData}

theorem refl (h : Kmapped p vma) : ReadIn p vma p vma where
  kmapped := h
  same := .refl vma
  tables := List.prefix_rfl
  step := (Local.refl p _ _).kernelStep h.areas
  spent := ⟨0, (Nat.zero_add _).le, .refl p⟩

theorem trans (h : ReadIn p vma p' vma') (h' : ReadIn p' vma' p'' vma'') :
    ReadIn p vma p'' vma'' := by
  obtain ⟨m, hm, hspent⟩ := h.spent
  obtain ⟨n, hn, hspent'⟩ := h'.spent
  exact ⟨h'.kmapped, h.same.trans h'.same, h.tables.trans h'.tables, h.step.trans h'.step, m + n,
    by omega, hspent.trans hspent'⟩

end ReadIn

theorem Vma.card_pagesLeft_withPage {vma : Vma} {v : ℕ} (f : Frame)
    (hstart : vma.startVaddr % pageSize = 0) (hend : vma.endVaddr % pageSize = 0)
    (hv : v % pageSize = 0) (hin : vma.inVma v) (hnone : vma.pagesTree.get? v = none) :
    (vma.withPage v f).touched.pagesLeft.card + 1 ≤ vma.pagesLeft.card := by
  have hsame := Mm.PagedIn.sameArea vma v f
  rw [Vma.inVma_iff] at hin
  obtain ⟨i, hi⟩ : ∃ i, v = vma.startVaddr + i * pageSize := by
    refine ⟨(v - vma.startVaddr) / pageSize, ?_⟩
    rw [pageSize] at *
    omega
  have hlt : i < (vma.endVaddr - vma.startVaddr) / pageSize := by
    rw [pageSize] at *
    omega
  have hget : ∀ u, (vma.withPage v f).touched.pagesTree.get? u =
      if u = v then some f else vma.pagesTree.get? u := by
    intro u
    rw [Vma.touched_pagesTree, Vma.withPage, OrdMap.get?_insert]
  have hmem : i ∈ vma.pagesLeft := by
    rw [pagesLeft, Finset.mem_filter, Finset.mem_range, ← hi]
    exact ⟨hlt, hnone⟩
  refine Finset.card_lt_card ((Finset.ssubset_iff_of_subset fun j hj => ?_).mpr ⟨i, hmem, ?_⟩)
  · simp only [pagesLeft, Finset.mem_filter, hsame.startVaddr, hsame.endVaddr, hget] at hj ⊢
    refine ⟨hj.1, ?_⟩
    have hnone' := hj.2
    split_ifs at hnone'
    exact hnone'
  · simp only [pagesLeft, Finset.mem_filter, hsame.startVaddr, hget, ← hi, if_pos, not_and]
    exact fun _ => Option.some_ne_none f

namespace Kmapped

variable {p p' p'' : Phys} {vma vma' vma'' : Vma} {v : ℕ} {f : Frame} {pg : PageData}

theorem backing (h : Kmapped p vma) (hv : IsKmapPage v) :
    ∃ pg, vma.backing v = .ok pg ∧ ∀ i < pageSize, pg.byte i = vma.byteAt (v + i) := by
  refine (h.backed.backing v).resolve_left ?_
  rintro ⟨-, -, hover⟩
  have hend := h.mapEnd_le
  obtain ⟨-, -, hlt⟩ := hv
  simp only [Vma.Overflows, wordSize, kmapEnd, pageSize] at *
  omega

theorem doAllocOnePage (h : Kmapped p vma) (hv : IsKmapPage v) (hin : vma.inVma v)
    (hnone : vma.pagesTree.get? v = none) :
    Sat (vma.doAllocOnePage v) p
      (fun r p' => ∃ f vma', r = (.ok f, vma') ∧ ReadIn p vma p' vma' ∧
        vma'.pagesTree.get? v = some f)
      (Short (3 * vma.pagesLeft.card) p) := by
  have halign : Vaddr.isAlign v := beq_iff_eq.mpr hv.1
  obtain ⟨pg, hpg, hbytes⟩ := h.backing hv
  have hstart : vma.startVaddr % pageSize = 0 := by
    rw [h.start]
    decide
  have hleft := fun f => Vma.card_pagesLeft_withPage f hstart h.endAligned hv.1 hin hnone
  have hmissing := p.card_missing_le kernelPagetable v
  refine (Vma.doAllocOnePage_sat h.areas replaceAt_self hv hnone hin halign).mono ?_ ?_
  · rintro _ p' ⟨f, pg', rfl, hpg', hadd⟩
    cases hpg.symm.trans hpg'
    have h' := h.added hadd hbytes
    have hlocal := hadd.isLocal replaceAt_self hnone (Vma.touched_pagesTree (vma.withPage v f))
    rw [kmapAreas, replaceAt_replaceAt] at hlocal
    refine ⟨f, _, rfl, ⟨h', Mm.PagedIn.sameArea vma v f, hadd.grows.tables,
      hlocal.kernelStep h'.areas, _, ?_, hadd.spent⟩, ?_⟩
    · have := hleft f
      omega
    · rw [Vma.touched_pagesTree, Vma.withPage, OrdMap.get?_insert, if_pos rfl]
  · rintro e (hshort | ⟨-, hvalid⟩ | herror)
    · refine hshort.mono ?_
      have := hleft (default : Frame)
      omega
    · rw [h.invalid hv hnone] at hvalid
      cases hvalid
    · cases hpg.symm.trans herror

-- The unifier looks into the sums with a page size.
set_option maxRecDepth 10000

theorem findVma (hin : vma.inVma v) :
    (Mm.withKmap vma).findVma v = some (kmapStart, vma) := by
  have hareas : ∀ k w, (Mm.withKmap vma).areas k = some w → k = kmapStart := by
    intro k w hk
    rw [Mm.withKmap, Mm.areas_setVma, replaceAt_apply] at hk
    split_ifs at hk with heq
    · exact heq
    · cases hk
  rw [Mm.findVma_eq_some]
  refine ⟨?_, hin, fun j w hj hlt => absurd (hareas j w hj) hlt.ne⟩
  rw [Mm.withKmap, Mm.areas_setVma, replaceAt_self]

theorem fault (h : Kmapped p vma) {a : ℕ} (hv : IsKmapPage (Vaddr.down a))
    (hin : vma.inVma (Vaddr.down a)) (hnone : vma.pagesTree.get? (Vaddr.down a) = none) :
    Sat ((KmapCall.fault a).run (Mm.withKmap vma)) p
      (fun kern p' => ∃ vma' f, kern = Mm.withKmap vma' ∧ ReadIn p vma p' vma' ∧
        vma'.pagesTree.get? (Vaddr.down a) = some f)
      (Short (3 * vma.pagesLeft.card) p) := by
  have hfloor : Vaddr.floor a = .ok (Vaddr.down a) := by
    refine Vaddr.floor_eq ?_
    have hlt := hv.2.2
    simp only [Vaddr.down, kmapEnd, wordSize, pageSize] at *
    omega
  have hfind : (vma.findPage (Vaddr.down a)).isSome = false := by
    rw [Vma.findPage, hnone]
    rfl
  simp only [KmapCall.run, Mm.trapPageFaultHandler]
  refine Sat.ok_bind hfloor ?_
  rw [findVma hin]
  simp only [hfind, Bool.false_eq_true, if_false]
  refine (h.doAllocOnePage hv hin hnone).bind ?_
  rintro _ p' ⟨f, vma', rfl, hread, hget⟩
  refine sat_pure ⟨vma', f, ?_, hread, hget⟩
  rw [Mm.withKmap, Mm.setVma_setVma]
  rfl

theorem kernelRead (h : Kmapped p vma) {a : ℕ} (hv : IsKmapPage (Vaddr.down a)) :
    p.kernelRead kernelPagetable a = vma.pagesTree.get? (Vaddr.down a) := by
  have hown := hv.own
  rw [(samePage_down a).2.2] at hown
  rw [Phys.kernelRead_eq h.areas.table hown, ← Phys.pte_down]
  cases hget : vma.pagesTree.get? (Vaddr.down a) with
  | none =>
    rw [h.invalid hv hget]
    rfl
  | some f =>
    have hread : (PTE.leaf f kmapFlags).valid && (PTE.leaf f kmapFlags).getBits PTEFlags.R := by
      simp only [PTE.valid, PTE.getBits, PTE.leaf_flags]
      decide
    rw [h.pte hget, if_pos hread, PTE.leaf_frame]

theorem kernelLoad_held (h : Kmapped p vma) {a n : ℕ} (hv : IsKmapPage (Vaddr.down a))
    (hget : vma.pagesTree.get? (Vaddr.down a) = some f) {E : Panic → Prop} :
    Sat (Mm.kernelLoad a (n + 1) (Mm.withKmap vma)) p
      (fun r p' => r = (vma.byteAt a, Mm.withKmap vma) ∧ p' = p) E := by
  have hbyte := h.bytes _ f hget (a % pageSize) (Nat.mod_lt _ (by decide))
  have hsplit : Vaddr.down a + a % pageSize = a := Nat.div_add_mod' a pageSize
  have hread : p.kernelRead (Mm.withKmap vma).pagetable a = some f := (h.kernelRead hv).trans hget
  rw [hsplit] at hbyte
  unfold Mm.kernelLoad
  apply Sat.get_bind
  rw [hread]
  exact sat_pure ⟨by rw [hbyte], rfl⟩

theorem kernelLoad (h : Kmapped p vma) {a : ℕ} (hin : vma.inVma a) :
    Sat (Mm.kernelLoad a Mm.accessTries (Mm.withKmap vma)) p
      (fun r p' => ∃ vma', r = (vma.byteAt a, Mm.withKmap vma') ∧ ReadIn p vma p' vma')
      (Short (3 * vma.pagesLeft.card) p) := by
  have hrange := Vma.inVma_iff.mp hin
  rw [h.start] at hrange
  have hv : IsKmapPage (Vaddr.down a) := isKmapPage_down hrange.1 (hrange.2.trans_le h.high)
  have hdown : vma.inVma (Vaddr.down a) := by
    rw [Vma.inVma_iff, h.start]
    exact ⟨hv.2.1, (Vaddr.down_le a).trans_lt hrange.2⟩
  cases hget : vma.pagesTree.get? (Vaddr.down a) with
  | some f =>
    refine (h.kernelLoad_held hv hget).imp ?_
    rintro _ _ ⟨rfl, rfl⟩
    exact ⟨vma, rfl, .refl h⟩
  | none =>
    have hread : p.kernelRead (Mm.withKmap vma).pagetable a = none := (h.kernelRead hv).trans hget
    unfold Mm.kernelLoad
    apply Sat.get_bind
    rw [hread]
    refine (h.fault hv hdown hget).bind ?_
    rintro _ p' ⟨vma', f, rfl, hin', hget'⟩
    refine (hin'.kmapped.kernelLoad_held hv hget').imp ?_
    rintro _ _ ⟨rfl, rfl⟩
    exact ⟨vma', by rw [hin'.same.byteAt], hin'⟩

end Kmapped

namespace Reader

variable {α : Type} {p : Phys} {vma : Vma}

theorem runSlice_sat (r : Reader α) (bytes : List Byte) (h : Kmapped p vma)
    (hlen : vma.endVaddr = kmapStart + bytes.length)
    (hbytes : ∀ off < bytes.length, bytes[off]? = some (vma.byteAt (kmapStart + off))) :
    Sat (r.runSlice kmapStart bytes.length (Mm.withKmap vma)) p
      (fun x p' => ∃ vma', r.run bytes = some x.1 ∧ x.2 = Mm.withKmap vma' ∧ ReadIn p vma p' vma')
      fun e => r.run bytes = none ∨ Short (3 * vma.pagesLeft.card) p e := by
  induction r generalizing p vma with
  | done a => exact sat_pure ⟨vma, rfl, rfl, .refl h⟩
  | read off next ih =>
    unfold runSlice
    refine Sat.ensure_bind (fun hoff => ?_) fun hoff => .inl ?_
    swap
    · rw [run, List.getElem?_eq_none (Nat.not_lt.mp hoff)]
      rfl
    have hin : vma.inVma (kmapStart + off) := by
      rw [Vma.inVma_iff, h.start]
      omega
    refine ((h.kernelLoad hin).weaken fun _ he => .inr he).bind ?_
    rintro _ p' ⟨vma', rfl, hread⟩
    have hrun : (read off next).run bytes = (next (vma.byteAt (kmapStart + off))).run bytes := by
      rw [run, hbytes off hoff]
      rfl
    rw [hrun]
    obtain ⟨m, hm, hspent⟩ := hread.spent
    refine (ih _ hread.kmapped (hread.same.endVaddr.trans hlen) ?_).mono ?_ ?_
    · intro i hi
      rw [hread.same.byteAt]
      exact hbytes i hi
    · rintro _ p'' ⟨vma'', hr, hkern, hread'⟩
      exact ⟨vma'', hr, hkern, hread.trans hread'⟩
    · rintro e (hnone | hshort)
      · exact .inl hnone
      · exact .inr ((hshort.of_spent hspent).mono hm)

end Reader

namespace Kmapped

variable {p p' : Phys} {vma : Vma} {v : ℕ}

theorem drop (h : Kmapped p vma) {E : Panic → Prop} :
    Sat vma.drop p
      (fun _ p' => Unmapped p' ∧
        KernelStep p (kernelFrames p (kmapAreas vma)) p' (kernelTables p') ∧
        p'.live = p.live.filter fun f => f ∉ vma.pagesTree.entries.map Prod.snd) E := by
  refine (Vma.drop_sat h.areas replaceAt_self (h.areas.pagetable _ _ replaceAt_self)
    (fun _ _ hf => hf) h.plain).imp ?_
  rintro _ p' ⟨hok, hlocal, hlive⟩
  have hempty : ∀ k v f, ¬Holds (replaceAt (kmapAreas vma) kmapStart
      (some (vma.withoutPages vma.pagesTree.contains))) k v f := by
    intro k v f hf
    obtain ⟨hheld, hgone⟩ := (holds_withoutPages replaceAt_self).mp hf
    obtain ⟨rfl, hget⟩ := holds_kmapAreas.mp hheld
    have hcontains := OrdMap.contains_iff.mpr ⟨f, hget⟩
    rw [hgone rfl] at hcontains
    cases hcontains
  have hunmapped := hok.emptied hempty
  rw [← kernelFrames_none]
  exact ⟨hunmapped, (hlocal.of_holds fun _ _ _ hf => absurd hf not_holds_none).kernelStep hunmapped, hlive⟩

end Kmapped

end Zinix
