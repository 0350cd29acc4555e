import Zinix.Lib.Trace
import Zinix.Mm.ElfLoad
import Zinix.Mm.Kmap

/-!
# Tokens of the kernel's mappings

Interrupts are switched off twice, by hand and by the guard of the lock of the address
space. If no area is found, the state from before the call is restored first and the guard
then switches interrupts off again.
-/

namespace Zinix

open PageTable

/-- The bit `SIE` of `sstatus`, which enables interrupts. -/
def sieMask : BitVec 64 := 1#64 <<< 1

/-- What the tokens change, and the memory that the areas use. -/
structure KmapWorld where
  mm : Mm
  satp : BitVec 64
  sstatus : BitVec 64
  phys : Phys

structure KmapToken where
  vaddr : ℕ
  isAnon : Bool
  len : ℕ
  satpVal : BitVec 64
  irqLevel : BitVec 64

/-- The arguments of `new_anon` and of `new_file`. -/
inductive KmapNew where
  | newAnon (len : ℕ)
  | newFile (len : ℕ) (file : MappedFile) (fileOff fileLen : ℕ)

namespace KmapNew

def len : KmapNew → ℕ
  | newAnon len => len
  | newFile len _ _ _ => len

def isAnon : KmapNew → Bool
  | newAnon _ => true
  | newFile _ _ _ _ => false

def alloc (mm : Mm) : KmapNew → Checked (Option Vma)
  | newAnon len => mm.allocKmapAnon len
  | newFile len file fileOff fileLen => mm.allocKmapFile len file fileOff fileLen

end KmapNew

/-- What `install` writes to `satp`. -/
def satpVal (root : Frame) : BitVec 64 := 8#64 <<< 60 ||| BitVec.ofNat 64 (root.paddr >>> 12)

namespace KmapWorld

variable (w : KmapWorld)

/-- `intr_disable`: the old `sstatus` is returned. -/
def disableIrq : BitVec 64 × KmapWorld :=
  (w.sstatus, { w with sstatus := w.sstatus &&& ~~~sieMask })

/-- `intr_enable`. -/
def enableIrq (v : BitVec 64) : KmapWorld := { w with sstatus := v }

/-- `get_kernel_mm`. The guard of the lock is known by its `irq_state`. -/
def getKernelMm : BitVec 64 × KmapWorld := w.disableIrq

/-- `Drop for SpinLockGuard`. -/
def dropGuard (irqState : BitVec 64) : KmapWorld := w.enableIrq irqState

/-- `KmapToken::new_anon` and `KmapToken::new_file`. -/
def newToken (new : KmapNew) : Checked (Option KmapToken × KmapWorld) := do
  let (level, w) := w.disableIrq
  Checked.ensure (Vaddr.isAlign new.len) .assertion
  let (irqState, w) := w.getKernelMm
  match ← new.alloc w.mm with
  | none =>
    let w := w.enableIrq level
    -- the guard is dropped with the local variables
    return (none, w.dropGuard irqState)
  | some vma =>
    let sA := vma.startVaddr
    let eA := vma.endVaddr
    let len ← subUsize eA sA
    let (mm, phys) ← w.mm.insertNoCheck vma w.phys
    let r := ⟨sA, new.isAnon, len, w.satp, level⟩
    let (root, phys) ← getRootPage mm.pagetable phys
    let w := { w with mm := mm, satp := satpVal root, phys := phys }
    return (some r, w.dropGuard irqState)

/-- `Drop for KmapToken`. -/
def dropToken (t : KmapToken) : Checked KmapWorld := do
  let (irqState, w) := w.getKernelMm
  match w.mm.vmas.get? t.vaddr with
  | none => throw (.explicit "Kmap bug")
  | some vma =>
    let mm := { w.mm with vmas := w.mm.vmas.filter fun k => k ≠ t.vaddr }
    -- the area is dropped at the end of the branch
    let ((), phys) ← vma.drop w.phys
    let w := { w with mm := mm, satp := t.satpVal, phys := phys }
    return (w.dropGuard irqState).enableIrq t.irqLevel

def interruptsEnabled : Bool := w.sstatus.getLsbD 1

/-- The areas of the kernel, `satp` and the interrupts are as they were. -/
structure Same (w w' : KmapWorld) : Prop where
  vmas : w'.mm.vmas = w.mm.vmas
  satp : w'.satp = w.satp
  interrupts : w'.interruptsEnabled = w.interruptsEnabled

end KmapWorld

inductive KmapEvent where
  | new (new : KmapNew)
  | drop

/-- The successful steps of a properly nested sequence; the live tokens are a stack. -/
inductive KmapStep :
    List KmapToken × KmapWorld → KmapEvent → List KmapToken × KmapWorld → Prop where
  | new {ts : List KmapToken} {t : KmapToken} {w w' : KmapWorld} {new : KmapNew}
      (hlen : 0 < new.len) (h : w.newToken new = .ok (some t, w')) :
      KmapStep (ts, w) (.new new) (t :: ts, w')
  | drop {ts : List KmapToken} {t : KmapToken} {w w' : KmapWorld} (h : w.dropToken t = .ok w') :
      KmapStep (t :: ts, w) .drop (ts, w')

/-- The tokens have ranges of their own between the bounds, the last one can be dropped, and
without any all is as it was. -/
structure KmapOrderly (w : KmapWorld) (s : List KmapToken × KmapWorld) : Prop where
  inside : ∀ t ∈ s.1, kmapStart ≤ t.vaddr ∧ t.vaddr + t.len ≤ kmapEnd
  disjoint : s.1.Pairwise fun t u => t.vaddr + t.len ≤ u.vaddr ∨ u.vaddr + u.len ≤ t.vaddr
  drops : ∀ t ∈ s.1.head?, ∃ w', s.2.dropToken t = .ok w'
  same : s.1 = [] → w.Same s.2

structure KmapRestores (w : KmapWorld) : Prop where
  onNone : ∀ new w', w.newToken new = .ok (none, w') → w.Same w'
  nested : ∀ r, Trace.IsRun KmapStep ([], w) r → ∀ s ∈ Trace.states ([], w) r, KmapOrderly w s

/-! ### The place of a mapping -/

namespace Mm

/-- Every area is found under its start and is not empty. -/
def Proper (mm : Mm) : Prop :=
  ∀ k vma, mm.areas k = some vma → vma.startVaddr = k ∧ vma.startVaddr < vma.endVaddr

variable {mm : Mm} {len : ℕ} {w : Vma}

theorem placed_of_fitHigh {rangeEnd lastEnd : ℕ} {l : List (ℕ × Vma)}
    (h : fitHigh len rangeEnd lastEnd l = .ok (some w))
    (hsorted : l.Pairwise fun a b => a.2.startVaddr < b.2.startVaddr)
    (hl : ∀ e ∈ l, e.2.startVaddr < e.2.endVaddr ∧ e.2.startVaddr < rangeEnd) :
    ∃ a, w = .empty a (a + len) ∧ lastEnd ≤ a ∧ a + len ≤ rangeEnd ∧
      ∀ e ∈ l, e.2.endVaddr ≤ a ∨ a + len ≤ e.2.startVaddr := by
  induction l generalizing lastEnd with
  | nil =>
    obtain ⟨gap, hgap, h⟩ := Checked.bind_eq_ok.mp h
    obtain ⟨hle, rfl⟩ := subUsize_eq_ok.mp hgap
    split_ifs at h with hfits
    · obtain ⟨t, ht, hret⟩ := Checked.bind_eq_ok.mp h
      obtain ⟨-, rfl⟩ := addUsize_eq_ok.mp ht
      cases hret
      exact ⟨lastEnd, rfl, le_rfl, by omega, by simp⟩
    · cases h
  | cons e rest ih =>
    obtain ⟨gap, hgap, h⟩ := Checked.bind_eq_ok.mp h
    obtain ⟨hle, rfl⟩ := subUsize_eq_ok.mp hgap
    obtain ⟨hfirst, hrest⟩ := List.pairwise_cons.mp hsorted
    obtain ⟨hne, hend⟩ := hl e List.mem_cons_self
    split_ifs at h with hfits
    · obtain ⟨t, ht, hret⟩ := Checked.bind_eq_ok.mp h
      obtain ⟨-, rfl⟩ := addUsize_eq_ok.mp ht
      cases hret
      refine ⟨lastEnd, rfl, le_rfl, by omega, ?_⟩
      intro e' he'
      obtain rfl | he' := List.mem_cons.mp he'
      · exact .inr (by omega)
      · have hlt := hfirst e' he'
        exact .inr (by omega)
    · obtain ⟨a, hw, hlast, htop, hplaced⟩ :=
        ih h hrest fun e' he' => hl e' (List.mem_cons_of_mem e he')
      refine ⟨a, hw, by omega, htop, ?_⟩
      intro e' he'
      obtain rfl | he' := List.mem_cons.mp he'
      · exact .inl hlast
      · exact hplaced e' he'

/-- The range of a new mapping, which no area that starts between the bounds reaches. -/
structure KmapPlace (mm : Mm) (len : ℕ) (vma : Vma) : Prop where
  bare : Bare vma
  start_le : kmapStart ≤ vma.startVaddr
  end_eq : vma.endVaddr = vma.startVaddr + len
  end_le : vma.endVaddr ≤ kmapEnd
  apart : ∀ k v, mm.areas k = some v → kmapStart ≤ k → k < kmapEnd →
    v.endVaddr ≤ vma.startVaddr ∨ vma.endVaddr ≤ v.startVaddr

theorem Proper.allocUnmappedCore (h : mm.Proper)
    (hw : mm.allocUnmappedCore none len true kmapStart kmapEnd = .ok (some w)) :
    mm.KmapPlace len w := by
  unfold Mm.allocUnmappedCore at hw
  iterate 4
    replace hw := (Checked.bind_eq_ok.mp hw).choose_spec.2
  obtain ⟨size, -, hw⟩ := Checked.bind_eq_ok.mp hw
  by_cases hsize : size ≤ len
  · rw [if_pos hsize] at hw
    cases hw
  · rw [if_neg hsize] at hw
    have hmem : ∀ e ∈ mm.vmas.range kmapStart kmapEnd, mm.areas e.1 = some e.2 ∧ e.1 < kmapEnd :=
      fun e he => ⟨(OrdMap.mem_range.mp he).1, (OrdMap.mem_range.mp he).2.2⟩
    obtain ⟨a, rfl, hlast, htop, hplaced⟩ := placed_of_fitHigh hw
      ((mm.vmas.range_sorted kmapStart kmapEnd).imp_of_mem fun ha hb hlt => by
        rw [(h _ _ (hmem _ ha).1).1, (h _ _ (hmem _ hb).1).1]
        exact hlt)
      fun e he => by
        have hproper := h _ _ (hmem e he).1
        exact ⟨hproper.2, hproper.1.trans_lt (hmem e he).2⟩
    refine ⟨⟨rfl, rfl⟩, hlast, rfl, htop, fun k v hk hlow hhigh => ?_⟩
    exact hplaced (k, v) (OrdMap.mem_range.mpr ⟨hk, hlow, hhigh⟩)

theorem KmapPlace.areas_eq_none (hp : mm.KmapPlace len w) (h : mm.Proper) (hlen : 0 < len) :
    mm.areas w.startVaddr = none := by
  by_contra hne
  obtain ⟨v, hv⟩ := Option.ne_none_iff_exists'.mp hne
  obtain ⟨hstart, hlt⟩ := h _ _ hv
  have hend := hp.end_eq
  have hle := hp.end_le
  have hapart := hp.apart _ v hv hp.start_le (by omega)
  omega

theorem Proper.setVma (h : mm.Proper) {k : ℕ} (hk : w.startVaddr = k)
    (hne : w.startVaddr < w.endVaddr) : (mm.setVma k w).Proper := by
  intro j vma hj
  rw [areas_setVma, replaceAt_apply] at hj
  split_ifs at hj with hjk
  · cases hj
    exact ⟨hk.trans hjk.symm, hne⟩
  · exact h j vma hj

end Mm

theorem KmapNew.alloc_place {mm : Mm} {new : KmapNew} {vma : Vma} (h : mm.Proper)
    (hw : new.alloc mm = .ok (some vma)) : mm.KmapPlace new.len vma := by
  cases new with
  | newAnon len =>
    obtain ⟨ret, hret, hw⟩ := Checked.bind_eq_ok.mp hw
    obtain ⟨v, rfl, rfl⟩ := Option.map_eq_some_iff.mp (Except.ok.inj hw)
    have hp := h.allocUnmappedCore hret
    exact ⟨hp.bare, hp.start_le, hp.end_eq, hp.end_le, hp.apart⟩
  | newFile len file fileOff fileLen =>
    obtain ⟨-, -, hw⟩ := Checked.bind_eq_ok.mp hw
    obtain ⟨ret, hret, hw⟩ := Checked.bind_eq_ok.mp hw
    obtain ⟨v, rfl, rfl⟩ := Option.map_eq_some_iff.mp (Except.ok.inj hw)
    have hp := h.allocUnmappedCore hret
    exact ⟨hp.bare, hp.start_le, hp.end_eq, hp.end_le, hp.apart⟩

/-! ### Single calls -/

namespace KmapWorld

variable {w w' : KmapWorld} {new : KmapNew} {t : KmapToken}

theorem newToken_none (h : w.newToken new = .ok (none, w')) :
    w' = { w with sstatus := w.sstatus &&& ~~~sieMask } := by
  obtain ⟨-, -, h⟩ := Checked.bind_eq_ok.mp h
  obtain ⟨r, -, h⟩ := Checked.bind_eq_ok.mp h
  cases r with
  | none =>
    cases h
    rfl
  | some vma =>
    obtain ⟨len, -, h⟩ := Checked.bind_eq_ok.mp h
    obtain ⟨⟨mm, phys⟩, -, h⟩ := Checked.bind_eq_ok.mp h
    obtain ⟨⟨root, phys'⟩, -, h⟩ := Checked.bind_eq_ok.mp h
    cases h

theorem newToken_some (hproper : w.mm.Proper) (hlen : 0 < new.len)
    (h : w.newToken new = .ok (some t, w')) :
    ∃ vma, w.mm.KmapPlace new.len vma ∧ w.mm.areas vma.startVaddr = none ∧
      w'.mm = w.mm.setVma vma.startVaddr vma ∧ t.vaddr = vma.startVaddr ∧ t.len = new.len ∧
      t.satpVal = w.satp ∧ t.irqLevel = w.sstatus := by
  obtain ⟨-, -, h⟩ := Checked.bind_eq_ok.mp h
  obtain ⟨r, hr, h⟩ := Checked.bind_eq_ok.mp h
  cases r with
  | none => cases h
  | some vma =>
    have hplace : w.mm.KmapPlace new.len vma := KmapNew.alloc_place hproper hr
    have hnone := hplace.areas_eq_none hproper hlen
    obtain ⟨len, hsub, h⟩ := Checked.bind_eq_ok.mp h
    obtain ⟨⟨mm, phys⟩, hmm, h⟩ := Checked.bind_eq_ok.mp h
    obtain ⟨⟨root, phys'⟩, -, h⟩ := Checked.bind_eq_ok.mp h
    cases h
    obtain ⟨-, rfl⟩ := subUsize_eq_ok.mp hsub
    have hinsert : mm = w.mm.setVma vma.startVaddr vma := by
      have hbare : ∀ old, w.mm.areas vma.startVaddr = some old → Mm.Bare old := by
        rw [hnone]
        exact nofun
      exact ((Mm.insertNoCheck_bare (E := fun _ => True) hbare).of_ok hmm).1
    refine ⟨vma, hplace, hnone, hinsert, rfl, ?_, rfl, rfl⟩
    have hend := hplace.end_eq
    simp only
    omega

/-- The drop of a token takes its area away and restores what the token remembers. -/
theorem dropToken_eq {vma : Vma} (hget : w.mm.areas t.vaddr = some vma) (hbare : Mm.Bare vma) :
    w.dropToken t = .ok ⟨{ w.mm with vmas := w.mm.vmas.filter fun k => k ≠ t.vaddr },
      t.satpVal, t.irqLevel, w.phys⟩ := by
  obtain ⟨_, _, hdrop, rfl⟩ := (Mm.drop_bare (p := w.phys) hbare).returns
  have hget : w.mm.vmas.get? t.vaddr = some vma := hget
  simp only [dropToken, getKernelMm, disableIrq, hget, hdrop, Checked.ok_bind]
  rfl

theorem interruptsEnabled_disabled :
    ({ w with sstatus := w.sstatus &&& ~~~sieMask } : KmapWorld).interruptsEnabled = false := by
  simp [interruptsEnabled, sieMask]

end KmapWorld

/-! ### Nested tokens -/

/-- The token has its area in the address space, and remembers what was there before. -/
structure KmapToken.Made (t : KmapToken) (w₁ w : KmapWorld) (vma : Vma) : Prop where
  mm : w.mm = w₁.mm.setVma t.vaddr vma
  fresh : w₁.mm.areas t.vaddr = none
  bare : Mm.Bare vma
  start : vma.startVaddr = t.vaddr
  len : vma.endVaddr = t.vaddr + t.len
  pos : 0 < t.len
  inside : kmapStart ≤ t.vaddr ∧ t.vaddr + t.len ≤ kmapEnd
  apart : ∀ k v, w₁.mm.areas k = some v → kmapStart ≤ k → k < kmapEnd →
    v.endVaddr ≤ t.vaddr ∨ t.vaddr + t.len ≤ v.startVaddr
  satp : t.satpVal = w₁.satp
  irq : t.irqLevel = w₁.sstatus

/-- The live tokens have been made one after the other, from the given state on. -/
def KmapNested (w₀ : KmapWorld) : List KmapToken → KmapWorld → Prop
  | [], w => w.mm = w₀.mm ∧ w.satp = w₀.satp ∧ w.sstatus = w₀.sstatus
  | t :: ts, w => ∃ w₁ vma, t.Made w₁ w vma ∧ KmapNested w₀ ts w₁

namespace KmapNested

variable {w₀ w w' : KmapWorld} {ts : List KmapToken} {t : KmapToken}

theorem congr (h : KmapNested w₀ ts w) (hmm : w'.mm = w.mm) (hsatp : w'.satp = w.satp)
    (hsstatus : w'.sstatus = w.sstatus) : KmapNested w₀ ts w' := by
  cases ts with
  | nil => exact ⟨hmm.trans h.1, hsatp.trans h.2.1, hsstatus.trans h.2.2⟩
  | cons t ts =>
    obtain ⟨w₁, vma, hmade, hnested⟩ := h
    exact ⟨w₁, vma, { hmade with mm := hmm.trans hmade.mm }, hnested⟩

theorem proper (h : KmapNested w₀ ts w) (h₀ : w₀.mm.Proper) : w.mm.Proper := by
  induction ts generalizing w with
  | nil => rwa [h.1]
  | cons t ts ih =>
    obtain ⟨w₁, vma, hmade, hnested⟩ := h
    have hlen := hmade.len
    have hstart := hmade.start
    have hpos := hmade.pos
    rw [hmade.mm]
    exact (ih hnested).setVma hstart (by omega)

theorem areas_eq (h : KmapNested w₀ ts w) (ht : t ∈ ts) :
    ∃ vma, w.mm.areas t.vaddr = some vma ∧ vma.startVaddr = t.vaddr ∧
      vma.endVaddr = t.vaddr + t.len ∧ 0 < t.len ∧ kmapStart ≤ t.vaddr ∧
      t.vaddr + t.len ≤ kmapEnd := by
  induction ts generalizing w with
  | nil => cases ht
  | cons u ts ih =>
    obtain ⟨w₁, vma, hmade, hnested⟩ := h
    rw [hmade.mm]
    obtain rfl | ht := List.mem_cons.mp ht
    · refine ⟨vma, ?_, hmade.start, hmade.len, hmade.pos, hmade.inside⟩
      rw [Mm.areas_setVma, replaceAt_self]
    · obtain ⟨v, hv, hrest⟩ := ih hnested ht
      refine ⟨v, ?_, hrest⟩
      rw [Mm.areas_setVma, replaceAt_of_ne, hv]
      intro heq
      rw [heq, hmade.fresh] at hv
      cases hv

theorem disjoint (h : KmapNested w₀ ts w) :
    ts.Pairwise fun t u => t.vaddr + t.len ≤ u.vaddr ∨ u.vaddr + u.len ≤ t.vaddr := by
  induction ts generalizing w with
  | nil => exact List.Pairwise.nil
  | cons t ts ih =>
    obtain ⟨w₁, vma, hmade, hnested⟩ := h
    refine List.pairwise_cons.mpr ⟨fun u hu => ?_, ih hnested⟩
    obtain ⟨v, hv, hstart, hend, hpos, hlow, hhigh⟩ := hnested.areas_eq hu
    have hapart := hmade.apart u.vaddr v hv hlow (by omega)
    omega

/-- The last token can be dropped, and this leads back to the state before it was made. -/
theorem drop (h : KmapNested w₀ (t :: ts) w) :
    ∃ w', w.dropToken t = .ok w' ∧ KmapNested w₀ ts w' := by
  obtain ⟨w₁, vma, hmade, hnested⟩ := h
  have hget : w.mm.areas t.vaddr = some vma := by
    rw [hmade.mm, Mm.areas_setVma, replaceAt_self]
  refine ⟨_, KmapWorld.dropToken_eq hget hmade.bare, hnested.congr ?_ hmade.satp hmade.irq⟩
  have hvmas : ((w₁.mm.setVma t.vaddr vma).vmas.filter fun k => k ≠ t.vaddr) = w₁.mm.vmas := by
    ext1 k
    rw [OrdMap.get?_filter, Mm.setVma, OrdMap.get?_insert]
    by_cases hk : k = t.vaddr
    · have hfresh : w₁.mm.vmas.get? t.vaddr = none := hmade.fresh
      simp [hk, hfresh]
    · simp [hk]
  rw [hmade.mm, hvmas]
  rfl

theorem step {e : KmapEvent} {s s' : List KmapToken × KmapWorld} (h₀ : w₀.mm.Proper)
    (h : KmapNested w₀ s.1 s.2) (hstep : KmapStep s e s') : KmapNested w₀ s'.1 s'.2 := by
  cases hstep with
  | new hlen hnew =>
    obtain ⟨vma, hplace, hnone, hmm, hvaddr, hlen', hsatp, hirq⟩ :=
      KmapWorld.newToken_some (h.proper h₀) hlen hnew
    have hend := hplace.end_eq
    have hle := hplace.end_le
    refine ⟨_, vma, ⟨?_, ?_, hplace.bare, hvaddr.symm, by omega, by omega, ⟨?_, by omega⟩, ?_,
      hsatp, hirq⟩, h⟩
    · rw [hvaddr]
      exact hmm
    · rw [hvaddr]
      exact hnone
    · rw [hvaddr]
      exact hplace.start_le
    · intro k v hk hlow hhigh
      have hapart := hplace.apart k v hk hlow hhigh
      omega
  | drop hdrop =>
    obtain ⟨w', hw', hnested⟩ := KmapNested.drop h
    cases hdrop.symm.trans hw'
    exact hnested

theorem orderly {s : List KmapToken × KmapWorld} (h : KmapNested w₀ s.1 s.2) :
    KmapOrderly w₀ s where
  inside t ht := by
    obtain ⟨v, -, -, -, -, hinside⟩ := h.areas_eq ht
    exact hinside
  disjoint := h.disjoint
  drops t ht := by
    obtain ⟨ts, w⟩ := s
    obtain ⟨rest, rfl⟩ := List.head?_eq_some_iff.mp ht
    obtain ⟨w', hw', -⟩ := KmapNested.drop h
    exact ⟨w', hw'⟩
  same hnil := by
    rw [hnil] at h
    obtain ⟨hmm, hsatp, hsstatus⟩ := h
    exact ⟨by rw [hmm], hsatp, by rw [KmapWorld.interruptsEnabled, hsstatus]; rfl⟩

end KmapNested

theorem Mm.allocKmapAnon_whole (mm : Mm) : mm.allocKmapAnon (kmapEnd - kmapStart) = .ok none := by
  have hlen : Vaddr.isAlign (kmapEnd - kmapStart) = true := by decide
  have hstart : Vaddr.isAlign kmapStart = true := by decide
  have hend : Vaddr.isAlign kmapEnd = true := by decide
  have hlt : kmapStart < kmapEnd := by decide
  rw [allocKmapAnon, allocUnmappedCore, Checked.ensure_pos hlen, Checked.ensure_pos hstart,
    Checked.ensure_pos hend, Checked.ensure_pos hlt, subUsize_ok hlt.le]
  simp only [Checked.ok_bind, le_refl, if_true]
  rfl

theorem KmapWorld.newToken_whole (w : KmapWorld) :
    w.newToken (.newAnon (kmapEnd - kmapStart)) =
      .ok (none, { w with sstatus := w.sstatus &&& ~~~sieMask }) := by
  have halign : Vaddr.isAlign (KmapNew.newAnon (kmapEnd - kmapStart)).len = true := by decide
  simp only [newToken, disableIrq, getKernelMm, Checked.ensure_pos halign, Checked.ok_bind,
    KmapNew.alloc, Mm.allocKmapAnon_whole]
  rfl

/-- The mappings restore what they change exactly if interrupts are off at the start. -/
theorem kmapRestores_iff {w : KmapWorld} (hw : w.mm.Proper) :
    KmapRestores w ↔ w.interruptsEnabled = false := by
  constructor
  · intro h
    have hsame := (h.onNone _ _ w.newToken_whole).interrupts
    rw [← hsame, KmapWorld.interruptsEnabled_disabled]
  · intro hoff
    refine ⟨fun new w' hnew => ?_, fun r hrun s hs => ?_⟩
    · rw [KmapWorld.newToken_none hnew]
      exact ⟨rfl, rfl, KmapWorld.interruptsEnabled_disabled.trans hoff.symm⟩
    · have hstart : KmapNested w [] w := ⟨rfl, rfl, rfl⟩
      have hnested := Trace.invariant (fun s => KmapNested w s.1 s.2)
        (fun _ _ _ h hstep => h.step hw hstep) hstart hrun s hs
      exact hnested.orderly

/-- The kernel right after the boot, with interrupts on or off. -/
def KmapWorld.fresh (sstatus : BitVec 64) : KmapWorld where
  mm := .newKernMmByPagetable kernelPagetable
  satp := 0
  sstatus := sstatus
  phys := ⟨fun _ _ => 0, {0}, fun _ => [0], 1, ⟨fun _ => none, nofun⟩⟩

theorem kmapRestores_iff_off : KmapRestores (.fresh 0) := by
  refine (kmapRestores_iff ?_).mpr (by decide)
  exact nofun

/-- A mapping that does not fit leaves interrupts off that were on. -/
theorem none_keeps_interrupts_off :
    ((KmapWorld.fresh sieMask).newToken (.newAnon (kmapEnd - kmapStart))).map
        (fun r => (r.1.isNone, r.2.interruptsEnabled)) = .ok (true, false) ∧
      (KmapWorld.fresh sieMask).interruptsEnabled = true ∧
      ¬KmapRestores (.fresh sieMask) := by
  have hrun := (KmapWorld.fresh sieMask).newToken_whole
  have hon : (KmapWorld.fresh sieMask).interruptsEnabled = true := by decide
  refine ⟨by rw [hrun]; rfl, hon, fun h => ?_⟩
  have hsame := (h.onNone _ _ hrun).interrupts
  rw [KmapWorld.interruptsEnabled_disabled, hon] at hsame
  cases hsame

end Zinix
