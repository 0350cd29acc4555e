import Zinix.Trap.TrapAsm

/-!
# Nested traps

A handler may be trapped itself, to any depth. The frames of the traps under way stay as
they are when none overlaps another.
-/

namespace Zinix

open Riscv

/-- A trap can be taken: `sscratch` is as the mode requires. -/
def Riscv.Hart.Ready (m : Hart) : Prop :=
  m.mode = .user ∧ m.csr .sscratch ≠ 0 ∨ m.mode = .supervisor ∧ m.csr .sscratch = 0

/-- The stack pointer of the kernel, where the frame of a trap goes. -/
def Riscv.Hart.kernelSp (m : Hart) : Word :=
  match m.mode with
  | .user => m.csr .sscratch
  | .supervisor => m.reg .sp

def Riscv.Hart.frameAt (m : Hart) : Word := m.kernelSp - BitVec.ofNat 64 TrapFrame.size

/-- The frame of a trap does not overlap the saved ones. -/
def Room (saved : List Word) (m : Hart) : Prop :=
  ∀ b ∈ saved, Disjoint (frameBytes m.frameAt) (frameBytes b)

/-- What a handler leaves alone: the mode, `sscratch` and the saved frames. -/
structure Kept (saved : List Word) (m m' : Hart) : Prop where
  mode : m'.mode = m.mode
  sscratch : m'.csr .sscratch = m.csr .sscratch
  mem : ∀ b ∈ saved, ∀ a ∈ frameBytes b, m'.mem a = m.mem a

def Handles (saved : List Word) (nested : Hart → Hart → Prop) : Hart → Hart → Prop :=
  Relation.ReflTransGen fun m m' => Kept saved m m' ∨ nested m m'

/-- The code in a kernel that places it at the given addresses. -/
def trapSetting (place : List (Line TrapLabel TrapFn) → Word) (saved : List Word)
    (nested : Hart → Hart → Prop) : Setting TrapLabel TrapFn where
  listing := TrapAsm.trapAsm
  place := place
  calls := fun _ => Handles saved nested
  interrupt := nested

/-- A trap, from where it is taken to its return, in which traps nest less than `n` deep. -/
def Trapped (place : List (Line TrapLabel TrapFn) → Word) :
    ℕ → List Word → Word → Hart → Hart → Prop
  | 0, _, _, _, _ => False
  | n + 1, saved, cause, m, m' =>
    (trapSetting place (m.frameAt :: saved) fun u u' =>
      Room (m.frameAt :: saved) u ∧ ∃ cause, Trapped place n (m.frameAt :: saved) cause u u').Run
      TrapAsm.trapAsm (m.takeTrap cause) m'

/-- Everything is as before the trap. In `sstatus` the return has set two bits; `sepc` and
`scause` still tell of the trap. -/
structure Restored (saved : List Word) (cause : Word) (m m' : Hart) : Prop extends
    Kept saved m m' where
  reg : m'.reg = m.reg
  pc : m'.pc = m.pc
  sstatus : m'.csr .sstatus = setBit (setBit (m.csr .sstatus) spieBit true) sppBit false
  sepc : m'.csr .sepc = m.pc
  scause : m'.csr .scause = cause

section Kept

variable {saved : List Word} {nested : Hart → Hart → Prop} {m m' m₁ : Hart}

theorem Kept.refl (m : Hart) : Kept saved m m := ⟨rfl, rfl, fun _ _ _ _ => rfl⟩

theorem Kept.setReg (m : Hart) (r : Reg) (v : Word) : Kept saved m (m.setReg r v) :=
  ⟨rfl, rfl, fun _ _ _ _ => rfl⟩

theorem Kept.trans (h : Kept saved m m₁) (h' : Kept saved m₁ m') : Kept saved m m' where
  mode := h'.mode.trans h.mode
  sscratch := h'.sscratch.trans h.sscratch
  mem := fun b hb a ha => (h'.mem b hb a ha).trans (h.mem b hb a ha)

theorem Kept.words {b : Word} {i : ℕ} (h : Kept saved m m') (hb : b ∈ saved) (hi : i < 35) :
    m'.mem.words b i = m.mem.words b i := by
  apply Ram.words_congr hi (by decide)
  intro a ha
  apply h.mem b hb a
  rw [frameBytes, TrapAsm.size_eq]
  exact ha

structure InKernel (m : Hart) : Prop where
  mode : m.mode = .supervisor
  sscratch : m.csr .sscratch = 0

theorem Kept.inKernel (h : Kept saved m m') (hm : InKernel m) : InKernel m' :=
  ⟨h.mode.trans hm.mode, h.sscratch.trans hm.sscratch⟩

/-- The traps that a handler is interrupted by leave no trace in its registers. -/
def Harmless (saved : List Word) (nested : Hart → Hart → Prop) : Prop :=
  ∀ m m', InKernel m → nested m m' → Kept saved m m' ∧ m'.reg = m.reg

theorem Handles.kept (hn : Harmless saved nested) (h : Handles saved nested m m')
    (hm : InKernel m) : Kept saved m m' := by
  induction h with
  | refl => exact Kept.refl m
  | tail _ hstep ih =>
    rcases hstep with hown | htrap
    · exact ih.trans hown
    · exact ih.trans (hn _ _ (ih.inKernel hm) htrap).1

theorem ticks_kept {place : List (Line TrapLabel TrapFn) → Word} {c : List (Line TrapLabel TrapFn)}
    (hn : Harmless saved nested)
    (h : Relation.ReflTransGen ((trapSetting place saved nested).Tick c) m m') (hm : InKernel m) :
    Kept saved m m' ∧ m'.reg = m.reg := by
  induction h with
  | refl => exact ⟨Kept.refl m, rfl⟩
  | @tail u u' _ htick ih =>
    obtain ⟨hkept, hreg⟩ := ih
    have hk := hkept.inKernel hm
    have hpc : InKernel { u with pc := place c } := ⟨hk.mode, hk.sscratch⟩
    obtain ⟨hkept', hreg'⟩ := hn _ _ hpc htick.2.1
    exact ⟨hkept.trans ⟨hkept'.mode, hkept'.sscratch, hkept'.mem⟩, hreg'.trans hreg⟩

end Kept

namespace TrapAsm

section Paths

variable {place : List (Line TrapLabel TrapFn) → Word} {saved : List Word}
  {nested : Hart → Hart → Prop} {c : List (Line TrapLabel TrapFn)} {b : Word}
  {m' u v : Hart}
  {irq exc ret : TrapLabel}

theorem notMem_sstatus_loadRest : ∀ o ∈ loadRest, o.csrWritten ≠ some .sstatus := by decide

theorem notMem_sstatus_saveFrame : ∀ o ∈ saveFrame, o.csrWritten ≠ some .sstatus := by decide

/-- The return path. It may be interrupted until it has loaded `sstatus`. -/
theorem run_loadFrame (hn : Harmless saved nested) (hb : b ∈ saved) (hv : InKernel v)
    (hsp : v.reg .sp = b) (hself : v.mem.words b 2 = b)
    (hsie : (v.mem.words b 34).getLsbD sieBit = false)
    (h : (trapSetting place saved nested).Run (loadFrame.map .op ++ c) v m') :
    ∃ w, Loaded (v.mem.words b) b w ∧ w.csr .sstatus = v.mem.words b 34 ∧
      w.mode = .supervisor ∧ (∀ b' ∈ saved, ∀ a ∈ frameBytes b', w.mem a = v.mem a) ∧
      (trapSetting place saved nested).Run c w m' := by
  have hcode : loadFrame.map Line.op ++ c = .op (.ld .a0 (34 * 8 : ℕ) .sp) ::
      .op (.csrw .sstatus .a0) :: (loadRest.map .op ++ c) := rfl
  rw [hcode] at h
  obtain ⟨v₀, hticks, h⟩ := h.fires
  obtain ⟨hkept₀, hreg₀⟩ := ticks_kept hn hticks hv
  rw [Setting.Fires] at h
  have hld : Op.exec v₀ (.ld .a0 (34 * 8 : ℕ) .sp) = v₀.setReg .a0 (v₀.mem.words b 34) := by
    rw [Ram.words, ← add_ofInt_eq_slot, ← hsp, ← hreg₀]
    rfl
  rw [hld] at h
  have hv₀ := hkept₀.inKernel hv
  obtain ⟨v₁, hticks₁, h⟩ := h.fires
  obtain ⟨hkept₁, hreg₁⟩ := ticks_kept hn hticks₁ ⟨hv₀.mode, hv₀.sscratch⟩
  have hkept : Kept saved v v₁ :=
    hkept₀.trans ((Kept.setReg v₀ _ _).trans hkept₁)
  have ha0 : v₁.reg .a0 = v.mem.words b 34 := by
    rw [hreg₁, Hart.reg_setReg_self (by decide), hkept₀.words hb (by decide)]
  have hsp₁ : v₁.reg .sp = b := by
    rw [hreg₁, Hart.reg_setReg_of_ne (by decide), hreg₀, hsp]
  have hrun : (trapSetting place saved nested).Run (loadRest.map .op ++ c)
      (v₁.setCsr .sstatus (v.mem.words b 34)) m' := by
    rw [← ha0]
    exact h
  have hquiet : ¬(v₁.setCsr .sstatus (v.mem.words b 34)).Interruptible := by
    rw [Hart.Interruptible, Hart.sie, Hart.csr_setCsr_self, hsie, Hart.mode_setCsr,
      (hkept.inKernel hv).mode]
    simp
  rw [Setting.run_ops_iff hquiet notMem_sstatus_loadRest] at hrun
  have hwords : ∀ i < 35, v₁.mem.words b i = v.mem.words b i := fun i hi => hkept.words hb hi
  have hload := @loaded_loadRest (v₁.setCsr .sstatus (v.mem.words b 34)) b
    (by rw [Hart.reg_setCsr, hsp₁])
    (by rw [Hart.mem_setCsr, hwords 2 (by decide), hself])
  obtain ⟨hloaded, hstatus, hmode, hmem⟩ := hload
  refine ⟨_, hloaded.congr hwords, ?_, ?_, ?_, hrun⟩
  · rw [hstatus, Hart.csr_setCsr_self]
  · rw [hmode, Hart.mode_setCsr, (hkept.inKernel hv).mode]
  · intro b' hb' a ha
    rw [hmem, Hart.mem_setCsr, hkept.mem b' hb' a ha]

/-- From the entry to the return path. The handler may be called for an interrupt or for an
exception, and may return with interrupts on. -/
theorem run_trapPath (hn : Harmless saved nested)
    (hexc : fromLabel exc trapAsm = .label exc :: .jal .excHandler :: (returnPath ret ++ c))
    (hret : fromLabel ret trapAsm = returnPath ret ++ c) (hmode : u.mode = .supervisor)
    (hsie : u.sie = false)
    (h : (trapSetting place saved nested).Run (trapPath irq exc ret ++ c) u m') :
    ∃ v, Kept saved (execAll u saveFrame) v ∧ v.reg .sp = (execAll u saveFrame).reg .sp ∧
      (trapSetting place saved nested).Run (loadFrame.map .op ++ c) v m' := by
  have hquiet : ¬u.Interruptible := by simp [Hart.Interruptible, hmode, hsie]
  have hsaved := saved_saveFrame u
  have hkernel : InKernel (execAll u saveFrame) := ⟨hsaved.mode.trans hmode, hsaved.sscratch⟩
  rw [trapPath, List.append_assoc, List.append_assoc,
    Setting.run_ops_iff hquiet notMem_sstatus_saveFrame] at h
  have hquiet' : ¬(execAll u saveFrame).Interruptible := fun hi =>
    hquiet ((interruptible_execAll notMem_sstatus_saveFrame).mp hi)
  generalize execAll u saveFrame = u' at hkernel hquiet' h ⊢
  -- A function is called, and after it the return path is reached.
  have hcall : ∀ (p : Word) (v : Hart), Handles saved nested (u'.call p) v →
      Kept saved u' v := by
    intro p v hhandles
    have hsame : Kept saved u' (u'.call p) := Kept.setReg u' _ _
    exact hsame.trans (Handles.kept hn hhandles (hsame.inKernel hkernel))
  have hreturn : ∀ v, Kept saved u' v → v.reg .sp = u'.reg .sp →
      (trapSetting place saved nested).Run (returnPath ret ++ c) v m' →
      ∃ v, Kept saved u' v ∧ v.reg .sp = u'.reg .sp ∧
        (trapSetting place saved nested).Run (loadFrame.map .op ++ c) v m' := by
    intro v hkept hsp hrun
    obtain ⟨v₀, hticks, hfires⟩ := hrun.fires
    obtain ⟨hkept₀, hreg₀⟩ := ticks_kept hn hticks (hkept.inKernel hkernel)
    exact ⟨v₀, hkept.trans hkept₀, by rw [hreg₀, hsp], hfires⟩
  rw [List.cons_append, Setting.run_iff_fires hquiet', Setting.Fires] at h
  by_cases hcause : 0 ≤ (u'.reg .a1).toInt
  · have hlist : fromLabel exc (trapSetting place saved nested).listing =
        .label exc :: .jal .excHandler :: (returnPath ret ++ c) := hexc
    rw [if_pos hcause, hlist, Setting.run_iff_fires hquiet', Setting.Fires,
      Setting.run_iff_fires hquiet', Setting.Fires] at h
    obtain ⟨v, hhandles, -, hsp, hrun⟩ := h
    exact hreturn v (hcall _ v hhandles) hsp hrun
  · rw [if_neg hcause, List.cons_append, Setting.run_iff_fires hquiet', Setting.Fires,
      List.cons_append, Setting.run_iff_fires hquiet', Setting.Fires] at h
    obtain ⟨v, hhandles, -, hsp, hrun⟩ := h
    have hkept := hcall _ v hhandles
    obtain ⟨v₀, hticks, hfires⟩ := hrun.fires
    obtain ⟨hkept₀, hreg₀⟩ := ticks_kept hn hticks (hkept.inKernel hkernel)
    have hlist : fromLabel ret (trapSetting place saved nested).listing = returnPath ret ++ c :=
      hret
    rw [List.cons_append, Setting.Fires, hlist] at hfires
    exact hreturn v₀ (hkept.trans hkept₀) (by rw [hreg₀, hsp]) hfires

theorem run_trapPath_loaded (hn : Harmless saved nested)
    (hexc : fromLabel exc trapAsm = .label exc :: .jal .excHandler :: (returnPath ret ++ c))
    (hret : fromLabel ret trapAsm = returnPath ret ++ c) (hmode : u.mode = .supervisor)
    (hsie : u.sie = false) (hb : b = u.reg .sp - BitVec.ofNat 64 TrapFrame.size) (hmem : b ∈ saved)
    (h : (trapSetting place saved nested).Run (trapPath irq exc ret ++ c) u m') :
    ∃ w, Loaded (slotValue (u.setReg .sp b)) b w ∧ w.csr .sstatus = u.csr .sstatus ∧
      w.mode = .supervisor ∧
      (∀ b' ∈ saved, ∀ a ∈ frameBytes b', a ∉ frameBytes b → w.mem a = u.mem a) ∧
      (trapSetting place saved nested).Run c w m' := by
  obtain ⟨v, hkept, hsp, hrun⟩ := run_trapPath hn hexc hret hmode hsie h
  have hsaved := saved_saveFrame u
  rw [← hb] at hsaved
  have hkernel := hkept.inKernel ⟨hsaved.mode.trans hmode, hsaved.sscratch⟩
  have hwords : ∀ i < 35, v.mem.words b i = slotValue (u.setReg .sp b) i := fun i hi =>
    (hkept.words hmem hi).trans (hsaved.words i hi)
  have hself : v.mem.words b 2 = b := by
    rw [hwords 2 (by decide)]
    exact Hart.reg_setReg_self (by decide)
  have hstatus : v.mem.words b 34 = u.csr .sstatus := hwords 34 (by decide)
  obtain ⟨w, hloaded, hsstatus, hmode', hmem', hrun'⟩ := run_loadFrame hn hmem hkernel
    (hsp.trans hsaved.sp) hself (by rw [hstatus]; exact hsie) hrun
  refine ⟨w, hloaded.congr hwords, hsstatus.trans hstatus, hmode', ?_, hrun'⟩
  intro b' hb' a ha hout
  rw [hmem' b' hb' a ha, hkept.mem b' hb' a ha, hsaved.mem a hout]

end Paths

section Entry

variable {place : List (Line TrapLabel TrapFn) → Word} {saved : List Word}
  {nested : Hart → Hart → Prop} {e m' : Hart}

theorem exec_swap_swap (e : Hart) : swap.exec (swap.exec e) = e := by
  obtain ⟨x, csr, mode, pc, mem⟩ := e
  have hsp : Reg.sp ≠ Reg.zero := by decide
  simp [swap, Op.exec, Hart.setReg, Hart.setCsr, Hart.reg, hsp, replaceAt_eq_self]

theorem exec_swap (e : Hart) :
    swap.exec e = (e.setCsr .sscratch (e.reg .sp)).setReg .sp (e.csr .sscratch) := rfl

theorem reg_sp_swap (e : Hart) : (swap.exec e).reg .sp = e.csr .sscratch :=
  Hart.reg_setReg_self (by decide)

theorem reg_swap_of_ne {r : Reg} (h : r ≠ .sp) : (swap.exec e).reg r = e.reg r :=
  Hart.reg_setReg_of_ne h

theorem sscratch_swap (e : Hart) : (swap.exec e).csr .sscratch = e.reg .sp := by
  rw [exec_swap, Hart.csr_setReg, Hart.csr_setCsr_self]

theorem csr_swap_of_ne {c : Csr} (h : c ≠ .sscratch) : (swap.exec e).csr c = e.csr c := by
  rw [exec_swap, Hart.csr_setReg, Hart.csr_setCsr_of_ne h]

theorem not_interruptible_swap (h : ¬e.Interruptible) : ¬(swap.exec e).Interruptible := fun hi =>
  h ((@interruptible_execAll e [swap] (by decide)).mp hi)

theorem run_kern_iff (hquiet : ¬e.Interruptible) (hscratch : e.csr .sscratch = 0) :
    (trapSetting place saved nested).Run trapAsm e m' ↔ (trapSetting place saved nested).Run
      (trapPath .kernIrqHandler .kernExcHandler .kernTrapRet ++ .sret :: userPart) e m' := by
  have hquiet' := not_interruptible_swap hquiet
  rw [trapAsm, Setting.run_iff_fires hquiet, Setting.Fires, Setting.run_iff_fires hquiet,
    Setting.Fires, Setting.run_iff_fires hquiet', Setting.Fires, reg_sp_swap, hscratch,
    if_neg (by decide), Setting.run_iff_fires hquiet', Setting.Fires, exec_swap_swap,
    Setting.run_iff_fires hquiet, Setting.Fires]

theorem run_user_iff (hquiet : ¬e.Interruptible) (hscratch : e.csr .sscratch ≠ 0) :
    (trapSetting place saved nested).Run trapAsm e m' ↔ (trapSetting place saved nested).Run
      (trapPath .userIrqHandler .userExcHandler .userTrapRet ++ [.op swap, .sret])
      (swap.exec e) m' := by
  have hquiet' := not_interruptible_swap hquiet
  have hlist : fromLabel .trapUser (trapSetting place saved nested).listing = userPart := rfl
  rw [trapAsm, Setting.run_iff_fires hquiet, Setting.Fires, Setting.run_iff_fires hquiet,
    Setting.Fires, Setting.run_iff_fires hquiet', Setting.Fires, reg_sp_swap, if_pos hscratch,
    hlist, userPart, Setting.run_iff_fires hquiet', Setting.Fires]

end Entry

end TrapAsm

section Return

open TrapAsm

variable {saved : List Word} {cause : Word} {m w : Hart}
  {b : Word}

theorem restored_sret (hreg : w.reg = m.reg) (hsscratch : w.csr .sscratch = m.csr .sscratch)
    (hsstatus : w.csr .sstatus = (m.takeTrap cause).csr .sstatus) (hsepc : w.csr .sepc = m.pc)
    (hscause : w.csr .scause = cause)
    (hmem : ∀ b ∈ saved, ∀ a ∈ frameBytes b, w.mem a = m.mem a) : Restored saved cause m w.sret where
  mode := Hart.mode_sret hsstatus
  sscratch := (Hart.csr_sret_of_ne (by decide)).trans hsscratch
  mem := hmem
  reg := hreg
  pc := hsepc
  sstatus := Hart.sstatus_sret hsstatus
  sepc := (Hart.csr_sret_of_ne (by decide)).trans hsepc
  scause := (Hart.csr_sret_of_ne (by decide)).trans hscause

theorem not_interruptible_of {e : Hart} (hmode : e.mode = .supervisor)
    (hstatus : e.csr .sstatus = (m.takeTrap cause).csr .sstatus) : ¬e.Interruptible := by
  have hsie : e.sie = false := by
    rw [Hart.sie, hstatus]
    exact Hart.sie_takeTrap
  simp [Hart.Interruptible, hmode, hsie]

theorem Loaded.reg_eq {u : Hart} (h : Loaded (slotValue (u.setReg .sp b)) b w) {r : Reg}
    (hr : r ≠ .sp) : w.reg r = u.reg r := by
  by_cases hzero : r = .zero
  · subst hzero
    rfl
  · obtain ⟨i, rfl⟩ := Fin.exists_succ_eq.mpr hzero
    rw [h.reg _ hzero hr, slotValue_reg, Hart.reg_setReg_of_ne hr]

variable {place : List (Line TrapLabel TrapFn) → Word} {n : ℕ} {m' : Hart}

/-- The traps that may come while the frames are in use. -/
def NestedTrap (place : List (Line TrapLabel TrapFn) → Word) (n : ℕ) (frames : List Word)
    (u u' : Hart) : Prop :=
  Room frames u ∧ ∃ cause, Trapped place n frames cause u u'

theorem trapped_succ : Trapped place (n + 1) saved cause m m' ↔
    (trapSetting place (m.frameAt :: saved) (NestedTrap place n (m.frameAt :: saved))).Run trapAsm
      (m.takeTrap cause) m' := Iff.rfl

theorem Room.notMem {a : Word} (h : Room saved m) (hb : b ∈ saved) (ha : a ∈ frameBytes b) :
    a ∉ frameBytes m.frameAt := fun hin => Set.disjoint_left.mp (h b hb) hin ha

theorem restored_of_kern
    (hn : Harmless (m.frameAt :: saved) (NestedTrap place n (m.frameAt :: saved)))
    (hmode : m.mode = .supervisor) (hscratch : m.csr .sscratch = 0) (hroom : Room saved m)
    (h : Trapped place (n + 1) saved cause m m') : Restored saved cause m m' := by
  have hframe : m.frameAt = (m.takeTrap cause).reg .sp - BitVec.ofNat 64 TrapFrame.size := by
    rw [Hart.frameAt, Hart.kernelSp, hmode, Hart.reg_takeTrap]
  have hquiet : ¬(m.takeTrap cause).Interruptible := not_interruptible_of rfl rfl
  rw [trapped_succ, run_kern_iff hquiet hscratch] at h
  obtain ⟨w, hloaded, hstatus, hmodew, hmem, hrun⟩ := run_trapPath_loaded hn rfl rfl rfl
    Hart.sie_takeTrap hframe (List.mem_cons_self ..) h
  rw [Setting.run_iff_fires (not_interruptible_of hmodew hstatus)] at hrun
  obtain rfl : m' = w.sret := hrun
  apply restored_sret
  case hreg =>
    funext r
    by_cases hr : r = .sp
    · subst hr
      rw [hloaded.sp, hframe, Hart.reg_takeTrap, BitVec.sub_add_cancel]
    · rw [Loaded.reg_eq hloaded hr, Hart.reg_takeTrap]
  case hsscratch => exact hloaded.sscratch
  case hsstatus => exact hstatus
  case hsepc => exact hloaded.sepc
  case hscause => exact hloaded.scause
  case hmem =>
    intro b hb a ha
    exact hmem b (List.mem_cons_of_mem _ hb) a ha (hroom.notMem hb ha)

theorem restored_of_user
    (hn : Harmless (m.frameAt :: saved) (NestedTrap place n (m.frameAt :: saved)))
    (hmode : m.mode = .user) (hscratch : m.csr .sscratch ≠ 0) (hroom : Room saved m)
    (h : Trapped place (n + 1) saved cause m m') : Restored saved cause m m' := by
  have hframe : m.frameAt =
      (swap.exec (m.takeTrap cause)).reg .sp - BitVec.ofNat 64 TrapFrame.size := by
    rw [Hart.frameAt, Hart.kernelSp, hmode, reg_sp_swap, Hart.sscratch_takeTrap]
  have hquiet : ¬(m.takeTrap cause).Interruptible := not_interruptible_of rfl rfl
  have hmode' : (swap.exec (m.takeTrap cause)).mode = .supervisor := swap.mode_exec _
  have hsie : (swap.exec (m.takeTrap cause)).sie = false := by
    rw [Hart.sie, csr_swap_of_ne (by decide)]
    exact Hart.sie_takeTrap
  rw [trapped_succ, run_user_iff hquiet hscratch] at h
  obtain ⟨w, hloaded, hstatus, hmodew, hmem, hrun⟩ := run_trapPath_loaded hn rfl rfl hmode' hsie
    hframe (List.mem_cons_self ..) h
  rw [csr_swap_of_ne (by decide)] at hstatus
  have hquietw := not_interruptible_of hmodew hstatus
  rw [Setting.run_iff_fires hquietw, Setting.Fires,
    Setting.run_iff_fires (not_interruptible_swap hquietw)] at hrun
  obtain rfl : m' = (swap.exec w).sret := hrun
  have hsp : w.reg .sp = m.csr .sscratch := by
    rw [hloaded.sp, hframe, BitVec.sub_add_cancel, reg_sp_swap, Hart.sscratch_takeTrap]
  apply restored_sret
  case hreg =>
    funext r
    by_cases hr : r = .sp
    · subst hr
      rw [reg_sp_swap, hloaded.sscratch]
      exact sscratch_swap (m.takeTrap cause)
    · rw [reg_swap_of_ne hr, Loaded.reg_eq hloaded hr, reg_swap_of_ne hr, Hart.reg_takeTrap]
  case hsscratch => rw [sscratch_swap, hsp]
  case hsstatus => rw [csr_swap_of_ne (by decide), hstatus]
  case hsepc =>
    rw [csr_swap_of_ne (by decide), hloaded.sepc]
    exact csr_swap_of_ne (show Csr.sepc ≠ .sscratch by decide)
  case hscause =>
    rw [csr_swap_of_ne (by decide), hloaded.scause]
    exact csr_swap_of_ne (show Csr.scause ≠ .sscratch by decide)
  case hmem =>
    intro b hb a ha
    exact hmem b (List.mem_cons_of_mem _ hb) a ha (hroom.notMem hb ha)

/-- What holds of a trap follows from what holds of the traps inside it. -/
theorem Trapped.restored (h : Trapped place n saved cause m m') (hm : m.Ready)
    (hroom : Room saved m) : Restored saved cause m m' := by
  induction n generalizing saved cause m m' with
  | zero => exact h.elim
  | succ n ih =>
    have hn : Harmless (m.frameAt :: saved) (NestedTrap place n (m.frameAt :: saved)) := by
      rintro u u' hu ⟨hroom', cause', htrap⟩
      have hres := ih htrap (.inr ⟨hu.mode, hu.sscratch⟩) hroom'
      exact ⟨hres.toKept, hres.reg⟩
    rcases hm with ⟨hmode, hscratch⟩ | ⟨hmode, hscratch⟩
    · exact restored_of_user hn hmode hscratch hroom h
    · exact restored_of_kern hn hmode hscratch hroom h

end Return

section Called

open TrapAsm

variable {r : Reg}

/-- What the frame of a trap shows. The stack pointer of a user task is in `sscratch` by
then, and the field of the stack pointer holds the address of the frame itself. -/
def trapFrameOf (cause : Word) (m : Hart) : TrapField → Word
  | .sepc => m.pc
  | .x r => if r = .sp then m.frameAt else m.reg r
  | .scause => cause
  | .sscratch => if m.mode = .user then m.reg .sp else 0
  | .sstatus => (m.takeTrap cause).csr .sstatus

variable {place : List (Line TrapLabel TrapFn) → Word} {saved : List Word}
  {nested : Hart → Hart → Prop} {n : ℕ} {cause b : Word} {m m' u v : Hart}

theorem idxOf_x (h : r ≠ .zero) : TrapFrame.fields.idxOf (.x r) = r.val := by
  have hall : ∀ r : Reg, r ≠ .zero → TrapFrame.fields.idxOf (.x r) = r.val := by decide
  exact hall r h

theorem read_eq_words (mem : Ram) (a : Word) (f : TrapField) :
    TrapFrame.read mem a f = mem.words a (TrapFrame.fields.idxOf f) := rfl

section Returns

variable {c : List (Line TrapLabel TrapFn)} {irq exc ret : TrapLabel}

end Returns

theorem Restored.kernelSp (h : Restored saved cause m m') : m'.kernelSp = m.kernelSp := by
  unfold Hart.kernelSp
  rw [h.mode, h.sscratch, h.reg]

/-- A user task with a kernel stack, at its first instruction. -/
def userHart : Hart where
  x := fun r => BitVec.ofNat 64 r.val
  csr := fun c => if c = .sscratch then 0x4000 else 0
  mode := .user
  pc := 0x1000
  mem := fun _ => 0

end Called

end Zinix
