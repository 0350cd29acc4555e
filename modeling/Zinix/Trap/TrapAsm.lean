import Zinix.Lib.Riscv

/-!
# Entry into the kernel and return from it

While a user task runs, `sscratch` holds the top of its kernel stack, and the kernel runs
with zero there; this is how the entry tells where a trap comes from.
-/

namespace Zinix

open Riscv

/-- The fields of `TrapFrame`. -/
inductive TrapField where
  | sepc
  | x (r : Reg)
  | scause
  | sscratch
  | sstatus
  deriving DecidableEq

namespace TrapFrame

/-- The fields in the order of their declaration, which `repr(C)` keeps. -/
def fields : List TrapField :=
  .sepc :: (List.finRange 31).map (fun i => .x i.succ) ++ [.scause, .sscratch, .sstatus]

/-- All fields have the size of a `usize`. -/
def offset (f : TrapField) : ℕ := 8 * fields.idxOf f

def size : ℕ := 8 * fields.length

def read (mem : Ram) (a : Word) (f : TrapField) : Word := mem.load (a + BitVec.ofNat 64 (offset f))

end TrapFrame

inductive TrapLabel where
  | trapEntry
  | trapKern
  | kernIrqHandler
  | kernExcHandler
  | kernTrapRet
  | trapUser
  | userIrqHandler
  | userExcHandler
  | userTrapRet
  deriving DecidableEq

inductive TrapFn where
  | irqHandler
  | excHandler

namespace TrapAsm

/-- `sd x1, 1*8(sp)` to `sd x31, 31*8(sp)`. -/
def saveRegs : List Op := (List.finRange 31).map fun i => .sd i.succ (i.succ.val * 8 : ℕ) .sp

/-- `ld x1, 1*8(sp)` to `ld x31, 31*8(sp)`. -/
def loadRegs : List Op := (List.finRange 31).map fun i => .ld i.succ (i.succ.val * 8 : ℕ) .sp

def saveCsr (c : Csr) (i : ℕ) : List Op := [.csrr .a0 c, .sd .a0 (i * 8 : ℕ) .sp]

def loadCsr (c : Csr) (i : ℕ) : List Op := [.ld .a0 (i * 8 : ℕ) .sp, .csrw c .a0]

def saveFrame : List Op :=
  .addi .sp .sp (-35 * 8) :: (saveRegs ++ saveCsr .sepc 0 ++ saveCsr .scause 32 ++
    saveCsr .sscratch 33 ++ saveCsr .sstatus 34 ++
    [.csrw .sscratch .zero, .mv .a0 .sp, .csrr .a1 .scause])

/-- The return path after `sstatus` has been loaded. -/
def loadRest : List Op :=
  loadCsr .sscratch 33 ++ loadCsr .scause 32 ++ loadCsr .sepc 0 ++ loadRegs ++
    [.addi .sp .sp (35 * 8)]

def loadFrame : List Op := loadCsr .sstatus 34 ++ loadRest

def returnPath (ret : TrapLabel) : List (Line TrapLabel TrapFn) :=
  .label ret :: loadFrame.map .op

def trapPath (irq exc ret : TrapLabel) : List (Line TrapLabel TrapFn) :=
  saveFrame.map .op ++ [.bgez .a1 exc, .label irq, .jal .irqHandler, .j ret,
    .label exc, .jal .excHandler] ++ returnPath ret

/-- `csrrw sp, sscratch, sp`. -/
def swap : Op := .csrrw .sp .sscratch .sp

/-- The file from `trap_user` on. -/
def userPart : List (Line TrapLabel TrapFn) :=
  .label .trapUser :: (trapPath .userIrqHandler .userExcHandler .userTrapRet ++ [.op swap, .sret])

/-- `trap_asm.s`. -/
def trapAsm : List (Line TrapLabel TrapFn) :=
  .label .trapEntry :: .op swap :: .bnez .sp .trapUser :: .op swap :: .label .trapKern ::
    (trapPath .kernIrqHandler .kernExcHandler .kernTrapRet ++ .sret :: userPart)

end TrapAsm

def frameBytes (a : Word) : Set Word := Ram.bytes a TrapFrame.size

namespace TrapAsm

/-- What is saved in doubleword `i` of the frame. -/
def slotValue (m : Hart) : ℕ → Word
  | 0 => m.csr .sepc
  | 32 => m.csr .scause
  | 33 => m.csr .sscratch
  | 34 => m.csr .sstatus
  | i => m.reg (Fin.ofNat 32 i)

theorem slotValue_reg (m : Hart) (i : Fin 31) : slotValue m i.succ.val = m.reg i.succ := by
  have hi : i.succ.val < 32 := i.succ.isLt
  have hpos : 0 < i.succ.val := Nat.succ_pos _
  unfold slotValue
  split
  · omega
  · omega
  · omega
  · omega
  · rw [Fin.ofNat_val_eq_self]

theorem add_ofInt_eq_slot (a : Word) (i : ℕ) :
    a + BitVec.ofInt 64 ((i * 8 : ℕ) : ℤ) = Ram.slot a i := by
  rw [BitVec.ofInt_natCast, Nat.mul_comm, Ram.slot]

section Save

variable {u u' : Hart} {is : List ℕ}
  {i : ℕ}

/-- Some of the doublewords have been saved; only `a0` has been used for it. -/
structure Saving (u : Hart) (is : List ℕ) (u' : Hart) : Prop where
  reg : ∀ r ≠ .a0, u'.reg r = u.reg r
  csr : u'.csr = u.csr
  mode : u'.mode = u.mode
  mem : u'.mem = u.mem.storeSlots (u.reg .sp) (slotValue u) is

theorem Saving.append_csr (h : Saving u is u') {c : Csr} (hi : slotValue u i = u.csr c) :
    Saving u (is ++ [i]) (execAll u' (saveCsr c i)) := by
  have hsp : (u'.setReg .a0 (u'.csr c)).reg .sp = u.reg .sp := by
    rw [Hart.reg_setReg_of_ne (by decide), h.reg _ (by decide)]
  refine ⟨fun r hr => ?_, h.csr, h.mode, ?_⟩
  · exact (Hart.reg_setReg_of_ne hr).trans (h.reg r hr)
  · have hstore : (execAll u' (saveCsr c i)).mem = u'.mem.store
        ((u'.setReg .a0 (u'.csr c)).reg .sp + BitVec.ofInt 64 ((i * 8 : ℕ) : ℤ))
        ((u'.setReg .a0 (u'.csr c)).reg .a0) := rfl
    rw [hstore, hsp, add_ofInt_eq_slot, Hart.reg_setReg_self (by decide), h.csr, ← hi, h.mem,
      Ram.storeSlots_append]
    rfl

theorem saving_regs (u : Hart) (rs : List (Fin 31)) :
    execAll u (rs.map fun i => .sd i.succ (i.succ.val * 8 : ℕ) .sp) =
      { u with mem := u.mem.storeSlots (u.reg .sp) (slotValue u) (rs.map fun i => i.succ.val) } := by
  induction rs generalizing u with
  | nil => rfl
  | cons i rs ih =>
    rw [List.map_cons, execAll_cons, ih, List.map_cons]
    have hmem : (Op.exec u (.sd i.succ (i.succ.val * 8 : ℕ) .sp)).mem =
        u.mem.store (Ram.slot (u.reg .sp) i.succ.val) (slotValue u i.succ.val) := by
      rw [slotValue_reg, ← add_ofInt_eq_slot]
      rfl
    rw [hmem]
    rfl

/-- The order in which the doublewords of the frame are saved. -/
def saveOrder : List ℕ := (List.finRange 31).map (fun i => i.succ.val) ++ [0] ++ [32] ++ [33] ++ [34]

theorem saving_all (u : Hart) : Saving u saveOrder (execAll u (saveRegs ++ saveCsr .sepc 0 ++
    saveCsr .scause 32 ++ saveCsr .sscratch 33 ++ saveCsr .sstatus 34)) := by
  have hregs : Saving u ((List.finRange 31).map fun i => i.succ.val) (execAll u saveRegs) := by
    rw [saveRegs, saving_regs]
    exact ⟨fun _ _ => rfl, rfl, rfl, rfl⟩
  simp only [execAll_append]
  exact (((hregs.append_csr rfl).append_csr rfl).append_csr rfl).append_csr rfl

theorem mem_saveOrder : i ∈ saveOrder ↔ i < 35 := by
  have hall : ∀ k < 35, k ∈ saveOrder := by decide
  have hlt : ∀ k ∈ saveOrder, k < 35 := by decide
  exact ⟨hlt i, hall i⟩

/-- The state in which the handler is called, up to the return address: the frame at `b`
holds all that was there before. -/
structure Saved (u : Hart) (b : Word) (u' : Hart) : Prop where
  sp : u'.reg .sp = b
  a0 : u'.reg .a0 = b
  a1 : u'.reg .a1 = u.csr .scause
  mode : u'.mode = u.mode
  sstatus : u'.csr .sstatus = u.csr .sstatus
  sscratch : u'.csr .sscratch = 0
  words : ∀ i < 35, u'.mem.words b i = slotValue (u.setReg .sp b) i
  mem : ∀ a ∉ frameBytes b, u'.mem a = u.mem a

theorem size_eq : TrapFrame.size = 8 * 35 := by decide

theorem ofInt_size : BitVec.ofInt 64 (35 * 8) = BitVec.ofNat 64 TrapFrame.size := by decide

theorem saved_saveFrame (u : Hart) :
    Saved u (u.reg .sp - BitVec.ofNat 64 TrapFrame.size) (execAll u saveFrame) := by
  set b := u.reg .sp - BitVec.ofNat 64 TrapFrame.size with hb
  have haddi : (Op.addi .sp .sp (-35 * 8)).exec u = u.setReg .sp b := by
    have hsub : u.reg .sp + BitVec.ofInt 64 (-35 * 8) = b := by
      rw [hb, size_eq, BitVec.sub_eq_add_neg]
      rfl
    rw [← hsub]
    rfl
  have hsave := saving_all (u.setReg .sp b)
  have hsp : (u.setReg .sp b).reg .sp = b := Hart.reg_setReg_self (by decide)
  rw [saveFrame, execAll_cons, haddi, execAll_append]
  generalize execAll (u.setReg .sp b) (saveRegs ++ saveCsr .sepc 0 ++ saveCsr .scause 32 ++
    saveCsr .sscratch 33 ++ saveCsr .sstatus 34) = u' at hsave ⊢
  have hsp' : u'.reg .sp = b := (hsave.reg _ (by decide)).trans hsp
  have hmem : u'.mem = u.mem.storeSlots b (slotValue (u.setReg .sp b)) saveOrder := by
    rw [hsave.mem, hsp]
    rfl
  have hlt : ∀ i ∈ saveOrder, i < 35 := fun i hi => mem_saveOrder.mp hi
  constructor
  case sp => exact hsp'
  case a0 => exact hsp'
  case a1 => exact congrFun hsave.csr .scause
  case mode => exact hsave.mode
  case sstatus => exact congrFun hsave.csr .sstatus
  case sscratch => rfl
  case words =>
    intro i hi
    refine (congrArg (fun mem => Ram.words mem b i) hmem).trans ?_
    rw [Ram.words_storeSlots (fun k hk => by have := hlt k hk; omega) (by omega),
      if_pos (mem_saveOrder.mpr hi)]
  case mem =>
    intro a ha
    refine (congrFun hmem a).trans ?_
    rw [frameBytes, size_eq] at ha
    exact Ram.storeSlots_of_notMem hlt (by decide) ha

end Save

section Load

variable {v : Hart} {b : Word}

/-- Only `a0` is used to load a supervisor register. -/
structure CsrLoaded (v : Hart) (b : Word) (c : Csr) (i : ℕ) (v' : Hart) : Prop where
  reg : ∀ r ≠ .a0, v'.reg r = v.reg r
  csr : v'.csr = replaceAt v.csr c (v.mem.words b i)
  mode : v'.mode = v.mode
  mem : v'.mem = v.mem

theorem csrLoaded (hsp : v.reg .sp = b) (c : Csr) (i : ℕ) :
    CsrLoaded v b c i (execAll v (loadCsr c i)) := by
  have heq : execAll v (loadCsr c i) =
      (v.setReg .a0 (v.mem.words b i)).setCsr c (v.mem.words b i) := by
    rw [Ram.words, ← add_ofInt_eq_slot, ← hsp]
    rfl
  rw [heq]
  exact ⟨fun r hr => Hart.reg_setReg_of_ne hr, rfl, rfl, rfl⟩

/-- The stack pointer is loaded on the way; the frame holds its own address there. -/
theorem execAll_loadRegs (rs : List (Fin 31)) (hsp : v.reg .sp = b) (hb : v.mem.words b 2 = b) :
    let v' := execAll v (rs.map fun i => .ld i.succ (i.succ.val * 8 : ℕ) .sp)
    (∀ r, v'.reg r = if r ∈ rs.map Fin.succ then v.mem.words b r.val else v.reg r) ∧
      v'.csr = v.csr ∧ v'.mode = v.mode ∧ v'.mem = v.mem := by
  induction rs generalizing v with
  | nil => exact ⟨fun r => rfl, rfl, rfl, rfl⟩
  | cons i rs ih =>
    have hload : Op.exec v (.ld i.succ (i.succ.val * 8 : ℕ) .sp) =
        v.setReg i.succ (v.mem.words b i.succ.val) := by
      rw [Ram.words, ← add_ofInt_eq_slot, ← hsp]
      rfl
    have hsp' : (v.setReg i.succ (v.mem.words b i.succ.val)).reg .sp = b := by
      by_cases hi : i.succ = Reg.sp
      · rw [hi, Hart.reg_setReg_self (show Reg.sp ≠ Reg.zero by decide)]
        exact hb
      · rw [Hart.reg_setReg_of_ne (Ne.symm hi), hsp]
    obtain ⟨hreg, hrest⟩ := ih hsp' hb
    rw [List.map_cons, execAll_cons, hload]
    refine ⟨fun r => ?_, hrest⟩
    rw [hreg r, List.map_cons]
    by_cases hr : r ∈ rs.map Fin.succ
    · rw [if_pos hr, if_pos (List.mem_cons_of_mem _ hr)]
      rfl
    · rw [if_neg hr]
      by_cases hri : r = i.succ
      · subst hri
        rw [if_pos (List.mem_cons_self ..), Hart.reg_setReg_self (Fin.succ_ne_zero i)]
      · rw [if_neg (by rw [List.mem_cons, not_or]; exact ⟨hri, hr⟩),
          Hart.reg_setReg_of_ne hri]

theorem mem_map_succ {r : Reg} (hr : r ≠ .zero) : r ∈ (List.finRange 31).map Fin.succ := by
  obtain ⟨i, rfl⟩ := Fin.exists_succ_eq.mpr hr
  exact List.mem_map_of_mem (List.mem_finRange i)

/-- All registers have been loaded from a frame at `b` with the given doublewords. -/
structure Loaded (f : ℕ → Word) (b : Word) (w : Hart) : Prop where
  reg : ∀ r ≠ .zero, r ≠ .sp → w.reg r = f r.val
  sp : w.reg .sp = b + BitVec.ofNat 64 TrapFrame.size
  sepc : w.csr .sepc = f 0
  scause : w.csr .scause = f 32
  sscratch : w.csr .sscratch = f 33

theorem Loaded.congr {f g : ℕ → Word} {w : Hart} (h : Loaded f b w)
    (hfg : ∀ i < 35, f i = g i) : Loaded g b w where
  reg := fun r hr hsp => (h.reg r hr hsp).trans (hfg r.val (by omega))
  sp := h.sp
  sepc := h.sepc.trans (hfg 0 (by decide))
  scause := h.scause.trans (hfg 32 (by decide))
  sscratch := h.sscratch.trans (hfg 33 (by decide))

theorem loaded_loadRest (hsp : v.reg .sp = b) (hb : v.mem.words b 2 = b) :
    Loaded (v.mem.words b) b (execAll v loadRest) ∧
      (execAll v loadRest).csr .sstatus = v.csr .sstatus ∧
      (execAll v loadRest).mode = v.mode ∧ (execAll v loadRest).mem = v.mem := by
  have hne : Reg.sp ≠ .a0 := by decide
  have h₁ := csrLoaded hsp .sscratch 33
  unfold loadRest
  rw [execAll_append, execAll_append, execAll_append, execAll_append]
  generalize execAll v (loadCsr .sscratch 33) = v₁ at h₁ ⊢
  have h₂ := csrLoaded ((h₁.reg _ hne).trans hsp) .scause 32
  generalize execAll v₁ (loadCsr .scause 32) = v₂ at h₂ ⊢
  have hsp₂ := (h₂.reg _ hne).trans ((h₁.reg _ hne).trans hsp)
  have h₃ := csrLoaded hsp₂ .sepc 0
  generalize execAll v₂ (loadCsr .sepc 0) = v₃ at h₃ ⊢
  have hmem : v₃.mem = v.mem := h₃.mem.trans (h₂.mem.trans h₁.mem)
  have hcsr : v₃.csr = replaceAt (replaceAt (replaceAt v.csr .sscratch (v.mem.words b 33)) .scause
      (v.mem.words b 32)) .sepc (v.mem.words b 0) := by
    rw [h₃.csr, h₂.csr, h₁.csr, h₂.mem, h₁.mem]
  have hregs := execAll_loadRegs (List.finRange 31) ((h₃.reg _ hne).trans hsp₂)
    (by rw [hmem]; exact hb)
  have hloadRegs : (List.finRange 31).map (fun i => Op.ld i.succ (i.succ.val * 8 : ℕ) .sp) =
      loadRegs := rfl
  rw [hloadRegs] at hregs
  generalize execAll v₃ loadRegs = w at hregs ⊢
  obtain ⟨hreg, hcsr', hmode', hmem'⟩ := hregs
  have hwords : ∀ r ≠ Reg.zero, w.reg r = v.mem.words b r.val := by
    intro r hr
    rw [hreg r, if_pos (mem_map_succ hr), hmem]
  have hexec : execAll w [.addi .sp .sp (35 * 8)] =
      w.setReg .sp (b + BitVec.ofNat 64 TrapFrame.size) := by
    have hspw : w.reg .sp = b := (hwords .sp (by decide)).trans hb
    rw [← ofInt_size, ← hspw]
    rfl
  have hw : w.csr = replaceAt (replaceAt (replaceAt v.csr .sscratch (v.mem.words b 33)) .scause
      (v.mem.words b 32)) .sepc (v.mem.words b 0) := hcsr'.trans hcsr
  rw [hexec]
  constructor
  · constructor
    case reg =>
      intro r hr hrsp
      rw [Hart.reg_setReg_of_ne hrsp, hwords r hr]
    case sp => exact Hart.reg_setReg_self (by decide)
    case sepc => rw [Hart.csr_setReg, hw, replaceAt_self]
    case scause => rw [Hart.csr_setReg, hw, replaceAt_of_ne (by decide), replaceAt_self]
    case sscratch =>
      rw [Hart.csr_setReg, hw, replaceAt_of_ne (by decide), replaceAt_of_ne (by decide),
        replaceAt_self]
  · refine ⟨?_, ?_, ?_⟩
    · rw [Hart.csr_setReg, hw, replaceAt_of_ne (by decide), replaceAt_of_ne (by decide),
        replaceAt_of_ne (by decide)]
    · rw [Hart.mode_setReg, hmode', h₃.mode, h₂.mode, h₁.mode]
    · rw [Hart.mem_setReg, hmem', hmem]

end Load

end TrapAsm

end Zinix
