import Zinix.Lib.Trace
import Zinix.Trap.TrapAsm

/-!
# Switching between tasks

`switch_context` saves the registers that a call preserves, with `sscratch` and `sstatus`,
in the `TaskContext` of the task that leaves, and loads them from that of the one that comes.
-/

namespace Zinix

open Riscv Trace

namespace SwitchContext

/-- The registers `ra`, `sp` and `s0` to `s11`, in the order of the fields of `TaskContext`. -/
def savedRegs : List Reg := [.ra, .sp, 8, 9, 18, 19, 20, 21, 22, 23, 24, 25, 26, 27]

def savedReg (i : ℕ) : Reg := savedRegs.getD i .zero

def a3 : Reg := 13

/-- The fields of `TaskContext` as they are in the registers. -/
def context (m : Hart) : ℕ → Word
  | 14 => m.csr .sscratch
  | 15 => m.csr .sstatus
  | i => m.reg (savedReg i)

/-- `sd ra, 0*8(a0)` to `sd s11, 13*8(a0)`. -/
def saveRegs : List Op := (List.range 14).map fun i => .sd (savedReg i) (i * 8 : ℕ) .a0

/-- `ld ra, 0*8(a1)` to `ld s11, 13*8(a1)`. -/
def loadRegs : List Op := (List.range 14).map fun i => .ld (savedReg i) (i * 8 : ℕ) .a1

def saveCsr (c : Csr) (i : ℕ) : List Op := [.csrr a3 c, .sd a3 (i * 8 : ℕ) .a0]

def loadCsr (c : Csr) (i : ℕ) : List Op := [.ld a3 (i * 8 : ℕ) .a1, .csrw c a3]

def save : List Op := saveRegs ++ saveCsr .sscratch 14 ++ saveCsr .sstatus 15

def load : List Op := loadRegs ++ loadCsr .sscratch 14 ++ loadCsr .sstatus 15

/-- `switch_context.s`, with its `ret`. -/
def switchContext (m : Hart) : Hart :=
  let m' := execAll m (save ++ load)
  { m' with pc := m'.reg .ra }

def size : ℕ := 8 * 16

section Save

variable {m m' : Hart} {is : List ℕ}

/-- Some fields have been saved; only `a3` has been used for it. -/
structure Saving (m : Hart) (is : List ℕ) (m' : Hart) : Prop where
  reg : ∀ r ≠ a3, m'.reg r = m.reg r
  csr : m'.csr = m.csr
  mem : m'.mem = m.mem.storeSlots (m.reg .a0) (context m) is

theorem context_of_lt (m : Hart) {i : ℕ} (hi : i < 14) : context m i = m.reg (savedReg i) := by
  unfold context
  split
  · omega
  · omega
  · rfl

theorem context_sscratch (m : Hart) : context m 14 = m.csr .sscratch := rfl

theorem context_sstatus (m : Hart) : context m 15 = m.csr .sstatus := rfl

theorem savedReg_ne {i : ℕ} (hi : i < 14) :
    savedReg i ≠ .zero ∧ savedReg i ≠ .a1 ∧ savedReg i ≠ a3 := by
  have hall : ∀ i < 14, savedReg i ≠ .zero ∧ savedReg i ≠ .a1 ∧ savedReg i ≠ a3 := by decide
  exact hall i hi

theorem savedReg_inj {i j : ℕ} (hi : i < 14) (hj : j < 14) (h : savedReg i = savedReg j) :
    i = j := by
  have hall : ∀ i < 14, ∀ j < 14, savedReg i = savedReg j → i = j := by decide
  exact hall i hi j hj h

theorem execAll_sd (m : Hart) (his : ∀ i ∈ is, i < 14) :
    execAll m (is.map fun i => .sd (savedReg i) (i * 8 : ℕ) .a0) =
      { m with mem := m.mem.storeSlots (m.reg .a0) (context m) is } := by
  induction is generalizing m with
  | nil => rfl
  | cons i is ih =>
    have hmem : (Op.exec m (.sd (savedReg i) (i * 8 : ℕ) .a0)).mem =
        m.mem.store (Ram.slot (m.reg .a0) i) (context m i) := by
      rw [context_of_lt m (his i (List.mem_cons_self ..)), ← TrapAsm.add_ofInt_eq_slot]
      rfl
    rw [List.map_cons, execAll_cons, ih _ fun j hj => his j (List.mem_cons_of_mem _ hj), hmem]
    rfl

theorem Saving.append_csr (h : Saving m is m') {c : Csr} {i : ℕ} (hi : context m i = m.csr c) :
    Saving m (is ++ [i]) (execAll m' (saveCsr c i)) := by
  have ha0 : (m'.setReg a3 (m'.csr c)).reg .a0 = m.reg .a0 := by
    rw [Hart.reg_setReg_of_ne (by decide), h.reg _ (by decide)]
  constructor
  case reg => exact fun r hr => (Hart.reg_setReg_of_ne hr).trans (h.reg r hr)
  case csr => exact h.csr
  case mem =>
    have hstore : (execAll m' (saveCsr c i)).mem = m'.mem.store
        ((m'.setReg a3 (m'.csr c)).reg .a0 + BitVec.ofInt 64 ((i * 8 : ℕ) : ℤ))
        ((m'.setReg a3 (m'.csr c)).reg a3) := rfl
    rw [hstore, ha0, TrapAsm.add_ofInt_eq_slot, Hart.reg_setReg_self (by decide), h.csr, ← hi,
      h.mem, Ram.storeSlots_append]
    rfl

theorem saving_save (m : Hart) : Saving m (List.range 16) (execAll m save) := by
  have hregs : Saving m (List.range 14) (execAll m saveRegs) := by
    rw [saveRegs, execAll_sd m fun i hi => List.mem_range.mp hi]
    exact ⟨fun _ _ => rfl, rfl, rfl⟩
  rw [save, execAll_append, execAll_append]
  exact (hregs.append_csr rfl).append_csr rfl

end Save

section Load

variable {m : Hart} {b : Word} {is : List ℕ}

theorem execAll_ld (his : ∀ i ∈ is, i < 14) (hb : m.reg .a1 = b) :
    let m' := execAll m (is.map fun i => .ld (savedReg i) (i * 8 : ℕ) .a1)
    (∀ i ∈ is, m'.reg (savedReg i) = m.mem.words b i) ∧
      (∀ r ∉ is.map savedReg, m'.reg r = m.reg r) ∧ m'.mem = m.mem := by
  induction is generalizing m with
  | nil => exact ⟨fun i hi => absurd hi List.not_mem_nil, fun _ _ => rfl, rfl⟩
  | cons i is ih =>
    have hi := his i (List.mem_cons_self ..)
    have htail : ∀ j ∈ is, j < 14 := fun j hj => his j (List.mem_cons_of_mem _ hj)
    obtain ⟨hzero, ha1, -⟩ := savedReg_ne hi
    have hload : Op.exec m (.ld (savedReg i) (i * 8 : ℕ) .a1) =
        m.setReg (savedReg i) (m.mem.words b i) := by
      rw [Ram.words, ← TrapAsm.add_ofInt_eq_slot, ← hb]
      rfl
    obtain ⟨hloaded, hrest, hmem⟩ := ih (m := m.setReg (savedReg i) (m.mem.words b i)) htail
      ((Hart.reg_setReg_of_ne ha1.symm).trans hb)
    rw [List.map_cons, execAll_cons, hload]
    refine ⟨fun j hj => ?_, fun r hr => ?_, hmem⟩
    · by_cases hin : j ∈ is
      · exact hloaded j hin
      · obtain rfl : j = i := (List.mem_cons.mp hj).resolve_right hin
        have hnot : savedReg j ∉ is.map savedReg := by
          intro hmem
          obtain ⟨k, hk, heq⟩ := List.mem_map.mp hmem
          exact hin (savedReg_inj (htail k hk) hi heq ▸ hk)
        rw [hrest _ hnot, Hart.reg_setReg_self hzero]
    · obtain ⟨hne, hr⟩ := not_or.mp fun hor => hr (List.mem_cons.mpr hor)
      rw [hrest r hr, Hart.reg_setReg_of_ne hne]

theorem execAll_loadCsr (hb : m.reg .a1 = b) (c : Csr) (i : ℕ) :
    execAll m (loadCsr c i) = (m.setReg a3 (m.mem.words b i)).setCsr c (m.mem.words b i) := by
  rw [Ram.words, ← TrapAsm.add_ofInt_eq_slot, ← hb]
  rfl

theorem execAll_load (m : Hart) : (execAll m load).mem = m.mem ∧
    ∀ i < 16, context (execAll m load) i = m.mem.words (m.reg .a1) i := by
  obtain ⟨hregs, hrest, hmem⟩ := @execAll_ld m _ (List.range 14)
    (fun i hi => List.mem_range.mp hi) rfl
  have ha1 := hrest .a1 (by decide)
  rw [load, execAll_append, execAll_append]
  rw [← loadRegs] at hregs ha1 hmem
  generalize execAll m loadRegs = m₁ at hregs ha1 hmem ⊢
  rw [execAll_loadCsr ha1, execAll_loadCsr (b := m.reg .a1)]
  case hb => rw [Hart.reg_setCsr, Hart.reg_setReg_of_ne (by decide), ha1]
  rw [Hart.mem_setCsr, Hart.mem_setReg, Hart.mem_setCsr, Hart.mem_setReg, hmem]
  refine ⟨rfl, fun i hi => ?_⟩
  rcases Nat.lt_or_ge i 14 with hlt | hge
  · rw [context_of_lt _ hlt, Hart.reg_setCsr, Hart.reg_setReg_of_ne (savedReg_ne hlt).2.2,
      Hart.reg_setCsr, Hart.reg_setReg_of_ne (savedReg_ne hlt).2.2]
    exact hregs i (List.mem_range.mpr hlt)
  · obtain rfl | rfl : i = 14 ∨ i = 15 := by omega
    · rw [context_sscratch, Hart.csr_setCsr_of_ne (by decide), Hart.csr_setReg,
        Hart.csr_setCsr_self]
    · rw [context_sstatus, Hart.csr_setCsr_self]

end Load

theorem context_setPc (m : Hart) (p : Word) : context { m with pc := p } = context m := rfl

/-- The context at `a0` has the fields of before, and those at `a1` are in the registers. -/
theorem switchContext_spec (m : Hart) :
    (switchContext m).mem = m.mem.storeSlots (m.reg .a0) (context m) (List.range 16) ∧
      (∀ i < 16, context (switchContext m) i = (switchContext m).mem.words (m.reg .a1) i) ∧
      (switchContext m).pc = context (switchContext m) 0 ∧ (switchContext m).mode = m.mode := by
  have hsave := saving_save m
  obtain ⟨hload, hcontext⟩ := execAll_load (execAll m save)
  have hmode := mode_execAll m (save ++ load)
  unfold switchContext
  rw [execAll_append] at hmode ⊢
  generalize execAll m save = m₁ at hsave hload hcontext hmode ⊢
  generalize execAll m₁ load = m₂ at hload hcontext hmode ⊢
  refine ⟨hload.trans hsave.mem, fun i hi => ?_, ?_, hmode⟩
  · rw [context_setPc, hcontext i hi, hsave.reg .a1 (by decide), ← hload]
  · rw [context_setPc, context_of_lt _ (by decide)]
    rfl

section Tasks

variable {ι : Type}

structure Layout (ι : Type) where
  addr : ι → Word
  apart : ∀ i j, i ≠ j → Disjoint (Ram.bytes (addr i) size) (Ram.bytes (addr j) size)

structure Tasks (ι : Type) where
  hart : Hart
  running : ι

inductive Act (ι : Type) where
  | work
  | create (j : ι)
  | switch (j : ι)

/-- The running task does anything but write to a context, writes the context of a new task,
or calls `switch_context` with interrupts off, as the scheduler does. -/
inductive Step (L : Layout ι) : Tasks ι → Act ι → Tasks ι → Prop where
  | work {m m' : Hart} {i : ι}
      (hmem : ∀ k, ∀ a ∈ Ram.bytes (L.addr k) size, m'.mem a = m.mem a) :
      Step L ⟨m, i⟩ .work ⟨m', i⟩
  | create {m m' : Hart} {i : ι} (j : ι) (hne : j ≠ i)
      (hmem : ∀ k ≠ j, ∀ a ∈ Ram.bytes (L.addr k) size, m'.mem a = m.mem a) :
      Step L ⟨m, i⟩ (.create j) ⟨m', i⟩
  | switch {m : Hart} {i : ι} (j : ι) (hoff : ¬m.Interruptible)
      (ha0 : m.reg .a0 = L.addr i) (ha1 : m.reg .a1 = L.addr j) :
      Step L ⟨m, i⟩ (.switch j) ⟨switchContext m, j⟩

/-- The act may change the registers of the task: it runs, or it is made. -/
def Touches (i : ι) (s : Tasks ι) : Act ι → Prop
  | .work => s.running = i
  | .create j => s.running = i ∨ j = i
  | .switch _ => False

/-- The registers of a task, in the hart or in its context. -/
def own [DecidableEq ι] (L : Layout ι) (s : Tasks ι) (i : ι) (k : Fin 16) : Word :=
  if i = s.running then context s.hart k else s.hart.mem.words (L.addr i) k

variable {L : Layout ι} {s t : Tasks ι} {a : Act ι} {i : ι}

/-- A task that is not touched comes to run only by a switch to it, which returns to the
address in its `ra`. -/
theorem pc_final {r : List (Act ι × Tasks ι)} (hrun : IsRun (Step L) s r) (hne : r ≠ [])
    (htouch : ∀ x ∈ steps s r, ¬Touches (final s r).running x.1 x.2) :
    (final s r).hart.pc = context (final s r).hart 0 := by
  induction r generalizing s with
  | nil => exact absurd rfl hne
  | cons x r ih =>
    by_cases hr : r = []
    · subst hr
      obtain ⟨a, t⟩ := x
      have hlast := htouch _ (List.mem_cons_self ..)
      obtain ⟨hstep, -⟩ := hrun
      cases hstep with
      | work hmem => exact absurd rfl hlast
      | create j _ hmem => exact absurd (.inl rfl) hlast
      | @switch m _ j _ ha0 ha1 => exact (switchContext_spec m).2.2.1
    · exact ih hrun.2 hr fun y hy => htouch y (List.mem_cons_of_mem _ hy)

variable [DecidableEq ι]

theorem own_running (L : Layout ι) (s : Tasks ι) (k : Fin 16) :
    own L s s.running k = context s.hart k := if_pos rfl

theorem own_congr {m m' : Hart} {j : ι} (hi : i ≠ j)
    (hmem : ∀ a ∈ Ram.bytes (L.addr i) size, m'.mem a = m.mem a) :
    own L ⟨m', j⟩ i = own L ⟨m, j⟩ i := by
  funext k
  rw [own, own, if_neg hi, if_neg hi]
  exact Ram.words_congr k.isLt (by decide) hmem

theorem own_switchContext {m : Hart} {i j : ι} (ha0 : m.reg .a0 = L.addr i)
    (ha1 : m.reg .a1 = L.addr j) (l : ι) :
    own L ⟨switchContext m, j⟩ l = own L ⟨m, i⟩ l := by
  obtain ⟨hmem, hcontext, -, -⟩ := switchContext_spec m
  funext k
  -- in the end the fields are in memory also for the task that runs
  have hwords : own L ⟨switchContext m, j⟩ l k = (switchContext m).mem.words (L.addr l) k := by
    by_cases hl : l = j
    · subst hl
      rw [own_running L ⟨switchContext m, l⟩, hcontext k k.isLt, ha1]
    · exact if_neg hl
  rw [hwords, hmem, ha0]
  by_cases hl : l = i
  · subst hl
    have hlt : ∀ k ∈ List.range 16, 8 * k + 8 ≤ 2 ^ 64 := by decide
    rw [own_running L ⟨m, l⟩, Ram.words_storeSlots hlt (hlt k (List.mem_range.mpr k.isLt)),
      if_pos (List.mem_range.mpr k.isLt)]
  · rw [own, if_neg hl]
    apply Ram.words_congr k.isLt (by decide)
    intro b hb
    apply Ram.storeSlots_of_notMem (fun k hk => List.mem_range.mp hk) (by decide)
    exact Set.disjoint_left.mp (L.apart l i hl) hb

theorem Step.own_eq (h : Step L s a t) (htouch : ¬Touches i s a) : own L t i = own L s i := by
  cases h with
  | work hmem => exact own_congr (Ne.symm htouch) (hmem i)
  | create j hne hmem =>
    obtain ⟨hrun, hj⟩ := not_or.mp htouch
    exact own_congr (Ne.symm hrun) (hmem i (Ne.symm hj))
  | switch j hoff ha0 ha1 => exact own_switchContext ha0 ha1 i

theorem own_final {r : List (Act ι × Tasks ι)} (hrun : IsRun (Step L) s r)
    (htouch : ∀ x ∈ steps s r, ¬Touches i x.1 x.2) : own L (final s r) i = own L s i := by
  induction r generalizing s with
  | nil => rfl
  | cons x r ih =>
    have hfirst : own L x.2 i = own L s i := hrun.1.own_eq (htouch _ (List.mem_cons_self ..))
    exact (ih hrun.2 fun y hy => htouch y (List.mem_cons_of_mem _ hy)).trans hfirst

/-- To the task that calls it `switch_context` is a call that returns with the registers
it must preserve, whatever other tasks have run and have been made meanwhile. -/
theorem switchContext_returns {ι : Type} [DecidableEq ι] (L : Layout ι) (s : Tasks ι)
    (r : List (Act ι × Tasks ι)) (hrun : IsRun (Step L) s r) (hne : r ≠ [])
    (hback : (final s r).running = s.running)
    (htouch : ∀ x ∈ steps s r, ¬Touches s.running x.1 x.2) :
    (∀ k < 14, (final s r).hart.reg (savedReg k) = s.hart.reg (savedReg k)) ∧
      (final s r).hart.csr .sscratch = s.hart.csr .sscratch ∧
      (final s r).hart.csr .sstatus = s.hart.csr .sstatus ∧
      (final s r).hart.pc = s.hart.reg .ra := by
  have hcontext : ∀ k < 16, context (final s r).hart k = context s.hart k := by
    intro k hk
    have hown := congrFun (own_final hrun htouch) ⟨k, hk⟩
    rw [own_running, ← hback, own_running] at hown
    exact hown
  refine ⟨fun k hk => ?_, hcontext 14 (by decide), hcontext 15 (by decide), ?_⟩
  · rw [← context_of_lt _ hk, ← context_of_lt _ hk]
    exact hcontext k (by omega)
  · rw [pc_final hrun hne (hback ▸ htouch), hcontext 0 (by decide)]
    exact context_of_lt _ (by decide)

/-- A task that calls the function to switch from the context at one address to that at
another, with a value in its other registers. -/
def caller (a0 a1 v : Word) : Hart where
  x := fun r => if r = .a0 then a0 else if r = .a1 then a1 else v
  csr := fun _ => 0
  mode := .supervisor
  pc := 0x80200000
  mem := fun _ => 0

def twoContexts : Layout Bool where
  addr := fun i => if i then 0x2000 else 0x1000
  apart := by
    have hdisj : Disjoint (Ram.bytes 0x1000 size) (Ram.bytes 0x2000 size) := by
      rw [Set.disjoint_left]
      intro a h h'
      have h₁ : (a - 0x1000).toNat < 128 := h
      have h₂ : (a - 0x2000).toNat < 128 := h'
      bv_omega
    intro i j hij
    cases i <;> cases j
    · exact absurd rfl hij
    · exact hdisj
    · exact hdisj.symm
    · exact absurd rfl hij

/-- A task switches to another, which uses all registers for itself and switches back. -/
theorem switchContext_returns_caller : ∃ r,
    IsRun (Step twoContexts) ⟨caller 0x1000 0x2000 7, false⟩ r ∧
      r.map Prod.fst = [.switch true, .work, .switch false] ∧
      (∀ k < 14, (final ⟨caller 0x1000 0x2000 7, false⟩ r).hart.reg (savedReg k) = 7) ∧
      (final ⟨caller 0x1000 0x2000 7, false⟩ r).hart.pc = 7 := by
  let m := caller 0x1000 0x2000 7
  let m' := { caller 0x2000 0x1000 9 with mem := (switchContext m).mem }
  have hoff : ∀ a b v mem, ¬Hart.Interruptible { caller a b v with mem := mem } := by
    simp [Hart.Interruptible, Hart.sie, caller]
  have hrun : IsRun (Step twoContexts) ⟨m, false⟩ [(.switch true, ⟨switchContext m, true⟩),
      (.work, ⟨m', true⟩), (.switch false, ⟨switchContext m', false⟩)] :=
    ⟨.switch true (hoff _ _ _ _) rfl rfl, .work fun _ _ _ => rfl,
      .switch false (hoff _ _ _ _) rfl rfl, trivial⟩
  obtain ⟨hregs, -, -, hpc⟩ := switchContext_returns twoContexts ⟨m, false⟩ _ hrun (by simp) rfl
    (by simp [steps, Touches])
  have hseven : ∀ k < 14, m.reg (savedReg k) = 7 := by decide
  exact ⟨_, hrun, rfl, fun k hk => (hregs k hk).trans (hseven k hk), hpc⟩

end Tasks

end SwitchContext

end Zinix
