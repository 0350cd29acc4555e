import Zinix.Task.Clone
import Zinix.Trap.SwitchContext
import Zinix.Trap.TrapNesting

/-!
# The two returns of `sys_clone`

The child has never been in the kernel: `__vfork_step_one` puts a frame on its kernel stack
and gives it a context with the address of `user_trap_ret`. Both tasks come back to the user
program with the registers of the call, but for the result in `a0`.
-/

namespace Zinix

open Riscv TrapAsm Program

def HoldsFrame (mem : Ram) (b : Word) (tf : TrapValues) : Prop :=
  ∀ f ∈ TrapFrame.fields, TrapFrame.read mem b f = tf f

/-- What `TrapFrame::ret` and `exc_handler` do to the frame of a system call. -/
def syscallReturn (tf : TrapValues) (ret : Word) : TrapValues :=
  replaceAt (replaceAt tf (.x .a0) ret) .sepc (tf .sepc + 4)

/-- User code goes on after the system call, with the kernel stack that ends at `top`. -/
structure Returned (u : Hart) (ret top : Word) (w : Hart) : Prop where
  mode : w.mode = .user
  pc : w.pc = u.pc + 4
  a0 : w.reg .a0 = ret
  reg : ∀ r ≠ .a0, w.reg r = u.reg r
  sscratch : w.csr .sscratch = top

/-- The return path comes to an end, and all its ends are as described, with interrupts
that are handled on the way. -/
def ReturnsTo (place : List (Line TrapLabel TrapFn) → Word) (n : ℕ) (saved : List Word) (v : Hart)
    (P : Hart → Prop) : Prop :=
  let S := trapSetting place saved (NestedTrap place n saved)
  (∃ w, S.Run (fromLabel .userTrapRet trapAsm) v w) ∧
    ∀ w, S.Run (fromLabel .userTrapRet trapAsm) v w → P w

section Return

variable {place : List (Line TrapLabel TrapFn) → Word} {n : ℕ} {saved : List Word}
  {b cause ret : Word} {tf : TrapValues} {u v w : Hart}

theorem harmless_nestedTrap : Harmless saved (NestedTrap place n saved) := by
  intro u u' hu htrap
  obtain ⟨hroom, cause, htrap⟩ := htrap
  have hres := htrap.restored (.inr ⟨hu.mode, hu.sscratch⟩) hroom
  exact ⟨hres.toKept, hres.reg⟩

/-- The return path takes everything from the frame and leaves an empty kernel stack. -/
theorem run_userTrapRet (hb : b ∈ saved) (hv : InKernel v) (hsp : v.reg .sp = b)
    (htf : HoldsFrame v.mem b tf) (hself : tf (.x .sp) = b)
    (hstatus : tf .sstatus = (u.takeTrap cause).csr .sstatus)
    (h : (trapSetting place saved (NestedTrap place n saved)).Run
      (fromLabel .userTrapRet trapAsm) v w) :
    w.mode = u.mode ∧ w.pc = tf .sepc ∧ (∀ r ≠ .zero, r ≠ .sp → w.reg r = tf (.x r)) ∧
      w.reg .sp = tf .sscratch ∧ w.csr .sscratch = b + BitVec.ofNat 64 TrapFrame.size := by
  have hn := @harmless_nestedTrap place n saved
  obtain ⟨v₀, hticks, hrun⟩ := h.fires
  obtain ⟨hkept, hreg⟩ := ticks_kept hn hticks hv
  have hwords : ∀ f ∈ TrapFrame.fields, v₀.mem.words b (TrapFrame.fields.idxOf f) = tf f :=
    fun f hf => (hkept.words hb (List.idxOf_lt_length_iff.mpr hf)).trans (htf f hf)
  have hsstatus : v₀.mem.words b 34 = (u.takeTrap cause).csr .sstatus :=
    (hwords .sstatus (by decide)).trans hstatus
  obtain ⟨w₀, hloaded, hstatus₀, hmode, -, hrun⟩ := @run_loadFrame place saved _
    [.op swap, .sret] b w v₀ hn hb (hkept.inKernel hv) (by rw [hreg, hsp])
    ((hwords (.x .sp) (by decide)).trans hself) (by rw [hsstatus]; exact Hart.sie_takeTrap) hrun
  have hquiet := not_interruptible_of hmode (hstatus₀.trans hsstatus)
  rw [Setting.run_iff_fires hquiet, Setting.Fires,
    Setting.run_iff_fires (not_interruptible_swap hquiet)] at hrun
  obtain rfl : w = (swap.exec w₀).sret := hrun
  refine ⟨?_, ?_, fun r hr hne => ?_, ?_, ?_⟩
  · apply Hart.mode_sret
    rw [csr_swap_of_ne (by decide), hstatus₀, hsstatus]
  · rw [Hart.pc_sret, csr_swap_of_ne (by decide), hloaded.sepc]
    exact hwords .sepc (by decide)
  · have hall : ∀ r : Reg, r ≠ .zero → .x r ∈ TrapFrame.fields := by decide
    rw [Hart.reg_sret, reg_swap_of_ne hne, hloaded.reg r hr hne, ← idxOf_x hr]
    exact hwords _ (hall r hr)
  · rw [Hart.reg_sret, reg_sp_swap, hloaded.sscratch]
    exact hwords .sscratch (by decide)
  · rw [Hart.csr_sret_of_ne (by decide), sscratch_swap, hloaded.sp]

/-- A frame of a system call of the user, with the result and the address at which it is. -/
theorem returnsTo_of_frame (hu : u.mode = .user) (hb : b ∈ saved) (hv : InKernel v)
    (hsp : v.reg .sp = b)
    (htf : HoldsFrame v.mem b (replaceAt (syscallReturn (trapFrameOf cause u) ret) (.x .sp) b)) :
    ReturnsTo place n saved v (Returned u ret (b + BitVec.ofNat 64 TrapFrame.size)) := by
  refine ⟨⟨_, .label (.of_ops (.op .sret))⟩, fun w hrun => ?_⟩
  obtain ⟨hmode, hpc, hreg, hspw, hscratch⟩ :=
    @run_userTrapRet place n saved b cause _ u v w hb hv hsp htf replaceAt_self rfl hrun
  constructor
  case mode => rw [hmode, hu]
  case pc => exact hpc
  case a0 => exact hreg .a0 (by decide) (by decide)
  case reg =>
    intro r hr
    by_cases hzero : r = .zero
    · subst hzero
      rfl
    by_cases hne : r = .sp
    · subst hne
      rw [hspw]
      exact if_pos hu
    · rw [hreg r hzero hne]
      have hx : TrapField.x r ≠ .x .sp := by simpa using hne
      have ha : TrapField.x r ≠ .x .a0 := by simpa using hr
      rw [replaceAt_of_ne hx, syscallReturn, replaceAt_of_ne (by simp), replaceAt_of_ne ha]
      exact if_neg hne
  case sscratch => exact hscratch

end Return

/-- The fields of a context in the order of `switch_context`. -/
def TaskContext.word (c : TaskContext) : ℕ → Word
  | 0 => BitVec.ofNat 64 c.ra
  | 1 => BitVec.ofNat 64 c.sp
  | 14 => BitVec.ofNat 64 c.sscratch
  | 15 => BitVec.ofNat 64 c.sstatus
  | i => BitVec.ofNat 64 (c.s (Fin.ofNat 12 (i - 2)))

/-- The kernel sees the page at its place in the linear map. -/
def ShowsPage (mem : Ram) (p : Phys) (f : Frame) : Prop :=
  ∀ i : Fin 512, mem.words (BitVec.ofNat 64 (phyMemOffset + f.paddr)) i = p.mem f i

namespace CloneState

variable {image : KernelImage}
  {self running : UserTask} {m : CloneState} {flags : CloneFlags} {ctid : ℕ}
  {tf : TrapValues}

/-- The frame is on the kernel stack of the new task, in a page that its parent does not
own, and the context leads to it. -/
structure FrameAt (image : KernelImage) (parent : UserTask) (tf : TrapValues)
    (c : TaskContext) (stack : Frame) (p : Phys) : Prop where
  context : c = { parent.context with
    ra := image.userTrapRet
    sp := phyMemOffset + (stackBack stack).paddr + pageSize - TrapFrame.size }
  page : ∃ pg, p.mem (stackBack stack) =
    writeFrame pg (replaceAt tf (.x .sp) (BitVec.ofNat 64 c.sp))
  apart : ¬Owned p parent.mm.pagetable parent.mm.areas (stackBack stack)

def FramePut (image : KernelImage) (parent : UserTask) (tf : TrapValues) (new : UserTask)
    (m : CloneState) : Prop :=
  FrameAt image parent tf new.context new.kernelStack m.phys

-- The unifier looks into the sums with a page size.
set_option maxRecDepth 10000

theorem vforkStepOne_framePut (h : self.mm.UserSpace m.phys) (tf : TrapValues) :
    Sat (vforkStepOne image self tf) m (FramePut image self tf) fun _ => True := by
  unfold vforkStepOne
  refine (generateTid_sat m).bind ?_
  rintro _ m₁ ⟨rfl, hphys, -, -⟩
  refine (sat_onPhys (stackNew_sat image m₁.phys)).bind ?_
  rintro f m₂ ⟨hput, -⟩
  rw [hphys] at hput
  have hspace := hput.userSpace h
  refine (sat_onPhys (hspace.newMmByOld.weaken fun _ _ => trivial)).bind ?_
  rintro mm m₃ ⟨hforked, -⟩
  refine Sat.lift_bind (fun stackTop hend => ?_) fun _ _ => trivial
  refine Sat.lift_bind (fun top htop => ?_) fun _ _ => trivial
  have happart : ¬Owned m₃.phys self.mm.pagetable self.mm.areas (stackBack f) := by
    rintro (htable | ⟨k, v, hheld⟩)
    · rw [hforked.tables_eq hspace, hput.tables] at htable
      exact hput.back.2 (h.sound.ok.table.live _ htable)
    · exact hput.back.2 (h.sound.ok.live k v _ hheld).1
  obtain ⟨-, rfl⟩ := addUsize_eq_ok.mp hend
  obtain ⟨-, rfl⟩ := subUsize_eq_ok.mp htop
  refine Sat.bind (R := fun _ (m₄ : CloneState) => m₄.phys = m₃.phys.setPage (stackBack f)
    (writeFrame (m₃.phys.mem (stackBack f)) (replaceAt tf (.x .sp) (BitVec.ofNat 64
      (phyMemOffset + (stackBack f).paddr + pageSize - TrapFrame.size))))) rfl ?_
  rintro _ m₄ hm₄
  refine sat_pure (show FrameAt .. from ⟨rfl, ⟨m₃.phys.mem (stackBack f), ?_⟩, ?_⟩)
  · rw [hm₄]
    exact replaceAt_self
  · rw [hm₄]
    exact happart

theorem doFork_framePut (h : self.mm.UserSpace m.phys) (tf : TrapValues) :
    Sat (doFork image self tf) m (FramePut image self tf) fun _ => True := by
  unfold doFork
  refine (vforkStepOne_framePut h tf).bind ?_
  intro new m' hput
  exact sat_pure hput

/-- The frame stays where it is when an identifier is stored in the memory of the parent. -/
theorem setTid_framePut {child : UserTask} {m₁ : CloneState} (hfork : Forks running m child m₁)
    (hput : FramePut image running tf child m₁) (hk : m.kernelMm.KmapOnly)
    (hlow : flags.SetsTid ctid → ctid < userSpaceEnd) :
    Sat (setTid image running child flags ctid) m₁ (FramePut image running tf) fun _ => True := by
  unfold setTid
  refine Sat.ite (fun hset => ?_) fun _ => sat_pure hput
  have hv := hlow (by simpa [CloneFlags.SetsTid] using hset)
  have hstore : Sat (writeI32 image running.mm ctid child.tid) m₁
      (fun _ => FramePut image running tf child) fun _ => True := by
    obtain ⟨-, hcloned, hkernel, -⟩ := hfork
    unfold writeI32
    refine Sat.ensure_bind (fun _ => ?_) fun _ => trivial
    refine (kernelStore_user 1 (by rwa [hkernel]) hv).imp ?_
    rintro _ _ ⟨f, hf, rfl⟩
    obtain ⟨hvalid, hframe⟩ := hcloned.parent_sound.of_kernelFrame hv hf
    obtain ⟨k, hheld⟩ := hcloned.parent_sound.holds_of_valid (isUserPage_down hv) hvalid
    rw [hframe] at hheld
    have hne : stackBack child.kernelStack ≠ f := by
      rintro rfl
      exact hput.apart (.inr ⟨k, _, hheld⟩)
    obtain ⟨pg, hpg⟩ := hput.page
    exact ⟨hput.context, ⟨pg, (replaceAt_of_ne hne).trans hpg⟩, hput.apart⟩
  refine hstore.bind ?_
  intro _ m₂ hput₂
  exact sat_pure hput₂

theorem sysClone_framePut (h : running.mm.UserSpace m.phys) (hk : m.kernelMm.KmapOnly)
    (hlow : flags.SetsTid ctid → ctid < userSpaceEnd) (stackPtr ptid newtls : ℕ) (tf : TrapValues) :
    Sat (sysClone image running flags stackPtr ptid ctid newtls tf) m
      (fun ret m' => ∃ child, m'.runningList = m.runningList ++ [child] ∧
        ret = (BitVec.ofNat 64 child.tid).toInt ∧
        FrameAt image running (syscallReturn tf 0) child.context child.kernelStack m'.phys)
      fun _ => True := by
  unfold sysClone
  refine Sat.ensure_bind (fun _ => ?_) fun _ => trivial
  refine Sat.lift_bind (fun sepc hsepc => ?_) fun _ _ => trivial
  obtain ⟨hlt, rfl⟩ := addUsize_eq_ok.mp hsepc
  have hadd : BitVec.ofNat 64 ((tf .sepc).toNat + 4) = tf .sepc + 4 := by bv_omega
  have hframe : replaceAt (replaceAt tf (.x .a0) 0) .sepc (BitVec.ofNat 64
      ((replaceAt tf (.x .a0) 0 .sepc).toNat + 4)) = syscallReturn tf 0 := by
    rw [syscallReturn, replaceAt_of_ne (by decide)]
    rw [hadd]
  rw [hframe]
  have hfork : Sat (doFork image running (syscallReturn tf 0)) m
      (fun child m₁ => Forks running m child m₁ ∧
        FramePut image running (syscallReturn tf 0) child m₁) fun _ => True := by
    exact ((doFork_sat h _).and (doFork_framePut h _)).weaken fun _ _ => trivial
  refine hfork.bind ?_
  rintro child m₁ ⟨hfork, hput⟩
  refine (((setTid_sat hfork hk).and (setTid_framePut hfork hput hk hlow)).mono
    (fun _ _ hq => hq) fun _ _ => trivial).bind ?_
  rintro child m₂ ⟨⟨-, hlist, -⟩, hput⟩
  refine Sat.ensure_bind (fun _ => ?_) fun _ => trivial
  refine Sat.ensure_bind (fun _ => ?_) fun _ => trivial
  refine Sat.modify_bind (sat_pure ⟨clearTid child flags ctid, ?_, rfl, ?_⟩)
  · rw [hlist]
  · unfold clearTid
    split_ifs
    · exact hput
    · exact hput

theorem writeFrame_of_idx {pg : PageData} {f : TrapField} (hf : f ∈ TrapFrame.fields) {i : Fin 512}
    (hi : i.val = 477 + TrapFrame.fields.idxOf f) :
    writeFrame pg tf i = tf f := by
  have hlen : TrapFrame.fields.length = 35 := by decide
  have hsub : 477 + TrapFrame.fields.idxOf f + 35 - 512 = TrapFrame.fields.idxOf f := by omega
  rw [writeFrame, hlen, hi, if_pos (by omega), hsub, List.getD_eq_getElem?_getD,
    List.getElem?_idxOf hf]
  rfl

theorem FrameAt.holdsFrame {parent : UserTask} {c : TaskContext} {stack : Frame} {p : Phys}
    {mem : Ram} (h : FrameAt image parent tf c stack p)
    (hpage : ShowsPage mem p (stackBack stack)) :
    HoldsFrame mem (BitVec.ofNat 64 c.sp) (replaceAt tf (.x .sp) (BitVec.ofNat 64 c.sp)) := by
  intro f hf
  obtain ⟨pg, hpg⟩ := h.page
  have hidx : TrapFrame.fields.idxOf f < 35 := List.idxOf_lt_length_iff.mpr hf
  have hsp : c.sp = phyMemOffset + (stackBack stack).paddr + 8 * 477 := by
    rw [h.context]
    rfl
  have hslot : Ram.slot (BitVec.ofNat 64 c.sp) (TrapFrame.fields.idxOf f) =
      Ram.slot (BitVec.ofNat 64 (phyMemOffset + (stackBack stack).paddr))
        (477 + TrapFrame.fields.idxOf f) := by
    rw [hsp, Ram.slot, Ram.slot, ← BitVec.ofNat_add, ← BitVec.ofNat_add]
    exact congrArg _ (by omega)
  have hword := hpage ⟨477 + TrapFrame.fields.idxOf f, by omega⟩
  rw [hpg, writeFrame_of_idx hf rfl] at hword
  rw [read_eq_words, Ram.words, hslot]
  exact hword

/-- The parent goes on with the result of the call, and the child, when it is first switched
to, with zero. Each has all other registers of the call and its own kernel stack. -/
theorem sysClone_returns_twice (place : List (Line TrapLabel TrapFn) → Word) (n : ℕ)
    {running : UserTask} {m m' : CloneState} {flags : CloneFlags}
    {stackPtr ptid ctid newtls : ℕ} {u : Hart} {ret : ℤ} (hu : u.mode = .user)
    (h : running.mm.UserSpace m.phys) (hk : m.kernelMm.KmapOnly)
    (hscratch : running.context.sscratch = 0) (hlow : flags.SetsTid ctid → ctid < userSpaceEnd)
    (hrun : sysClone image running flags stackPtr ptid ctid newtls (trapFrameOf 8 u) m =
      .ok (ret, m')) :
    ∃ child : UserTask, m'.runningList = m.runningList ++ [child] ∧
      ret = (BitVec.ofNat 64 child.tid).toInt ∧ child.context.ra = image.userTrapRet ∧
      (∀ saved v, v.mode = .supervisor →
        (∀ i < 16, SwitchContext.context v i = child.context.word i) →
        ShowsPage v.mem m'.phys (stackBack child.kernelStack) → v.reg .sp ∈ saved →
        ReturnsTo place n saved v (Returned u 0
          (BitVec.ofNat 64 (phyMemOffset + (stackBack child.kernelStack).paddr + pageSize)))) ∧
      ∀ saved v, InKernel v → v.reg .sp = u.frameAt →
        HoldsFrame v.mem u.frameAt (syscallReturn (trapFrameOf 8 u) (BitVec.ofInt 64 ret)) →
        u.frameAt ∈ saved →
        ReturnsTo place n saved v (Returned u (BitVec.ofInt 64 ret) (u.csr .sscratch)) := by
  obtain ⟨child, hlist, hret, hput⟩ :=
    (sysClone_framePut h hk hlow stackPtr ptid newtls _).of_ok hrun
  refine ⟨child, hlist, hret, by rw [hput.context], ?_, ?_⟩
  · intro saved v hmode hcontext hpage hmem
    have hsp : v.reg .sp = BitVec.ofNat 64 child.context.sp := hcontext 1 (by decide)
    have hkernel : InKernel v := by
      refine ⟨hmode, (hcontext 14 (by decide)).trans ?_⟩
      show BitVec.ofNat 64 child.context.sscratch = 0
      rw [hput.context, hscratch]
      rfl
    have htop : BitVec.ofNat 64 child.context.sp + BitVec.ofNat 64 TrapFrame.size =
        BitVec.ofNat 64 (phyMemOffset + (stackBack child.kernelStack).paddr + pageSize) := by
      rw [← BitVec.ofNat_add, hput.context]
      rfl
    rw [← htop, ← hsp]
    apply returnsTo_of_frame hu hmem hkernel rfl
    rw [hsp]
    exact hput.holdsFrame hpage
  · intro saved v hkernel hsp hframe hmem
    have htop : u.frameAt + BitVec.ofNat 64 TrapFrame.size = u.csr .sscratch := by
      rw [Hart.frameAt, Hart.kernelSp, hu, BitVec.sub_add_cancel]
    have hself : replaceAt (syscallReturn (trapFrameOf 8 u) (BitVec.ofInt 64 ret)) (.x .sp)
        u.frameAt = syscallReturn (trapFrameOf 8 u) (BitVec.ofInt 64 ret) := by
      apply replaceAt_eq_self
      rfl
    rw [← htop]
    apply returnsTo_of_frame hu hmem hkernel hsp
    rw [hself]
    exact hframe

/-- A memory with one page at its place in the linear map. -/
def pageRam (p : Phys) (f : Frame) : Ram :=
  Ram.storeSlots (fun _ => 0) (BitVec.ofNat 64 (phyMemOffset + f.paddr))
    (fun i => p.mem f (Fin.ofNat 512 i)) (List.range 512)

/-- The hart after a switch to a task that is to run for the first time. -/
def switchedTo (c : TaskContext) (p : Phys) (f : Frame) : Hart where
  x := fun r => c.word (SwitchContext.savedRegs.idxOf r)
  csr := fun r => if r = .sscratch then c.word 14 else c.word 15
  mode := .supervisor
  pc := c.word 0
  mem := pageRam p f

theorem context_switchedTo (c : TaskContext) (p : Phys) (f : Frame) :
    ∀ i < 16, SwitchContext.context (switchedTo c p f) i = c.word i := by
  intro i hi
  rcases Nat.lt_or_ge i 14 with hlt | hge
  · have hidx : ∀ i < 14, SwitchContext.savedRegs.idxOf (SwitchContext.savedReg i) = i := by
      decide
    rw [SwitchContext.context_of_lt _ hlt, Hart.reg, if_neg (SwitchContext.savedReg_ne hlt).1]
    exact congrArg c.word (hidx i hlt)
  · obtain rfl | rfl : i = 14 ∨ i = 15 := by omega
    · rfl
    · rfl

theorem showsPage_pageRam (p : Phys) (f : Frame) : ShowsPage (pageRam p f) p f := by
  intro i
  have hlt : ∀ k < 512, 8 * k + 8 ≤ 2 ^ 64 := by
    intro k hk
    omega
  rw [pageRam, Ram.words_storeSlots (fun k hk => hlt k (List.mem_range.mp hk)) (hlt i i.isLt),
    if_pos (List.mem_range.mpr i.isLt), Fin.ofNat_val_eq_self]

/-- A fork of a task with one page. -/
theorem sysClone_returns_twice_onePage : ∃ mm p m', ∃ child : UserTask, ∃ w : Hart,
    onePage .bare = .ok (mm, p) ∧
    sysClone reserveImage (taskOf mm) .SIGCHLD 0 0 0 0 (trapFrameOf 8 userHart) (stateOf p) =
      .ok (3, m') ∧ m'.runningList = [child] ∧
    (trapSetting (fun _ => 0) [BitVec.ofNat 64 child.context.sp]
      (NestedTrap (fun _ => 0) 0 [BitVec.ofNat 64 child.context.sp])).Run
        (fromLabel .userTrapRet trapAsm)
        (switchedTo child.context m'.phys (stackBack child.kernelStack)) w ∧
    w.pc = 0x1004 ∧ w.reg .a0 = 0 ∧ w.reg .a1 = userHart.reg .a1 := by
  have hrun : (onePage .bare >>= fun r => (sysClone reserveImage (taskOf r.1) .SIGCHLD 0 0 0 0
      (trapFrameOf 8 userHart) (stateOf r.2)).map Prod.fst) = .ok 3 := by
    decide +kernel
  obtain ⟨⟨mm, p⟩, hmm, hclone⟩ := Checked.bind_eq_ok.mp hrun
  obtain ⟨⟨ret, m'⟩, hclone, hret⟩ := Checked.map_eq_ok.mp hclone
  cases hret
  have hspace : (taskOf mm).mm.UserSpace (stateOf p).phys := onePage_userSpace.of_ok hmm
  have hkernel : (stateOf p).kernelMm.KmapOnly := Mm.kmapOnly_newKernMmByPagetable _
  have hlow : CloneFlags.SIGCHLD.SetsTid 0 → 0 < userSpaceEnd := fun hset => absurd rfl hset.2
  have hscratch : (taskOf mm).context.sscratch = 0 := rfl
  have huser : userHart.mode = .user := rfl
  obtain ⟨child, hlist, -, -, hchild, -⟩ := sysClone_returns_twice (fun _ => 0) 0 huser hspace
    hkernel hscratch hlow hclone
  have hcontext := context_switchedTo child.context m'.phys (stackBack child.kernelStack)
  obtain ⟨⟨w, hw⟩, hreturned⟩ := hchild [BitVec.ofNat 64 child.context.sp]
    (switchedTo child.context m'.phys (stackBack child.kernelStack)) rfl hcontext
    (showsPage_pageRam _ _) (List.mem_singleton.mpr (hcontext 1 (by decide)))
  have hreg := hreturned w hw
  exact ⟨mm, p, m', child, w, hmm, hclone, hlist, hw, hreg.pc, hreg.a0, hreg.reg _ (by decide)⟩

end CloneState

end Zinix
