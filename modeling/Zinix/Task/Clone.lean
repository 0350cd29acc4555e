import Zinix.Lib.Chunks
import Zinix.Mm.Fork
import Zinix.Mm.Heap
import Zinix.Mm.Kmap
import Zinix.Trap.TaskCode
import Zinix.Trap.TrapAsm

/-!
# What `sys_clone` stores, and where

The identifier of the new task is stored at `ctid` after the fork and through the page table
that is installed, which is that of the caller.
-/

namespace Zinix

open Program

/-- A `TrapFrame` by its fields. -/
abbrev TrapValues := TrapField → BitVec 64

structure TaskContext where
  ra : ℕ
  sp : ℕ
  s : Fin 12 → ℕ
  sscratch : ℕ
  sstatus : ℕ

/-- A task with an address space. The kernel stack is given by its first page, and the open
files by their handles. -/
structure UserTask where
  tid : ℕ
  tgid : ℕ
  kernelStack : Frame
  context : TaskContext
  parent : Option ℕ
  mm : Mm
  opened : List (Option ℕ)
  pwd : String
  pwdDfile : ℕ
  setChildTid : ℕ
  clearChildTid : ℕ
  exitCode : Int32

def kernelStackSizeOrder : ℕ := 3

def stackMagic : BitVec 64 := 0xABCD1122ABCD1122

def Frame.inBlock (f : Frame) (i : ℕ) : Frame := Fin.ofNat (2 ^ 27) (f.val + i)

/-- What the calls depend on besides the state: the blocks that the page allocator hands
out for kernel stacks, the address of `user_trap_ret`, and what a store of the kernel to an
address above the user space does. -/
structure KernelImage where
  pickBlock : Finset Frame → Option Frame
  fresh : ∀ live f, pickBlock live = some f → ∀ i < 2 ^ kernelStackSizeOrder, f.inBlock i ∉ live
  userTrapRet : ℕ
  storeAbove : Phys → ℕ → List Byte → Checked Phys

structure CloneState where
  phys : Phys
  kernelMm : Mm
  gTid : ℕ
  runningList : List UserTask

namespace Phys

/-- The pages of a block, which `alloc_pages` clears. -/
def withBlock (p : Phys) (f : Frame) : Phys :=
  { p with
    mem := fun g => if ∃ i < 2 ^ kernelStackSizeOrder, f.inBlock i = g then fun _ => 0 else p.mem g
    live := p.live ∪ (Finset.range (2 ^ kernelStackSizeOrder)).image f.inBlock }

/-- The frame of a user address that the kernel can store to. As `SUM` is set, it may touch
the pages of the user. -/
def kernelFrame (p : Phys) (pt vaddr : ℕ) : Option Frame := do
  let root ← (p.tables pt).head?
  let e ← p.mmuWalk root [addrGetPpn2 vaddr, addrGetPpn1 vaddr, addrGetPpn0 vaddr]
  if e.valid && e.getBits PTEFlags.R && e.getBits PTEFlags.W then some e.frame else none

end Phys

namespace CloneState

def onPhys {α : Type} (x : Program Phys α) : Program CloneState α := fun m => do
  let (a, phys) ← x m.phys
  return (a, { m with phys })

def generateTid : Program CloneState ℕ := do
  let m ← get
  set { m with gTid := (m.gTid + 1) % wordSize }
  return m.gTid

def addTask (task : UserTask) : Program CloneState Unit :=
  modify fun m => { m with runningList := m.runningList ++ [task] }

variable (image : KernelImage)

/-- `Stack::new`. -/
def stackNew : Program Phys Frame := do
  let p ← get
  match image.pickBlock p.live with
  | none => throw .outOfMemory
  | some f =>
    set (p.withBlock f)
    Phys.setUsizeByAddr (f, 0) stackMagic
    return f

def stackBack (f : Frame) : Frame := f.inBlock (2 ^ kernelStackSizeOrder - 1)

/-- `Stack::get_end`. -/
def stackEnd (f : Frame) : Checked ℕ := addUsize (phyMemOffset + (stackBack f).paddr) pageSize

/-- `TrapFrame::write_to` at the end of a page. -/
def writeFrame (pg : PageData) (tf : TrapValues) : PageData := fun i =>
  if 512 ≤ i.val + TrapFrame.fields.length then
    tf (TrapFrame.fields.getD (i.val + TrapFrame.fields.length - 512) .sepc)
  else
    pg i

/-- `__vfork_step_one`. The open files are shared. -/
def vforkStepOne (self : UserTask) (tf : TrapValues) : Program CloneState UserTask := do
  let newTid ← generateTid
  let kernelStack ← onPhys (stackNew image)
  let mm ← onPhys self.mm.newMmByOld
  let newKstackTop ← subUsize (← stackEnd kernelStack) TrapFrame.size
  let tf := replaceAt tf (.x .sp) (BitVec.ofNat 64 newKstackTop)
  onPhys (modify fun p => p.setPage (stackBack kernelStack)
    (writeFrame (p.mem (stackBack kernelStack)) tf))
  return {
    tid := newTid
    tgid := newTid
    kernelStack
    context := { self.context with ra := image.userTrapRet, sp := newKstackTop }
    parent := none
    mm
    opened := self.opened
    pwd := self.pwd
    pwdDfile := self.pwdDfile
    setChildTid := 0
    clearChildTid := 0
    exitCode := 0 }

def doFork (tsk : UserTask) (tf : TrapValues) : Program CloneState UserTask := do
  let new ← vforkStepOne image tsk tf
  return { new with parent := some tsk.tid }

/-- A store of the kernel while the page table of `mm` is installed, tried again after each
fault. The fault handler looks into the address space of the kernel. -/
def kernelStore (mm : Mm) (vaddr : ℕ) (bytes : List Byte) : ℕ → Program CloneState Unit
  | 0 => throw .diverges
  | n + 1 => do
    let m ← get
    if vaddr < userSpaceEnd then
      match m.phys.kernelFrame mm.pagetable vaddr with
      | some f =>
        set { m with phys := m.phys.setPage f ((m.phys.mem f).setBytes (vaddr % pageSize) bytes) }
      | none => do
        let (kernelMm, phys) ← m.kernelMm.trapPageFaultHandler vaddr m.phys
        set { m with kernelMm, phys }
        kernelStore mm vaddr bytes n
    else
      let phys ← image.storeAbove m.phys vaddr bytes
      set { m with phys }

/-- `write_single` of an `i32`. -/
def writeI32 (mm : Mm) (vaddr w : ℕ) : Program CloneState Unit := do
  Checked.ensure (vaddr % 4 = 0) .assertion
  kernelStore image mm vaddr (leBytes 4 w) Mm.accessTries

/-- The part of the call for `CLONE_CHILD_SETTID`. -/
def setTid (running newTask : UserTask) (flags : CloneFlags) (ctid : ℕ) :
    Program CloneState UserTask := do
  if flags.contains .CLONE_CHILD_SETTID && ctid ≠ 0 then
    writeI32 image running.mm ctid newTask.tid
    return { newTask with setChildTid := ctid }
  else
    return newTask

/-- The part of the call for `CLONE_CHILD_CLEARTID`. -/
def clearTid (newTask : UserTask) (flags : CloneFlags) (ctid : ℕ) : UserTask :=
  if flags.contains .CLONE_CHILD_CLEARTID && ctid ≠ 0 then
    { newTask with clearChildTid := ctid }
  else
    newTask

def sysClone (running : UserTask) (flags : CloneFlags) (stackPtr _ptid ctid _newtls : ℕ)
    (tf : TrapValues) : Program CloneState ℤ := do
  Checked.ensure (!(flags.contains .CLONE_VM || flags.contains .CLONE_THREAD)) .todo
  let newTf := replaceAt tf (.x .a0) 0
  let sepc ← addUsize (newTf .sepc).toNat 4
  let newTf := replaceAt newTf .sepc (BitVec.ofNat 64 sepc)
  let newTask ← doFork image running newTf
  let newTask ← setTid image running newTask flags ctid
  let newTask := clearTid newTask flags ctid
  Checked.ensure (flags.contains .SIGCHLD) (.explicit "sys_fork: FLAG not supported!")
  Checked.ensure (stackPtr = 0) (.explicit "not support")
  addTask newTask
  return (BitVec.ofNat 64 newTask.tid).toInt

end CloneState

/-- The call is asked to store the identifier of the child. -/
def CloneFlags.SetsTid (flags : CloneFlags) (ctid : ℕ) : Prop :=
  flags.contains .CLONE_CHILD_SETTID ∧ ctid ≠ 0

instance (flags : CloneFlags) (ctid : ℕ) : Decidable (flags.SetsTid ctid) :=
  inferInstanceAs (Decidable (_ ∧ _))

namespace Mm

variable {flags : CloneFlags} {ctid tid : ℕ}

def userByte (mm : Mm) (p : Phys) (a : ℕ) : Option (Checked Byte) :=
  if a < userSpaceEnd then
    (mm.seen p (Vaddr.down a)).map fun c => c.map fun pg => pg.byte (a % pageSize)
  else
    none

/-- The memory that the two tasks should see: the parent what it saw before, and the child the
same but for its identifier, if that is to be stored. -/
structure CloneRight (parent child : Mm) (flags : CloneFlags) (ctid tid : ℕ) (p p' : Phys) :
    Prop where
  unchanged : ∀ a, parent.userByte p' a = parent.userByte p a
  copied : ∀ a, child.userByte p' a =
    if flags.SetsTid ctid ∧ ctid ≤ a ∧ a < ctid + 4 then
      some (.ok ((leBytes 4 tid).getD (a - ctid) 0))
    else
      parent.userByte p a

def HoldsTid (mm : Mm) (p : Phys) (ctid tid : ℕ) : Prop :=
  ∀ i < 4, mm.userByte p (ctid + i) = some (.ok ((leBytes 4 tid).getD i 0))

/-- The memory of a parent and of its child after the fork, with that of the parent before. -/
structure Cloned (parent child : Mm) (p p' : Phys) : Prop where
  parent_sound : Sound parent p'
  child_sound : Sound child p'
  parent_seen : ∀ v, IsUserPage v → parent.seen p' v = parent.seen p v
  child_seen : ∀ v, IsUserPage v → child.seen p' v = parent.seen p v
  apart : ∀ f, Owned p' parent.pagetable parent.areas f → ¬Owned p' child.pagetable child.areas f

variable {mm parent child : Mm} {p p' : Phys} {a : ℕ} {f : Frame}

theorem userByte_congr {mm' : Mm} (h : ∀ v, IsUserPage v → mm'.seen p' v = mm.seen p v) (a : ℕ) :
    mm'.userByte p' a = mm.userByte p a := by
  unfold userByte
  by_cases ha : a < userSpaceEnd
  · rw [if_pos ha, if_pos ha, h _ (isUserPage_down ha)]
  · rw [if_neg ha, if_neg ha]

theorem Forked.cloned (h : Forked parent p (parent.vmas.range userSpaceStart userSpaceEnd) child p')
    (hp : UserSpace parent p) : Cloned parent child p p' := by
  refine ⟨h.parent_sound hp, h.sound hp, fun v hv => h.parent_seen hp hv,
    fun v hv => h.child_seen hp hv, ?_⟩
  intro f hf hf'
  refine h.fresh hp hf' ?_
  rcases hf with htable | hheld
  · rw [h.tables_eq hp] at htable
    exact hp.sound.ok.table.live f htable
  · obtain ⟨k, v, hk⟩ := hheld
    exact (hp.sound.ok.live k v f hk).1

/-- The frame that the kernel reaches at a user address is the one in the entry. -/
theorem Sound.of_kernelFrame (h : Sound mm p) (ha : a < userSpaceEnd)
    (hf : p.kernelFrame mm.pagetable a = some f) :
    (p.pte mm.pagetable (Vaddr.down a)).valid ∧ (p.pte mm.pagetable (Vaddr.down a)).frame = f := by
  rw [Phys.pte_down]
  simp only [Phys.kernelFrame, h.ok.table.head, Option.bind_eq_bind, Option.bind_some] at hf
  rw [mmuWalk_eq p h.ok.table.tree (userOwn_of_lt ha)] at hf
  rw [Phys.pte, leafEntry]
  cases htable : tableAt p.mem (p.root mm.pagetable) [addrGetPpn1 a, addrGetPpn2 a] with
  | none =>
    rw [htable] at hf
    cases hf
  | some g =>
    rw [htable] at hf
    simp only [Option.map_some, Option.bind_some] at hf
    split_ifs at hf with hbits
    simp only [Bool.and_eq_true] at hbits
    exact ⟨hbits.1.1, Option.some.inj hf⟩

theorem Cloned.setPage (h : Cloned parent child p p')
    (hf : ¬Owned p' parent.pagetable parent.areas f) (hf' : ¬Owned p' child.pagetable child.areas f)
    (pg : PageData) : Cloned parent child p (p'.setPage f pg) where
  parent_sound := h.parent_sound.setPage (fun ht => hf (.inl ht)) pg
  child_sound := h.child_sound.setPage (fun ht => hf' (.inl ht)) pg
  parent_seen := by
    intro v hv
    rw [← h.parent_seen v hv]
    refine h.parent_sound.seen_congr rfl (fun g hg => replaceAt_of_ne ?_) hv
    rintro rfl
    exact hf hg
  child_seen := by
    intro v hv
    rw [← h.child_seen v hv]
    refine h.child_sound.seen_congr rfl (fun g hg => replaceAt_of_ne ?_) hv
    rintro rfl
    exact hf' hg
  apart := h.apart

theorem Cloned.mono {p₀ : Phys} (h : Cloned parent child p p')
    (hp : ∀ v, IsUserPage v → parent.seen p v = parent.seen p₀ v) : Cloned parent child p₀ p' :=
  ⟨h.parent_sound, h.child_sound, fun v hv => (h.parent_seen v hv).trans (hp v hv),
    fun v hv => (h.child_seen v hv).trans (hp v hv), h.apart⟩

theorem Cloned.right (h : Cloned parent child p p') (hnot : ¬flags.SetsTid ctid) (tid : ℕ) :
    CloneRight parent child flags ctid tid p p' where
  unchanged := userByte_congr h.parent_seen
  copied := by
    intro a
    rw [if_neg fun hset => hnot hset.1]
    exact userByte_congr h.child_seen a

/-- The identifier is expected at an address where the child has it only if the parent has
had it there. -/
theorem holdsTid_of_right (h : CloneRight parent child flags ctid tid p p')
    (hset : flags.SetsTid ctid) (hchild : ∀ a, child.userByte p' a = parent.userByte p a) :
    HoldsTid parent p ctid tid := by
  intro i hi
  have hbyte := h.copied (ctid + i)
  rw [if_pos ⟨hset, Nat.le_add_right ctid i, by omega⟩, hchild, Nat.add_sub_cancel_left] at hbyte
  exact hbyte

/-- What the parent sees after a store of four bytes to a page that is mapped. -/
theorem Sound.userByte_setBytes (h : Sound mm p) {bs : List Byte} (hbs : bs.length = 4)
    (ha : a < userSpaceEnd) (halign : a % 4 = 0)
    (hvalid : (p.pte mm.pagetable (Vaddr.down a)).valid)
    (hf : (p.pte mm.pagetable (Vaddr.down a)).frame = f) (x : ℕ) :
    mm.userByte (p.setPage f ((p.mem f).setBytes (a % pageSize) bs)) x =
      if a ≤ x ∧ x < a + 4 then some (.ok (bs.getD (x - a) 0)) else mm.userByte p x := by
  have hpage : pageSize = 4096 := rfl
  have hoff : a % pageSize + 4 ≤ pageSize := by
    rw [hpage]
    omega
  have hlt : a ≤ x → x < a + 4 → x < userSpaceEnd := by
    intro hle hlt
    simp only [userSpaceEnd] at *
    omega
  unfold userByte
  by_cases hx : x < userSpaceEnd
  swap
  · rw [if_neg hx, if_neg hx, if_neg fun hin => hx (hlt hin.1 hin.2)]
  have hmod := Nat.mod_lt x (show 0 < pageSize by decide)
  rw [if_pos hx, if_pos hx, ← hf, h.seen_setPage (isUserPage_down ha) hvalid (isUserPage_down hx)]
  by_cases hsame : Vaddr.down x = Vaddr.down a
  · rw [if_pos hsame]
    simp only [Option.map_some, Except.map]
    rw [PageData.byte_setBytes _ (by rw [hbs]; exact hoff) hmod, hbs]
    have hseen : mm.seen p (Vaddr.down x) = some (.ok (p.mem f)) := by
      rw [hsame, seen, if_pos hvalid, hf]
    simp only [Vaddr.down, hpage] at hsame
    by_cases hin : a ≤ x ∧ x < a + 4
    · rw [if_pos (by rw [hpage]; omega), if_pos hin]
      congr 3
      rw [hpage]
      omega
    · rw [if_neg (by rw [hpage]; omega), if_neg hin, hseen, hf]
      rfl
  · rw [if_neg hsame, if_neg]
    rintro ⟨hle, hlt⟩
    refine hsame ?_
    simp only [Vaddr.down, hpage]
    omega

/-- The identifier in a frame of the parent is what it should be only if it was there. -/
theorem Cloned.store_right_iff (h : Cloned parent child p p') (hset : flags.SetsTid a)
    (ha : a < userSpaceEnd) (halign : a % 4 = 0)
    (hvalid : (p'.pte parent.pagetable (Vaddr.down a)).valid)
    (hf : (p'.pte parent.pagetable (Vaddr.down a)).frame = f) :
    CloneRight parent child flags a tid p
      (p'.setPage f ((p'.mem f).setBytes (a % pageSize) (leBytes 4 tid))) ↔
        HoldsTid parent p a tid := by
  have hown : Owned p' parent.pagetable parent.areas f := by
    obtain ⟨k, hk⟩ := h.parent_sound.holds_of_valid (isUserPage_down ha) hvalid
    rw [hf] at hk
    exact .inr ⟨k, _, hk⟩
  have hchild : ∀ x, child.userByte
      (p'.setPage f ((p'.mem f).setBytes (a % pageSize) (leBytes 4 tid))) x =
        parent.userByte p x := by
    refine userByte_congr fun v hv => ?_
    rw [← h.child_seen v hv]
    refine h.child_sound.seen_congr rfl (fun g hg => replaceAt_of_ne ?_) hv
    rintro rfl
    exact h.apart g hown hg
  constructor
  · intro hright
    exact holdsTid_of_right hright hset hchild
  · intro hholds
    have hbyte : ∀ x, a ≤ x ∧ x < a + 4 →
        some (.ok ((leBytes 4 tid).getD (x - a) 0)) = parent.userByte p x := by
      rintro x ⟨hle, hlt⟩
      rw [← hholds (x - a) (by omega), Nat.add_sub_cancel' hle]
    refine ⟨fun x => ?_, fun x => ?_⟩
    · rw [h.parent_sound.userByte_setBytes (length_leBytes 4 tid) ha halign hvalid hf,
        userByte_congr h.parent_seen]
      split_ifs with hin
      · exact hbyte x hin
      · rfl
    · rw [hchild]
      split_ifs with hin
      · exact (hbyte x hin.2).symm
      · rfl

/-- Above the user space the identifier is never in the memory of the child. -/
theorem not_right_above (hset : flags.SetsTid ctid) (habove : ¬ctid < userSpaceEnd) :
    ¬CloneRight parent child flags ctid tid p p' ∧ ¬HoldsTid parent p ctid tid := by
  refine ⟨fun hright => ?_, fun hholds => ?_⟩
  · have hbyte := hright.copied ctid
    rw [userByte, if_neg habove, if_pos ⟨hset, le_rfl, by omega⟩] at hbyte
    cases hbyte
  · have hbyte := hholds 0 (by decide)
    rw [userByte, Nat.add_zero, if_neg habove] at hbyte
    cases hbyte

end Mm

namespace CloneState

variable {image : KernelImage} {p : Phys} {f : Frame} {mm : Mm}
  {m m₁ : CloneState} {p' : Phys} {self running child : UserTask} {flags : CloneFlags}
  {ctid : ℕ}

theorem sat_onPhys {α : Type} {x : Program Phys α} {Q : α → Phys → Prop} {E : Panic → Prop}
    (h : Sat x m.phys Q E) :
    Sat (onPhys x) m (fun a m' => Q a m'.phys ∧ m' = { m with phys := m'.phys }) E := by
  unfold Sat onPhys at *
  cases hx : x m.phys with
  | error e =>
    rw [hx] at h
    exact h
  | ok r =>
    rw [hx] at h
    exact ⟨h, rfl⟩

structure StackPut (p : Phys) (f : Frame) (p' : Phys) : Prop where
  back : stackBack f ∈ p'.live ∧ stackBack f ∉ p.live
  keep : ∀ g ∈ p.live, g ∈ p'.live ∧ p'.mem g = p.mem g
  tables : p'.tables = p.tables
  cnt : p'.tableCnt = p.tableCnt

theorem stackNew_sat (image : KernelImage) (p : Phys) :
    Sat (stackNew image) p (fun f p' => StackPut p f p') fun _ => True := by
  unfold stackNew
  apply Sat.get_bind
  cases hpick : image.pickBlock p.live with
  | none => exact sat_throw trivial
  | some f =>
    have hfresh := image.fresh p.live f hpick
    refine Sat.set_bind (Sat.modify_bind (sat_pure ⟨⟨?_, ?_⟩, ?_, rfl, rfl⟩))
    · exact Finset.mem_union_right _ (Finset.mem_image_of_mem _ (by decide))
    · exact hfresh _ (by decide)
    · intro g hg
      refine ⟨Finset.mem_union_left _ hg, ?_⟩
      have hout : ¬∃ i < 2 ^ kernelStackSizeOrder, f.inBlock i = g := by
        rintro ⟨i, hi, rfl⟩
        exact hfresh i hi hg
      have hne : g ≠ f := by
        rintro rfl
        refine hout ⟨0, by decide, ?_⟩
        simp [Frame.inBlock]
      simp only [Phys.setPage, replaceAt_of_ne hne, Phys.withBlock, if_neg hout]

theorem StackPut.userSpace (h : StackPut p f p') (hmm : mm.UserSpace p) :
    mm.UserSpace p' := by
  refine ⟨hmm.sound.congr (by rw [h.tables]) ?_ ?_, hmm.keys, ?_, ?_⟩
  · intro g hg
    exact (h.keep g (hmm.sound.ok.table.live g hg)).2
  · intro g hg
    exact (h.keep g (hmm.sound.ok.owned_live hg)).1
  · rw [h.tables]
    exact hmm.booted.kernel
  · rw [h.tables, h.cnt]
    exact hmm.booted.next

theorem StackPut.seen (h : StackPut p f p') (hmm : mm.UserSpace p) {v : ℕ} (hv : IsUserPage v) :
    mm.seen p' v = mm.seen p v :=
  hmm.sound.seen_congr (by rw [h.tables])
    (fun g hg => (h.keep g (hmm.sound.ok.owned_live hg)).2) hv

theorem generateTid_sat (m : CloneState) :
    Sat generateTid m (fun tid m' => tid = m.gTid ∧ m'.phys = m.phys ∧
      m'.kernelMm = m.kernelMm ∧ m'.runningList = m.runningList) fun _ => True := by
  unfold generateTid
  apply Sat.get_bind
  apply Sat.set_bind
  exact sat_pure ⟨rfl, rfl, rfl, rfl⟩

/-- The fork makes a task with the next identifier and a copy of the memory. -/
def Forks (self : UserTask) (m : CloneState) (new : UserTask) (m' : CloneState) : Prop :=
  new.tid = m.gTid ∧ Mm.Cloned self.mm new.mm m.phys m'.phys ∧ m'.kernelMm = m.kernelMm ∧
    m'.runningList = m.runningList

-- The unifier looks into the sums with a page size.
set_option maxRecDepth 10000

theorem vforkStepOne_sat (h : self.mm.UserSpace m.phys) (tf : TrapValues) :
    Sat (vforkStepOne image self tf) m (Forks self m) fun _ => True := by
  unfold vforkStepOne
  refine (generateTid_sat m).bind ?_
  rintro _ m₁ ⟨rfl, hphys, hkernel₁, hlist₁⟩
  refine (sat_onPhys (stackNew_sat image m₁.phys)).bind ?_
  rintro f m₂ ⟨hput, hm₂⟩
  rw [hphys] at hput
  have hspace := hput.userSpace h
  refine (sat_onPhys (hspace.newMmByOld.weaken fun _ _ => trivial)).bind ?_
  rintro mm m₃ ⟨hforked, hm₃⟩
  refine Sat.lift_bind (fun _ _ => ?_) fun _ _ => trivial
  refine Sat.lift_bind (fun top _ => ?_) fun _ _ => trivial
  have hcloned := (hforked.cloned hspace).mono fun v hv => hput.seen h hv
  -- the stack lies in frames of neither task
  have hparent : ¬Owned m₃.phys self.mm.pagetable self.mm.areas (stackBack f) := by
    rintro (htable | ⟨k, v, hheld⟩)
    · rw [hforked.tables_eq hspace, hput.tables] at htable
      exact hput.back.2 (h.sound.ok.table.live _ htable)
    · exact hput.back.2 (h.sound.ok.live k v _ hheld).1
  have hchild : ¬Owned m₃.phys mm.pagetable mm.areas (stackBack f) :=
    fun hown => hforked.fresh hspace hown hput.back.1
  refine Sat.bind (R := fun _ m₄ => Mm.Cloned self.mm mm m.phys m₄.phys ∧
    m₄.kernelMm = m.kernelMm ∧ m₄.runningList = m.runningList) ⟨?_, ?_, ?_⟩ ?_
  · exact hcloned.setPage hparent hchild _
  · show m₃.kernelMm = m.kernelMm
    rw [hm₃, hm₂, ← hkernel₁]
  · show m₃.runningList = m.runningList
    rw [hm₃, hm₂, ← hlist₁]
  · rintro _ m₄ ⟨hmem, hkernel, hlist⟩
    exact sat_pure ⟨rfl, hmem, hkernel, hlist⟩

theorem doFork_sat (h : self.mm.UserSpace m.phys) (tf : TrapValues) :
    Sat (doFork image self tf) m (Forks self m) fun _ => True := by
  unfold doFork
  refine (vforkStepOne_sat h tf).bind ?_
  intro new m' hnew
  exact sat_pure hnew

theorem kernelStore_user {vaddr : ℕ} {bytes : List Byte} (n : ℕ) (hk : m.kernelMm.KmapOnly)
    (hv : vaddr < userSpaceEnd) :
    Sat (kernelStore image mm vaddr bytes (n + 1)) m
      (fun _ m' => ∃ f, m.phys.kernelFrame mm.pagetable vaddr = some f ∧ m' = { m with
        phys := m.phys.setPage f ((m.phys.mem f).setBytes (vaddr % pageSize) bytes) })
      fun _ => True := by
  rw [kernelStore]
  apply Sat.get_bind
  rw [if_pos hv]
  cases hframe : m.phys.kernelFrame mm.pagetable vaddr with
  | some f => exact ⟨f, rfl, rfl⟩
  | none =>
    rw [hk.trapPageFaultHandler_user hv]
    trivial

/-- The memory is what it should be, except for the place where the identifier is stored. -/
def CloneOk (running : UserTask) (flags : CloneFlags) (ctid : ℕ) (m : CloneState) (child : UserTask)
    (m' : CloneState) : Prop :=
  child.tid = m.gTid ∧ m'.runningList = m.runningList ∧
    (Mm.CloneRight running.mm child.mm flags ctid m.gTid m.phys m'.phys ↔
      ¬flags.SetsTid ctid ∨ running.mm.HoldsTid m.phys ctid m.gTid)

theorem storeTid_sat (hfork : Forks running m child m₁) (hk : m.kernelMm.KmapOnly)
    (hset : flags.SetsTid ctid) :
    Sat (writeI32 image running.mm ctid child.tid) m₁ (fun _ => CloneOk running flags ctid m child)
      fun _ => True := by
  obtain ⟨htid, hcloned, hkernel, hlist⟩ := hfork
  unfold writeI32
  refine Sat.ensure_bind (fun halign => ?_) fun _ => trivial
  by_cases hv : ctid < userSpaceEnd
  · refine (kernelStore_user 1 (by rwa [hkernel]) hv).imp ?_
    rintro _ _ ⟨f, hf, rfl⟩
    obtain ⟨hvalid, hframe⟩ := hcloned.parent_sound.of_kernelFrame hv hf
    refine ⟨htid, hlist, ?_⟩
    rw [htid, hcloned.store_right_iff hset hv halign hvalid hframe]
    exact ⟨.inr, fun hor => hor.resolve_left (not_not.mpr hset)⟩
  · rw [Mm.accessTries, kernelStore]
    apply Sat.get_bind
    rw [if_neg hv]
    refine Sat.lift_bind (fun phys _ => ?_) fun _ _ => trivial
    obtain ⟨hright, hholds⟩ := Mm.not_right_above hset hv
    refine ⟨htid, hlist, iff_of_false hright ?_⟩
    rintro (hnot | hhold)
    · exact hnot hset
    · exact hholds hhold

theorem setTid_sat (hfork : Forks running m child m₁) (hk : m.kernelMm.KmapOnly) :
    Sat (setTid image running child flags ctid) m₁ (CloneOk running flags ctid m)
      fun _ => True := by
  unfold setTid
  refine Sat.ite (fun hset => ?_) fun hnot => ?_
  · refine (storeTid_sat hfork hk (by simpa [CloneFlags.SetsTid] using hset)).bind ?_
    intro _ m₂ hok
    exact sat_pure hok
  · have hnot : ¬flags.SetsTid ctid := by simpa [CloneFlags.SetsTid] using hnot
    refine sat_pure ⟨hfork.1, hfork.2.2.2, ?_⟩
    exact iff_of_true (hfork.2.1.right hnot m.gTid) (.inl hnot)

@[simp] theorem clearTid_tid (task : UserTask) (flags : CloneFlags) (ctid : ℕ) :
    (clearTid task flags ctid).tid = task.tid := by
  unfold clearTid
  split_ifs
  · rfl
  · rfl

@[simp] theorem clearTid_mm (task : UserTask) (flags : CloneFlags) (ctid : ℕ) :
    (clearTid task flags ctid).mm = task.mm := by
  unfold clearTid
  split_ifs
  · rfl
  · rfl

theorem sysClone_sat (h : running.mm.UserSpace m.phys) (hk : m.kernelMm.KmapOnly)
    (flags : CloneFlags) (stackPtr ptid ctid newtls : ℕ) (tf : TrapValues) :
    Sat (sysClone image running flags stackPtr ptid ctid newtls tf) m
      (fun _ m' => ∃ child, m'.runningList = m.runningList ++ [child] ∧ child.tid = m.gTid ∧
        (Mm.CloneRight running.mm child.mm flags ctid m.gTid m.phys m'.phys ↔
          ¬flags.SetsTid ctid ∨ running.mm.HoldsTid m.phys ctid m.gTid)) fun _ => True := by
  unfold sysClone
  refine Sat.ensure_bind (fun _ => ?_) fun _ => trivial
  refine Sat.lift_bind (fun sepc _ => ?_) fun _ _ => trivial
  refine (doFork_sat h _).bind ?_
  intro child m₁ hfork
  refine (setTid_sat hfork hk).bind ?_
  rintro child m₂ ⟨htid, hlist, hiff⟩
  refine Sat.ensure_bind (fun _ => ?_) fun _ => trivial
  refine Sat.ensure_bind (fun _ => ?_) fun _ => trivial
  refine Sat.modify_bind (sat_pure ⟨clearTid child flags ctid, ?_, ?_, ?_⟩)
  · rw [hlist]
  · rw [clearTid_tid, htid]
  · rw [clearTid_mm]
    exact hiff

/-- After the call the parent sees its own memory, and the child sees a copy with its
identifier at `ctid`, exactly when no identifier is to be stored or the parent had it at
that place before. -/
theorem sysClone_leaves_parent_iff {running : UserTask} {m m' : CloneState}
    (h : running.mm.UserSpace m.phys) (hk : m.kernelMm.KmapOnly) {flags : CloneFlags}
    {stackPtr ptid ctid newtls : ℕ} {tf : TrapValues} {ret : ℤ}
    (hrun : sysClone image running flags stackPtr ptid ctid newtls tf m = .ok (ret, m')) :
    ∃ child, m'.runningList = m.runningList ++ [child] ∧ child.tid = m.gTid ∧
      (Mm.CloneRight running.mm child.mm flags ctid m.gTid m.phys m'.phys ↔
        ¬flags.SetsTid ctid ∨ running.mm.HoldsTid m.phys ctid m.gTid) :=
  (sysClone_sat h hk flags stackPtr ptid ctid newtls tf).of_ok hrun

def reserveImage : KernelImage where
  pickBlock live :=
    if ∀ i < 2 ^ kernelStackSizeOrder, Frame.inBlock 0x1000 i ∉ live then some 0x1000 else none
  fresh := by
    intro live f h
    split_ifs at h with hfree
    cases h
    exact hfree
  userTrapRet := 0
  storeAbove := fun _ _ _ => throw (.explicit "error address access!")

def taskOf (mm : Mm) : UserTask where
  tid := 2
  tgid := 2
  kernelStack := 0
  context := ⟨0, 0, fun _ => 0, 0, 0⟩
  parent := none
  mm := mm
  opened := []
  pwd := "/"
  pwdDfile := 0
  setChildTid := 0
  clearChildTid := 0
  exitCode := 0

def stateOf (p : Phys) : CloneState := ⟨p, Mm.newKernMmByPagetable kernelPagetable, 3, []⟩

def pageArea (pt : ℕ) : Vma :=
  { Vma.empty 0x1000 0x2000 with vmFlags := anonVmFlags, pagetable := some pt }

def onePage : Program Phys Mm := do
  let pt ← PageTable.newUser
  ((Mm.newEmptyUserMmByPagetable pt).setVma 0x1000 (pageArea pt)).trapPageFaultHandler 0x1000

theorem onePage_userSpace : Sat onePage .bare (fun mm p => mm.UserSpace p) fun _ => True := by
  have hbare := Phys.booted_bare
  refine ((PageTable.newUser_sat hbare.kernel).weaken fun _ _ => trivial).bind ?_
  rintro pt p ⟨rfl, hcnt, hok, hlocal, -⟩
  have hkernel : Phys.bare.tableCnt ≠ kernelPagetable := by decide
  have hbooted := hbare.of_local hlocal hkernel (by omega)
  generalize harea : pageArea Phys.bare.tableCnt = area
  generalize hmm : (Mm.newEmptyUserMmByPagetable Phys.bare.tableCnt).setVma 0x1000 area = mm
  have hpt : mm.pagetable = Phys.bare.tableCnt := by rw [← hmm]; rfl
  have hareas : mm.areas = replaceAt (fun _ => none) 0x1000 (some area) := by
    rw [← hmm, Mm.areas_setVma]
    rfl
  have honly : ∀ k vma, mm.areas k = some vma → k = 0x1000 ∧ vma = area := by
    intro k vma hk
    rw [hareas, replaceAt_apply] at hk
    split_ifs at hk with hkey
    exact ⟨hkey, (Option.some.inj hk).symm⟩
  have hsound : Mm.Sound mm p := by
    refine ⟨?_, ?_⟩
    · rw [hpt, hareas]
      refine hok.insertEmpty ?_ (by rw [← harea]; rfl) (by rw [← harea]; rfl)
      rintro v f ⟨vma, hvma, -⟩
      cases hvma
    · intro k vma hk
      rw [(honly k vma hk).2, ← harea]
      decide
  refine (Mm.trapPageFaultHandler_sat hsound.ok hsound.low 0x1000).mono ?_ fun _ _ => trivial
  rintro mm' p' ⟨k, vma, f, pg, hin⟩
  have hk := (Mm.findVma_eq_some.mp hin.found).1
  refine ⟨hin.sound hsound, ?_, ?_⟩
  · intro j w hj
    obtain ⟨v, hv, -⟩ := Mm.areas_of_rel' hin.areas_rel hj
    rw [(honly j v hv).1]
    decide
  · refine hbooted.of_local (hin.added.isLocal hk hin.absent rfl) (by rwa [hpt]) ?_
    rw [hpt, hin.added.grows.cnt, hcnt]
    exact Nat.lt_succ_self _

/-- A plain fork of a task with one page. -/
theorem sysClone_leaves_parent_onePage : ∃ mm p m' child, onePage .bare = .ok (mm, p) ∧
    sysClone reserveImage (taskOf mm) .SIGCHLD 0 0 0 0 (fun _ => 0) (stateOf p) = .ok (3, m') ∧
    m'.runningList = [child] ∧ Mm.CloneRight mm child.mm .SIGCHLD 0 3 p m'.phys := by
  have hrun : (onePage .bare >>= fun r => (sysClone reserveImage (taskOf r.1) .SIGCHLD 0 0 0 0
      (fun _ => 0) (stateOf r.2)).map Prod.fst) = .ok 3 := by
    decide +kernel
  obtain ⟨⟨mm, p⟩, hmm, hclone⟩ := Checked.bind_eq_ok.mp hrun
  obtain ⟨⟨ret, m'⟩, hclone, hret⟩ := Checked.map_eq_ok.mp hclone
  cases hret
  have hspace : (taskOf mm).mm.UserSpace (stateOf p).phys := onePage_userSpace.of_ok hmm
  have hkernel : (stateOf p).kernelMm.KmapOnly := Mm.kmapOnly_newKernMmByPagetable _
  obtain ⟨child, hlist, -, hiff⟩ := sysClone_leaves_parent_iff hspace hkernel hclone
  exact ⟨mm, p, m', child, hmm, hclone, hlist, hiff.mpr (.inl fun hset => hset.2 rfl)⟩

set_option synthInstance.maxSize 1000

/-- A task without segments asks for the identifier of its child in its stack. It finds it
there itself, and the child does not. -/
theorem not_cloneRight_emptyTask : ∃ mm p m' child, Mm.emptyTask .bare = .ok (some mm, p) ∧
    sysClone reserveImage (taskOf mm) 0x1000011#64 0 0 0xFFFF000 0 (fun _ => 0) (stateOf p) =
      .ok (3, m') ∧
    m'.runningList = [child] ∧ mm.userByte p 0xFFFF000 = some (.ok 0) ∧
    mm.userByte m'.phys 0xFFFF000 = some (.ok 3) ∧
    child.mm.userByte m'.phys 0xFFFF000 = some (.ok 0) ∧
    ¬Mm.CloneRight mm child.mm 0x1000011#64 0xFFFF000 3 p m'.phys := by
  have hrun : (Mm.emptyTask .bare >>= fun r => (Checked.unwrap r.1) >>= fun mm =>
      (sysClone reserveImage (taskOf mm) 0x1000011#64 0 0 0xFFFF000 0 (fun _ => 0)
        (stateOf r.2)).map fun r' => (r'.1, mm.userByte r.2 0xFFFF000,
          mm.userByte r'.2.phys 0xFFFF000,
          r'.2.runningList.map fun c => c.mm.userByte r'.2.phys 0xFFFF000)) =
        .ok (3, some (.ok 0), some (.ok 3), [some (.ok 0)]) := by
    decide +kernel
  obtain ⟨⟨created, p⟩, hcreate, hrun⟩ := Checked.bind_eq_ok.mp hrun
  obtain ⟨mm, hmm, hrun⟩ := Checked.bind_eq_ok.mp hrun
  cases Checked.unwrap_eq_ok.mp hmm
  obtain ⟨⟨ret, m'⟩, hclone, hbytes⟩ := Checked.map_eq_ok.mp hrun
  simp only [Prod.mk.injEq] at hbytes
  obtain ⟨rfl, hbefore, hafter, hchild⟩ := hbytes
  obtain ⟨child, hlist, hchild⟩ : ∃ child, m'.runningList = [child] ∧
      child.mm.userByte m'.phys 0xFFFF000 = some (.ok 0) := by
    obtain ⟨child, rest, hlist, hbyte, hrest⟩ := List.map_eq_cons_iff.mp hchild
    rw [List.map_eq_nil_iff.mp hrest] at hlist
    exact ⟨child, hlist, hbyte⟩
  refine ⟨mm, p, m', child, hcreate, hclone, hlist, hbefore, hafter, hchild, ?_⟩
  intro hright
  have heq := hright.unchanged 0xFFFF000
  rw [hbefore, hafter] at heq
  revert heq
  decide

end CloneState

end Zinix
