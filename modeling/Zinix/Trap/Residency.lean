import Zinix.Lib.Platform
import Zinix.Mm.ElfLoad
import Zinix.Mm.Kmap
import Zinix.Mm.Prefault
import Zinix.Trap.FileCode

/-!
# System calls and the residency of user pages

The page fault handler looks for a page touched in kernel mode in the address space of the
kernel, which has no areas below `KMAP_START`, and does not get even that far if the call
holds a lock that the handler takes.
-/

namespace Zinix

open Program KernelCode

/-- The memory of the running task, with the address space of the kernel. -/
structure Space where
  mm : Mm
  kernelMm : Mm
  phys : Phys

/-- What other threads do: which locks they hold, and what becomes of the data while they
run. They have address spaces of their own. -/
structure Surroundings (F : Type) where
  busy : World F → LockId → Bool
  others : ℕ → World F → World F

def Stop.cause : Stop → Panic
  | panic e => e
  | fault _ e => e

def Run.outcome {L D U α : Type} (r : Run L D U α) : Checked (α × List (Guard L) × D × U) :=
  r.result.mapError Stop.cause

def Touch.vaddr : Touch → ℕ
  | load v => v
  | store v => v

def Touch.prot : Touch → PgFaultProt
  | load _ => .read
  | store _ => .write

namespace Surroundings

variable {F : Type} (s : Surroundings F)

/-- The platform for code that does not touch user memory. -/
def inKernel : Platform LockId (World F) Unit where
  busy := s.busy
  others := s.others
  load := fun _ _ _ _ => throw (.explicit "error address access!")
  store := fun _ _ _ _ _ => throw (.explicit "error address access!")

def pageFault (gs : List (Guard LockId)) (vaddr : ℕ) (d : World F) (u : Space) :
    Checked (World F × Space) := do
  let (_, gs, d, _) ← (pageFaultEntry.exec s.inKernel gs d ()).outcome
  let (kernelMm, phys) ← u.kernelMm.trapPageFaultHandler vaddr u.phys
  let (_, _, d, _) ← (pageFaultExit.exec s.inKernel gs d ()).outcome
  return (d, { u with kernelMm, phys })

/-- An instruction of the kernel that touches a user address, tried again after each fault. -/
def access (gs : List (Guard LockId)) (vaddr : ℕ) (prot : PgFaultProt) :
    ℕ → World F → Space → Checked (Frame × World F × Space)
  | 0, _, _ => throw .diverges
  | n + 1, d, u =>
    match u.mm.translate u.phys vaddr prot with
    | some f => return (f, d, u)
    | none => do
      let (d, u) ← s.pageFault gs vaddr d u
      access gs vaddr prot n d u

/-- Kernel mode may touch the pages of the user, since `SUM` is set. -/
def platform : Platform LockId (World F) Space where
  busy := s.busy
  others := s.others
  load := fun gs d u v => do
    let (f, d, u) ← s.access gs v .read Mm.accessTries d u
    return ((u.phys.mem f).byte (v % pageSize), d, u)
  store := fun gs d u v b => do
    let (f, d, u) ← s.access gs v .write Mm.accessTries d u
    return (d, { u with phys := u.phys.setPage f ((u.phys.mem f).setByte (v % pageSize) b) })

end Surroundings

namespace Space

/-- The page of the touch is resident, with the right that the touch needs. -/
def Has (u : Space) (t : Touch) : Prop := u.mm.translate u.phys t.vaddr t.prot ≠ none

/-- The second memory has been paged in further than the first. User code sees the same in
both. -/
structure Further (u u' : Space) : Prop where
  user : Mm.Further u.mm u.phys u'.mm u'.phys
  kernel : u'.kernelMm = u.kernelMm
  kmap : u.kernelMm.KmapOnly

end Space

section Touch

variable {F : Type} {s : Surroundings F} {u u' : Space} {v : ℕ} {prot : PgFaultProt} {f : Frame}

theorem access_of_translate (h : u.mm.translate u.phys v prot = some f)
    (gs : List (Guard LockId)) (n : ℕ) (d : World F) :
    s.access gs v prot (n + 1) d u = .ok (f, d, u) := by
  rw [Surroundings.access, h]
  rfl

/-- An address above the user space is never reached through the table of the task. -/
theorem access_above (hv : ¬v < userSpaceEnd) (gs : List (Guard LockId)) (n : ℕ) (d : World F) :
    ∃ e, s.access gs v prot n d u = .error e := by
  induction n generalizing d u with
  | zero => exact ⟨.diverges, rfl⟩
  | succ n ih =>
    rw [Surroundings.access, Mm.translate_of_not_lt hv]
    cases hfault : s.pageFault gs v d u with
    | error e => exact ⟨e, rfl⟩
    | ok r =>
      obtain ⟨d', u'⟩ := r
      exact ih d'

theorem pageFault_user (h : u.kernelMm.KmapOnly) (hv : v < userSpaceEnd)
    (gs : List (Guard LockId)) (d : World F) : ∃ e, s.pageFault gs v d u = .error e := by
  unfold Surroundings.pageFault
  cases (pageFaultEntry.exec s.inKernel gs d ()).outcome with
  | error e => exact ⟨e, rfl⟩
  | ok r =>
    simp only [Checked.ok_bind, h.trapPageFaultHandler_user hv]
    exact ⟨_, rfl⟩

theorem access_of_translate_none (h : u.kernelMm.KmapOnly)
    (hnone : u.mm.translate u.phys v prot = none) (gs : List (Guard LockId)) (n : ℕ)
    (d : World F) : ∃ e, s.access gs v prot n d u = .error e := by
  by_cases hv : v < userSpaceEnd
  · cases n with
    | zero => exact ⟨.diverges, rfl⟩
    | succ n =>
      obtain ⟨e, he⟩ := pageFault_user (s := s) h hv gs d
      rw [Surroundings.access, hnone, he]
      exact ⟨e, rfl⟩
  · exact access_above hv gs n d

section Platform

variable (gs : List (Guard LockId)) (d : World F) (b : BitVec 8)

theorem platform_load (h : u.mm.translate u.phys v .read = some f) :
    s.platform.load gs d u v = .ok ((u.phys.mem f).byte (v % pageSize), d, u) := by
  simp only [Surroundings.platform, Mm.accessTries, access_of_translate h, Checked.ok_bind]
  rfl

theorem platform_store (h : u.mm.translate u.phys v .write = some f) :
    s.platform.store gs d u v b =
      .ok (d, { u with phys := u.phys.setPage f ((u.phys.mem f).setByte (v % pageSize) b) }) := by
  simp only [Surroundings.platform, Mm.accessTries, access_of_translate h, Checked.ok_bind]
  rfl

theorem platform_not_load (h : u.kernelMm.KmapOnly)
    (hnone : u.mm.translate u.phys v .read = none) : ∃ e, s.platform.load gs d u v = .error e := by
  obtain ⟨e, he⟩ := access_of_translate_none (s := s) h hnone gs Mm.accessTries d
  simp only [Surroundings.platform, he]
  exact ⟨e, rfl⟩

theorem platform_not_store (h : u.kernelMm.KmapOnly)
    (hnone : u.mm.translate u.phys v .write = none) :
    ∃ e, s.platform.store gs d u v b = .error e := by
  obtain ⟨e, he⟩ := access_of_translate_none (s := s) h hnone gs Mm.accessTries d
  simp only [Surroundings.platform, he]
  exact ⟨e, rfl⟩

end Platform

theorem Space.Further.twins (s : Surroundings F) : Twins s.platform Space.Further Space.Has where
  load := by
    intro u u' gs d v hu hhas
    obtain ⟨f, hf⟩ := Option.ne_none_iff_exists'.mp hhas
    have hload' := platform_load (s := s) gs d (hu.user.translate hf)
    rw [hu.user.mem hf] at hload'
    exact ⟨_, platform_load gs d hf, hload'⟩
  store := by
    intro u u' gs d v b hu hhas
    obtain ⟨f, hf⟩ := Option.ne_none_iff_exists'.mp hhas
    have hstore' := platform_store (s := s) gs d b (hu.user.translate hf)
    rw [hu.user.mem hf] at hstore'
    refine ⟨_, _, platform_store gs d b hf, hstore', ⟨hu.user.setPage hf _, hu.kernel, hu.kmap⟩, ?_⟩
    intro t
    unfold Space.Has
    rw [hu.user.sound.translate_setPage hf]
  not_load := fun gs d v hu hhas => platform_not_load gs d hu.kmap (not_not.mp hhas)
  not_store := fun gs d v b hu hhas => platform_not_store gs d b hu.kmap (not_not.mp hhas)

end Touch

/-- The system calls that read or write a buffer of their caller. -/
inductive BufferCall where
  | read (fd ptr len : ℕ)
  | write (fd ptr len : ℕ)
  | writev (fd iovArrayBase len : ℕ)
  | pipe (fds : ℕ)
  | newfstatat (fd : ℤ) (pathAddr buf : ℕ)
  | getcwd (buf len : ℕ)
  | wait4 (pid : Int64) (wstatus : ℕ) (option : Int64)

namespace BufferCall

variable {F : Type}

/-- The code of a call, with a bound on the passes of each loop that can sleep. -/
def code (fs : FatDriver F) (passes : ℕ) : BufferCall → KernelCode F ℤ
  | read fd ptr len => sysRead fs fd ptr len passes
  | write fd ptr len => sysWrite fs fd ptr len passes
  | writev fd iovArrayBase len => sysWritev fs fd iovArrayBase len passes
  | pipe fds => sysPipe fds
  | newfstatat fd pathAddr buf => sysNewfstatat fs fd pathAddr buf
  | getcwd buf len => sysGetcwd buf len
  | wait4 pid wstatus option => sysWait4 pid wstatus option passes

def run (fs : FatDriver F) (passes : ℕ) (s : Surroundings F) (call : BufferCall)
    (gs : List (Guard LockId)) (d : World F) (u : Space) : Run LockId (World F) Space ℤ :=
  (call.code fs passes).exec s.platform gs d u

/-- A call returns the same, with the same effect, before and after its caller has touched
memory, and does not fault, exactly when all pages that it touches are resident before. -/
theorem sameRun_iff (fs : FatDriver F) (passes : ℕ) (s : Surroundings F) (call : BufferCall)
    (gs : List (Guard LockId)) (d : World F) {u : Space} (hsound : u.mm.Sound u.phys)
    (hkmap : u.kernelMm.KmapOnly) {addrs : List (ℕ × PgFaultProt)} {mm' : Mm} {phys' : Phys}
    (htouch : u.mm.touchAll addrs u.phys = .ok (mm', phys')) :
    SameRun Space.Further (call.run fs passes s gs d u)
        (call.run fs passes s gs d { u with mm := mm', phys := phys' }) ∧
      ¬(call.run fs passes s gs d u).Faults ↔
      ∀ t ∈ (call.run fs passes s gs d { u with mm := mm', phys := phys' }).touched, u.Has t := by
  have hfurther := (hsound.touchAll addrs).of_ok htouch
  exact (Space.Further.twins s).same_iff (call.code fs passes) gs d ⟨hfurther, rfl, hkmap⟩

def bareProgram : Program Phys Mm := Mm.newFromElf [] ⟨0, []⟩

def bareWorld : World Unit where
  kernel := { Kernel.coreInit.create none true with running := 1 }
  files := Descriptors.boot.createUserTask
  pos := fun _ => 0
  pwd := fun _ => [0x2F]
  pwdInode := fun _ => 0
  fat := ()

def alone : Surroundings Unit where
  busy := fun _ _ => false
  others := fun _ d => d

def bareSpace (mm : Mm) (p : Phys) : Space :=
  ⟨mm, .newKernMmByPagetable kernelPagetable, p⟩

/-- `getcwd` with a buffer on the stack, before and after the heap is touched. -/
theorem sameRun_iff_getcwd : ∃ mm p mm' p', bareProgram .bare = .ok (mm, p) ∧
    mm.touchAll [(0x1000, .write)] p = .ok (mm', p') ∧
    (SameRun Space.Further ((getcwd 0xffffff0 2).run noFiles 0 alone [] bareWorld (bareSpace mm p))
        ((getcwd 0xffffff0 2).run noFiles 0 alone [] bareWorld (bareSpace mm' p')) ∧
      ¬((getcwd 0xffffff0 2).run noFiles 0 alone [] bareWorld (bareSpace mm p)).Faults ↔
      ∀ t ∈ ((getcwd 0xffffff0 2).run noFiles 0 alone [] bareWorld (bareSpace mm' p')).touched,
        (bareSpace mm p).Has t) := by
  have hrun : ((bareProgram >>= fun mm => mm.touchAll [(0x1000, .write)]) .bare).map
      (fun r => r.1.brk) = .ok 0x2000 := by
    decide +kernel
  obtain ⟨⟨mm', p'⟩, hrun, -⟩ := Checked.map_eq_ok.mp hrun
  rw [bind_apply, Checked.bind_eq_ok] at hrun
  obtain ⟨⟨mm, p⟩, hload, htouch⟩ := hrun
  have hsound := ((Mm.newFromElf_sat [] ⟨0, []⟩).of_ok hload).tidy.sound
  have hkmap := Mm.kmapOnly_newKernMmByPagetable kernelPagetable
  have hiff := sameRun_iff noFiles 0 alone (getcwd 0xffffff0 2) [] bareWorld
    (u := bareSpace mm p) hsound hkmap htouch
  exact ⟨mm, p, mm', p', hload, htouch, hiff⟩

/-- What `getcwd` returns with a buffer in the heap, after addresses have been touched. -/
def cwdValue (addrs : List (ℕ × PgFaultProt)) : Checked (Except Stop ℤ) := do
  let (mm, p) ← bareProgram .bare
  let (mm, p) ← mm.touchAll addrs p
  let r := (getcwd 0x1000 2).run noFiles 0 alone [] bareWorld (bareSpace mm p)
  return r.result.map Prod.fst

/-- The first touch of the heap is that of the call, and ends in a panic. -/
theorem getcwd_faults :
    (bareProgram .bare).map (fun r => (r.1.findVma 0x1000).map fun e => e.2.permits .write) =
        .ok (some true) ∧
      cwdValue [(0x1000, .write)] = .ok (.ok 0) ∧
      cwdValue [] = .ok (.error (.fault 0x1000 (.explicit "error address access!"))) := by
  refine ⟨?_, ?_, ?_⟩
  · decide +kernel
  · decide +kernel
  · decide +kernel

end BufferCall

end Zinix
