import Zinix.Fs.Execve
import Zinix.Task.NewProgram

/-!
# The call `execve`

`sys_execve` holds the lock of the caller while it reads its arguments, so that a page that
is not there cannot be brought in. Where one of its steps fails, the kernel stops.
-/

namespace Zinix

open Program Phys

/-- The trap frame of a user task: the stack pointer and the arguments of the program, its
next instruction, and the stack pointer of the kernel. -/
structure UserFrame where
  regs : UserStack.Regs
  sepc : ℕ
  x2 : ℕ

/-- The address spaces of the tasks and of the kernel, the page table that is installed, the
files of the tasks, and the trap frame of the call. -/
structure ExecWorld where
  spaces : Spaces
  kern : Mm
  satp : ℕ
  files : TaskFiles
  tf : UserFrame

section Read

variable (peek : ℕ → Option Byte)

/-- An access of the kernel to memory that is not there. The handler of the fault waits for the
lock that the call holds. -/
def Checked.access {α : Type} : Option α → Checked α
  | some a => return a
  | none => throw (.explicit "Dead Lock!")

/-- The loop of `convert_cstr_from_ptr`, with the string so far. -/
def convertCstrFromPtr : ℕ → ℕ → String → Checked String
  | 0, _, _ => throw .diverges
  | fuel + 1, ptrProbe, s => do
    let c ← Checked.access (peek ptrProbe)
    if c = 0 then
      return s
    else
      convertCstrFromPtr fuel (ptrProbe + 1) (s.push (Char.ofNat c.toNat))

def readArgv (strFuel : ℕ) : ℕ → ℕ → List String → Checked (List String)
  | 0, _, _ => throw .diverges
  | fuel + 1, argvPtr, argv => do
    Checked.ensure (argvPtr % 8 = 0) .assertion
    let argPtr ← Checked.access (readWord peek argvPtr)
    if argPtr = 0 then
      return argv
    else do
      let arg ← convertCstrFromPtr peek strFuel argPtr ""
      readArgv strFuel fuel (argvPtr + 8) (argv ++ [arg])

end Read

namespace ExecWorld

variable (ld : Loader) (image : KernelImage) (w : ExecWorld) (t i : ℕ)

def fullPath (path : String) : String := (w.files.cwd t).pwd ++ path

def takeOver (task : NewTask) (sepc : ℕ) (p : Phys) : ExecWorld where
  spaces := { w.spaces with phys := p, mms := replaceAt w.spaces.mms i (some task.mm) }
  kern := w.kern
  satp := task.mm.pagetable
  files := w.files.execveFromTsk t
  tf := ⟨task.regs, sepc, w.tf.x2⟩

/-- `sys_execve` after the path and the arguments have been read, for task `t` with the
address space `i`. The old address space goes at the end, and the kernel stack of the new task
after it. -/
def execve (path : String) (args : List String) : Checked (ℤ × ExecWorld) := do
  let ((created, kern), p) ← ld.createUserTask image w.kern (w.fullPath t path) args w.spaces.phys
  match created with
  | none => throw (.explicit "execve")
  | some task => do
    let oldMm ← Checked.unwrap (w.spaces.mms i)
    -- the return from the call skips an instruction
    let sepc ← subUsize task.entry 4
    let (_, p) ← oldMm.drop p
    return (0, { w with kern := kern }.takeOver t i task sepc (p.withoutBlock task.kernelStack))

/-- The arguments are addresses in the memory of the caller, which the kernel reads through the
page table that is installed. -/
def sysExecve (peek : ℕ → Option Byte) (fuel pathPtr argvPtr : ℕ) : Checked (ℤ × ExecWorld) := do
  let path ← convertCstrFromPtr peek fuel pathPtr ""
  let argv ← readArgv peek fuel fuel argvPtr []
  w.execve ld image t i path argv

end ExecWorld

structure HoldsStr (peek : ℕ → Option Byte) (a : ℕ) (bytes : List Byte) : Prop where
  noZero : 0 ∉ bytes
  holds : HoldsAt peek a (bytes ++ [0])

/-- A vector of pointers to strings, with a null pointer at its end. -/
structure ArgVector (peek : ℕ → Option Byte) (a : ℕ) (args : List (List Byte)) : Prop where
  aligned : a % 8 = 0
  entry : ∀ i s, args[i]? = some s → ∃ ptr, ptr ≠ 0 ∧ readWord peek (a + 8 * i) = some ptr ∧
    HoldsStr peek ptr s
  last : readWord peek (a + 8 * args.length) = some 0

/-- The string that is made of bytes: every byte becomes the character of its number. -/
def latin (bytes : List Byte) : String := String.ofList (bytes.map fun c => Char.ofNat c.toNat)

section Read

variable {peek : ℕ → Option Byte} {fuel a : ℕ}
  {bytes s : List Byte} {args : List (List Byte)} {strFuel : ℕ}

theorem append_latin_cons (s : String) (c : Byte) (bytes : List Byte) :
    s.push (Char.ofNat c.toNat) ++ latin bytes = s ++ latin (c :: bytes) := by
  rw [String.ext_iff]
  simp [latin]

theorem convertCstrFromPtr_eq (h : HoldsStr peek a bytes) (hfuel : bytes.length < fuel)
    (s : String) :
    convertCstrFromPtr peek fuel a s = .ok (s ++ latin bytes) := by
  induction bytes generalizing fuel a s with
  | nil =>
    obtain ⟨n, rfl⟩ := Nat.exists_eq_succ_of_ne_zero (Nat.ne_of_gt hfuel)
    have hzero := (holdsAt_cons.mp h.holds).1
    simp [convertCstrFromPtr, hzero, Checked.access, latin]
  | cons c bytes ih =>
    obtain ⟨n, rfl⟩ := Nat.exists_eq_succ_of_ne_zero (Nat.ne_of_gt (Nat.zero_lt_of_lt hfuel))
    obtain ⟨hc, hrest⟩ := holdsAt_cons.mp h.holds
    have hne : c ≠ 0 := fun hzero => h.noZero (by simp [hzero])
    have hnext : HoldsStr peek (a + 1) bytes :=
      ⟨fun hmem => h.noZero (List.mem_cons_of_mem _ hmem), hrest⟩
    rw [List.length_cons] at hfuel
    simp only [convertCstrFromPtr, hc, Checked.access, Checked.pure_eq, Checked.ok_bind,
      if_neg hne]
    rw [ih hnext (by omega), append_latin_cons]

theorem ArgVector.tail (h : ArgVector peek a (s :: args)) : ArgVector peek (a + 8) args where
  aligned := by
    have := h.aligned
    omega
  entry := fun i s' hs => by
    have hentry := h.entry (i + 1) s' (by simpa using hs)
    rwa [show a + 8 * (i + 1) = a + 8 + 8 * i by ring] at hentry
  last := by
    have hlast := h.last
    rwa [List.length_cons, show a + 8 * (args.length + 1) = a + 8 + 8 * args.length by ring]
      at hlast

theorem readArgv_eq (h : ArgVector peek a args) (hlen : ∀ s ∈ args, s.length < strFuel)
    (hfuel : args.length < fuel) (argv : List String) :
    readArgv peek strFuel fuel a argv = .ok (argv ++ args.map latin) := by
  induction args generalizing fuel a argv with
  | nil =>
    obtain ⟨n, rfl⟩ := Nat.exists_eq_succ_of_ne_zero (Nat.ne_of_gt hfuel)
    have hlast := h.last
    rw [List.length_nil, Nat.mul_zero, Nat.add_zero] at hlast
    simp [readArgv, h.aligned, hlast, Checked.access]
  | cons s args ih =>
    obtain ⟨n, rfl⟩ := Nat.exists_eq_succ_of_ne_zero (Nat.ne_of_gt (Nat.zero_lt_of_lt hfuel))
    obtain ⟨ptr, hne, hword, hstr⟩ := h.entry 0 s rfl
    rw [Nat.mul_zero, Nat.add_zero] at hword
    rw [List.length_cons] at hfuel
    have hread := convertCstrFromPtr_eq hstr (hlen s (List.mem_cons_self ..)) ""
    simp only [readArgv, Checked.ensure_pos h.aligned, hword, Checked.access, Checked.pure_eq,
      Checked.ok_bind, if_neg hne, hread]
    rw [ih h.tail (fun s hs => hlen s (List.mem_cons_of_mem _ hs)) (by omega)]
    simp

theorem ArgVector.cons {ptr : ℕ} (halign : a % 8 = 0) (hne : ptr ≠ 0)
    (hword : readWord peek a = some ptr) (hstr : HoldsStr peek ptr s)
    (h : ArgVector peek (a + 8) args) : ArgVector peek a (s :: args) where
  aligned := halign
  entry := by
    rintro (- | i) s' hs
    · cases hs
      exact ⟨ptr, hne, hword, hstr⟩
    · rw [show a + 8 * (i + 1) = a + 8 + 8 * i by ring]
      exact h.entry i s' (by simpa using hs)
  last := by
    rw [List.length_cons, show a + 8 * (args.length + 1) = a + 8 + 8 * args.length by ring]
    exact h.last

def EndsBelow (peek : ℕ → Option Byte) (fuel : ℕ) : Prop := ∀ a, peek a ≠ none → a + 1 < fuel

theorem HoldsStr.length_lt (h : HoldsStr peek a bytes) (hspan : EndsBelow peek fuel) :
    bytes.length < fuel := by
  have hlast := h.holds bytes.length (by simp)
  have hend := hspan (a + bytes.length) (by simp [hlast])
  omega

theorem ArgVector.length_lt (h : ArgVector peek a args) (hspan : EndsBelow peek fuel) :
    args.length < fuel := by
  have hend := hspan (a + 8 * args.length) fun hnone => by
    have hlast := h.last
    simp [readWord, readBytes, hnone] at hlast
  omega

end Read

section Stack

variable {peek peek' : ℕ → Option Byte} {regs : UserStack.Regs} {auxv : List AuxHeader}
  {args : List (List Byte)}

theorem UserStack.SetUp.congr (h : UserStack.SetUp peek regs auxv args)
    (hpeek : ∀ i < pageSize, peek' (UserStack.topPage + i) = peek (UserStack.topPage + i)) :
    UserStack.SetUp peek' regs auxv args := by
  obtain ⟨start, hregs, halign, hpos, hlt, hlaid⟩ := h
  refine ⟨start, hregs, halign, hpos, hlt, hlaid.pairwise, hlaid.random, hlaid.inPage,
    fun c hc i hi => ?_⟩
  obtain ⟨hlow, hhigh⟩ := hlaid.inPage c hc
  have hmax : userStackMaxAddr = UserStack.topPage + pageSize := by decide
  have heq : UserStack.ptrOf start c.addr + i =
      UserStack.topPage + (UserStack.ptrOf start c.addr - UserStack.topPage + i) := by omega
  rw [heq, hpeek _ (by omega), ← heq]
  exact hlaid.holds c hc i hi

/-- A new program reads the same from the top page of its stack as long as nothing touches its
address space. -/
theorem Untouched.peek_topPage {mm : Mm} {p p' : Phys} {headers : List ProgramHeader}
    {file : MappedFile} (h : Untouched mm p p') (hbuilt : Mm.Built headers file mm p) :
    ∀ i < pageSize, mm.peek p' (UserStack.topPage + i) = mm.peek p (UserStack.topPage + i) := by
  obtain ⟨stack, f, hstack, hread, hget⟩ := hbuilt.topPage
  have htidy := (hbuilt.congr (h.sane hbuilt.sane)).tidy
  intro i hi
  rw [UserStack.topPage, hbuilt.tidy.peek_resident hstack hread hget hi,
    htidy.peek_resident hstack hread hget hi, h.mem f (.inr ⟨_, _, .of_get hstack hget⟩)]

end Stack

namespace ExecWorld

/-- The invariant of all states: the address spaces are apart from each other and from the
kernel, which has no temporary mapping. -/
structure Good (w : ExecWorld) : Prop where
  spaces : w.spaces.Good
  apart : KernelApart w.spaces.phys w.spaces.mms
  kern : w.kern = .newKernMmByPagetable kernelPagetable

/-- The new program is in place: the address space, the stack, the registers and the next
instruction, to which the return from the call adds four, are those of the program that the path
leads to. The other address spaces are left alone. -/
structure Installed (ld : Loader) (w : ExecWorld) (t i : ℕ) (path : String) (args : List String)
    (w' : ExecWorld) : Prop where
  program : ∃ place elf mm, ld.Loadable (w.fullPath t path) args place elf ∧
    w'.tf.sepc + 4 = elf.entry ∧ w'.spaces.mms = replaceAt w.spaces.mms i (some mm) ∧
    w'.satp = mm.pagetable ∧ Mm.Built elf.headers (ld.file place) mm w'.spaces.phys ∧
    UserStack.SetUp (mm.peek w'.spaces.phys) w'.tf.regs (elfAuxv elf.phEntrySize elf.entry)
      (args.map asBytes)
  others : ∀ j mm, j ≠ i → w.spaces.mms j = some mm → Untouched mm w.spaces.phys w'.spaces.phys
  kernelStack : w'.tf.x2 = w.tf.x2
  files : w'.files = w.files.execveFromTsk t
  kern : w'.kern = w.kern

/-- Nothing has happened to the caller and to the map of the kernel. -/
structure Unchanged (w : ExecWorld) (t i : ℕ) (w' : ExecWorld) : Prop where
  mm : w'.spaces.mms i = w.spaces.mms i
  fds : w'.files.files.opened t = w.files.files.opened t
  tf : w'.tf = w.tf
  satp : w'.satp = w.satp
  kern : w'.kern = w.kern

variable {ld : Loader} {image : KernelImage} {w w' : ExecWorld} {t i fuel pathPtr argvPtr : ℕ}
  {peek : ℕ → Option Byte} {path : List Byte} {args : List (List Byte)}

theorem Good.step (h : w.Good) {a : SpaceAction} {s : Spaces} (hstep : w.spaces.exec a = .ok s) :
    Good { w with spaces := s } := by
  have hchanged := h.spaces.changed hstep
  refine ⟨hchanged.good h.spaces, ?_, h.kern⟩
  cases hchanged with
  | made hm => exact h.apart.change (h.spaces.separate.change_made hm)
  | worked _ hi hw => exact h.apart.change (h.spaces.separate.change_worked hi hw)
  | exchanged _ hi hm hlocal => exact h.apart.exchange hi hm hlocal
  | dropped _ hi hlocal => exact h.apart.change (h.spaces.separate.change_dropped hi hlocal)

theorem Good.of_execve (h : w.Good) {path : String} {args : List String} {ret : ℤ}
    (hrun : w.execve ld image t i path args = .ok (ret, w')) :
    ret = 0 ∧ Installed ld w t i path args w' ∧ w'.Good := by
  obtain ⟨⟨⟨created, kern⟩, p₁⟩, hcreate, hrun⟩ := Checked.bind_eq_ok.mp hrun
  rw [h.kern] at hcreate
  rcases (Loader.createUserTask_sat h.apart.wide.beside h.apart.unmapped none ..).of_ok hcreate
    with ⟨-, hnone⟩ | ⟨place, elf, task, hload, heq, htask⟩
  · simp only at hnone
    subst hnone
    cases hrun
  · cases heq
    obtain ⟨old, hold, hrun⟩ := Checked.bind_eq_ok.mp hrun
    obtain ⟨sepc, hsepc, hrun⟩ := Checked.bind_eq_ok.mp hrun
    obtain ⟨⟨u, p₂⟩, hdrop, hrun⟩ := Checked.bind_eq_ok.mp hrun
    obtain ⟨hentry, rfl⟩ := subUsize_eq_ok.mp hsepc
    have hold := Checked.unwrap_eq_ok.mp hold
    obtain ⟨p, hdrop', hapart, huntouched, hothers⟩ := htask.takeOver hold
    cases hdrop.symm.trans hdrop'
    cases hrun
    have hbuilt := htask.built.congr (huntouched.sane htask.built.sane)
    refine ⟨rfl, ⟨⟨place, elf, task.mm, hload, ?_, rfl, rfl, hbuilt,
      htask.stack.congr (huntouched.peek_topPage htask.built)⟩, hothers, rfl, rfl, h.kern.symm⟩,
      ⟨⟨hapart.beside.separate, ?_⟩, hapart, rfl⟩⟩
    · rw [← htask.entry]
      exact Nat.sub_add_cancel hentry
    · exact (h.spaces.at (h.spaces.not_free hold) hapart.beside.separate).free

/-- The call returns if the program can be made and there are enough frames. -/
theorem Good.exists_execve (h : w.Good) (hmm : w.spaces.mms i ≠ none) {path : String}
    {args : List String} {place : List String} {elf : ElfFile} {live : Finset Frame}
    (hload : ld.Loadable (w.fullPath t path) args place elf) (hentry : 4 ≤ elf.entry)
    (hframes : HasFrames image w.spaces.phys.live w.spaces.phys (ld.framesAt place) live) :
    ∃ w', w.execve ld image t i path args = .ok (0, w') := by
  obtain ⟨old, hold⟩ := Option.ne_none_iff_exists'.mp hmm
  have hsat := Loader.createUserTask_sat h.apart.wide.beside h.apart.unmapped none ld image
    (w.fullPath t path) args
  cases hcreate : ld.createUserTask image w.kern (w.fullPath t path) args w.spaces.phys with
  | error e =>
    rw [h.kern] at hcreate
    exact absurd hframes (hsat.of_error hcreate place elf live hload)
  | ok r =>
    have hcreated := hcreate
    rw [h.kern] at hcreated
    rcases hsat.of_ok (a := r.1) (t := r.2) hcreated with
      ⟨hnone, -⟩ | ⟨place', elf', task, hload', heq, htask⟩
    · cases hnone.symm.trans hload.found
    · obtain ⟨rfl, rfl⟩ := hload.eq hload'
      obtain ⟨p₂, hdrop, -⟩ := htask.takeOver hold
      have hentry : 4 ≤ task.entry := htask.entry ▸ hentry
      obtain ⟨⟨created, kern⟩, p₁⟩ := r
      cases heq
      exact ⟨_, by simp only [execve, hcreate, Checked.ok_bind, hold, Checked.unwrap_some,
        subUsize_ok hentry, hdrop]; rfl⟩

/-- What a task passes to `execve`. The fuel is enough for what is in its memory. -/
structure Passes (peek : ℕ → Option Byte) (fuel pathPtr argvPtr : ℕ) (path : List Byte)
    (args : List (List Byte)) : Prop where
  isPath : HoldsStr peek pathPtr path
  isArgv : ArgVector peek argvPtr args
  pathLen : path.length < fuel
  argLen : ∀ s ∈ args, s.length < fuel
  argc : args.length < fuel

theorem Passes.sysExecve_eq (h : Passes peek fuel pathPtr argvPtr path args) :
    w.sysExecve ld image t i peek fuel pathPtr argvPtr =
      w.execve ld image t i (latin path) (args.map latin) := by
  rw [ExecWorld.sysExecve, convertCstrFromPtr_eq h.isPath h.pathLen,
    readArgv_eq h.isArgv h.argLen h.argc]
  simp

theorem passes_of_endsBelow (hspan : EndsBelow peek fuel) (hpath : HoldsStr peek pathPtr path)
    (hargv : ArgVector peek argvPtr args) : Passes peek fuel pathPtr argvPtr path args where
  isPath := hpath
  isArgv := hargv
  pathLen := hpath.length_lt hspan
  argLen := by
    intro s hs
    obtain ⟨j, hj⟩ := List.mem_iff_getElem?.mp hs
    obtain ⟨ptr, -, -, hstr⟩ := hargv.entry j s hj
    exact hstr.length_lt hspan
  argc := hargv.length_lt hspan

/-- The call returns, and it has either put the program in place that the caller has asked for, or
done nothing. -/
def Harmless (ld : Loader) (w : ExecWorld) (t i : ℕ) (peek : ℕ → Option Byte)
    (pathPtr argvPtr : ℕ) (r : Checked (ℤ × ExecWorld)) : Prop :=
  ∃ ret w', r = .ok (ret, w') ∧
    ((ret = 0 ∧ ∃ path args, HoldsStr peek pathPtr path ∧ ArgVector peek argvPtr args ∧
        Installed ld w t i (latin path) (args.map latin) w') ∨
      ret < 0 ∧ Unchanged w t i w')

end ExecWorld

section Elf

def Reader.bind {α β : Type} : Reader α → (α → Reader β) → Reader β
  | done a, k => k a
  | read off next, k => .read off fun b => (next b).bind k

instance : Monad Reader where
  pure := .done
  bind := .bind

/-- A number of `n` bytes, the lowest first. -/
def Reader.number (off : ℕ) : ℕ → Reader ℕ
  | 0 => return 0
  | n + 1 => .read off fun b => do return b.toNat + 256 * (← number (off + 1) n)

def elfHeader (off : ℕ) : Reader ProgramHeader := do
  let type ← Reader.number off 4
  let flags ← Reader.number (off + 4) 4
  let offset ← Reader.number (off + 8) 8
  let virtualAddr ← Reader.number (off + 16) 8
  let fileSize ← Reader.number (off + 32) 8
  let memSize ← Reader.number (off + 40) 8
  return ⟨type = 1, virtualAddr, memSize, fileSize, offset, flags.testBit 2, flags.testBit 1,
    flags.testBit 0⟩

def elf64 : Reader (Option ElfFile) := do
  let ident ← Reader.number 0 5
  if ident ≠ 0x02464c457f then
    return none
  else do
    let entry ← Reader.number 24 8
    let phOffset ← Reader.number 32 8
    let phEntrySize ← Reader.number 54 2
    let phCount ← Reader.number 56 2
    let headers ← (List.range phCount).mapM fun i => elfHeader (phOffset + phEntrySize * i)
    return some ⟨headers, phEntrySize, entry⟩

/-- A program of one instruction, which jumps to itself. -/
def lsElf : ElfFile where
  headers := [⟨true, 0x10000, 124, 124, 0, true, false, true⟩]
  phEntrySize := 56
  entry := 0x10078

/-- Its file: the header, one program header and the instruction. -/
def lsFile : MappedFile where
  id := 0
  bytes := [0x7f, 0x45, 0x4c, 0x46, 2, 1, 1] ++ List.replicate 9 0 ++
    [(2, 2), (2, 243), (4, 1), (8, 0x10078), (8, 64), (8, 0), (4, 0), (2, 64), (2, 56), (2, 1),
      (6, 0)].flatMap (fun (n, v) => leBytes n v) ++
    [(4, 1), (4, 5), (8, 0), (8, 0x10000), (8, 0x10000), (8, 124), (8, 124), (8, 0x1000)].flatMap
      (fun (n, v) => leBytes n v) ++ leBytes 4 0x6f

/-- The only file is the program `ls`. -/
def onlyLs : Loader where
  disk := fun place => if place = ["ls"] then some .file else none
  file := fun _ => lsFile
  parser := elf64

end Elf

namespace ExecWorld

variable {w : ExecWorld} {s s' : Spaces} {path arg : List Byte}

/-- What the kernel reads at an address of the user space. -/
def kernelPeek (w : ExecWorld) (a : ℕ) : Option Byte :=
  if a < userSpaceEnd then
    (w.spaces.phys.kernelRead w.satp a).map fun f => (w.spaces.phys.mem f).byte (a % pageSize)
  else
    none

theorem endsBelow_kernelPeek (w : ExecWorld) : EndsBelow w.kernelPeek (userSpaceEnd + 2) := by
  intro a ha
  by_contra hlt
  exact ha (if_neg (by omega))

def ofSpaces (s : Spaces) : ExecWorld where
  spaces := s
  kern := .newKernMmByPagetable kernelPagetable
  satp := 2
  files := ⟨.boot, fun _ => .init⟩
  tf := ⟨⟨0, 0, 0, 0, 0⟩, 0, 0⟩

theorem fullPath_ofSpaces (s : Spaces) (t : ℕ) (path : String) :
    (ofSpaces s).fullPath t path = "/" ++ path := rfl

theorem good_boot : Good (ofSpaces .boot) := by
  have hgood := Spaces.start_boot.good
  have hzero : ∀ i, kmapOwn i → Phys.bare.mem 0 i = 0 := fun _ _ => rfl
  have htables : Phys.bare.tables kernelPagetable = [0] := rfl
  refine ⟨hgood, ⟨⟨hgood.separate, ?_, ?_⟩, areasIn_newRoot htables hzero (by decide)⟩, rfl⟩
  · intro f hf
    exact Finset.mem_singleton.mpr (List.mem_singleton.mp hf)
  · rintro i mm f ⟨⟩

theorem Good.steps (h : Good (ofSpaces s)) {as : List SpaceAction}
    (hrun : as.foldlM Spaces.exec s = .ok s') : Good (ofSpaces s') := by
  induction as generalizing s with
  | nil =>
    cases hrun
    exact h
  | cons a as ih =>
    rw [List.foldlM_cons] at hrun
    obtain ⟨s₁, hstep, hrun⟩ := Checked.bind_eq_ok.mp hrun
    exact ih (h.step hstep) hrun

/-- A task forks, and the child stores a vector with one pointer, a path of two bytes and an
argument of one in its stack. -/
def asking (a b c : Byte) : List SpaceAction :=
  .create ⟨lsElf.headers, lsFile, lsElf.phEntrySize, lsElf.entry, [asBytes "ls"]⟩ :: .fork 0 ::
    [(0, 0x18), (2, 0xff), (3, 0x0f), (0x10, a), (0x11, b), (0x18, c)].map
      fun (off, b) => .store 1 (0xfff0000 + off) b

def Asks (s : Spaces) (path arg : List Byte) : Prop :=
  let peek := (ofSpaces s).kernelPeek
  (s.mms 1).isSome ∧ HoldsAt peek 0xfff0010 (path ++ [0]) ∧ HoldsAt peek 0xfff0018 (arg ++ [0]) ∧
    readWord peek 0xfff0000 = some 0xfff0018 ∧ readWord peek 0xfff0008 = some 0

instance : Decidable (Asks s path arg) := by
  unfold Asks
  infer_instance

theorem Asks.holdsStr (h : Asks s path arg) (hzero : 0 ∉ path) :
    HoldsStr (ofSpaces s).kernelPeek 0xfff0010 path := ⟨hzero, h.2.1⟩

theorem Asks.argVector (h : Asks s path arg) (hzero : 0 ∉ arg) :
    ArgVector (ofSpaces s).kernelPeek 0xfff0000 [arg] := by
  obtain ⟨-, -, harg, hword, hlast⟩ := h
  exact .cons rfl (by decide) hword ⟨hzero, harg⟩ ⟨rfl, nofun, hlast⟩

/-- There are enough frames for `ls`, and none of them is in the block that is kept. -/
def Spacious (p : Phys) : Prop :=
  ∃ live ∈ p.liveAfter (onlyLs.framesAt ["ls"]), (live.filter fun f => 0x1000 ≤ f.val).card = 0

instance (p : Phys) : Decidable (Spacious p) :=
  decidable_of_iff ((p.liveAfter (onlyLs.framesAt ["ls"])).any fun live =>
    (live.filter fun f => 0x1000 ≤ f.val).card = 0) (by simp [Spacious, Option.any_eq_true])

theorem directMapped_of_lt {f : Frame} (h : f.val < 0x1000) : DirectMapped f := by
  rw [DirectMapped, Frame.paddr, phyMemOffset, pageSize, userStackMaxAddr, wordSize]
  omega

theorem Spacious.hasFrames {p : Phys} (h : Spacious p) :
    ∃ live, HasFrames CloneState.reserveImage p.live p (onlyLs.framesAt ["ls"]) live := by
  obtain ⟨live, hlive, hcard⟩ := h
  have hlow : ∀ f ∈ live, f.val < 0x1000 := fun f hf =>
    Nat.lt_of_not_le (Finset.filter_eq_empty_iff.mp (Finset.card_eq_zero.mp hcard) hf)
  refine ⟨live, hlive, fun f hf _ => directMapped_of_lt (hlow f hf),
    fun used _ hused => ⟨0x1000, ?_, by decide⟩⟩
  have hblock : ∀ i < 2 ^ kernelStackSizeOrder, 0x1000 ≤ (Frame.inBlock 0x1000 i).val := by decide
  have hfree : ∀ i < 2 ^ kernelStackSizeOrder, Frame.inBlock 0x1000 i ∉ used := fun i hi hmem =>
    Nat.not_lt_of_le (hblock i hi) (hlow _ (hused hmem))
  exact if_pos hfree

theorem loadable_ls (s : Spaces) (t : ℕ) : onlyLs.Loadable
    ((ofSpaces s).fullPath t (latin [0x6c, 0x73])) ([[0xe9]].map latin) ["ls"] lsElf where
  found := by
    rw [fullPath_ofSpaces, components_eq]
    decide +kernel
  notRoot := by decide
  fits := by decide +kernel
  parsed := by decide +kernel
  image := by decide
  strings := by decide +kernel

theorem exists_asks_ls : ∃ s, (asking 0x6c 0x73 0xe9).foldlM Spaces.exec .boot = .ok s ∧
    Asks s [0x6c, 0x73] [0xe9] ∧ Spacious s.phys := by
  have hrun : ((asking 0x6c 0x73 0xe9).foldlM Spaces.exec .boot).map
      (fun s => (decide (Asks s [0x6c, 0x73] [0xe9]), decide (Spacious s.phys))) =
        .ok (true, true) := by
    decide +kernel
  obtain ⟨s, hs, hfacts⟩ := Checked.map_eq_ok.mp hrun
  simp only [Prod.mk.injEq, decide_eq_true_eq] at hfacts
  exact ⟨s, hs, hfacts⟩

end ExecWorld

end Zinix
