import Zinix.Lib.Chunks
import Zinix.Mm.ElfLoad

/-!
# The stack of a new user task

`create_user_task` lays out its strings and arrays from the top of the stack downwards. It
writes them through the direct map of the kernel and hands out the addresses that the user
will see.
-/

namespace Zinix

open Program

/-- `as_bytes`. -/
def asBytes (s : String) : List Byte := s.toUTF8.data.toList.map UInt8.toBitVec

structure AuxHeader where
  auxType : ℕ
  value : ℕ
  deriving DecidableEq

def AuxHeader.words (h : AuxHeader) : List ℕ := [h.auxType, h.value]

def atNull : ℕ := 0
def atPhent : ℕ := 4
def atPhnum : ℕ := 5
def atPagesz : ℕ := 6
def atBase : ℕ := 7
def atFlags : ℕ := 8
def atEntry : ℕ := 9
def atNotelf : ℕ := 10
def atUid : ℕ := 11
def atEuid : ℕ := 12
def atGid : ℕ := 13
def atEgid : ℕ := 14
def atPlatform : ℕ := 15
def atHwcap : ℕ := 16
def atClktck : ℕ := 17
def atSecure : ℕ := 23
def atRandom : ℕ := 25
def atExecfn : ℕ := 31

/-- The vector that `new_from_elf` returns. -/
def elfAuxv (phEntrySize entry : ℕ) : List AuxHeader :=
  [⟨atPhent, phEntrySize⟩, ⟨atPhnum, 0⟩, ⟨atPagesz, pageSize⟩, ⟨atBase, 0⟩, ⟨atFlags, 0⟩,
    ⟨atEntry, entry⟩, ⟨atUid, 0⟩, ⟨atEuid, 0⟩, ⟨atGid, 0⟩, ⟨atEgid, 0⟩, ⟨atPlatform, 0⟩,
    ⟨atHwcap, 0⟩, ⟨atClktck, 100⟩, ⟨atSecure, 0⟩, ⟨atNotelf, 0x112d⟩, ⟨atNull, 0⟩]

namespace UserStack

/-- The environment of every task. It stays folded in proofs, as nothing depends on its strings. -/
@[irreducible] def env : List (List Byte) :=
  ["SHELL=/user_shell", "PWD=/", "USER=root", "MOTD_SHOWN=pam", "LANG=C.UTF-8",
    "INVOCATION_ID=e9500a871cf044d9886a157f53826684", "TERM=vt220", "SHLVL=2",
    "JOURNAL_STREAM=8:9265", "OLDPWD=/root", "_=busybox", "LOGNAME=root", "HOME=/",
    "PATH=/"].map asBytes

def platform : List Byte := asBytes "RISC-V64"

def random : List Byte := (List.range 0xf).map (BitVec.ofNat 8)

structure Regs where
  sp : ℕ
  argc : ℕ
  argv : ℕ
  envp : ℕ
  auxv : ℕ
  deriving DecidableEq

section Code

/-- `a + b - c`. It stays folded, as the unifier would count down the top of the user space. -/
@[irreducible] def shiftUsize (a b c : ℕ) : Checked ℕ := do subUsize (← addUsize a b) c

/-- The address under which the user sees an address of the page that ends at `start`. -/
def userAddr (start sp : ℕ) : Checked ℕ := shiftUsize sp userStackMaxAddr start

def fullAuxv (auxv : List AuxHeader) (randomAddr execfn : ℕ) : List AuxHeader :=
  let auxv := auxv ++ [⟨atRandom, randomAddr⟩] ++ [⟨atExecfn, execfn⟩]
  if auxv.length < 38 then auxv ++ [⟨atNull, 0⟩] else auxv

section Write

/-! The code with any way to store. -/

variable {m : Type → Type} [Monad m] [MonadLiftT Checked m] (write : ℕ → List Byte → m Unit)

def writeWords (addr : ℕ) : List ℕ → m Unit
  | [] => return ()
  | w :: ws => do
    write addr (wordBytes w)
    writeWords (addr + 8) ws

/-- The bodies of the loops over the environment and over the arguments. -/
def pushString (start : ℕ) (st : ℕ × List ℕ) (s : List Byte) : m (ℕ × List ℕ) := do
  let userSp ← subUsize st.1 (← addUsize s.length 1)
  let ptr ← userAddr start userSp
  write userSp (s ++ [0])
  return (userSp, st.2 ++ [ptr])

/-- An array of pointers, whose last entry is stored first. -/
def pushPointers (userSp : ℕ) (ptrs : List ℕ) : m ℕ := do
  let userSp ← subUsize userSp ((ptrs.length + 1) * 8)
  write (userSp + 8 * ptrs.length) (wordBytes 0)
  writeWords write userSp ptrs
  return userSp

/-- `create_user_task` from the first line that writes to the stack on. -/
def buildBy (start : ℕ) (auxv : List AuxHeader) (args : List (List Byte)) : m Regs := do
  let (userSp, envp) ← env.foldlM (pushString write start) (start, [])
  let userSp ← subUsize userSp (userSp % 8)
  let (userSp, argv) ← args.foldlM (pushString write start) (userSp, [])
  let userSp ← subUsize userSp (userSp % 8)
  -- The platform string, which the vector does not mention.
  let userSp ← subUsize userSp (platform.length + 1)
  let userSp ← subUsize userSp (userSp % 8)
  write userSp (platform ++ [0])
  let userSp ← subUsize userSp 16
  let randomAddr ← userAddr start userSp
  write userSp random
  let userSp ← subUsize userSp (userSp % 16)
  let auxv := fullAuxv auxv randomAddr ((argv ++ [0]).headD 0)
  let userSp ← subUsize userSp (auxv.length * 16)
  let auxvBase ← userAddr start userSp
  writeWords write userSp (auxv.flatMap AuxHeader.words)
  let userSp ← pushPointers write userSp envp
  let envpBase ← userAddr start userSp
  let userSp ← pushPointers write userSp argv
  let argvBase ← userAddr start userSp
  let userSp ← subUsize userSp 8
  write userSp (wordBytes args.length)
  let haveUsed ← subUsize start userSp
  Checked.ensure (haveUsed < pageSize) .assertion
  let sp ← subUsize userStackMaxAddr haveUsed
  return { sp, argc := args.length, argv := argvBase, envp := envpBase, auxv := auxvBase }

end Write

/-- Stores through the direct map. There is no page below it. -/
def writeVirt (addr : ℕ) (bytes : List Byte) : Program Phys Unit := do
  Checked.ensure (phyMemOffset ≤ addr) (.explicit "error address access!")
  modify fun p => p.writeBytes (addr - phyMemOffset) bytes

def build (start : ℕ) (auxv : List AuxHeader) (args : List (List Byte)) : Program Phys Regs :=
  buildBy writeVirt start auxv args

/-- `a + b + c`, folded as well. -/
@[irreducible] def sumUsize (a b c : ℕ) : Checked ℕ := do addUsize (← addUsize a b) c

def userSpStart (pg : Frame) : Checked ℕ := sumUsize pg.paddr phyMemOffset pageSize

end Code

end UserStack

/-- The arguments are written to the first page of the stack. -/
def Mm.writeArgs (mm : Mm) (phEntrySize entry : ℕ) (args : List (List Byte)) :
    Program Phys (Option (Mm × UserStack.Regs)) :=
  match mm.findVma (userStackMaxAddr - pageSize) with
  | none => return none
  | some (k, stackVma) => do
    let (stackArgsPg, stackVma) ← stackVma.fastAllocOnePageAndGet (userStackMaxAddr - pageSize)
    let start ← UserStack.userSpStart stackArgsPg
    let regs ← UserStack.build start (elfAuxv phEntrySize entry) args
    return some (mm.setVma k stackVma, regs)

/-- The address space and the first registers of a new user task. -/
def Mm.createUserTaskWith (headers : List ProgramHeader) (file : MappedFile)
    (phEntrySize entry : ℕ) (args : List (List Byte)) :
    Program Phys (Option (Mm × UserStack.Regs)) := do
  let mm ← newFromElf headers file
  mm.writeArgs phEntrySize entry args

namespace UserStack

section Layout

/-- The stack pointer after some strings have been pushed. -/
def strSp : ℕ → List (List Byte) → ℕ
  | sp, [] => sp
  | sp, s :: ss => strSp (sp - (s.length + 1)) ss

def strChunks : ℕ → List (List Byte) → List Chunk
  | _, [] => []
  | sp, s :: ss => ⟨sp - (s.length + 1), s ++ [0]⟩ :: strChunks (sp - (s.length + 1)) ss

/-- The address under which the user sees an address of the kernel. -/
def ptrOf (start a : ℕ) : ℕ := a + userStackMaxAddr - start

def ptrsOf (start : ℕ) (cs : List Chunk) : List ℕ := cs.map fun c => ptrOf start c.addr

variable (start : ℕ) (auxv : List AuxHeader) (args : List (List Byte))

def argTop : ℕ := strSp start env - strSp start env % 8

def argSp : ℕ := strSp (argTop start) args

/-- The place for the platform string before it is aligned. -/
def platformTop : ℕ := argSp start args - argSp start args % 8 - (platform.length + 1)

def platformSp : ℕ := platformTop start args - platformTop start args % 8

def randomSp : ℕ := platformSp start args - 16

def envPtrs : List ℕ := ptrsOf start (strChunks start env)

def argPtrs : List ℕ := ptrsOf start (strChunks (argTop start) args)

def stackAuxv : List AuxHeader :=
  fullAuxv auxv (ptrOf start (randomSp start args)) ((argPtrs start args ++ [0]).headD 0)

def auxvTop : ℕ := randomSp start args - randomSp start args % 16

def auxvSp : ℕ := auxvTop start args - (stackAuxv start auxv args).length * 16

def envpSp : ℕ := auxvSp start auxv args - (env.length + 1) * 8

def argvSp : ℕ := envpSp start auxv args - (args.length + 1) * 8

def argcSp : ℕ := argvSp start auxv args - 8

def auxvWords : List ℕ := (stackAuxv start auxv args).flatMap AuxHeader.words

def pointerChunks (sp : ℕ) (ptrs : List ℕ) : List Chunk :=
  ⟨sp + 8 * ptrs.length, wordBytes 0⟩ :: wordChunks sp ptrs

def stores : List Chunk :=
  strChunks start env ++ (strChunks (argTop start) args ++
    ([⟨platformSp start args, platform ++ [0]⟩] ++ ([⟨randomSp start args, random⟩] ++
      (wordChunks (auxvSp start auxv args) (auxvWords start auxv args) ++
        (pointerChunks (envpSp start auxv args) (envPtrs start) ++
          (pointerChunks (argvSp start auxv args) (argPtrs start args) ++
            [⟨argcSp start auxv args, wordBytes args.length⟩]))))))

def parts : List Chunk :=
  strChunks start env ++ (strChunks (argTop start) args ++
    [⟨platformSp start args, platform ++ [0]⟩, ⟨randomSp start args, random⟩,
      ⟨auxvSp start auxv args, (auxvWords start auxv args).flatMap wordBytes⟩,
      ⟨envpSp start auxv args, (envPtrs start ++ [0]).flatMap wordBytes⟩,
      ⟨argvSp start auxv args, (argPtrs start args ++ [0]).flatMap wordBytes⟩,
      ⟨argcSp start auxv args, wordBytes args.length⟩])

def regsOf : Regs where
  sp := userStackMaxAddr - (start - argcSp start auxv args)
  argc := args.length
  argv := ptrOf start (argvSp start auxv args)
  envp := ptrOf start (envpSp start auxv args)
  auxv := ptrOf start (auxvSp start auxv args)

end Layout

section Layout

variable {start sp : ℕ} {auxv : List AuxHeader} {args strs : List (List Byte)} {mem : ℕ → Byte}

theorem strSp_le : strSp sp strs ≤ sp := by
  induction strs generalizing sp with
  | nil => exact le_rfl
  | cons s strs ih => exact ih.trans (Nat.sub_le ..)

def strSize (strs : List (List Byte)) : ℕ := (strs.map fun s => s.length + 1).sum

theorem strSp_eq : strSp sp strs = sp - strSize strs := by
  induction strs generalizing sp with
  | nil => rfl
  | cons s strs ih =>
    have hsize : strSize (s :: strs) = s.length + 1 + strSize strs := List.sum_cons
    rw [strSp, ih, hsize, Nat.sub_sub]

theorem bottom_strChunks : Chunk.bottom sp (strChunks sp strs) = strSp sp strs := by
  induction strs generalizing sp with
  | nil => rfl
  | cons s strs ih => exact ih

theorem strSp_le_bottom {top : ℕ} (h : sp ≤ top) :
    strSp sp strs ≤ Chunk.bottom top (strChunks sp strs) := by
  cases strs with
  | nil => exact h
  | cons s strs => exact bottom_strChunks.ge

theorem length_strChunks : (strChunks sp strs).length = strs.length := by
  induction strs generalizing sp with
  | nil => rfl
  | cons s strs ih => rw [strChunks, List.length_cons, ih, List.length_cons]

theorem stacked_strChunks (h : 0 < strSp sp strs) : Chunk.Stacked sp (strChunks sp strs) := by
  induction strs generalizing sp with
  | nil => trivial
  | cons s strs ih =>
    have hle : strSp (sp - (s.length + 1)) strs ≤ sp - (s.length + 1) := strSp_le
    rw [strSp] at h
    refine ⟨?_, ih h⟩
    simp only [Chunk.stop, List.length_append, List.length_singleton]
    omega

theorem bytes_strChunks {i : ℕ} : ((strChunks sp strs)[i]?).map Chunk.bytes =
    (strs[i]?).map fun s => s ++ [0] := by
  induction strs generalizing sp i with
  | nil => rfl
  | cons s strs ih =>
    cases i with
    | zero => rfl
    | succ i => exact ih

theorem length_words (hs : List AuxHeader) :
    (hs.flatMap AuxHeader.words).length = 2 * hs.length := by
  induction hs with
  | nil => rfl
  | cons h hs ih =>
    rw [List.flatMap_cons, List.length_append, ih, List.length_cons]
    change 2 + _ = _
    omega

theorem length_auxv_bytes : ((auxvWords start auxv args).flatMap wordBytes).length =
    (stackAuxv start auxv args).length * 16 := by
  rw [length_flatMap_wordBytes, auxvWords, length_words]
  omega

theorem length_ptrs_bytes (cs : List Chunk) :
    ((ptrsOf start cs ++ [0]).flatMap wordBytes).length = (cs.length + 1) * 8 := by
  rw [length_flatMap_wordBytes, List.length_append, ptrsOf, List.length_map, List.length_singleton]
  omega

theorem writeAll_pointerChunks (ptrs : List ℕ) : Chunk.writeAll mem (pointerChunks sp ptrs) =
    Chunk.write mem ⟨sp, (ptrs ++ [0]).flatMap wordBytes⟩ := by
  have hzero : [0].flatMap wordBytes = wordBytes 0 := List.append_nil _
  rw [pointerChunks, Chunk.writeAll_cons, writeAll_wordChunks, List.flatMap_append, hzero,
    ← Chunk.write_upper_lower, length_flatMap_wordBytes]

theorem writeAll_stores : Chunk.writeAll mem (stores start auxv args) =
    Chunk.writeAll mem (parts start auxv args) := by
  simp only [stores, parts, Chunk.writeAll_append, Chunk.writeAll_cons, Chunk.writeAll_nil,
    writeAll_wordChunks, writeAll_pointerChunks]

theorem length_platform : platform.length = 8 := by decide +kernel

theorem length_random : random.length = 15 := by decide

def roundUp (n a : ℕ) : ℕ := (a + (n - 1)) / n * n

/-- The bytes of its first page that a new task finds in use. -/
def stackUsed (auxv : List AuxHeader) (args : List (List Byte)) : ℕ :=
  let strings := roundUp 8 (roundUp 8 (strSize env) + strSize args)
  let random := roundUp 8 (strings + (platform.length + 1)) + 16
  roundUp 16 random + (fullAuxv auxv 0 0).length * 16 + (env.length + 1) * 8 +
    (args.length + 1) * 8 + 8

theorem length_fullAuxv (auxv : List AuxHeader) (a b : ℕ) :
    (fullAuxv auxv a b).length = (fullAuxv auxv 0 0).length := by
  simp only [fullAuxv, List.length_append, List.length_singleton]
  split_ifs <;> simp

theorem argcSp_eq (hstart : start % 16 = 0) :
    argcSp start auxv args = start - stackUsed auxv args := by
  have htop : argTop start = start - roundUp 8 (strSize env) := by
    rw [argTop, strSp_eq, roundUp]
    omega
  have hstrings : argSp start args - argSp start args % 8 =
      start - roundUp 8 (roundUp 8 (strSize env) + strSize args) := by
    rw [argSp, strSp_eq, htop, Nat.sub_sub]
    simp only [roundUp]
    omega
  have hplatform : platformSp start args = start - roundUp 8
      (roundUp 8 (roundUp 8 (strSize env) + strSize args) + (platform.length + 1)) := by
    rw [platformSp, platformTop, hstrings, Nat.sub_sub]
    generalize roundUp 8 (roundUp 8 (strSize env) + strSize args) = n
    rw [roundUp]
    omega
  have hauxv : auxvTop start args = start - roundUp 16 (roundUp 8
      (roundUp 8 (roundUp 8 (strSize env) + strSize args) + (platform.length + 1)) + 16) := by
    rw [auxvTop, randomSp, hplatform, Nat.sub_sub]
    generalize roundUp 8 (roundUp 8 (roundUp 8 (strSize env) + strSize args) +
      (platform.length + 1)) = n
    rw [roundUp]
    omega
  rw [argcSp, argvSp, envpSp, auxvSp, hauxv, stackAuxv, length_fullAuxv, stackUsed]
  simp only [Nat.sub_sub, Nat.add_assoc]

/-- How the parts lie, as long as the stack pointer has not been cut off at zero. -/
structure Ordered (start : ℕ) (auxv : List AuxHeader) (args : List (List Byte)) : Prop where
  argTop_pos : 0 < argTop start
  argSp_pos : 0 < argSp start args
  platform_le : platformSp start args + 9 ≤ argSp start args
  random_eq : randomSp start args + 16 = platformSp start args
  auxv_le : auxvSp start auxv args + (stackAuxv start auxv args).length * 16 ≤ randomSp start args
  envp_eq : envpSp start auxv args + (env.length + 1) * 8 = auxvSp start auxv args
  argv_eq : argvSp start auxv args + (args.length + 1) * 8 = envpSp start auxv args
  argc_eq : argcSp start auxv args + 8 = argvSp start auxv args

theorem ordered (h : 0 < argcSp start auxv args) : Ordered start auxv args := by
  have hargc : argcSp start auxv args = argvSp start auxv args - 8 := rfl
  have hargv : argvSp start auxv args = envpSp start auxv args - (args.length + 1) * 8 := rfl
  have henvp : envpSp start auxv args = auxvSp start auxv args - (env.length + 1) * 8 := rfl
  have hauxv : auxvSp start auxv args =
      auxvTop start args - (stackAuxv start auxv args).length * 16 := rfl
  have htop : auxvTop start args = randomSp start args - randomSp start args % 16 := rfl
  have hrandom : randomSp start args = platformSp start args - 16 := rfl
  have hplatform : platformSp start args =
      platformTop start args - platformTop start args % 8 := rfl
  have hplatformTop : platformTop start args =
      argSp start args - argSp start args % 8 - (UserStack.platform.length + 1) := rfl
  have hargSp : argSp start args ≤ argTop start := strSp_le
  rw [length_platform] at hplatformTop
  constructor <;> omega

theorem stacked_parts (h : 0 < argcSp start auxv args) :
    Chunk.Stacked start (parts start auxv args) := by
  have hord := ordered h
  have henv : 0 < strSp start env := hord.argTop_pos.trans_le (Nat.sub_le ..)
  have htop : argTop start ≤ strSp start env := Nat.sub_le ..
  rw [parts, Chunk.stacked_append, Chunk.stacked_append, bottom_strChunks]
  refine ⟨stacked_strChunks henv, (stacked_strChunks hord.argSp_pos).mono htop, ?_⟩
  have hlow : Chunk.Stacked (argSp start args)
      [⟨platformSp start args, platform ++ [0]⟩, ⟨randomSp start args, random⟩,
        ⟨auxvSp start auxv args, (auxvWords start auxv args).flatMap wordBytes⟩,
        ⟨envpSp start auxv args, (envPtrs start ++ [0]).flatMap wordBytes⟩,
        ⟨argvSp start auxv args, (argPtrs start args ++ [0]).flatMap wordBytes⟩,
        ⟨argcSp start auxv args, wordBytes args.length⟩] := by
    simp only [Chunk.Stacked, Chunk.stop, List.length_append, length_platform, length_random,
      List.length_singleton, length_auxv_bytes, envPtrs, argPtrs, length_ptrs_bytes,
      length_strChunks, length_wordBytes, and_true]
    have := hord.platform_le
    have := hord.random_eq
    have := hord.auxv_le
    have := hord.envp_eq
    have := hord.argv_eq
    have := hord.argc_eq
    omega
  exact hlow.mono (strSp_le_bottom htop)

end Layout

end UserStack

/-- Chunks of kernel addresses, stored one after the other. -/
def Phys.writeChunks (p : Phys) (cs : List Chunk) : Phys :=
  cs.foldl (fun p c => p.writeBytes (c.addr - phyMemOffset) c.bytes) p

theorem Phys.writeChunks_append (p : Phys) (cs ds : List Chunk) :
    p.writeChunks (cs ++ ds) = (p.writeChunks cs).writeChunks ds := List.foldl_append

namespace UserStack

/-- The page that ends at `start` is in the direct map. A page near the end of the address
space may bring about any panic. -/
structure Fits (start : ℕ) (E : Panic → Prop) : Prop where
  low : phyMemOffset + pageSize ≤ start
  high : wordSize ≤ start + userStackMaxAddr → ∀ e, E e

section Run

variable {start sp : ℕ} {p : Phys} {E : Panic → Prop}
  {a b c d : ℕ} {e : Panic}

theorem Fits.pageSize_le (h : Fits start E) : pageSize ≤ start := by
  have := h.low
  omega

theorem writeVirt_sat (hlow : sp < phyMemOffset → ∀ e, E e) (bytes : List Byte) :
    Sat (writeVirt sp bytes) p (fun _ p' => p' = p.writeChunks [⟨sp, bytes⟩]) E := by
  unfold writeVirt
  refine Sat.ensure_bind (fun _ => sat_modify rfl) fun hnot => ?_
  exact hlow (Nat.lt_of_not_le hnot) _

theorem writeWords_sat (hlow : sp < phyMemOffset → ∀ e, E e) (ws : List ℕ) :
    Sat (writeWords writeVirt sp ws) p (fun _ p' => p' = p.writeChunks (wordChunks sp ws)) E := by
  induction ws generalizing sp p with
  | nil => exact sat_pure rfl
  | cons w ws ih =>
    refine (writeVirt_sat hlow _).bind ?_
    rintro _ _ rfl
    exact ih fun h => hlow (by omega)

theorem sub_eq_zero_of_error (h : subUsize a b = .error e) : a - b = 0 := by
  unfold subUsize at h
  split_ifs at h with hle
  omega

theorem shiftUsize_eq_ok (h : shiftUsize a b c = .ok d) : d = a + b - c := by
  rw [shiftUsize] at h
  obtain ⟨x, hx, hd⟩ := Checked.bind_eq_ok.mp h
  rw [(subUsize_eq_ok.mp hd).2, (addUsize_eq_ok.mp hx).2]

theorem sumUsize_eq_ok (h : sumUsize a b c = .ok d) : d = a + b + c := by
  rw [sumUsize] at h
  obtain ⟨x, hx, hd⟩ := Checked.bind_eq_ok.mp h
  rw [(addUsize_eq_ok.mp hd).2, (addUsize_eq_ok.mp hx).2]

theorem lt_of_shiftUsize_error (hlt : a + b < wordSize) (h : shiftUsize a b c = .error e) :
    a + b < c := by
  rw [shiftUsize, addUsize_ok hlt, Checked.ok_bind] at h
  unfold subUsize at h
  split_ifs at h with hle
  exact Nat.lt_of_not_le hle

theorem userAddr_eq_ok {ptr : ℕ} (h : userAddr start sp = .ok ptr) : ptr = ptrOf start sp :=
  shiftUsize_eq_ok h

theorem of_userAddr_error (hfits : Fits start E) (hsp : sp ≤ start)
    (h : userAddr start sp = .error e) (herr : sp + pageSize ≤ start → E e) : E e := by
  by_cases hword : start + userStackMaxAddr < wordSize
  · have hlt := lt_of_shiftUsize_error ((Nat.add_le_add_right hsp _).trans_lt hword) h
    have hpage : pageSize ≤ userStackMaxAddr := by decide
    exact herr ((Nat.add_le_add_left hpage sp).trans hlt.le)
  · exact hfits.high (Nat.le_of_not_lt hword) e

section Bind

variable {α : Type} {a b d : ℕ} {g : ℕ → Program Phys α} {Q : α → Phys → Prop}

theorem subUsize_bind (d : ℕ) (hd : d = a - b) (hok : Sat (g d) p Q E)
    (herr : d = 0 → ∀ e, E e) : Sat (liftM (subUsize a b) >>= g) p Q E := by
  refine Sat.lift_bind (fun c hc => ?_) fun e he => herr (hd.trans (sub_eq_zero_of_error he)) e
  rw [(subUsize_eq_ok.mp hc).2, ← hd]
  exact hok

theorem userAddr_bind (hfits : Fits start E) (hsp : sp ≤ start) (hok : Sat (g (ptrOf start sp)) p Q E)
    (herr : sp + pageSize ≤ start → ∀ e, E e) :
    Sat (liftM (userAddr start sp) >>= g) p Q E := by
  refine Sat.lift_bind (fun c hc => ?_) fun e he =>
    of_userAddr_error hfits hsp he fun hle => herr hle e
  rw [userAddr_eq_ok hc]
  exact hok

end Bind

theorem pushString_sat (hfits : Fits start E) (hsp : sp ≤ start) (ptrs : List ℕ) (s : List Byte)
    (herr : sp - (s.length + 1) + pageSize ≤ start → ∀ e, E e) :
    Sat (pushString writeVirt start (sp, ptrs) s) p
      (fun r p' => r = (sp - (s.length + 1), ptrs ++ [ptrOf start (sp - (s.length + 1))]) ∧
        p' = p.writeChunks [⟨sp - (s.length + 1), s ++ [0]⟩]) E := by
  have hpage := hfits.pageSize_le
  have hlow := hfits.low
  unfold pushString
  refine Sat.lift_bind (fun n hn => ?_) fun e he => ?_
  · obtain rfl := (addUsize_eq_ok.mp hn).2
    refine subUsize_bind (sp - (s.length + 1)) rfl ?_ fun hzero => herr (by omega)
    refine userAddr_bind hfits (by omega) ?_ herr
    refine (writeVirt_sat (fun hlt => herr (by omega)) _).bind ?_
    rintro _ _ rfl
    exact sat_pure ⟨rfl, rfl⟩
  · unfold addUsize at he
    split_ifs at he with hlt
    by_cases hword : start + userStackMaxAddr < wordSize
    · exact herr (by omega) e
    · exact hfits.high (Nat.le_of_not_lt hword) e

theorem pushStrings_sat (hfits : Fits start E) (hsp : sp ≤ start) (strs : List (List Byte))
    (ptrs : List ℕ) (herr : strSp sp strs + pageSize ≤ start → ∀ e, E e) :
    Sat (strs.foldlM (pushString writeVirt start) (sp, ptrs)) p
      (fun r p' => r = (strSp sp strs, ptrs ++ ptrsOf start (strChunks sp strs)) ∧
        p' = p.writeChunks (strChunks sp strs)) E := by
  induction strs generalizing sp ptrs p with
  | nil => exact sat_pure ⟨by rw [strSp, strChunks, ptrsOf, List.map_nil, List.append_nil], rfl⟩
  | cons s strs ih =>
    have hle : strSp (sp - (s.length + 1)) strs ≤ sp - (s.length + 1) := strSp_le
    rw [List.foldlM_cons]
    refine (pushString_sat hfits hsp ptrs s fun h => herr ?_).bind ?_
    · rw [strSp]
      omega
    · rintro _ _ ⟨rfl, rfl⟩
      refine (ih (by omega) _ herr).imp ?_
      rintro _ _ ⟨rfl, rfl⟩
      refine ⟨?_, rfl⟩
      rw [List.append_assoc]
      rfl

theorem pushPointers_sat (hfits : Fits start E) (ptrs : List ℕ)
    (hd : d = sp - (ptrs.length + 1) * 8) (herr : d + pageSize ≤ start → ∀ e, E e) :
    Sat (pushPointers writeVirt sp ptrs) p
      (fun r p' => r = d ∧ p' = p.writeChunks (pointerChunks d ptrs)) E := by
  have hpage := hfits.pageSize_le
  have hlow := hfits.low
  unfold pushPointers
  refine subUsize_bind d hd ?_ fun hzero => herr (by omega)
  refine (writeVirt_sat (fun hlt => herr (by omega)) _).bind ?_
  rintro _ _ rfl
  refine (writeWords_sat (fun hlt => herr (by omega)) _).bind ?_
  rintro _ _ rfl
  exact sat_pure ⟨rfl, rfl⟩

structure Descends (start : ℕ) (auxv : List AuxHeader) (args : List (List Byte)) : Prop where
  env_le : strSp start env ≤ start
  argTop_le : argTop start ≤ strSp start env
  argSp_le : argSp start args ≤ argTop start
  align_le : argSp start args - argSp start args % 8 ≤ argSp start args
  platformTop_le : platformTop start args ≤ argSp start args - argSp start args % 8
  platformSp_le : platformSp start args ≤ platformTop start args
  randomSp_le : randomSp start args ≤ platformSp start args
  auxvTop_le : auxvTop start args ≤ randomSp start args
  auxvSp_le : auxvSp start auxv args ≤ auxvTop start args
  envpSp_le : envpSp start auxv args ≤ auxvSp start auxv args
  argvSp_le : argvSp start auxv args ≤ envpSp start auxv args
  argcSp_le : argcSp start auxv args ≤ argvSp start auxv args

theorem descends (start : ℕ) (auxv : List AuxHeader) (args : List (List Byte)) :
    Descends start auxv args :=
  ⟨strSp_le, Nat.sub_le .., strSp_le, Nat.sub_le .., Nat.sub_le .., Nat.sub_le .., Nat.sub_le ..,
    Nat.sub_le .., Nat.sub_le .., Nat.sub_le .., Nat.sub_le .., Nat.sub_le ..⟩

theorem length_envPtrs : (envPtrs start).length = env.length := by
  rw [envPtrs, ptrsOf, List.length_map, length_strChunks]

theorem length_argPtrs (args : List (List Byte)) : (argPtrs start args).length = args.length := by
  rw [argPtrs, ptrsOf, List.length_map, length_strChunks]

/-- The code ends if less than a page is used, and has then made the stores. -/
theorem build_sat (hlow : phyMemOffset + pageSize ≤ start) (auxv : List AuxHeader) (args : List (List Byte)) :
    Sat (build start auxv args) p
      (fun r p' => r = regsOf start auxv args ∧ p' = p.writeChunks (stores start auxv args) ∧
        start < argcSp start auxv args + pageSize)
      (fun _ => argcSp start auxv args + pageSize ≤ start ∨
        wordSize ≤ start + userStackMaxAddr) := by
  obtain ⟨h₁, h₂, h₃, h₄, h₅, h₆, h₇, h₈, h₉, h₁₀, h₁₁, h₁₂⟩ := descends start auxv args
  have hfits : Fits start fun _ => argcSp start auxv args + pageSize ≤ start ∨
      wordSize ≤ start + userStackMaxAddr := ⟨hlow, fun h _ => .inr h⟩
  have hpage := hfits.pageSize_le
  have htop : pageSize ≤ userStackMaxAddr := by decide
  unfold build buildBy
  refine (pushStrings_sat hfits le_rfl env [] fun h _ => by omega).bind ?_
  rintro _ _ ⟨rfl, rfl⟩
  refine subUsize_bind (argTop start) rfl ?_ fun h _ => by omega
  refine (pushStrings_sat hfits (h₂.trans h₁) args [] fun (h : argSp start args + _ ≤ _) _ => by omega).bind ?_
  rintro _ _ ⟨rfl, rfl⟩
  refine subUsize_bind (argSp start args - argSp start args % 8) rfl ?_ fun h _ => by omega
  refine subUsize_bind (platformTop start args) rfl ?_ fun h _ => by omega
  refine subUsize_bind (platformSp start args) rfl ?_ fun h _ => by omega
  refine (writeVirt_sat (fun hlt _ => by omega) _).bind ?_
  rintro _ _ rfl
  refine subUsize_bind (randomSp start args) rfl ?_ fun h _ => by omega
  refine userAddr_bind hfits (by omega) ?_ fun h _ => by omega
  refine (writeVirt_sat (fun hlt _ => by omega) _).bind ?_
  rintro _ _ rfl
  refine subUsize_bind (auxvTop start args) rfl ?_ fun h _ => by omega
  refine subUsize_bind (auxvSp start auxv args) rfl ?_ fun h _ => by omega
  refine userAddr_bind hfits (by omega) ?_ fun h _ => by omega
  refine (writeWords_sat (fun hlt _ => by omega) _).bind ?_
  rintro _ _ rfl
  refine (pushPointers_sat hfits (d := envpSp start auxv args) (envPtrs start) ?_
    fun h _ => by omega).bind ?_
  · rw [length_envPtrs]
    rfl
  rintro _ _ ⟨rfl, rfl⟩
  refine userAddr_bind hfits (by omega) ?_ fun h _ => by omega
  refine (pushPointers_sat hfits (d := argvSp start auxv args) (argPtrs start args) ?_
    fun h _ => by omega).bind ?_
  · rw [length_argPtrs]
    rfl
  rintro _ _ ⟨rfl, rfl⟩
  refine userAddr_bind hfits (by omega) ?_ fun h _ => by omega
  refine subUsize_bind (argcSp start auxv args) rfl ?_ fun h _ => by omega
  refine (writeVirt_sat (fun hlt _ => by omega) _).bind ?_
  rintro _ _ rfl
  refine Sat.lift_bind (fun used hused => ?_) fun e he => ?_
  · obtain rfl := (subUsize_eq_ok.mp hused).2
    refine Sat.ensure_bind (fun hlt => ?_) fun hnot => by omega
    refine subUsize_bind (userStackMaxAddr - (start - argcSp start auxv args)) rfl ?_
      fun h _ => by omega
    refine sat_pure ⟨rfl, ?_, by omega⟩
    simp only [stores, auxvWords, stackAuxv, argPtrs, List.nil_append, Phys.writeChunks_append]
  · rw [subUsize_ok (by omega)] at he
    cases he

end Run

end UserStack

end Zinix
