import Zinix.Task.StackDecode

/-!
# The auxiliary vector and the stack pointer of a new program

The vector that `new_from_elf` hands over ends with an `AT_NULL` entry of its own, and
`create_user_task` appends its entries behind that one. The stack pointer is padded to 16
bytes before the arrays of pointers are pushed.
-/

namespace Zinix

def AuxHeader.stored (h : AuxHeader) : AuxHeader := ⟨h.auxType % 2 ^ 64, h.value % 2 ^ 64⟩

namespace UserStack

/-- The entries up to the first `AT_NULL`, if there are less than `n`. -/
def readAuxv (peek : ℕ → Option Byte) : ℕ → ℕ → Option (List AuxHeader)
  | 0, _ => none
  | n + 1, a => do
    let auxType ← readWord peek a
    let value ← readWord peek (a + 8)
    if auxType = atNull then return [] else return ⟨auxType, value⟩ :: (← readAuxv peek n (a + 16))

/-- A program reads these entries: each one that was put into the vector, once. The random bytes
have all been stored, and the name of the program is its first argument. -/
structure AuxvComplete (peek : ℕ → Option Byte) (start : ℕ) (auxv : List AuxHeader)
    (args : List (List Byte)) (found : List AuxHeader) : Prop where
  read : ∃ n, readAuxv peek n (regsOf start auxv args).auxv = some found
  entries : ∀ h ∈ stackAuxv start auxv args, h.auxType ≠ atNull → found.count h.stored = 1
  random : ∃ a, ⟨atRandom, ptrOf start a⟩ ∈ found ∧ topPage ≤ ptrOf start a ∧
    ptrOf start a + 16 ≤ userStackMaxAddr ∧ ∀ i < 16, ∃ c ∈ stores start auxv args, c.Covers (a + i)
  execfn : ∃ v, ⟨atExecfn, v⟩ ∈ found ∧ readWord peek (regsOf start auxv args).argv = some v

section Auxv

variable {peek : ℕ → Option Byte} {start a : ℕ} {auxv : List AuxHeader} {args : List (List Byte)}
  {n phEntrySize entry : ℕ}

theorem readAuxv_of_holds {hs : List AuxHeader}
    (h : HoldsAt peek a ((hs.flatMap AuxHeader.words).flatMap wordBytes))
    (hnull : ∃ e ∈ hs, e.stored.auxType = atNull) (hn : hs.length ≤ n) :
    readAuxv peek n a = some ((hs.map AuxHeader.stored).takeWhile (·.auxType ≠ atNull)) := by
  induction hs generalizing a n with
  | nil =>
    obtain ⟨e, he, -⟩ := hnull
    cases he
  | cons e hs ih =>
    obtain ⟨n, rfl⟩ := Nat.exists_eq_succ_of_ne_zero (Nat.ne_of_gt (Nat.zero_lt_of_lt hn))
    have htype : readWord peek a = some (e.auxType % 2 ^ 64) :=
      (h.word (i := 0) rfl).readWord_mod
    have hvalue : readWord peek (a + 8) = some (e.value % 2 ^ 64) :=
      (h.word (i := 1) rfl).readWord_mod
    have hrest : HoldsAt peek (a + 16) ((hs.flatMap AuxHeader.words).flatMap wordBytes) := by
      rw [List.flatMap_cons, List.flatMap_append, holdsAt_append, length_flatMap_wordBytes] at h
      exact h.2
    rw [readAuxv, htype, hvalue, List.map_cons]
    by_cases hzero : e.stored.auxType = atNull
    · rw [List.takeWhile_cons_of_neg (by simpa using hzero)]
      exact if_pos hzero
    · rw [List.takeWhile_cons_of_pos (by simpa using hzero)]
      have hlater : ∃ e' ∈ hs, e'.stored.auxType = atNull := by
        obtain ⟨e', he', heq⟩ := hnull
        rcases List.mem_cons.mp he' with rfl | he'
        · exact absurd heq hzero
        · exact ⟨e', he', heq⟩
      rw [List.length_cons] at hn
      have hread := ih hrest hlater (Nat.le_of_succ_le_succ hn)
      simp only [Option.bind_eq_bind, Option.bind_some, hread]
      exact if_neg hzero

/-- A vector that is read to its end is read in the same way with more steps. -/
theorem readAuxv_det {m : ℕ} {found found' : List AuxHeader} (h : readAuxv peek n a = some found)
    (h' : readAuxv peek m a = some found') :
    found = found' := by
  induction n generalizing a m found found' with
  | zero => cases h
  | succ n ih =>
    cases m with
    | zero => cases h'
    | succ m =>
      simp only [readAuxv, Option.bind_eq_bind, Option.bind_eq_some_iff] at h h'
      obtain ⟨t, ht, v, hv, h⟩ := h
      obtain ⟨t', ht', v', hv', h'⟩ := h'
      cases ht.symm.trans ht'
      cases hv.symm.trans hv'
      by_cases hzero : t = atNull
      · rw [if_pos hzero] at h h'
        exact Option.some.inj (h.symm.trans h')
      · rw [if_neg hzero, Option.bind_eq_some_iff] at h h'
        obtain ⟨rest, hrest, h⟩ := h
        obtain ⟨rest', hrest', h'⟩ := h'
        cases h
        cases h'
        rw [ih hrest hrest']

theorem Laid.readAuxv (h : Laid peek start (elfAuxv phEntrySize entry) args) :
    readAuxv peek 19 (regsOf start (elfAuxv phEntrySize entry) args).auxv =
      some ((elfAuxv phEntrySize entry).dropLast.map AuxHeader.stored) := by
  have hholds := h.holds ⟨auxvSp start (elfAuxv phEntrySize entry) args,
    (auxvWords start (elfAuxv phEntrySize entry) args).flatMap wordBytes⟩ (by simp [parts])
  have hread := readAuxv_of_holds (n := 19) hholds ⟨⟨atNull, 0⟩, by simp [stackAuxv, fullAuxv,
    elfAuxv], rfl⟩ le_rfl
  rw [regsOf, hread]
  rfl

theorem Laid.not_complete (h : Laid peek start (elfAuxv phEntrySize entry) args) :
    ¬∃ found, AuxvComplete peek start (elfAuxv phEntrySize entry) args found := by
  rintro ⟨found, hcomplete⟩
  obtain ⟨n, hread⟩ := hcomplete.read
  obtain ⟨v, hv, -⟩ := hcomplete.execfn
  rw [readAuxv_det hread h.readAuxv] at hv
  simp [elfAuxv, AuxHeader.stored, atExecfn, atPhent, atPhnum, atPagesz, atBase, atFlags, atEntry,
    atUid, atEuid, atGid, atEgid, atPlatform, atHwcap, atClktck, atSecure, atNotelf] at hv

theorem random_last_not_stored (h : 0 < argcSp start auxv args) {c : Chunk}
    (hc : c ∈ stores start auxv args) : ¬c.Covers (randomSp start args + 15) := by
  rintro ⟨hlow, hhigh⟩
  have hord := ordered h
  have hrandom := hord.random_eq
  have hplatform := hord.platform_le
  have hauxv := hord.auxv_le
  have henvp := hord.envp_eq
  have hargv := hord.argv_eq
  have hargc := hord.argc_eq
  have hargTop : argSp start args ≤ argTop start := strSp_le
  have henv : argTop start ≤ strSp start env := Nat.sub_le ..
  simp only [stores, List.mem_append, List.mem_singleton] at hc
  rcases hc with hc | hc | rfl | rfl | hc | hc | hc | rfl
  · have hwithin := ((stacked_strChunks (hord.argTop_pos.trans_le henv)).within hc).1
    rw [bottom_strChunks] at hwithin
    omega
  · have hwithin := ((stacked_strChunks hord.argSp_pos).within hc).1
    rw [bottom_strChunks] at hwithin
    change argSp start args ≤ _ at hwithin
    omega
  · simp only at hlow
    omega
  · simp only [Chunk.stop, length_random] at hhigh
    omega
  · have hwithin := (within_wordChunks hc).2
    rw [auxvWords, length_words] at hwithin
    omega
  · have hwithin := (within_pointerChunks hc).2
    rw [length_envPtrs] at hwithin
    omega
  · have hwithin := (within_pointerChunks hc).2
    rw [length_argPtrs] at hwithin
    omega
  · simp only [Chunk.stop, length_wordBytes] at hhigh
    omega

end Auxv

theorem sp_mod_iff {start phEntrySize entry : ℕ} {args : List (List Byte)}
    (hstart : start % pageSize = 0) (hpos : 0 < argcSp start (elfAuxv phEntrySize entry) args)
    (hused : start < argcSp start (elfAuxv phEntrySize entry) args + pageSize) :
    (regsOf start (elfAuxv phEntrySize entry) args).sp % 16 = 0 ↔ args.length % 2 = 1 := by
  have hord := ordered hpos
  have henvp := hord.envp_eq
  have hargv := hord.argv_eq
  have hargc := hord.argc_eq
  have hauxv : auxvSp start (elfAuxv phEntrySize entry) args = auxvTop start args - 19 * 16 := rfl
  have htop : auxvTop start args = randomSp start args - randomSp start args % 16 := rfl
  have hle := descends start (elfAuxv phEntrySize entry) args
  have hmax : userStackMaxAddr = 0x10000000 := rfl
  rw [length_env] at henvp
  simp only [pageSize] at hstart hused
  simp only [regsOf, hmax]
  obtain ⟨h₁, h₂, h₃, h₄, h₅, h₆, h₇, h₈, h₉, h₁₀, h₁₁, h₁₂⟩ := hle
  omega

end UserStack

namespace Mm

open UserStack

variable {p p' : Phys} {headers : List ProgramHeader} {file : MappedFile} {phEntrySize entry : ℕ}
  {args : List (List Byte)} {mm : Mm} {regs : Regs}

/-- The vector that a new program reads is never complete: it ends before the entries of
`create_user_task`. One of the random bytes is missing as well. -/
theorem createUserTaskWith_auxv_incomplete
    (hrun : createUserTaskWith headers file phEntrySize entry args p =
      .ok (some (mm, regs), p')) :
    ∃ start, regs = regsOf start (elfAuxv phEntrySize entry) args ∧
      readAuxv (mm.peek p') 19 regs.auxv =
        some ((elfAuxv phEntrySize entry).dropLast.map AuxHeader.stored) ∧
      (∀ c ∈ stores start (elfAuxv phEntrySize entry) args,
        ¬c.Covers (randomSp start args + 15)) ∧
      ¬∃ found, AuxvComplete (mm.peek p') start (elfAuxv phEntrySize entry) args found := by
  obtain ⟨start, -, rfl, hpos, -, hlaid⟩ :=
    (createUserTaskWith_sat headers file phEntrySize entry args).of_ok hrun mm regs rfl
  exact ⟨start, rfl, hlaid.readAuxv, fun c hc => random_last_not_stored hpos hc,
    hlaid.not_complete⟩

theorem createUserTaskWith_auxv_incomplete_ls :
    ∃ mm regs p', createUserTaskWith [] ⟨0, []⟩ 56 0x1000 (["ls", "-l"].map asBytes) .bare =
        .ok (some (mm, regs), p') ∧
      ∃ start, regs = regsOf start (elfAuxv 56 0x1000) (["ls", "-l"].map asBytes) ∧
        ¬∃ found, AuxvComplete (mm.peek p') start (elfAuxv 56 0x1000)
          (["ls", "-l"].map asBytes) found := by
  obtain ⟨mm, regs, p', hrun⟩ := createUserTaskWith_ls_runs
  obtain ⟨start, hregs, -, -, hnot⟩ := createUserTaskWith_auxv_incomplete hrun
  exact ⟨mm, regs, p', hrun, start, hregs, hnot⟩

/-- The program `ls` does not find its name. -/
theorem ls_auxv_incomplete :
    ∃ mm regs p', createUserTaskWith [] ⟨0, []⟩ 56 0x1000 (["ls", "-l"].map asBytes) .bare =
        .ok (some (mm, regs), p') ∧
      readAuxv (mm.peek p') 19 regs.auxv =
        some ((elfAuxv 56 0x1000).dropLast.map AuxHeader.stored) ∧
      ∃ start, regs = regsOf start (elfAuxv 56 0x1000) (["ls", "-l"].map asBytes) ∧
        ¬∃ found, AuxvComplete (mm.peek p') start (elfAuxv 56 0x1000)
          (["ls", "-l"].map asBytes) found := by
  obtain ⟨mm, regs, p', hrun⟩ := createUserTaskWith_ls_runs
  obtain ⟨start, -, rfl, -, -, hlaid⟩ :=
    (createUserTaskWith_sat [] ⟨0, []⟩ 56 0x1000 _).of_ok hrun mm regs rfl
  exact ⟨mm, _, p', hrun, hlaid.readAuxv, start, rfl, hlaid.not_complete⟩

/-- The first stack pointer is aligned exactly if the number of arguments is odd. -/
theorem createUserTaskWith_aligned_iff
    (hrun : createUserTaskWith headers file phEntrySize entry args p =
      .ok (some (mm, regs), p')) :
    regs.sp % 16 = 0 ↔ args.length % 2 = 1 := by
  obtain ⟨start, hstart, rfl, hpos, hused, -⟩ :=
    (createUserTaskWith_sat headers file phEntrySize entry args).of_ok hrun mm regs rfl
  exact sp_mod_iff hstart hpos hused

theorem createUserTaskWith_aligned_ls :
    ∃ mm regs p', createUserTaskWith [] ⟨0, []⟩ 56 0x1000 (["ls", "-l"].map asBytes) .bare =
        .ok (some (mm, regs), p') ∧ (regs.sp % 16 = 0 ↔ (["ls", "-l"].map asBytes).length % 2 = 1) := by
  obtain ⟨mm, regs, p', hrun⟩ := createUserTaskWith_ls_runs
  exact ⟨mm, regs, p', hrun, createUserTaskWith_aligned_iff hrun⟩

/-- The stack pointer of `ls -l`. -/
theorem ls_not_aligned :
    ∃ mm regs p', createUserTaskWith [] ⟨0, []⟩ 56 0x1000 (["ls", "-l"].map asBytes) .bare =
        .ok (some (mm, regs), p') ∧ regs.sp % 16 = 8 := by
  have hsp : ((createUserTaskWith [] ⟨0, []⟩ 56 0x1000 (["ls", "-l"].map asBytes)) .bare).map
      (fun r => r.1.map fun x => x.2.sp % 16) = .ok (some 8) := by
    decide +kernel
  obtain ⟨⟨r, p'⟩, hrun, hr⟩ := Checked.map_eq_ok.mp hsp
  obtain ⟨⟨mm, regs⟩, rfl, hmod⟩ := Option.map_eq_some_iff.mp hr
  exact ⟨mm, regs, p', hrun, hmod⟩

end Mm

end Zinix
