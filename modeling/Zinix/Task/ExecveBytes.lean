import Zinix.Task.ExecveCall

/-!
# The bytes that `execve` passes on

The kernel makes a character of the number of each byte of a string, and the new program
gets the UTF-8 encoding of these characters.
-/

namespace Zinix

open Program UserStack

def reencode (c : Byte) : List Byte :=
  (String.utf8EncodeChar (Char.ofNat c.toNat)).map UInt8.toBitVec

def IsAscii (c : Byte) : Prop := c < 0x80

section Encoding

variable {c : Byte} {bytes : List Byte}

theorem reencode_ascii (h : IsAscii c) : reencode c = [c] := by
  revert c
  unfold IsAscii reencode
  decide +kernel

theorem length_reencode (h : ¬IsAscii c) : (reencode c).length = 2 := by
  revert c
  unfold IsAscii reencode
  decide +kernel

theorem zero_notMem_reencode (h : c ≠ 0) : 0 ∉ reencode c := by
  revert c
  unfold reencode
  decide +kernel

theorem asBytes_eq (s : String) :
    asBytes s = s.toList.flatMap fun c => (String.utf8EncodeChar c).map UInt8.toBitVec := by
  have hdata : s.toUTF8.data.toList = s.toList.flatMap String.utf8EncodeChar := by
    rw [String.toUTF8_eq_toByteArray, ← String.utf8Encode_toList]
    simp [List.utf8Encode]
  rw [asBytes, hdata, List.map_flatMap]

theorem asBytes_append (s t : String) : asBytes (s ++ t) = asBytes s ++ asBytes t := by
  rw [asBytes_eq, asBytes_eq, asBytes_eq, String.toList_append, List.flatMap_append]

theorem asBytes_latin (bytes : List Byte) : asBytes (latin bytes) = bytes.flatMap reencode := by
  rw [asBytes_eq, latin, String.toList_ofList, List.flatMap_map]
  rfl

theorem zero_notMem_asBytes_latin (h : 0 ∉ bytes) : 0 ∉ asBytes (latin bytes) := by
  rw [asBytes_latin, List.mem_flatMap]
  rintro ⟨c, hc, hzero⟩
  refine zero_notMem_reencode ?_ hzero
  rintro rfl
  exact h hc

theorem length_le_reencode (bytes : List Byte) :
    bytes.length ≤ (bytes.flatMap reencode).length := by
  induction bytes with
  | nil => exact le_rfl
  | cons c bytes ih =>
    have hone : 1 ≤ (reencode c).length := by
      by_cases hc : IsAscii c
      · rw [reencode_ascii hc, List.length_singleton]
      · rw [length_reencode hc]
        exact one_le_two
    rw [List.flatMap_cons, List.length_append, List.length_cons]
    omega

theorem asBytes_latin_eq_iff : asBytes (latin bytes) = bytes ↔ ∀ c ∈ bytes, IsAscii c := by
  rw [asBytes_latin]
  induction bytes with
  | nil => simp
  | cons c bytes ih =>
    rw [List.flatMap_cons, List.forall_mem_cons]
    by_cases hc : IsAscii c
    · rw [reencode_ascii hc, List.singleton_append, List.cons.injEq, ih]
      simp [hc]
    · -- the text has grown, and it cannot shrink again
      have hlen := length_reencode hc
      have hle := length_le_reencode bytes
      refine iff_of_false (fun heq => ?_) fun h => hc h.1
      have heq := congrArg List.length heq
      rw [List.length_append, List.length_cons] at heq
      omega

end Encoding

section Stack

variable {peek : ℕ → Option Byte} {a : ℕ} {strs strs' : List (List Byte)}

theorem UserStack.PointsTo.eq (h : PointsTo peek a strs) (h' : PointsTo peek a strs')
    (hlen : strs.length = strs'.length) : strs = strs' := by
  refine List.ext_getElem hlen fun i hi hi' => ?_
  obtain ⟨ptr, hword, -, -, hstr⟩ := h.entry i _ (List.getElem?_eq_getElem hi)
  obtain ⟨ptr', hword', -, -, hstr'⟩ := h'.entry i _ (List.getElem?_eq_getElem hi')
  cases hword.symm.trans hword'
  exact Option.some.inj (hstr.symm.trans hstr')

end Stack

namespace ExecWorld

variable {ld : Loader} {image : KernelImage} {w w' : ExecWorld} {t i fuel pathPtr argvPtr : ℕ}
  {ret : ℤ} {peek : ℕ → Option Byte} {path : List Byte} {args : List (List Byte)}

/-- The new program finds the arguments of the caller, and the path that is looked up is the
one that the caller has passed, behind the working directory. -/
structure PassesOn (w : ExecWorld) (t i : ℕ) (path : List Byte) (args : List (List Byte))
    (w' : ExecWorld) : Prop where
  path : asBytes (w.fullPath t (latin path)) = asBytes (w.files.cwd t).pwd ++ path
  args : ∃ mm, w'.spaces.mms i = some mm ∧
    PointsTo (mm.peek w'.spaces.phys) (w'.tf.regs.sp + 8) args

/-- The program finds the strings that the kernel has made of the arguments. -/
theorem Good.execve_pointsTo (h : w.Good) {path : String} {args : List String}
    (hzero : ∀ s ∈ args, 0 ∉ asBytes s) (hrun : w.execve ld image t i path args = .ok (ret, w')) :
    ∃ mm, w'.spaces.mms i = some mm ∧
      PointsTo (mm.peek w'.spaces.phys) (w'.tf.regs.sp + 8) (args.map asBytes) := by
  obtain ⟨-, ⟨⟨place, elf, mm, -, -, hmms, -, -, hstack⟩, -⟩, -⟩ := h.of_execve hrun
  obtain ⟨start, hregs, -, hpos, hused, hlaid⟩ := hstack
  refine ⟨mm, ?_, ?_⟩
  · rw [hmms, replaceAt_self]
  · rw [hregs]
    exact (hlaid.decodes (by simpa using hzero) hpos hused).argv

/-- The bytes arrive as they are exactly if none of them is above 127. -/
theorem sysExecve_passesOn_iff (hgood : w.Good)
    (hpass : Passes peek fuel pathPtr argvPtr path args)
    (hrun : w.sysExecve ld image t i peek fuel pathPtr argvPtr = .ok (ret, w')) :
    PassesOn w t i path args w' ↔
      (∀ c ∈ path, IsAscii c) ∧ ∀ s ∈ args, ∀ c ∈ s, IsAscii c := by
  rw [hpass.sysExecve_eq] at hrun
  have hzero : ∀ s ∈ args.map latin, 0 ∉ asBytes s := by
    intro s hs
    obtain ⟨bytes, hbytes, rfl⟩ := List.mem_map.mp hs
    obtain ⟨j, hj⟩ := List.mem_iff_getElem?.mp hbytes
    obtain ⟨ptr, -, -, hstr⟩ := hpass.isArgv.entry j bytes hj
    exact zero_notMem_asBytes_latin hstr.noZero
  obtain ⟨mm, hmm, hargs⟩ := hgood.execve_pointsTo hzero hrun
  have hpath : asBytes (w.fullPath t (latin path)) = asBytes (w.files.cwd t).pwd ++ path ↔
      ∀ c ∈ path, IsAscii c := by
    rw [fullPath, asBytes_append, List.append_cancel_left_eq, asBytes_latin_eq_iff]
  have hmap : (args.map latin).map asBytes = args ↔ ∀ s ∈ args, ∀ c ∈ s, IsAscii c := by
    rw [List.map_map]
    nth_rewrite 2 [← List.map_id args]
    rw [List.map_inj_left]
    exact forall₂_congr fun s _ => asBytes_latin_eq_iff
  rw [← hpath, ← hmap]
  constructor
  · rintro ⟨hpath, mm', hmm', hargs'⟩
    cases hmm.symm.trans hmm'
    exact ⟨hpath, hargs.eq hargs' (by simp)⟩
  · rintro ⟨hpath, heq⟩
    rw [heq] at hargs
    exact ⟨hpath, mm, hmm, hargs⟩

theorem exists_ls_run : ∃ s w', Good (ofSpaces s) ∧
    Passes (ofSpaces s).kernelPeek (userSpaceEnd + 2) 0xfff0010 0xfff0000 [0x6c, 0x73] [[0xe9]] ∧
    (ofSpaces s).sysExecve onlyLs CloneState.reserveImage 1 1 (ofSpaces s).kernelPeek
      (userSpaceEnd + 2) 0xfff0010 0xfff0000 = .ok (0, w') := by
  obtain ⟨s, hs, hasks, hspacious⟩ := exists_asks_ls
  obtain ⟨live, hframes⟩ := hspacious.hasFrames
  have hgood := good_boot.steps hs
  have hmm : (ofSpaces s).spaces.mms 1 ≠ none := Option.isSome_iff_ne_none.mp hasks.1
  have hpass := passes_of_endsBelow (endsBelow_kernelPeek (ofSpaces s))
    (hasks.holdsStr (by decide)) (hasks.argVector (by decide))
  obtain ⟨w', hrun⟩ := hgood.exists_execve hmm (loadable_ls s 1) (by decide) hframes
  refine ⟨s, w', hgood, hpass, ?_⟩
  rw [hpass.sysExecve_eq]
  exact hrun

theorem sysExecve_passesOn_iff_ls : ∃ s w',
    (ofSpaces s).sysExecve onlyLs CloneState.reserveImage 1 1 (ofSpaces s).kernelPeek
      (userSpaceEnd + 2) 0xfff0010 0xfff0000 = .ok (0, w') ∧
    (PassesOn (ofSpaces s) 1 1 [0x6c, 0x73] [[0xe9]] w' ↔
      (∀ c ∈ ([0x6c, 0x73] : List Byte), IsAscii c) ∧
        ∀ s ∈ ([[0xe9]] : List (List Byte)), ∀ c ∈ s, IsAscii c) := by
  obtain ⟨s, w', hgood, hpass, hrun⟩ := exists_ls_run
  exact ⟨s, w', hrun, sysExecve_passesOn_iff hgood hpass hrun⟩

/-- The program reads two bytes where the caller has one. -/
theorem latin_argument_not_passedOn : ∃ s w', Good (ofSpaces s) ∧
    Passes (ofSpaces s).kernelPeek (userSpaceEnd + 2) 0xfff0010 0xfff0000 [0x6c, 0x73] [[0xe9]] ∧
    (ofSpaces s).sysExecve onlyLs CloneState.reserveImage 1 1 (ofSpaces s).kernelPeek
      (userSpaceEnd + 2) 0xfff0010 0xfff0000 = .ok (0, w') ∧
    (∃ mm, w'.spaces.mms 1 = some mm ∧
      PointsTo (mm.peek w'.spaces.phys) (w'.tf.regs.sp + 8) [[0xc3, 0xa9]]) ∧
    ¬PassesOn (ofSpaces s) 1 1 [0x6c, 0x73] [[0xe9]] w' := by
  obtain ⟨s, w', hgood, hpass, hrun⟩ := exists_ls_run
  have hexec := hrun
  rw [hpass.sysExecve_eq] at hexec
  have hbytes : ([[0xe9]].map latin).map asBytes = [[0xc3, 0xa9]] := by decide +kernel
  obtain ⟨mm, hmm, hargs⟩ := hgood.execve_pointsTo (by decide +kernel) hexec
  rw [hbytes] at hargs
  refine ⟨s, w', hgood, hpass, hrun, ⟨mm, hmm, hargs⟩, ?_⟩
  rintro ⟨-, mm', hmm', hargs'⟩
  cases hmm.symm.trans hmm'
  cases hargs.eq hargs' rfl

end ExecWorld

end Zinix
