import Zinix.Task.UserStack

/-!
# Reading the stack of a new user task

The stores of `create_user_task` stay within one page, so that the user finds every part of
the stack at the address that it was told.
-/

namespace Zinix

open Program

namespace Phys

variable {p : Phys} {f : Frame}
  {off base : ℕ} {bs : List Byte}

theorem writeByte_eq (hoff : off < pageSize) (b : Byte) :
    p.writeByte (f.paddr + off) b = p.setPage f ((p.mem f).setByte off b) := by
  simp only [pageSize] at hoff
  have hframe : Frame.ofPaddr (f.paddr + off) = f := by
    apply Fin.ext
    have hlt := f.isLt
    simp only [Frame.ofPaddr, Frame.paddr, Fin.val_ofNat]
    omega
  have hmod : (f.paddr + off) % pageSize = off := by
    simp only [Frame.paddr, pageSize]
    omega
  rw [writeByte, hframe, hmod]

theorem writeBytes_eq (hoff : off + bs.length ≤ pageSize) :
    p.writeBytes (f.paddr + off) bs = p.setPage f ((p.mem f).setBytes off bs) := by
  induction bs generalizing p off with
  | nil => rw [writeBytes, PageData.setBytes, setPage, replaceAt_eq_self rfl]
  | cons b bs ih =>
    rw [List.length_cons] at hoff
    rw [writeBytes, writeByte_eq (by omega), Nat.add_assoc, ih (by omega), PageData.setBytes]
    simp only [setPage, replaceAt_self, replaceAt_replaceAt]

theorem byte_setBytes_eq_write {pg : PageData} {i : ℕ} {mem : ℕ → Byte}
    (hpg : ∀ i < pageSize, pg.byte i = mem (base + i)) (hfit : off + bs.length ≤ pageSize)
    (hi : i < pageSize) :
    (pg.setBytes off bs).byte i = Chunk.write mem ⟨base + off, bs⟩ (base + i) := by
  have hsub : base + i - (base + off) = i - off := by omega
  rw [PageData.byte_setBytes _ hfit hi, hpg i hi, Chunk.write_apply, hsub]
  congr 1
  apply propext
  omega

theorem writeChunks_eq (hbase : base = f.paddr + phyMemOffset) {cs : List Chunk}
    (hcs : ∀ c ∈ cs, base ≤ c.addr ∧ c.stop ≤ base + pageSize) (mem : ℕ → Byte)
    (hmem : ∀ i < pageSize, (p.mem f).byte i = mem (base + i)) :
    ∃ pg, p.writeChunks cs = p.setPage f pg ∧
      ∀ i < pageSize, pg.byte i = Chunk.writeAll mem cs (base + i) := by
  induction cs generalizing p mem with
  | nil => exact ⟨p.mem f, by rw [setPage, replaceAt_eq_self rfl]; rfl, hmem⟩
  | cons c cs ih =>
    obtain ⟨hlow, hhigh⟩ := hcs c (List.mem_cons_self ..)
    obtain ⟨addr, bytes⟩ := c
    obtain ⟨off, rfl⟩ := Nat.exists_eq_add_of_le hlow
    rw [Chunk.stop] at hhigh
    have hfit : off + bytes.length ≤ pageSize := by
      dsimp only at hhigh
      omega
    have haddr : base + off - phyMemOffset = f.paddr + off := by omega
    have hstep : p.writeChunks (⟨base + off, bytes⟩ :: cs) =
        (p.setPage f ((p.mem f).setBytes off bytes)).writeChunks cs := by
      rw [writeChunks, List.foldl_cons, haddr, writeBytes_eq hfit]
      rfl
    obtain ⟨pg, hpg, hbytes⟩ := ih (p := p.setPage f ((p.mem f).setBytes off bytes))
      (fun d hd => hcs d (List.mem_cons_of_mem _ hd)) (Chunk.write mem ⟨base + off, bytes⟩)
      fun i hi => by
        simp only [setPage, replaceAt_self]
        exact byte_setBytes_eq_write hmem hfit hi
    refine ⟨pg, ?_, hbytes⟩
    rw [hstep, hpg]
    simp only [setPage, replaceAt_replaceAt]

end Phys

namespace UserStack

section Parts

variable {start : ℕ} {auxv : List AuxHeader} {args : List (List Byte)}
  {a : ℕ} {c : Chunk}

theorem within_wordChunks {ws : List ℕ} (h : c ∈ wordChunks a ws) :
    a ≤ c.addr ∧ c.stop ≤ a + 8 * ws.length := by
  induction ws generalizing a with
  | nil => cases h
  | cons w ws ih =>
    rw [List.length_cons]
    rcases List.mem_cons.mp h with rfl | h
    · simp only [Chunk.stop, length_wordBytes]
      omega
    · obtain ⟨hlow, hhigh⟩ := ih h
      omega

theorem within_pointerChunks {ptrs : List ℕ} (h : c ∈ pointerChunks a ptrs) :
    a ≤ c.addr ∧ c.stop ≤ a + (ptrs.length + 1) * 8 := by
  rcases List.mem_cons.mp h with rfl | h
  · simp only [Chunk.stop, length_wordBytes]
    omega
  · obtain ⟨hlow, hhigh⟩ := within_wordChunks h
    omega

theorem bottom_parts : Chunk.bottom start (parts start auxv args) = argcSp start auxv args := by
  rw [parts, Chunk.bottom_append, Chunk.bottom_append]
  rfl

theorem within_stores (h : 0 < argcSp start auxv args) (hc : c ∈ stores start auxv args) :
    argcSp start auxv args ≤ c.addr ∧ c.stop ≤ start := by
  have hparts : ∀ d ∈ parts start auxv args,
      argcSp start auxv args ≤ d.addr ∧ d.stop ≤ start := fun d hd => by
    rw [← bottom_parts]
    exact (stacked_parts h).within hd
  have hord := ordered h
  have henv := hord.envp_eq
  have hargv := hord.argv_eq
  have hargc := hord.argc_eq
  have hauxv := hparts ⟨auxvSp start auxv args, (auxvWords start auxv args).flatMap wordBytes⟩
    (by simp [parts])
  simp only [Chunk.stop, length_flatMap_wordBytes] at hauxv
  simp only [stores, List.mem_append, List.mem_singleton] at hc
  rcases hc with hc | hc | hc | hc | hc | hc | hc | hc
  · exact hparts c (by simp [parts, hc])
  · exact hparts c (by simp [parts, hc])
  · exact hparts c (by simp [parts, hc])
  · exact hparts c (by simp [parts, hc])
  · have hwithin := within_wordChunks hc
    omega
  · have hwithin := within_pointerChunks hc
    rw [length_envPtrs] at hwithin
    omega
  · have hwithin := within_pointerChunks hc
    rw [length_argPtrs] at hwithin
    omega
  · exact hparts c (by simp [parts, hc])

end Parts

end UserStack

namespace Mm

open Phys

variable {mm : Mm} {p : Phys} {k v : ℕ} {f : Frame} {vma : Vma}

def peek (mm : Mm) (p : Phys) (a : ℕ) : Option Byte :=
  match mm.userLoad a .read p with
  | .ok ((b, _), _) => some b
  | .error _ => none

theorem Tidy.setPage (h : Tidy mm p) (hf : f ∉ p.tables mm.pagetable) (pg : PageData) :
    Tidy mm (p.setPage f pg) :=
  ⟨h.ok.setPage hf pg, h.low, h.plain, h.first⟩

theorem Tidy.peek_resident (h : Tidy mm p) (hk : mm.areas k = some vma)
    (hread : vma.permits .read = true) (hget : vma.pagesTree.get? v = some f) {i : ℕ}
    (hi : i < pageSize) : mm.peek p (v + i) = some ((p.mem f).byte i) := by
  have hv : v % pageSize = 0 := (h.ok.user k v f (.of_get hk hget)).1
  have hdown : Vaddr.down (v + i) = v := by
    simp only [Vaddr.down, pageSize] at hv hi ⊢
    omega
  have hmod : (v + i) % pageSize = i := by
    simp only [pageSize] at hv hi ⊢
    omega
  have htranslate : mm.translate p (v + i) .read = some f := by
    rw [h.translate_resident (by rw [hdown]; exact h.first k vma v f hk hget)
      (by rw [hdown]; exact hget), if_pos hread]
  have hload : Sat (mm.userLoad (v + i) .read) p (fun r _ => r.1 = (p.mem f).byte i)
      fun _ => False := by
    unfold Mm.userLoad
    refine Sat.bind (R := fun r p' => r.1 = f ∧ p' = p) ?_ ?_
    · rw [accessTries, Mm.access]
      apply Sat.get_bind
      rw [htranslate]
      exact sat_pure ⟨rfl, rfl⟩
    · rintro r _ ⟨hr, rfl⟩
      apply Sat.get_bind
      refine sat_pure ?_
      rw [hr, hmod]
  obtain ⟨r, p', hrun, hbyte⟩ := hload.returns
  rw [peek, hrun, ← hbyte]

end Mm

namespace UserStack

/-- The lowest address of the page that holds the first stack pointer. -/
def topPage : ℕ := userStackMaxAddr - pageSize

/-- A null-terminated array of pointers to null-terminated strings in the top page. -/
structure PointsTo (peek : ℕ → Option Byte) (a : ℕ) (strs : List (List Byte)) : Prop where
  entry : ∀ i s, strs[i]? = some s → ∃ ptr, readWord peek (a + 8 * i) = some ptr ∧
    topPage ≤ ptr ∧ ptr + s.length < userStackMaxAddr ∧ readCStr peek pageSize ptr = some s
  last : readWord peek (a + 8 * strs.length) = some 0

/-- What a program finds that reads from its stack pointer on. -/
structure Decodes (peek : ℕ → Option Byte) (sp : ℕ) (args env : List (List Byte)) : Prop where
  argc : readWord peek sp = some args.length
  argv : PointsTo peek (sp + 8) args
  envp : PointsTo peek (sp + 8 + 8 * (args.length + 1)) env

/-- The parts of the stack are in the top page, do not overlap, and can be read back. The
random block takes 16 bytes, though only 15 of them are written. -/
structure Laid (peek : ℕ → Option Byte) (start : ℕ) (auxv : List AuxHeader)
    (args : List (List Byte)) : Prop where
  pairwise : (parts start auxv args).Pairwise fun b c => c.stop ≤ b.addr
  random : randomSp start args + 16 ≤ platformSp start args
  inPage : ∀ c ∈ parts start auxv args, topPage ≤ ptrOf start c.addr ∧
    ptrOf start c.addr + c.bytes.length ≤ userStackMaxAddr
  holds : ∀ c ∈ parts start auxv args, HoldsAt peek (ptrOf start c.addr) c.bytes

section Decode

variable {start sp : ℕ} {auxv : List AuxHeader} {args strs : List (List Byte)}
  {peek : ℕ → Option Byte}

theorem env_no_zero : ∀ s ∈ env, 0 ∉ s := by
  unfold env
  decide +kernel

theorem length_env : env.length = 14 := by
  unfold env
  rfl

theorem getElem?_ptrsOf (start sp : ℕ) {i : ℕ} {s : List Byte} (hs : strs[i]? = some s) :
    ∃ c ∈ strChunks sp strs, c.bytes = s ++ [0] ∧
      (ptrsOf start (strChunks sp strs))[i]? = some (ptrOf start c.addr) := by
  have hbytes : ((strChunks sp strs)[i]?).map Chunk.bytes = (strs[i]?).map fun s => s ++ [0] :=
    bytes_strChunks
  rw [hs, Option.map_some, Option.map_eq_some_iff] at hbytes
  obtain ⟨c, hc, hbytes⟩ := hbytes
  refine ⟨c, List.mem_of_getElem? hc, hbytes, ?_⟩
  rw [ptrsOf, List.getElem?_map, hc, Option.map_some]

theorem Laid.pointsTo (h : Laid peek start auxv args) (sp : ℕ) (hzero : ∀ s ∈ strs, 0 ∉ s)
    (hstrs : ∀ c ∈ strChunks sp strs, c ∈ parts start auxv args) {a : ℕ}
    (ha : HoldsAt peek a ((ptrsOf start (strChunks sp strs) ++ [0]).flatMap wordBytes)) :
    PointsTo peek a strs := by
  have hlen : (ptrsOf start (strChunks sp strs)).length = strs.length := by
    rw [ptrsOf, List.length_map, length_strChunks]
  refine ⟨fun i s hs => ?_, ?_⟩
  · obtain ⟨c, hc, hbytes, hptr⟩ := getElem?_ptrsOf start sp hs
    have hin := h.inPage c (hstrs c hc)
    have hholds := h.holds c (hstrs c hc)
    rw [hbytes, List.length_append, List.length_singleton] at hin
    rw [hbytes] at hholds
    have hmax : userStackMaxAddr = topPage + pageSize := by decide
    have hword : userStackMaxAddr < 2 ^ 64 := by decide
    refine ⟨ptrOf start c.addr, (ha.word ?_).readWord (by omega), hin.1, by omega,
      hholds.readCStr (hzero s (List.mem_of_getElem? hs)) (by omega)⟩
    rw [List.getElem?_append_left (by rw [hlen]; exact (List.getElem?_eq_some_iff.mp hs).1), hptr]
  · refine (ha.word ?_).readWord (by decide)
    rw [List.getElem?_append_right hlen.le, hlen, Nat.sub_self]
    rfl

theorem Laid.decodes (h : Laid peek start auxv args) (hargs : ∀ s ∈ args, 0 ∉ s)
    (hpos : 0 < argcSp start auxv args) (hused : start < argcSp start auxv args + pageSize) :
    Decodes peek (regsOf start auxv args).sp args env := by
  have hord := ordered hpos
  have hle : argcSp start auxv args ≤ start := by
    obtain ⟨h₁, h₂, h₃, h₄, h₅, h₆, h₇, h₈, h₉, h₁₀, h₁₁, h₁₂⟩ := descends start auxv args
    omega
  have htop : pageSize ≤ userStackMaxAddr := by decide
  have hsp : (regsOf start auxv args).sp = ptrOf start (argcSp start auxv args) := by
    simp only [regsOf, ptrOf]
    omega
  have hargv : ptrOf start (argvSp start auxv args) = (regsOf start auxv args).sp + 8 := by
    have := hord.argc_eq
    rw [hsp]
    simp only [ptrOf]
    omega
  have henvp : ptrOf start (envpSp start auxv args) =
      (regsOf start auxv args).sp + 8 + 8 * (args.length + 1) := by
    have := hord.argv_eq
    have := hord.argc_eq
    rw [← hargv]
    simp only [ptrOf]
    omega
  have hlen : args.length < 2 ^ 64 := by
    have hin := (h.inPage ⟨argvSp start auxv args, (argPtrs start args ++ [0]).flatMap wordBytes⟩
      (by simp [parts])).2
    rw [argPtrs, length_ptrs_bytes, length_strChunks] at hin
    have hword : userStackMaxAddr < 2 ^ 64 := by decide
    omega
  refine ⟨?_, ?_, ?_⟩
  · rw [hsp]
    exact (h.holds ⟨argcSp start auxv args, wordBytes args.length⟩ (by simp [parts])).readWord hlen
  · rw [← hargv]
    refine h.pointsTo (argTop start) hargs (fun c hc => by simp [parts, hc]) ?_
    exact h.holds ⟨argvSp start auxv args, (argPtrs start args ++ [0]).flatMap wordBytes⟩
      (by simp [parts])
  · rw [← henvp]
    refine h.pointsTo start env_no_zero (fun c hc => by simp [parts, hc]) ?_
    exact h.holds ⟨envpSp start auxv args, (envPtrs start ++ [0]).flatMap wordBytes⟩
      (by simp [parts])

/-- The stack lies in the page that ends at `start`, and the user sees that page. -/
theorem laid_of_page {pg : PageData} {mem : ℕ → Byte} {base : ℕ} (hstart : start = base + pageSize)
    (hpos : 0 < argcSp start auxv args) (hused : start < argcSp start auxv args + pageSize)
    (hpg : ∀ i < pageSize, pg.byte i = Chunk.writeAll mem (stores start auxv args) (base + i))
    (hpeek : ∀ i < pageSize, peek (topPage + i) = some (pg.byte i)) :
    Laid peek start auxv args := by
  have hstacked := stacked_parts hpos
  have hmax : userStackMaxAddr = topPage + pageSize := by decide
  have hptr : ∀ a, base ≤ a → ptrOf start a = topPage + (a - base) := by
    intro a ha
    rw [ptrOf]
    omega
  have hwithin : ∀ c ∈ parts start auxv args,
      argcSp start auxv args ≤ c.addr ∧ c.addr + c.bytes.length ≤ start := fun c hc => by
    rw [← bottom_parts]
    exact hstacked.within hc
  refine ⟨hstacked.pairwise, (ordered hpos).random_eq.le, fun c hc => ?_, fun c hc i hi => ?_⟩
  · have hc := hwithin c hc
    rw [hptr _ (by omega)]
    omega
  · have hbound := hwithin c hc
    have hoff : c.addr - base + i < pageSize := by omega
    have haddr : base + (c.addr - base + i) = c.addr + i := by omega
    have hcovers : c.Covers (c.addr + i) := ⟨Nat.le_add_right .., Nat.add_lt_add_left hi _⟩
    rw [hptr _ (by omega), Nat.add_assoc, hpeek _ hoff, hpg _ hoff, haddr, writeAll_stores,
      hstacked.writeAll_of_covers hc hcovers, Nat.add_sub_cancel_left,
      List.getD_eq_getElem _ _ hi, List.getElem?_eq_getElem hi]

end Decode

end UserStack

namespace UserStack

section Avoids

variable {start : ℕ} {p : Phys}

theorem avoids_userAddr {sp : ℕ} : (userAddr start sp).Avoids .todo := by
  rw [userAddr, shiftUsize]
  exact .bind (avoids_addUsize (by simp)) fun _ => avoids_subUsize (by simp)

theorem avoids_userSpStart {f : Frame} : (userSpStart f).Avoids .todo := by
  rw [userSpStart, sumUsize]
  exact .bind (avoids_addUsize (by simp)) fun _ => avoids_addUsize (by simp)

theorem writeVirt_avoids (addr : ℕ) (bytes : List Byte) :
    Sat (writeVirt addr bytes) p (fun _ _ => True) (· ≠ .todo) := by
  unfold writeVirt
  exact Sat.ensure_bind (fun _ => sat_modify trivial) fun _ => nofun

theorem writeWords_avoids (addr : ℕ) (ws : List ℕ) :
    Sat (writeWords writeVirt addr ws) p (fun _ _ => True) (· ≠ .todo) := by
  induction ws generalizing addr p with
  | nil => exact sat_pure trivial
  | cons w ws ih => exact (writeVirt_avoids _ _).bind fun _ _ _ => ih _

theorem pushStrings_avoids (st : ℕ × List ℕ) (strs : List (List Byte)) :
    Sat (strs.foldlM (pushString writeVirt start) st) p (fun _ _ => True) (· ≠ .todo) := by
  refine Sat.foldlM (fun _ _ _ => True) ?_ trivial
  rintro - s - - st p' -
  unfold pushString
  refine Sat.lift_bind (fun len _ => ?_) (avoids_addUsize nofun)
  refine Sat.lift_bind (fun sp _ => ?_) (avoids_subUsize nofun)
  refine Sat.lift_bind (fun ptr _ => ?_) avoids_userAddr
  exact (writeVirt_avoids _ _).bind fun _ _ _ => sat_pure trivial

theorem pushPointers_avoids (sp : ℕ) (ptrs : List ℕ) :
    Sat (pushPointers writeVirt sp ptrs) p (fun _ _ => True) (· ≠ .todo) := by
  unfold pushPointers
  refine Sat.lift_bind (fun sp _ => ?_) (avoids_subUsize nofun)
  refine (writeVirt_avoids _ _).bind fun _ _ _ => ?_
  exact (writeWords_avoids _ _).bind fun _ _ _ => sat_pure trivial

theorem build_avoids {auxv : List AuxHeader} {args : List (List Byte)} :
    Sat (build start auxv args) p (fun _ _ => True) (· ≠ .todo) := by
  unfold build
  refine (pushStrings_avoids _ _).bind fun _ _ _ => ?_
  refine Sat.lift_bind (fun _ _ => ?_) (avoids_subUsize nofun)
  refine (pushStrings_avoids _ _).bind fun _ _ _ => ?_
  refine Sat.lift_bind (fun _ _ => ?_) (avoids_subUsize nofun)
  refine Sat.lift_bind (fun _ _ => ?_) (avoids_subUsize nofun)
  refine Sat.lift_bind (fun _ _ => ?_) (avoids_subUsize nofun)
  refine (writeVirt_avoids _ _).bind fun _ _ _ => ?_
  refine Sat.lift_bind (fun _ _ => ?_) (avoids_subUsize nofun)
  refine Sat.lift_bind (fun _ _ => ?_) avoids_userAddr
  refine (writeVirt_avoids _ _).bind fun _ _ _ => ?_
  refine Sat.lift_bind (fun _ _ => ?_) (avoids_subUsize nofun)
  refine Sat.lift_bind (fun _ _ => ?_) (avoids_subUsize nofun)
  refine Sat.lift_bind (fun _ _ => ?_) avoids_userAddr
  refine (writeWords_avoids _ _).bind fun _ _ _ => ?_
  refine (pushPointers_avoids _ _).bind fun _ _ _ => ?_
  refine Sat.lift_bind (fun _ _ => ?_) avoids_userAddr
  refine (pushPointers_avoids _ _).bind fun _ _ _ => ?_
  refine Sat.lift_bind (fun _ _ => ?_) avoids_userAddr
  refine Sat.lift_bind (fun _ _ => ?_) (avoids_subUsize nofun)
  refine (writeVirt_avoids _ _).bind fun _ _ _ => ?_
  refine Sat.lift_bind (fun _ _ => ?_) (avoids_subUsize nofun)
  refine Sat.ensure_bind (fun _ => ?_) fun _ => nofun
  refine Sat.lift_bind (fun _ _ => ?_) (avoids_subUsize nofun)
  exact sat_pure trivial

end Avoids

end UserStack

namespace Mm

open Phys UserStack

variable {p : Phys}
  {f : Frame} {headers : List ProgramHeader} {file : MappedFile} {mm : Mm} {stack : Vma}

theorem userSpStart_eq (h : f.paddr + phyMemOffset + pageSize + userStackMaxAddr < wordSize) :
    userSpStart f = .ok (f.paddr + phyMemOffset + pageSize) := by
  rw [userSpStart, sumUsize, addUsize_ok (by omega), Checked.ok_bind, addUsize_ok (by omega)]

/-- The stack of a new task is written to one page. This fails only if the strings do not fit, or
if the page is not in the direct map. -/
theorem writeArgs_sat (hbuilt : Built headers file mm p) (hstack : mm.areas stackTop = some stack)
    (hget : stack.pagesTree.get? (userStackMaxAddr - pageSize) = some f) (phEntrySize entry : ℕ)
    (args : List (List Byte)) :
    Sat (mm.writeArgs phEntrySize entry args) p
      (fun r p' => ∃ pg base, base = f.paddr + phyMemOffset ∧
        r = some (mm, regsOf (base + pageSize) (elfAuxv phEntrySize entry) args) ∧
        p' = p.setPage f pg ∧ stackUsed (elfAuxv phEntrySize entry) args < pageSize ∧
        0 < argcSp (base + pageSize) (elfAuxv phEntrySize entry) args ∧
        base + pageSize < argcSp (base + pageSize) (elfAuxv phEntrySize entry) args + pageSize ∧
        ∀ i < pageSize, pg.byte i = Chunk.writeAll (fun a => (p.mem f).byte (a - base))
          (stores (base + pageSize) (elfAuxv phEntrySize entry) args) (base + i))
      fun e => e ≠ .todo ∧ (pageSize ≤ stackUsed (elfAuxv phEntrySize entry) args ∨
        wordSize ≤ f.paddr + phyMemOffset + pageSize + userStackMaxAddr) := by
  have hfind := hbuilt.tidy.first _ _ _ _ hstack hget
  have halign : Vaddr.isAlign (userStackMaxAddr - pageSize) := by rfl
  unfold writeArgs
  rw [hfind]
  refine (Vma.fastAllocOnePageAndGet_held (findVma_eq_some.mp hfind).2.1 halign hget).bind ?_
  rintro _ p₂ ⟨rfl, hp⟩
  rw [hp]
  obtain ⟨base, hbase⟩ : ∃ base, base = f.paddr + phyMemOffset := ⟨_, rfl⟩
  rw [← hbase]
  refine Sat.lift_bind (fun start hstart => ?_) fun e he => ⟨fun htodo => ?_, .inr ?_⟩
  rotate_left
  · exact avoids_userSpStart e he htodo
  · by_contra hword
    rw [userSpStart_eq (by omega)] at he
    cases he
  obtain rfl : start = base + pageSize := by rw [hbase, sumUsize_eq_ok hstart]
  have hlow : phyMemOffset + pageSize ≤ base + pageSize := by omega
  have halign16 : (base + pageSize) % 16 = 0 := by
    simp only [hbase, Frame.paddr, phyMemOffset, pageSize]
    omega
  have hargc : argcSp (base + pageSize) (elfAuxv phEntrySize entry) args =
      base + pageSize - stackUsed (elfAuxv phEntrySize entry) args := argcSp_eq halign16
  have hpage : pageSize ≤ base + pageSize := Nat.le_add_left ..
  refine (((build_sat hlow _ args).and build_avoids).weaken ?_).bind ?_
  · rintro e ⟨hfull | hword, htodo⟩
    · exact ⟨htodo, .inl (by omega)⟩
    · exact ⟨htodo, .inr hword⟩
  rintro _ _ ⟨⟨rfl, rfl, hused⟩, -⟩
  have hpos : 0 < argcSp (base + pageSize) (elfAuxv phEntrySize entry) args := by omega
  obtain ⟨pg, hpg, hbytes⟩ := writeChunks_eq (p := p) hbase (fun c hc => by
      have hwithin := within_stores hpos hc
      omega) (fun a => (p.mem f).byte (a - base)) fun i _ => by
        rw [Nat.add_sub_cancel_left]
  refine sat_pure ⟨pg, base, rfl, ?_, hpg, by omega, hpos, hused, hbytes⟩
  rw [setVma_eq_self hstack]

/-- The address space of a new task is that of its program, with one page of the stack
written. -/
theorem createUserTaskWith_written (headers : List ProgramHeader) (file : MappedFile)
    (phEntrySize entry : ℕ) (args : List (List Byte)) :
    Sat (createUserTaskWith headers file phEntrySize entry args) p
      (fun r p' => ∃ mm p₁ stack f pg base, newFromElf headers file p = .ok (mm, p₁) ∧
        mm.areas stackTop = some stack ∧ stack.permits .read ∧
        stack.pagesTree.get? (userStackMaxAddr - pageSize) = some f ∧
        r = some (mm, regsOf (base + pageSize) (elfAuxv phEntrySize entry) args) ∧
        p' = p₁.setPage f pg ∧ base = f.paddr + phyMemOffset ∧
        0 < argcSp (base + pageSize) (elfAuxv phEntrySize entry) args ∧
        base + pageSize < argcSp (base + pageSize) (elfAuxv phEntrySize entry) args + pageSize ∧
        ∀ i < pageSize, pg.byte i = Chunk.writeAll (fun a => (p₁.mem f).byte (a - base))
          (stores (base + pageSize) (elfAuxv phEntrySize entry) args) (base + i))
      (· ≠ .todo) := by
  unfold createUserTaskWith
  have hload := (newFromElf_isLocal (p := p) headers file).of_run
  refine (((newFromElf_sat headers file).and hload).weaken fun _ he => he.2).bind ?_
  rintro mm p₁ ⟨hbuilt, hrun, -⟩
  obtain ⟨stack, f, hstack, hread, hget⟩ := hbuilt.topPage
  refine (writeArgs_sat hbuilt hstack hget phEntrySize entry args).mono ?_ fun _ he => he.1
  rintro _ _ ⟨pg, base, hbase, rfl, rfl, -, hpos, hused, hbytes⟩
  exact ⟨mm, p₁, stack, f, pg, base, hrun, hstack, hread, hget, rfl, rfl, hbase, hpos, hused, hbytes⟩

theorem writeArgs_laid (hbuilt : Built headers file mm p) (hstack : mm.areas stackTop = some stack)
    (hread : stack.permits .read)
    (hget : stack.pagesTree.get? (userStackMaxAddr - pageSize) = some f) (phEntrySize entry : ℕ)
    (args : List (List Byte)) :
    Sat (mm.writeArgs phEntrySize entry args) p
      (fun r p' => ∃ pg start, r = some (mm, regsOf start (elfAuxv phEntrySize entry) args) ∧
        p' = p.setPage f pg ∧ stackUsed (elfAuxv phEntrySize entry) args < pageSize ∧
        start % pageSize = 0 ∧ 0 < argcSp start (elfAuxv phEntrySize entry) args ∧
        start < argcSp start (elfAuxv phEntrySize entry) args + pageSize ∧
        Laid (mm.peek p') start (elfAuxv phEntrySize entry) args)
      fun e => e ≠ .todo ∧ (pageSize ≤ stackUsed (elfAuxv phEntrySize entry) args ∨
        wordSize ≤ f.paddr + phyMemOffset + pageSize + userStackMaxAddr) := by
  refine (writeArgs_sat hbuilt hstack hget phEntrySize entry args).imp ?_
  rintro _ _ ⟨pg, base, hbase, rfl, rfl, hfits, hpos, hused, hbytes⟩
  have halign : (base + pageSize) % pageSize = 0 := by
    simp only [hbase, Frame.paddr, phyMemOffset, pageSize]
    omega
  have hlive := hbuilt.tidy.ok.live _ _ _ (.of_get hstack hget)
  refine ⟨pg, base + pageSize, rfl, rfl, hfits, halign, hpos, hused,
    laid_of_page rfl hpos hused hbytes fun i hi => ?_⟩
  rw [topPage, (hbuilt.tidy.setPage hlive.2 pg).peek_resident hstack hread hget hi, Phys.setPage]
  simp only [replaceAt_self]

theorem createUserTaskWith_sat (headers : List ProgramHeader) (file : MappedFile)
    (phEntrySize entry : ℕ) (args : List (List Byte)) :
    Sat (createUserTaskWith headers file phEntrySize entry args) p
      (fun r p' => ∀ mm regs, r = some (mm, regs) → ∃ start, start % pageSize = 0 ∧
        regs = regsOf start (elfAuxv phEntrySize entry) args ∧
        0 < argcSp start (elfAuxv phEntrySize entry) args ∧
        start < argcSp start (elfAuxv phEntrySize entry) args + pageSize ∧
        Laid (mm.peek p') start (elfAuxv phEntrySize entry) args)
      fun _ => True := by
  unfold createUserTaskWith
  refine (newFromElf_sat headers file).bind ?_
  intro mm p₁ hbuilt
  obtain ⟨stack, f, hstack, hread, hget⟩ := hbuilt.topPage
  refine (writeArgs_laid hbuilt hstack hread hget phEntrySize entry args).mono ?_
    fun _ _ => trivial
  rintro _ _ ⟨pg, start, rfl, rfl, -, halign, hpos, hused, hlaid⟩ _ _ ⟨⟩
  exact ⟨start, halign, rfl, hpos, hused, hlaid⟩

/-- A program that reads from its first stack pointer on finds its arguments and the
environment, and no part of the stack has overwritten another. -/
theorem createUserTaskWith_decodes {headers : List ProgramHeader} {file : MappedFile}
    {phEntrySize entry : ℕ} {args : List (List Byte)} (hargs : ∀ s ∈ args, 0 ∉ s) {mm : Mm}
    {regs : Regs} {p' : Phys}
    (hrun : createUserTaskWith headers file phEntrySize entry args p =
      .ok (some (mm, regs), p')) :
    Decodes (mm.peek p') regs.sp args env ∧
      ∃ start, regs = regsOf start (elfAuxv phEntrySize entry) args ∧
        Laid (mm.peek p') start (elfAuxv phEntrySize entry) args := by
  obtain ⟨start, -, rfl, hpos, hused, hlaid⟩ :=
    (createUserTaskWith_sat headers file phEntrySize entry args).of_ok hrun mm regs rfl
  exact ⟨hlaid.decodes hargs hpos hused, start, rfl, hlaid⟩

theorem createUserTaskWith_ls_runs : ∃ mm regs p',
    createUserTaskWith [] ⟨0, []⟩ 56 0x1000 (["ls", "-l"].map asBytes) .bare =
      .ok (some (mm, regs), p') := by
  have hsome : ((createUserTaskWith [] ⟨0, []⟩ 56 0x1000 (["ls", "-l"].map asBytes)) .bare).map
      (fun r => r.1.isSome) = .ok true := by
    decide +kernel
  obtain ⟨⟨r, p'⟩, hrun, hr⟩ := Checked.map_eq_ok.mp hsome
  obtain ⟨⟨mm, regs⟩, rfl⟩ := Option.isSome_iff_exists.mp hr
  exact ⟨mm, regs, p', hrun⟩

theorem createUserTaskWith_decodes_ls :
    ∃ mm regs p', createUserTaskWith [] ⟨0, []⟩ 56 0x1000 (["ls", "-l"].map asBytes) .bare =
        .ok (some (mm, regs), p') ∧
      Decodes (mm.peek p') regs.sp (["ls", "-l"].map asBytes) env ∧
      ∃ start, regs = regsOf start (elfAuxv 56 0x1000) (["ls", "-l"].map asBytes) ∧
        Laid (mm.peek p') start (elfAuxv 56 0x1000) (["ls", "-l"].map asBytes) := by
  obtain ⟨mm, regs, p', hrun⟩ := createUserTaskWith_ls_runs
  have hargs : ∀ s ∈ ["ls", "-l"].map asBytes, (0 : Byte) ∉ s := by decide +kernel
  exact ⟨mm, regs, p', hrun, createUserTaskWith_decodes hargs hrun⟩

end Mm

end Zinix
