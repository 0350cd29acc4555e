import Zinix.Mm.Heap
import Zinix.Mm.Placement

/-!
# Arguments of `sys_mmap`

Lengths and addresses are checked by assertions and by sums that may overflow, an area
without bytes may be put under the key of another one, and the search for a place ends in a
panic where two areas overlap.
-/

namespace Zinix

namespace Mm

variable {mm : Mm} {va len offset : ℕ} {prot flags : BitVec 64} {file : Option MappedFile}
  {w : Vma}

/-- The call fails and changes nothing, or it adds an area and keeps all others. -/
def MmapRight (mm : Mm) (va len : ℕ) (prot flags : BitVec 64) (file : Option MappedFile)
    (offset : ℕ) (p : Phys) : Prop :=
  ∃ r mm' p', mm.sysMmap va len prot flags file offset p = .ok ((r, mm'), p') ∧
    (r = -1 ∧ mm' = mm ∧ p' = p ∨
      ∃ (start : ℕ) (new : Vma), r = start ∧ start % pageSize = 0 ∧ mm.areas start = none ∧
        mm'.areas start = some new ∧ new.startVaddr = start ∧ start + len ≤ new.endVaddr ∧
        ∀ k vma, mm.areas k = some vma → mm'.areas k = some vma)

/-- The gaps between areas in descending order, each with its two ends. Where areas overlap,
the lower end is above the upper one. -/
def gapsBelow (top : ℕ) : List (ℕ × Vma) → List (ℕ × ℕ)
  | [] => [(userSpaceStart, top)]
  | (_, v) :: rest => (v.endVaddr, top) :: gapsBelow v.startVaddr rest

/-- The highest gap that has room for the length or lies between overlapping areas. -/
def highestGap (mm : Mm) (len : ℕ) : Option (ℕ × ℕ) :=
  (gapsBelow mmapTop (mm.vmas.range userSpaceStart mmapTop).reverse).find?
    fun g => g.2 < g.1 ∨ g.1 + len ≤ g.2

/-- The conditions under which a place is looked for and found or refused, but no area is
lost. -/
def MmapSafe (mm : Mm) (va len : ℕ) : Prop :=
  len % pageSize = 0 ∧ (mmapTop ≤ len ∨
    if va = 0 then
      ∀ g ∈ mm.highestGap len, g.1 ≤ g.2 ∧ mm.areas (g.2 - len) = none
    else
      va + len < wordSize ∧ (mmapTop < va + len ∨
        va % pageSize = 0 ∧ va < mmapTop ∧ (len = 0 → mm.areas va = none)))

/-- The call asks for a mapping of an open file that cannot be mapped. -/
def NoFile (flags : BitVec 64) (file : Option MappedFile) : Prop :=
  ¬flags &&& 0x20 == 0x20 ∧ file = none

theorem fitLow_gap (len lo hi : ℕ) (next : Checked (Option Vma)) :
    (do
      if len ≤ (← subUsize hi lo) then
        return some (.empty (← subUsize hi len) hi)
      else
        next) =
      if hi < lo ∨ lo + len ≤ hi then
        if lo ≤ hi then .ok (some (.empty (hi - len) hi)) else .error .overflow
      else next := by
  by_cases hle : lo ≤ hi
  · rw [subUsize_ok hle, Checked.ok_bind, if_pos hle]
    by_cases hfits : lo + len ≤ hi
    · rw [if_pos (by omega), if_pos (.inr hfits), subUsize_ok (by omega)]
      rfl
    · rw [if_neg (by omega), if_neg (by omega)]
  · rw [if_pos (.inl (Nat.not_le.mp hle)), if_neg hle, subUsize, if_neg hle]
    rfl

theorem fitLow_eq_find (len last : ℕ) (l : List (ℕ × Vma)) :
    fitLow len userSpaceStart last l =
      match (gapsBelow last l).find? fun g => g.2 < g.1 ∨ g.1 + len ≤ g.2 with
      | none => .ok none
      | some g => if g.1 ≤ g.2 then .ok (some (.empty (g.2 - len) g.2)) else .error .overflow := by
  induction l generalizing last with
  | nil =>
    rw [fitLow, fitLow_gap, gapsBelow]
    by_cases hstop : last < userSpaceStart ∨ userSpaceStart + len ≤ last
    · rw [if_pos hstop, List.find?_cons_of_pos (by simpa using hstop)]
    · rw [if_neg hstop, List.find?_cons_of_neg (by simpa using hstop)]
      rfl
  | cons e l ih =>
    obtain ⟨k, v⟩ := e
    rw [fitLow, fitLow_gap, gapsBelow]
    by_cases hstop : last < v.endVaddr ∨ v.endVaddr + len ≤ last
    · rw [if_pos hstop, List.find?_cons_of_pos (by simpa using hstop)]
    · rw [if_neg hstop, List.find?_cons_of_neg (by simpa using hstop), ih]

theorem isAlign_iff {v : ℕ} : Vaddr.isAlign v ↔ v % pageSize = 0 := by
  simp [Vaddr.isAlign]

/-- The place that the core finds for the arguments of the call. -/
def placeFor (mm : Mm) (va len : ℕ) : Checked (Option Vma) :=
  mm.allocUnmappedCore (if va ≠ 0 then some va else none) len false userSpaceStart mmapTop

theorem placeFor_of_unaligned (hlen : len % pageSize ≠ 0) :
    mm.placeFor va len = .error .assertion := by
  have halign : ¬Vaddr.isAlign len := fun h => hlen (isAlign_iff.mp h)
  unfold placeFor allocUnmappedCore
  rw [Checked.ensure_neg halign]
  rfl

theorem placeFor_of_large (hlen : len % pageSize = 0) (hlarge : mmapTop ≤ len) :
    mm.placeFor va len = .ok none := by
  have hbounds : Vaddr.isAlign userSpaceStart ∧ Vaddr.isAlign mmapTop ∧
      userSpaceStart < mmapTop ∧ subUsize mmapTop userSpaceStart = .ok mmapTop := by decide
  obtain ⟨hstart, htop, hlt, hsub⟩ := hbounds
  unfold placeFor allocUnmappedCore
  rw [Checked.ensure_pos (isAlign_iff.mpr hlen), Checked.ok_bind, Checked.ensure_pos hstart,
    Checked.ok_bind, Checked.ensure_pos htop, Checked.ok_bind, Checked.ensure_pos hlt,
    Checked.ok_bind, hsub, Checked.ok_bind, if_pos hlarge]
  rfl

theorem pageRange_mmap (hlen : len % pageSize = 0) (hsmall : len < mmapTop) :
    PageRange userSpaceStart mmapTop len where
  len_mod := hlen
  start_mod := rfl
  end_mod := rfl
  small := hsmall
  word := by decide

theorem placeFor_zero (hlen : len % pageSize = 0) (hsmall : len < mmapTop) :
    mm.placeFor 0 len = match mm.highestGap len with
      | none => .ok none
      | some g => if g.1 ≤ g.2 then .ok (some (.empty (g.2 - len) g.2)) else .error .overflow := by
  rw [placeFor, if_neg (by decide), allocUnmappedCore_eq (pageRange_mmap hlen hsmall)]
  exact fitLow_eq_find len mmapTop _

theorem placeFor_fixed (hva : va ≠ 0) (hlen : len % pageSize = 0) (hsmall : len < mmapTop) :
    mm.placeFor va len =
      if wordSize ≤ va + len then .error .overflow
      else if mmapTop < va + len then .ok none
      else if va % pageSize = 0 ∧ va < mmapTop then mm.allocUnmappedFixed va len mmapTop
      else .error .assertion := by
  rw [placeFor, if_pos hva, allocUnmappedCore_eq (pageRange_mmap hlen hsmall)]
  dsimp only
  by_cases hword : wordSize ≤ va + len
  · rw [if_pos hword, addUsize_overflow hword]
    rfl
  · rw [if_neg hword, addUsize_ok (Nat.not_le.mp hword), Checked.ok_bind]
    by_cases htop : mmapTop < va + len
    · rw [if_pos htop, if_pos htop]
      rfl
    · rw [if_neg htop, if_neg htop]
      by_cases halign : va % pageSize = 0
      · rw [Checked.ensure_pos (isAlign_iff.mpr halign), Checked.ok_bind,
          Checked.ensure_pos (show userSpaceStart ≤ va from Nat.zero_le va), Checked.ok_bind]
        by_cases hbelow : va < mmapTop
        · rw [if_pos ⟨halign, hbelow⟩, Checked.ensure_pos hbelow, Checked.ok_bind]
        · rw [if_neg fun h => hbelow h.2, Checked.ensure_neg hbelow]
          rfl
      · rw [if_neg fun h => halign h.1, Checked.ensure_neg fun h => halign (isAlign_iff.mp h)]
        rfl

/-- The search returns, and what it finds is under no key yet. -/
def Fresh (mm : Mm) (va len : ℕ) : Prop :=
  ∃ place, mm.placeFor va len = .ok place ∧ ∀ w ∈ place, mm.areas w.startVaddr = none

theorem fresh_of_none (h : mm.placeFor va len = .ok none) : mm.Fresh va len :=
  ⟨none, h, fun _ hw => by cases hw⟩

theorem fresh_iff_of_some (h : mm.placeFor va len = .ok (some w)) :
    mm.Fresh va len ↔ mm.areas w.startVaddr = none := by
  simp [Fresh, h]

theorem not_fresh_of_error {e : Panic} (h : mm.placeFor va len = .error e) :
    ¬mm.Fresh va len := by
  simp [Fresh, h]

/-- A place that was asked for is only that of another area if it has no bytes. -/
theorem fresh_fixed_iff (hword : va + len < wordSize)
    (h : mm.placeFor va len = mm.allocUnmappedFixed va len mmapTop) (htop : va + len ≤ mmapTop) :
    mm.Fresh va len ↔ (len = 0 → mm.areas va = none) := by
  by_cases hstarts : mm.StartsIn va (va + len)
  · refine iff_of_true (fresh_of_none (h.trans (allocUnmappedFixed_of_startsIn hstarts htop))) ?_
    rintro rfl
    obtain ⟨k, vma, -, hle, hlt⟩ := hstarts
    omega
  · rw [fresh_iff_of_some (h.trans (allocUnmappedFixed_of_not_startsIn hstarts hword))]
    refine ⟨fun hnone _ => hnone, fun hzero => ?_⟩
    by_cases hlen : len = 0
    · exact hzero hlen
    · cases hva : mm.areas va with
      | none => exact hva
      | some vma => exact absurd ⟨va, vma, hva, le_rfl, by omega⟩ hstarts

theorem fresh_iff_mmapSafe (mm : Mm) (va len : ℕ) : mm.Fresh va len ↔ mm.MmapSafe va len := by
  unfold MmapSafe
  by_cases hlen : len % pageSize = 0
  swap
  · exact iff_of_false (not_fresh_of_error (placeFor_of_unaligned hlen)) fun h => hlen h.1
  rw [and_iff_right hlen]
  by_cases hlarge : mmapTop ≤ len
  · exact iff_of_true (fresh_of_none (placeFor_of_large hlen hlarge)) (.inl hlarge)
  rw [or_iff_right hlarge]
  have hsmall := Nat.not_le.mp hlarge
  by_cases hva : va = 0
  · rw [if_pos hva]
    subst hva
    have hplace : mm.placeFor 0 len = _ := placeFor_zero hlen hsmall
    cases hgap : mm.highestGap len with
    | none =>
      rw [hgap] at hplace
      exact iff_of_true (fresh_of_none hplace) fun _ h => by cases h
    | some g =>
      rw [hgap] at hplace
      dsimp only at hplace
      simp only [Option.mem_some_iff, forall_eq']
      by_cases hle : g.1 ≤ g.2
      · rw [if_pos hle] at hplace
        rw [fresh_iff_of_some hplace, and_iff_right hle]
        rfl
      · rw [if_neg hle] at hplace
        exact iff_of_false (not_fresh_of_error hplace) fun h => hle h.1
  · rw [if_neg hva]
    have hplace : mm.placeFor va len = _ := placeFor_fixed hva hlen hsmall
    by_cases hword : wordSize ≤ va + len
    · rw [if_pos hword] at hplace
      exact iff_of_false (not_fresh_of_error hplace) fun h => by omega
    rw [if_neg hword] at hplace
    rw [and_iff_right (Nat.not_le.mp hword)]
    by_cases htop : mmapTop < va + len
    · rw [if_pos htop] at hplace
      exact iff_of_true (fresh_of_none hplace) (.inl htop)
    rw [if_neg htop] at hplace
    rw [or_iff_right htop]
    by_cases hok : va % pageSize = 0 ∧ va < mmapTop
    · rw [if_pos hok] at hplace
      rw [fresh_fixed_iff (Nat.not_le.mp hword) hplace (Nat.not_lt.mp htop)]
      exact ⟨fun h => ⟨hok.1, hok.2, h⟩, fun h => h.2.2⟩
    · rw [if_neg hok] at hplace
      exact iff_of_false (not_fresh_of_error hplace) fun h => hok ⟨h.1, h.2.1⟩

/-- The end of the call, when it is known what became of the search. -/
def finish (mm : Mm) (p : Phys) : Checked (Option Vma) → Checked ((ℤ × Mm) × Phys)
  | .error e => .error e
  | .ok none => .ok ((-1, mm), p)
  | .ok (some w) => (mm.insertNoCheck w p).map fun r => ((w.startVaddr, r.1), r.2)

theorem finish_eq (mm : Mm) (place : Checked (Option Vma)) (p : Phys) :
    ((liftM place : Program Phys (Option Vma)) >>= fun
      | none => return (-1, mm)
      | some v => do return ((v.startVaddr : ℤ), ← mm.insertNoCheck v)) p =
      mm.finish p place := by
  cases place with
  | error e => rfl
  | ok place =>
    cases place with
    | none => rfl
    | some w =>
      rw [Program.lift_bind_apply, Checked.ok_bind, finish]
      dsimp only
      rw [Program.bind_apply]
      cases mm.insertNoCheck w p with
      | error e => rfl
      | ok r => rfl

theorem sysMmap_eq (hfile : ¬NoFile flags file) (p : Phys) :
    ∃ dress : Vma → Vma, (∀ w, SameRange w (dress w)) ∧
      mm.sysMmap va len prot flags file offset p =
        mm.finish p ((mm.placeFor va len).map (Option.map dress)) := by
  by_cases hanon : flags &&& 0x20 == 0x20
  · refine ⟨fun vma => { vma with
      pagetable := some mm.pagetable
      vmFlags := .fromMmap flags prot }, fun w => ⟨rfl, rfl⟩, ?_⟩
    unfold Mm.sysMmap
    rw [if_pos hanon]
    exact finish_eq mm _ p
  · cases file with
    | none => exact absurd ⟨hanon, rfl⟩ hfile
    | some inode =>
      refine ⟨fun vma => { vma with
        pagetable := some mm.pagetable
        fileOff := offset
        file := some inode
        vmFlags := .fromMmap flags prot
        fileLen := min len inode.bytes.length
        fileInVmaOff := 0 }, fun w => ⟨rfl, rfl⟩, ?_⟩
      unfold Mm.sysMmap
      rw [if_neg hanon]
      dsimp only
      rw [allocMmapFile, Checked.ensure_pos (min_le_left ..)]
      exact finish_eq mm _ p

theorem insertNoCheck_of_none (h : mm.areas w.startVaddr = none) (p : Phys) :
    mm.insertNoCheck w p = .ok (mm.setVma w.startVaddr w, p) := by
  have hget : mm.vmas.get? w.startVaddr = none := h
  unfold Mm.insertNoCheck
  rw [hget]
  rfl

theorem mmapRight_iff_fresh (h : mm.HeapKept) (hfile : ¬NoFile flags file) (p : Phys) :
    mm.MmapRight va len prot flags file offset p ↔ mm.Fresh va len := by
  obtain ⟨dress, hdress, hcall⟩ : ∃ dress : Vma → Vma, (∀ w, SameRange w (dress w)) ∧
    mm.sysMmap va len prot flags file offset p = _ := sysMmap_eq hfile p
  unfold MmapRight
  rw [hcall]
  cases hplace : mm.placeFor va len with
  | error e =>
    refine iff_of_false ?_ (not_fresh_of_error hplace)
    rintro ⟨r, mm', p', hrun, -⟩
    cases hrun
  | ok place =>
    cases place with
    | none => exact iff_of_true ⟨-1, mm, p, rfl, .inl ⟨rfl, rfl, rfl⟩⟩ (fresh_of_none hplace)
    | some w =>
      obtain ⟨hstart, hend⟩ := hdress w
      obtain ⟨hspot, -, -⟩ := h.allocUnmappedCore hplace
      rw [fresh_iff_of_some hplace, ← hstart]
      constructor
      · rintro ⟨r, mm', p', hrun, hor⟩
        obtain ⟨s, -, hs⟩ := Checked.map_eq_ok.mp hrun
        simp only [Prod.mk.injEq] at hs
        obtain ⟨⟨rfl, -⟩, -⟩ := hs
        rcases hor with ⟨hfail, -⟩ | ⟨start, new, hret, -, hnone, -⟩
        · omega
        · rwa [Int.ofNat.inj hret]
      · intro hnone
        refine ⟨(dress w).startVaddr, mm.setVma (dress w).startVaddr (dress w), p, ?_, .inr ?_⟩
        · simp only [Except.map, Option.map_some, finish, insertNoCheck_of_none hnone]
        · refine ⟨(dress w).startVaddr, dress w, rfl, ?_, hnone, ?_, rfl, ?_, ?_⟩
          · rw [hstart]
            exact hspot.aligned
          · rw [areas_setVma, replaceAt_self]
          · rw [hstart, hend, hspot.end_eq]
          · intro k vma hk
            have hne : k ≠ (dress w).startVaddr := by
              rintro rfl
              cases hk.symm.trans hnone
            rw [areas_setVma, replaceAt_of_ne hne, hk]

theorem mmapRight_of_noFile (h : NoFile flags file) (p : Phys) :
    mm.MmapRight va len prot flags file offset p := by
  obtain ⟨hanon, rfl⟩ := h
  refine ⟨-1, mm, p, ?_, .inl ⟨rfl, rfl, rfl⟩⟩
  unfold Mm.sysMmap
  rw [if_neg hanon]
  rfl

/-- In every address space of a user task the call treats its arguments as it should exactly
when there is no file to map, or the length is a whole number of pages and: it is longer than
the space; or the address is given, its sum with the length does not overflow, and the place
lies above the space or starts on a page in it, at which no area starts if the length is zero;
or the address is left open, and the search is over before it meets areas that overlap, at a
place where no area starts. -/
theorem mmapRight_iff_mmapSafe (h : mm.Reachable) (va len : ℕ) (prot flags : BitVec 64)
    (file : Option MappedFile) (offset : ℕ) (p : Phys) :
    mm.MmapRight va len prot flags file offset p ↔ NoFile flags file ∨ mm.MmapSafe va len := by
  by_cases hfile : NoFile flags file
  · exact iff_of_true (mmapRight_of_noFile hfile p) (.inl hfile)
  · rw [or_iff_right hfile, mmapRight_iff_fresh h.heapKept hfile, fresh_iff_mmapSafe]

/-- A page of memory anywhere, for the program without segments. -/
theorem mmapRight_emptyTask : ∃ mm p, emptyTask .bare = .ok (some mm, p) ∧
    mm.MmapSafe 0 0x1000 ∧ mm.MmapRight 0 0x1000 3 0x22 none 0 p := by
  have hrun : (emptyTask .bare).map (fun r => r.1.map fun mm =>
      (mm.highestGap 0x1000, (mm.areas 0x7fff000).isNone)) =
        .ok (some (some (0x2000, 0x8000000), true)) := by
    decide +kernel
  obtain ⟨⟨created, p⟩, hcreate, hmm⟩ := Checked.map_eq_ok.mp hrun
  obtain ⟨mm, rfl, hfields⟩ := Option.map_eq_some_iff.mp hmm
  obtain ⟨hgap, hnone⟩ := Prod.mk.inj hfields
  have hsafe : mm.MmapSafe 0 0x1000 := by
    refine ⟨rfl, .inr ?_⟩
    rw [if_pos rfl, hgap]
    intro g hg
    rw [Option.mem_some_iff] at hg
    subst hg
    exact ⟨by decide, Option.isNone_iff_eq_none.mp hnone⟩
  exact ⟨mm, p, hcreate, hsafe,
    (mmapRight_iff_mmapSafe (.create hcreate) 0 0x1000 3 0x22 none 0 p).mpr (.inr hsafe)⟩

/-- For the same program, a single byte and an address near the end of the word panic, and
no bytes at the start of the heap replace the heap. -/
theorem not_mmapRight_emptyTask : ∃ mm p, emptyTask .bare = .ok (some mm, p) ∧
    (mm.sysMmap 0 1 3 0x22 none 0 p).map (fun _ => ()) = .error .assertion ∧
    ¬mm.MmapRight 0 1 3 0x22 none 0 p ∧
    (mm.sysMmap (2 ^ 64 - 0x1000) 0x1000 3 0x22 none 0 p).map (fun _ => ()) = .error .overflow ∧
    ¬mm.MmapRight (2 ^ 64 - 0x1000) 0x1000 3 0x22 none 0 p ∧
    (mm.areas 0x1000).map Vma.endVaddr = some 0x2000 ∧
    (mm.sysMmap 0x1000 0 3 0x22 none 0 p).map
      (fun r => (r.1.1, (r.1.2.areas 0x1000).map Vma.endVaddr)) = .ok (0x1000, some 0x1000) ∧
    ¬mm.MmapRight 0x1000 0 3 0x22 none 0 p := by
  have hheap : (emptyTask .bare).map (fun r => r.1.map fun mm =>
      (mm.areas 0x1000).map Vma.endVaddr) = .ok (some (some 0x2000)) := by
    decide +kernel
  have hbyte : (emptyTask .bare).map (fun r => r.1.map fun mm =>
      (mm.sysMmap 0 1 3 0x22 none 0 r.2).map (fun _ => ())) =
        .ok (some (.error .assertion)) := by
    decide +kernel
  have hlast : (emptyTask .bare).map (fun r => r.1.map fun mm =>
      (mm.sysMmap (2 ^ 64 - 0x1000) 0x1000 3 0x22 none 0 r.2).map (fun _ => ())) =
        .ok (some (.error .overflow)) := by
    decide +kernel
  have hzero : (emptyTask .bare).map (fun r => r.1.map fun mm =>
      (mm.sysMmap 0x1000 0 3 0x22 none 0 r.2).map
        (fun r => (r.1.1, (r.1.2.areas 0x1000).map Vma.endVaddr))) =
          .ok (some (.ok (0x1000, some 0x1000))) := by
    decide +kernel
  obtain ⟨⟨created, p⟩, hcreate, hmm⟩ := Checked.map_eq_ok.mp hheap
  obtain ⟨mm, rfl, hheap⟩ := Option.map_eq_some_iff.mp hmm
  rw [hcreate] at hbyte hlast hzero
  replace hbyte := Option.some.inj (Except.ok.inj hbyte)
  replace hlast := Option.some.inj (Except.ok.inj hlast)
  replace hzero := Option.some.inj (Except.ok.inj hzero)
  have hfile : ¬NoFile 0x22 none := fun h => h.1 rfl
  have hkept := (Reachable.create hcreate).heapKept
  refine ⟨mm, p, hcreate, hbyte, ?_, hlast, ?_, hheap, hzero, ?_⟩
  · rw [mmapRight_iff_fresh hkept hfile, fresh_iff_mmapSafe]
    rintro ⟨hlen, -⟩
    cases hlen
  · rw [mmapRight_iff_fresh hkept hfile, fresh_iff_mmapSafe]
    rintro ⟨-, hlarge | hplace⟩
    · exact absurd hlarge (by decide)
    · rw [if_neg (by decide)] at hplace
      exact absurd hplace.1 (by decide)
  · rw [mmapRight_iff_fresh hkept hfile, fresh_iff_mmapSafe]
    rintro ⟨-, hlarge | hplace⟩
    · exact absurd hlarge (by decide)
    · rw [if_neg (by decide)] at hplace
      rcases hplace.2 with htop | ⟨-, -, hnone⟩
      · exact absurd htop (by decide)
      · rw [hnone rfl] at hheap
        cases hheap

end Mm

end Zinix
