import Zinix.Lib.Gaps
import Zinix.Mm.Layout

/-!
# Where a new area is placed

Without an address `__alloc_unmapped_core` finds the lowest or the highest place that is
free. With an address it looks only at the areas that start there or above.
-/

namespace Zinix

/-- The areas are not empty, do not overlap and stand under their start addresses. -/
structure Apart (A : ℕ → Option Vma) : Prop where
  keyed : ∀ k vma, A k = some vma → vma.startVaddr = k
  nonempty : ∀ k vma, A k = some vma → vma.startVaddr < vma.endVaddr
  disjoint : ∀ j k v w, A j = some v → A k = some w → j ≠ k → ∀ a, ¬(v.inVma a ∧ w.inVma a)

namespace Apart

variable {A : ℕ → Option Vma}

theorem end_le (h : Apart A) {j k : ℕ} {v w : Vma} (hj : A j = some v) (hk : A k = some w)
    (hlt : j < k) : v.endVaddr ≤ k := by
  have hv := h.keyed j v hj
  have hw := h.keyed k w hk
  have hne := h.nonempty k w hk
  by_contra hend
  refine h.disjoint j k v w hj hk hlt.ne k ⟨?_, ?_⟩
  · rw [Vma.inVma_iff]
    omega
  · rw [Vma.inVma_iff]
    omega

/-- A new area, or a new end of an old one, that keeps clear of all other areas. -/
theorem insert (h : Apart A) {start : ℕ} {new : Vma} (hstart : new.startVaddr = start)
    (hne : start < new.endVaddr)
    (hclear : ∀ k vma, A k = some vma → k ≠ start → new.endVaddr ≤ k ∨ vma.endVaddr ≤ start) :
    Apart (replaceAt A start (some new)) := by
  have hcases : ∀ k vma, replaceAt A start (some new) k = some vma →
      k = start ∧ vma = new ∨ k ≠ start ∧ A k = some vma := by
    intro k vma hk
    by_cases heq : k = start
    · rw [heq, replaceAt_self] at hk
      exact .inl ⟨heq, (Option.some.inj hk).symm⟩
    · rw [replaceAt_of_ne heq] at hk
      exact .inr ⟨heq, hk⟩
  have hout : ∀ k vma, A k = some vma → k ≠ start → ∀ a, ¬(vma.inVma a ∧ new.inVma a) := by
    rintro k vma hk hother a ⟨ha, hnew⟩
    rw [Vma.inVma_iff] at ha hnew
    have hkey := h.keyed k vma hk
    rcases hclear k vma hk hother with hle | hle
    · omega
    · omega
  constructor
  · intro k vma hk
    rcases hcases k vma hk with ⟨rfl, rfl⟩ | ⟨-, hold⟩
    · exact hstart
    · exact h.keyed k vma hold
  · intro k vma hk
    rcases hcases k vma hk with ⟨rfl, rfl⟩ | ⟨-, hold⟩
    · exact hstart ▸ hne
    · exact h.nonempty k vma hold
  · intro j k v w hj hk hjk a ha
    rcases hcases j v hj with ⟨rfl, rfl⟩ | ⟨hother, hold⟩
    · rcases hcases k w hk with ⟨rfl, rfl⟩ | ⟨hother', hold'⟩
      · exact hjk rfl
      · exact hout k w hold' hother' a ha.symm
    · rcases hcases k w hk with ⟨rfl, rfl⟩ | ⟨hother', hold'⟩
      · exact hout j v hold hother a ha
      · exact h.disjoint j k v w hold hold' hjk a ha

end Apart

namespace Mm

variable {last v top : ℕ}

def Free (mm : Mm) (a b : ℕ) : Prop :=
  ∀ k vma, mm.areas k = some vma → ∀ x, a ≤ x → x < b → vma.inVma x = false

/-- The places for a number of bytes in a range of addresses. -/
def places (mm : Mm) (rangeStart rangeEnd len : ℕ) : Set ℕ :=
  {a | rangeStart ≤ a ∧ a + len ≤ rangeEnd ∧ mm.Free a (a + len)}

variable {mm : Mm} {len rangeStart rangeEnd : ℕ} {l : List (ℕ × Vma)}

def ends (e : ℕ × Vma) : ℕ × ℕ := (e.2.startVaddr, e.2.endVaddr)

theorem fitHigh_eq (h : Gaps.Ascending rangeEnd last (l.map ends)) (hword : rangeEnd < wordSize) :
    fitHigh len rangeEnd last l =
      .ok ((Gaps.firstFit len rangeEnd last (l.map ends)).map fun a => .empty a (a + len)) := by
  induction l generalizing last with
  | nil =>
    have hle : last ≤ rangeEnd := h
    rw [fitHigh, subUsize_ok hle, Checked.ok_bind, List.map_nil, Gaps.firstFit]
    by_cases hfit : last + len ≤ rangeEnd
    · rw [if_pos (by omega), if_pos hfit, addUsize_ok (by omega)]
      rfl
    · rw [if_neg (by omega), if_neg hfit]
      rfl
  | cons e l ih =>
    obtain ⟨hs, ht, hl⟩ := h
    have hend : e.2.endVaddr ≤ rangeEnd := hl.le
    rw [fitHigh, subUsize_ok hs, Checked.ok_bind, List.map_cons, ends, Gaps.firstFit]
    by_cases hfit : last + len ≤ e.2.startVaddr
    · rw [if_pos (by omega), if_pos hfit, addUsize_ok (by omega)]
      rfl
    · rw [if_neg (by omega), if_neg hfit]
      exact ih hl

theorem fitLow_eq (h : Gaps.Descending rangeStart last (l.map ends)) :
    fitLow len rangeStart last l =
      .ok ((Gaps.lastFit len rangeStart last (l.map ends)).map fun a => .empty a (a + len)) := by
  induction l generalizing last with
  | nil =>
    have hle : rangeStart ≤ last := h
    rw [fitLow, subUsize_ok hle, Checked.ok_bind, List.map_nil, Gaps.lastFit]
    by_cases hfit : rangeStart + len ≤ last
    · rw [if_pos (by omega), if_pos hfit, subUsize_ok (by omega), Option.map_some,
        Nat.sub_add_cancel (by omega)]
      rfl
    · rw [if_neg (by omega), if_neg hfit]
      rfl
  | cons e l ih =>
    obtain ⟨ht, hs, hl⟩ := h
    rw [fitLow, subUsize_ok ht, Checked.ok_bind, List.map_cons, ends, Gaps.lastFit]
    by_cases hfit : e.2.endVaddr + len ≤ last
    · rw [if_pos (by omega), if_pos hfit, subUsize_ok (by omega), Option.map_some,
        Nat.sub_add_cancel (by omega)]
      rfl
    · rw [if_neg (by omega), if_neg hfit]
      exact ih hl

/-- The areas are apart, and none crosses a bound of the range. -/
structure Uncrossed (mm : Mm) (rangeStart rangeEnd : ℕ) : Prop where
  apart : Apart mm.areas
  inside : ∀ k vma, mm.areas k = some vma → rangeStart ≤ k → k < rangeEnd →
    vma.endVaddr ≤ rangeEnd
  below : ∀ k vma, mm.areas k = some vma → k < rangeStart → vma.endVaddr ≤ rangeStart

namespace Uncrossed

variable (h : mm.Uncrossed rangeStart rangeEnd)

include h

theorem mem_range {e : ℕ × Vma} (he : e ∈ mm.vmas.range rangeStart rangeEnd) :
    mm.areas e.1 = some e.2 ∧ e.2.startVaddr = e.1 ∧ rangeStart ≤ e.1 ∧ e.1 < e.2.endVaddr ∧
      e.2.endVaddr ≤ rangeEnd := by
  obtain ⟨hentry, hlow, hhigh⟩ := OrdMap.mem_range.mp he
  have hkey := h.apart.keyed e.1 e.2 hentry
  have hne := h.apart.nonempty e.1 e.2 hentry
  exact ⟨hentry, hkey, hlow, hkey ▸ hne, h.inside e.1 e.2 hentry hlow hhigh⟩

theorem sorted : (mm.vmas.range rangeStart rangeEnd).Pairwise
    fun d e => d.2.endVaddr ≤ e.2.startVaddr := by
  refine (mm.vmas.range_sorted _ _).imp_of_mem ?_
  intro d e hd he hlt
  obtain ⟨hd', -⟩ := h.mem_range hd
  obtain ⟨he', hkey, -⟩ := h.mem_range he
  rw [hkey]
  exact h.apart.end_le hd' he' hlt

theorem mem_ends {i : ℕ × ℕ} (hi : i ∈ (mm.vmas.range rangeStart rangeEnd).map ends) :
    rangeStart ≤ i.1 ∧ i.1 < i.2 ∧ i.2 ≤ rangeEnd := by
  obtain ⟨e, he, rfl⟩ := List.mem_map.mp hi
  obtain ⟨-, hkey, hlow, hne, hend⟩ := h.mem_range he
  rw [← hkey] at hlow hne
  exact ⟨hlow, hne, hend⟩

theorem ascending (hle : rangeStart ≤ rangeEnd) :
    Gaps.Ascending rangeEnd rangeStart ((mm.vmas.range rangeStart rangeEnd).map ends) :=
  Gaps.ascending_of_pairwise hle (fun _ hi => (h.mem_ends hi).1) (fun _ hi => (h.mem_ends hi).2.1)
    (fun _ hi => (h.mem_ends hi).2.2) (List.pairwise_map.mpr h.sorted)

theorem descending (hle : rangeStart ≤ rangeEnd) :
    Gaps.Descending rangeStart rangeEnd
      ((mm.vmas.range rangeStart rangeEnd).reverse.map ends) := by
  have hmem : ∀ i ∈ (mm.vmas.range rangeStart rangeEnd).reverse.map ends,
      rangeStart ≤ i.1 ∧ i.1 < i.2 ∧ i.2 ≤ rangeEnd := by
    intro i hi
    rw [List.map_reverse, List.mem_reverse] at hi
    exact h.mem_ends hi
  exact Gaps.descending_of_pairwise hle (fun i hi => (hmem i hi).1) (fun i hi => (hmem i hi).2.1)
    (fun i hi => (hmem i hi).2.2) (List.pairwise_map.mpr (List.pairwise_reverse.mpr h.sorted))

theorem places_eq (hlen : 0 < len) : mm.places rangeStart rangeEnd len =
    Gaps.fits ((mm.vmas.range rangeStart rangeEnd).map ends) rangeStart rangeEnd len := by
  ext a
  refine and_congr_right fun hlow => and_congr_right fun hhigh => ?_
  constructor
  · intro hfree e he
    obtain ⟨⟨k, vma⟩, hmem, rfl⟩ := List.mem_map.mp he
    obtain ⟨hk, hkey, -, hne, -⟩ := h.mem_range hmem
    by_contra hmeet
    simp only [ends] at hmeet hkey hne
    have hin := hfree k vma hk (max a vma.startVaddr) (le_max_left _ _) (by omega)
    rw [Bool.eq_false_iff] at hin
    refine hin (Vma.inVma_iff.mpr ⟨le_max_right _ _, by omega⟩)
  · intro hclear k vma hk x hax hxa
    have hkey := h.apart.keyed k vma hk
    rw [Bool.eq_false_iff]
    intro hin
    rw [Vma.inVma_iff] at hin
    by_cases hlow' : k < rangeStart
    · have hend := h.below k vma hk hlow'
      omega
    · by_cases hhigh' : k < rangeEnd
      · have hmem : (k, vma) ∈ mm.vmas.range rangeStart rangeEnd :=
          OrdMap.mem_range.mpr ⟨hk, Nat.not_lt.mp hlow', hhigh'⟩
        have hout := hclear _ (List.mem_map_of_mem hmem)
        simp only [ends] at hout
        omega
      · omega

end Uncrossed

/-- What the search returns: a place at one end of those that there are, if any. -/
def Found (mm : Mm) (rangeStart rangeEnd len : ℕ) (toHigh : Bool) : Option Vma → Prop
  | none => mm.places rangeStart rangeEnd len = ∅
  | some w => ∃ a, w = .empty a (a + len) ∧
      if toHigh then IsLeast (mm.places rangeStart rangeEnd len) a
      else IsGreatest (mm.places rangeStart rangeEnd len) a

theorem Uncrossed.fitHigh (h : mm.Uncrossed rangeStart rangeEnd) (hlen : 0 < len)
    (hle : rangeStart ≤ rangeEnd) (hword : rangeEnd < wordSize) :
    ∃ r, fitHigh len rangeEnd rangeStart (mm.vmas.range rangeStart rangeEnd) = .ok r ∧
      mm.Found rangeStart rangeEnd len true r := by
  refine ⟨_, fitHigh_eq (h.ascending hle) hword, ?_⟩
  cases hfit : Gaps.firstFit len rangeEnd rangeStart
      ((mm.vmas.range rangeStart rangeEnd).map ends) with
  | none => exact (h.places_eq hlen).trans (Gaps.fits_eq_empty_of_firstFit (h.ascending hle) hfit)
  | some a =>
    refine ⟨a, rfl, ?_⟩
    rw [if_pos rfl, h.places_eq hlen]
    exact Gaps.firstFit_isLeast (h.ascending hle) hfit

theorem Uncrossed.fitLow (h : mm.Uncrossed rangeStart rangeEnd) (hlen : 0 < len)
    (hle : rangeStart ≤ rangeEnd) :
    ∃ r, fitLow len rangeStart rangeEnd (mm.vmas.range rangeStart rangeEnd).reverse = .ok r ∧
      mm.Found rangeStart rangeEnd len false r := by
  have hfits : ∀ lo hi, Gaps.fits ((mm.vmas.range rangeStart rangeEnd).map ends) lo hi len =
      Gaps.fits ((mm.vmas.range rangeStart rangeEnd).reverse.map ends) lo hi len := by
    intro lo hi
    simp [Gaps.fits]
  refine ⟨_, fitLow_eq (h.descending hle), ?_⟩
  cases hfit : Gaps.lastFit len rangeStart rangeEnd
      ((mm.vmas.range rangeStart rangeEnd).reverse.map ends) with
  | none =>
    show mm.places rangeStart rangeEnd len = ∅
    rw [h.places_eq hlen, hfits]
    exact Gaps.fits_eq_empty_of_lastFit (h.descending hle) hfit
  | some a =>
    refine ⟨a, rfl, ?_⟩
    rw [if_neg Bool.false_ne_true, h.places_eq hlen, hfits]
    exact Gaps.lastFit_isGreatest (h.descending hle) hfit

/-- The bounds and the length are whole pages, as the assertions demand, and the length is
smaller than the range. -/
structure PageRange (rangeStart rangeEnd len : ℕ) : Prop where
  len_mod : len % pageSize = 0
  start_mod : rangeStart % pageSize = 0
  end_mod : rangeEnd % pageSize = 0
  small : len < rangeEnd - rangeStart
  word : rangeEnd < wordSize

section Core

variable (hrange : PageRange rangeStart rangeEnd len) (toHigh : Bool)

include hrange

theorem allocUnmappedCore_eq (vaddr : Option ℕ) :
    mm.allocUnmappedCore vaddr len toHigh rangeStart rangeEnd =
      match vaddr with
      | some vi => do
        if rangeEnd < (← addUsize vi len) then
          return none
        else
          Checked.ensure (Vaddr.isAlign vi) .assertion
          Checked.ensure (rangeStart ≤ vi) .assertion
          Checked.ensure (vi < rangeEnd) .assertion
          mm.allocUnmappedFixed vi len rangeEnd
      | none =>
        if toHigh then fitHigh len rangeEnd rangeStart (mm.vmas.range rangeStart rangeEnd)
        else fitLow len rangeStart rangeEnd (mm.vmas.range rangeStart rangeEnd).reverse := by
  obtain ⟨hlen, hstart, hstop, hsmall, -⟩ := hrange
  unfold Mm.allocUnmappedCore
  rw [Checked.ensure_pos (by simpa [Vaddr.isAlign] using hlen), Checked.ok_bind,
    Checked.ensure_pos (by simpa [Vaddr.isAlign] using hstart), Checked.ok_bind,
    Checked.ensure_pos (by simpa [Vaddr.isAlign] using hstop), Checked.ok_bind,
    Checked.ensure_pos (by omega), Checked.ok_bind, subUsize_ok (by omega), Checked.ok_bind]
  exact if_neg (by omega)

theorem Uncrossed.allocUnmappedCore (h : mm.Uncrossed rangeStart rangeEnd) (hlen : 0 < len) :
    ∃ r, mm.allocUnmappedCore none len toHigh rangeStart rangeEnd = .ok r ∧
      mm.Found rangeStart rangeEnd len toHigh r := by
  have hle : rangeStart ≤ rangeEnd := by
    have := hrange.small
    omega
  rw [allocUnmappedCore_eq hrange]
  cases toHigh with
  | true => exact h.fitHigh hlen hle hrange.word
  | false => exact h.fitLow hlen hle

theorem allocUnmappedCore_some {vi : ℕ} (hvi : vi % pageSize = 0) (hlow : rangeStart ≤ vi)
    (hhigh : vi < rangeEnd) : mm.allocUnmappedCore (some vi) len toHigh rangeStart rangeEnd =
    (addUsize vi len >>= fun top =>
      if rangeEnd < top then .ok none else mm.allocUnmappedFixed vi len rangeEnd) := by
  have halign : Vaddr.isAlign vi := by simpa [Vaddr.isAlign] using hvi
  rw [allocUnmappedCore_eq hrange]
  simp only [Checked.ensure_pos halign, Checked.ensure_pos hlow, Checked.ensure_pos hhigh,
    Checked.ok_bind, Checked.pure_eq]

end Core

def StartsIn (mm : Mm) (a b : ℕ) : Prop := ∃ k vma, mm.areas k = some vma ∧ a ≤ k ∧ k < b

theorem allocUnmappedFixed_of_startsIn (h : mm.StartsIn v (v + len)) (htop : v + len ≤ top) :
    mm.allocUnmappedFixed v len top = .ok none := by
  obtain ⟨k, vma, hk, hle, hlt⟩ := h
  unfold allocUnmappedFixed
  cases hhead : (mm.vmas.range v top).head? with
  | none =>
    have hout := OrdMap.not_mem_of_head?_range hhead hk hle
    omega
  | some e =>
    have hfirst := OrdMap.le_of_head?_range hhead hk hle (by omega)
    have hlow := (OrdMap.mem_range.mp (List.mem_of_mem_head? hhead)).2.1
    simp only [subUsize_ok hlow, Checked.ok_bind]
    rw [if_neg (by omega)]
    rfl

theorem allocUnmappedFixed_of_not_startsIn (h : ¬mm.StartsIn v (v + len))
    (hword : v + len < wordSize) :
    mm.allocUnmappedFixed v len top = .ok (some (.empty v (v + len))) := by
  unfold allocUnmappedFixed
  cases hhead : (mm.vmas.range v top).head? with
  | none =>
    simp only [addUsize_ok hword, Checked.ok_bind]
    rfl
  | some e =>
    obtain ⟨hk, hlow, -⟩ := OrdMap.mem_range.mp (List.mem_of_mem_head? hhead)
    have hfar : v + len ≤ e.1 := by
      by_contra hnear
      exact h ⟨e.1, e.2, hk, hlow, Nat.not_le.mp hnear⟩
    simp only [subUsize_ok hlow, Checked.ok_bind]
    rw [if_pos (by omega), addUsize_ok hword]
    rfl

/-- A request for a fixed place is answered rightly: it is granted if the place lies in the
range and is free, and refused if not. -/
structure FixedRight (mm : Mm) (vi len : ℕ) (toHigh : Bool) (rangeStart rangeEnd : ℕ) : Prop where
  granted : vi + len ≤ rangeEnd → mm.Free vi (vi + len) →
    mm.allocUnmappedCore (some vi) len toHigh rangeStart rangeEnd = .ok (some (.empty vi (vi + len)))
  refused : ¬(vi + len ≤ rangeEnd ∧ mm.Free vi (vi + len)) →
    mm.allocUnmappedCore (some vi) len toHigh rangeStart rangeEnd = .ok none

/-- The answer is right exactly when the end of the place can be computed and, if the place
lies in the range, an area starts in it just when some area has an address of it. -/
theorem fixedRight_iff {vi : ℕ} (hrange : PageRange rangeStart rangeEnd len) (toHigh : Bool)
    (hvi : vi % pageSize = 0) (hlow : rangeStart ≤ vi) (hhigh : vi < rangeEnd) :
    mm.FixedRight vi len toHigh rangeStart rangeEnd ↔ vi + len < wordSize ∧
      (vi + len ≤ rangeEnd → (mm.StartsIn vi (vi + len) ↔ ¬mm.Free vi (vi + len))) := by
  have hcore : mm.allocUnmappedCore (some vi) len toHigh rangeStart rangeEnd = _ :=
    allocUnmappedCore_some hrange toHigh hvi hlow hhigh
  by_cases hword : vi + len < wordSize
  · rw [addUsize_ok hword, Checked.ok_bind] at hcore
    by_cases hend : vi + len ≤ rangeEnd
    · rw [if_neg (Nat.not_lt.mpr hend)] at hcore
      by_cases hstarts : mm.StartsIn vi (vi + len)
      · rw [allocUnmappedFixed_of_startsIn hstarts hend] at hcore
        constructor
        · intro h
          refine ⟨hword, fun _ => ⟨fun _ hfree => ?_, fun _ => hstarts⟩⟩
          have hsome := h.granted hend hfree
          rw [hcore] at hsome
          cases hsome
        · rintro ⟨-, h⟩
          exact ⟨fun _ hfree => absurd hfree ((h hend).mp hstarts), fun _ => hcore⟩
      · rw [allocUnmappedFixed_of_not_startsIn hstarts hword] at hcore
        constructor
        · intro h
          refine ⟨hword, fun _ => ⟨fun hs => absurd hs hstarts, fun hfree => ?_⟩⟩
          have hnone := h.refused fun hin => hfree hin.2
          rw [hcore] at hnone
          cases hnone
        · rintro ⟨-, h⟩
          refine ⟨fun _ _ => hcore, fun hnot => ?_⟩
          have hbusy : ¬mm.Free vi (vi + len) := fun hfree => hnot ⟨hend, hfree⟩
          exact absurd ((h hend).mpr hbusy) hstarts
    · rw [if_pos (Nat.not_le.mp hend)] at hcore
      exact ⟨fun _ => ⟨hword, fun hle => absurd hle hend⟩,
        fun _ => ⟨fun hle => absurd hle hend, fun _ => hcore⟩⟩
  · rw [addUsize_overflow (Nat.not_lt.mp hword)] at hcore
    constructor
    · intro h
      have hend : ¬vi + len ≤ rangeEnd := by
        have := hrange.word
        omega
      have hnone := h.refused fun hin => hend hin.1
      rw [hcore] at hnone
      cases hnone
    · rintro ⟨hlt, -⟩
      exact absurd hlt hword

def oneArea : Mm :=
  { newEmptyUserMmByPagetable 0 with vmas := (∅ : OrdMap Vma).insert 0x1000 (.empty 0x1000 0x3000) }

theorem fixedRight_iff_oneArea : oneArea.FixedRight 0x4000 0x1000 false 0 0x8000 ↔
    0x4000 + 0x1000 < wordSize ∧ (0x4000 + 0x1000 ≤ 0x8000 →
      (oneArea.StartsIn 0x4000 (0x4000 + 0x1000) ↔ ¬oneArea.Free 0x4000 (0x4000 + 0x1000))) :=
  fixedRight_iff ⟨by decide, by decide, by decide, by decide, by decide⟩ false (by decide)
    (by decide) (by decide)

theorem areas_oneArea {k : ℕ} {vma : Vma} (h : oneArea.areas k = some vma) :
    k = 0x1000 ∧ vma = .empty 0x1000 0x3000 := by
  have hget : oneArea.areas k = if k = 0x1000 then some (.empty 0x1000 0x3000) else none :=
    OrdMap.get?_insert ∅ 0x1000 k _
  rw [hget] at h
  split_ifs at h with hk
  exact ⟨hk, (Option.some.inj h).symm⟩

theorem uncrossed_oneArea : oneArea.Uncrossed 0 0x8000 := by
  refine ⟨⟨?_, ?_, ?_⟩, ?_, ?_⟩
  · intro k vma hk
    obtain ⟨rfl, rfl⟩ := areas_oneArea hk
    rfl
  · intro k vma hk
    obtain ⟨-, rfl⟩ := areas_oneArea hk
    decide
  · intro j k v w hj hk hne
    exact absurd ((areas_oneArea hj).1.trans (areas_oneArea hk).1.symm) hne
  · intro k vma hk _ _
    obtain ⟨-, rfl⟩ := areas_oneArea hk
    decide
  · intro k vma _ hlt
    exact absurd hlt (Nat.not_lt_zero k)

/-- A place in the middle of an area is granted. -/
theorem covered_granted : Apart oneArea.areas ∧ ¬oneArea.Free 0x2000 0x3000 ∧
    oneArea.allocUnmappedCore (some 0x2000) 0x1000 false 0 0x8000 =
      .ok (some (.empty 0x2000 0x3000)) := by
  refine ⟨uncrossed_oneArea.apart, ?_, rfl⟩
  intro hfree
  have hin := hfree 0x1000 (.empty 0x1000 0x3000) rfl 0x2000 le_rfl (by decide)
  cases hin

/-- A request for whole pages without an address returns. It is refused exactly when there is
no free place, and otherwise gets the lowest one or the highest one. -/
theorem allocUnmappedCore_extremal (h : mm.Uncrossed rangeStart rangeEnd)
    (hrange : PageRange rangeStart rangeEnd len) (hlen : 0 < len) (toHigh : Bool) :
    ∃ r, mm.allocUnmappedCore none len toHigh rangeStart rangeEnd = .ok r ∧
      (r = none ↔ mm.places rangeStart rangeEnd len = ∅) ∧
      ∀ w, r = some w → w.endVaddr = w.startVaddr + len ∧
        w.startVaddr ∈ mm.places rangeStart rangeEnd len ∧
        ∀ a ∈ mm.places rangeStart rangeEnd len,
          if toHigh then w.startVaddr ≤ a else a ≤ w.startVaddr := by
  obtain ⟨r, hr, hfound⟩ := h.allocUnmappedCore hrange toHigh hlen
  refine ⟨r, hr, ?_⟩
  cases r with
  | none => exact ⟨iff_of_true rfl hfound, fun w hw => by cases hw⟩
  | some w =>
    obtain ⟨a, rfl, hextreme⟩ := hfound
    have hplace : a ∈ mm.places rangeStart rangeEnd len := by
      cases toHigh with
      | true => exact hextreme.1
      | false => exact hextreme.1
    constructor
    · refine iff_of_false (by simp) fun hempty => ?_
      rw [hempty] at hplace
      exact hplace
    · rintro _ ⟨⟩
      refine ⟨rfl, hplace, fun b hb => ?_⟩
      cases toHigh with
      | true => exact hextreme.2 hb
      | false => exact hextreme.2 hb

theorem allocUnmappedCore_extremal_oneArea :
    ∃ r, oneArea.allocUnmappedCore none 0x2000 true 0 0x8000 = .ok r ∧
      (r = none ↔ oneArea.places 0 0x8000 0x2000 = ∅) ∧
      ∀ w, r = some w → w.endVaddr = w.startVaddr + 0x2000 ∧
        w.startVaddr ∈ oneArea.places 0 0x8000 0x2000 ∧
        ∀ a ∈ oneArea.places 0 0x8000 0x2000,
          if true then w.startVaddr ≤ a else a ≤ w.startVaddr :=
  allocUnmappedCore_extremal uncrossed_oneArea
    ⟨by decide, by decide, by decide, by decide, by decide⟩ (by decide) true

/-- There is room for one byte, but a length has to be a number of pages. -/
theorem oneByte_panics : oneArea.Uncrossed 0 0x8000 ∧ 0 ∈ oneArea.places 0 0x8000 1 ∧
    oneArea.allocUnmappedCore none 1 true 0 0x8000 = .error .assertion := by
  refine ⟨uncrossed_oneArea, ⟨le_rfl, by decide, ?_⟩, rfl⟩
  intro k vma hk x _ hx
  obtain ⟨-, rfl⟩ := areas_oneArea hk
  obtain rfl : x = 0 := by omega
  rfl

end Mm

end Zinix
