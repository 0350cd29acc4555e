import Zinix.Mm.VmaSpec

/-!
# Anonymous pages in debug and release builds

`_anon_unmap_pages` unmaps its page in a `debug_assert!`, which a release build does not
evaluate: the page leaves the area, and its entry stays.
-/

namespace Zinix

open Program

/-- What the kernel is compiled with: debug assertions and checked arithmetic, or neither. -/
inductive Build where
  | debug
  | release
  deriving DecidableEq

namespace Build

variable {a c : ℕ}

/-- `debug_assert!`, if its argument only reads. -/
def assert (b : Build) (c : Bool) : Checked Unit :=
  match b with
  | .debug => Checked.ensure c .assertion
  | .release => return ()

def add (b : Build) (x y : ℕ) : Checked ℕ :=
  match b with
  | .debug => addUsize x y
  | .release => return (x + y) % wordSize

def sub (b : Build) (x y : ℕ) : Checked ℕ :=
  match b with
  | .debug => subUsize x y
  | .release => return (x + wordSize - y) % wordSize

theorem assert_true (b : Build) : b.assert true = .ok () := by
  cases b <;> rfl

theorem add_ok (b : Build) (h : a + c < wordSize) : b.add a c = .ok (a + c) := by
  cases b with
  | debug => exact addUsize_ok h
  | release =>
    show Except.ok _ = _
    rw [Nat.mod_eq_of_lt h]

theorem sub_ok (b : Build) (h : c ≤ a) (ha : a < wordSize) : b.sub a c = .ok (a - c) := by
  cases b with
  | debug => exact subUsize_ok h
  | release =>
    show Except.ok _ = _
    rw [show a + wordSize - c = a - c + wordSize by omega, Nat.add_mod_right,
      Nat.mod_eq_of_lt (by omega)]

end Build

namespace PageTable

open Phys

def isNotMapped (pt vaddr : ℕ) : Program Phys Bool := do
  let r ← walkAlloc pt vaddr
  if r.level = walkRetLevelLeaf then
    let pte := PTE.ofWord (← getUsizeByAddr r.pteAddr)
    return !pte.valid
  else
    throw (.explicit "big page exist in mapped space,can`t check if is mapped")

/-- The first loop of `map_pages`, over `page_addr_iter`: whether all pages from `cur` to `last`,
of which there are at most `n`, are not mapped. -/
def noneMapped (b : Build) (pt last : ℕ) : ℕ → ℕ → Program Phys Bool
  | 0, _ => return true
  | n + 1, cur => do
    if cur < last then
      let next ← b.add cur pageSize
      if !(← isNotMapped pt cur) then
        return false
      else
        noneMapped b pt last n next
    else
      return true

/-- The pages of a block are mapped one behind the other. -/
def mapPages (b : Build) (pt vaddr : ℕ) (paddr : Frame) (order : ℕ) (flags : BitVec 8) :
    Program Phys (Except ℤ Unit) := do
  let pgs := order2pages order
  let last ← b.add vaddr (pgs * pageSize)
  if !(← noneMapped b pt last pgs vaddr) then
    return .error (-1)
  else
    (List.range pgs).foldlM (fun _ i => do
      let page ← b.add vaddr (i * pageSize)
      match ← mapOnePage pt page (Fin.ofNat _ (paddr.val + i)) flags with
      | .error _ => throw .unwrapNone
      | .ok _ => return ()) ()
    return .ok ()

/-- The loop of `unmap_pages` with the address of the first page. -/
def unmapLoop (b : Build) (pt : ℕ) : ℕ → ℕ → Option ℕ → Program Phys (Except ℤ (Option ℕ))
  | 0, _, ret => return .ok ret
  | n + 1, probe, ret => do
    match ← unmapOnePage pt probe with
    | .error e => return .error e
    | .ok v =>
      let next ← b.add probe pageSize
      unmapLoop b pt n next (some (ret.getD v))

def unmapPages (b : Build) (pt vaddr order : ℕ) : Program Phys (Except ℤ ℕ) := do
  match ← unmapLoop b pt (order2pages order) vaddr none with
  | .error e => return .error e
  | .ok ret => return .ok (← Checked.unwrap ret)

section Spec

variable {own : Fin 512 → Prop} {p : Phys} {pt v : ℕ} {f : Frame} {flags : BitVec 8} {b : Build}

theorem isNotMapped_sat (h : PtOk own p pt) (hv : own (addrGetPpn2 v)) :
    Sat (isNotMapped pt v) p
      (fun r p' => r = !(p.pte pt v).valid ∧ Hangs own p p' pt (tablePaths v))
      (Short (p.missing pt v).card p) := by
  unfold isNotMapped
  refine (walkAlloc_sat h hv).bind ?_
  rintro _ p' ⟨hhangs, f, rfl, hf⟩
  simp only [walkRetLevelLeaf, ↓reduceIte, getUsizeByAddr, bind_assoc, pure_bind]
  apply Sat.get_bind
  rw [pte_of_tableAt hf, hhangs.quiet.pte v hv]
  exact sat_pure ⟨rfl, hhangs⟩

theorem lift_ok_bind {α β : Type} (a : α) (g : α → Program Phys β) :
    (liftM (Except.ok a : Checked α) : Program Phys α) >>= g = g a :=
  funext fun p => lift_bind_apply _ g p

theorem noneMapped_one (hfit : v + pageSize < wordSize) :
    noneMapped b pt (v + pageSize) 1 v = isNotMapped pt v := by
  have hpos : v < v + pageSize := Nat.lt_add_of_pos_right (by decide)
  rw [noneMapped, if_pos hpos, b.add_ok hfit, lift_ok_bind]
  nth_rewrite 2 [← bind_pure (isNotMapped pt v)]
  congr 1
  funext r
  cases r <;> rfl

theorem mapPages_zero (hfit : v + pageSize < wordSize) :
    mapPages b pt v f 0 flags = do
      if !(← isNotMapped pt v) then
        return .error (-1)
      else
        match ← mapOnePage pt v f flags with
        | .error _ => throw .unwrapNone
        | .ok _ => return .ok () := by
  have hone : order2pages 0 = 1 := rfl
  have hself : (Fin.ofNat _ (f.val + 0) : Frame) = f := by
    rw [Nat.add_zero, Fin.ofNat_val_eq_self]
  have hzero : b.add v (0 * pageSize) = .ok v := by
    rw [Nat.zero_mul]
    exact b.add_ok (by omega)
  unfold mapPages
  simp only [hone, Nat.one_mul, b.add_ok hfit, lift_ok_bind, noneMapped_one hfit, List.range_one,
    List.foldlM_cons, List.foldlM_nil, hself, hzero, bind_assoc]
  refine congrArg (isNotMapped pt v >>= ·) (funext fun free => ?_)
  cases free with
  | false => rfl
  | true =>
    refine congrArg (mapOnePage pt v f flags >>= ·) (funext fun r => ?_)
    cases r <;> rfl

/-- One page is mapped if it is not mapped yet. The tables for it may take memory. -/
theorem mapPages_sat (h : PtOk own p pt) (hv : own (addrGetPpn2 v))
    (hfit : v + pageSize < wordSize) :
    Sat (mapPages b pt v f 0 flags) p
      (fun r p' => p.Supplies (p.missing pt v).card ∧
        ((p.pte pt v).valid = true ∧ r = .error (-1) ∧ Quiet own p p' pt ∨
          (p.pte pt v).valid = false ∧ r = .ok () ∧ Rewrites own p p' pt v (PTE.leaf f flags)))
      (Short (p.missing pt v).card p) := by
  rw [mapPages_zero hfit]
  refine (isNotMapped_sat h hv).bind ?_
  rintro _ p' ⟨rfl, hquiet, hhung, hspent⟩
  cases hvalid : (p.pte pt v).valid with
  | true => exact sat_pure ⟨hspent.supplies, .inl ⟨rfl, rfl, hquiet⟩⟩
  | false =>
    have hfree : (p'.pte pt v).valid = false := (hquiet.pte v hv).symm ▸ hvalid
    refine (sat_of_short_zero (mapOnePage_sat hquiet.ok hv f flags) (hhung.missing hv)).bind ?_
    rintro _ q ⟨-, -, ⟨hvalid, -⟩ | ⟨-, rfl, hrewrites⟩⟩
    · cases hfree.symm.trans hvalid
    · exact sat_pure ⟨hspent.supplies, .inr ⟨rfl, rfl, hquiet.rewrites hrewrites⟩⟩

end Spec

end PageTable

def PTE.target (e : PTE) : Option (ℕ × BitVec 8) :=
  if e.valid then some (e.getPointPaddr, e.flags) else none

/-- The same pages are mapped, to the same frames and with the same flags. -/
def SameMap (own : Fin 512 → Prop) (pt : ℕ) (p p' : Phys) : Prop :=
  ∀ u, own (addrGetPpn2 u) → (p'.pte pt u).target = (p.pte pt u).target

section SameMap

variable {own : Fin 512 → Prop} {p p' p'' : Phys} {pt v : ℕ} {e : PTE}

theorem SameMap.refl (own : Fin 512 → Prop) (pt : ℕ) (p : Phys) : SameMap own pt p p :=
  fun _ _ => rfl

theorem Quiet.sameMap (h : Quiet own p p' pt) : SameMap own pt p p' := fun u hu => by
  rw [h.pte u hu]

end SameMap

namespace Vma

open Phys PageTable

/-- The area with one more page and a new count of its pages. -/
def counted (vma : Vma) (v : ℕ) (f : Frame) (cnt : ℕ) : Vma :=
  { vma with pagesTree := vma.pagesTree.insert v f, phyPgsCnt := cnt }

/-- `_anon_map_one_page`, for a block of pages that starts with the frame `page`. -/
def anonMapOnePage (b : Build) (self : Vma) (page : Frame) (order vaddr : ℕ) :
    Program Phys (Except Unit Unit × Vma) := do
  b.assert self.isAnon
  b.assert (Vaddr.isAlign vaddr)
  b.assert (self.inVma vaddr)
  if order ≠ 0 then
    return (.error (), self)
  else
    let pgsCnt := order2pages order
    let room ← b.sub self.endVaddr vaddr
    if room < pgsCnt * pageSize then
      return (.error (), self)
    else
      let pteFlags := vmaFlags2PteFlags self.vmFlags
      if self.vaddrHaveMap vaddr then
        return (.error (), self)
      else
        let pt ← Checked.unwrap self.pagetable
        match ← mapPages b pt vaddr page order pteFlags with
        | .error _ => return (.error (), self)
        | .ok _ =>
          let phyPgsCnt ← b.add self.phyPgsCnt pgsCnt
          let new := self.counted vaddr page phyPgsCnt
          if self.pagesTree.contains vaddr then
            return (.error (), new)
          else
            return (.ok (), new)

/-- The last assertion of `_anon_unmap_pages`. The pages of an area have order 0. -/
def assertUnmapped (b : Build) (self : Vma) (vaddr : ℕ) : Program Phys Unit :=
  match b with
  | .debug => do
    let pt ← Checked.unwrap self.pagetable
    match ← unmapPages b pt vaddr 0 with
    | .error _ => throw .assertion
    | .ok _ => return ()
  | .release => return ()

/-- `_anon_unmap_pages`. -/
def anonUnmapPages (b : Build) (self : Vma) (vaddr : ℕ) : Program Phys (Option Frame × Vma) := do
  b.assert self.isAnon
  b.assert (Vaddr.isAlign vaddr)
  b.assert (self.inVma vaddr)
  match self.pagesTree.get? vaddr with
  | none => return (none, self)
  | some pg =>
    let self := { self with pagesTree := self.pagesTree.filter (· ≠ vaddr) }
    self.assertUnmapped b vaddr
    return (some pg, self)

section Spec

variable {own : Fin 512 → Prop} {p p' : Phys} {pt v order : ℕ} {f : Frame} {vma w : Vma}

/-- A page in an anonymous area that is attached to a page table. The end of the area is a
word. -/
structure AnonPage (own : Fin 512 → Prop) (p : Phys) (pt : ℕ) (vma : Vma) (v : ℕ) : Prop where
  attached : vma.Attached own p pt v
  anon : vma.isAnon = true
  align : Vaddr.isAlign v = true
  inVma : vma.inVma v = true
  word : vma.endVaddr < wordSize

/-- The area without the page at `v`. -/
def withoutPage (vma : Vma) (v : ℕ) : Vma :=
  { vma with pagesTree := vma.pagesTree.filter (· ≠ v) }

theorem AnonPage.lt_end (h : AnonPage own p pt vma v) : v < vma.endVaddr := by
  have hin := h.inVma
  simp only [Vma.inVma, Bool.and_eq_true, decide_eq_true_eq] at hin
  exact hin.2

/-- The assertions and the arithmetic of `_anon_map_one_page` do not fail, so that only the
counter of pages depends on the build. -/
theorem AnonPage.anonMapOnePage_eq (h : AnonPage own p pt vma v) (b : Build) :
    vma.anonMapOnePage b f order v =
      if order ≠ 0 ∨ vma.endVaddr - v < pageSize ∨ vma.vaddrHaveMap v then
        pure (.error (), vma)
      else do
        match ← mapPages .debug pt v f 0 (vmaFlags2PteFlags vma.vmFlags) with
        | .error _ => return (.error (), vma)
        | .ok _ =>
          let cnt ← b.add vma.phyPgsCnt 1
          return (.ok (), vma.counted v f cnt) := by
  have hlt := h.lt_end
  have hword := h.word
  have hone : order2pages 0 * pageSize = pageSize := by decide
  unfold anonMapOnePage
  simp only [h.anon, h.align, h.inVma, b.assert_true, lift_ok_bind]
  by_cases horder : order ≠ 0
  · rw [if_pos horder, if_pos (.inl horder)]
  obtain rfl : order = 0 := not_not.mp horder
  rw [if_neg horder, b.sub_ok hlt.le h.word, lift_ok_bind, hone]
  by_cases hroom : vma.endVaddr - v < pageSize
  · rw [if_pos hroom, if_pos (.inr (.inl hroom))]
  rw [if_neg hroom]
  have hfit : v + pageSize < wordSize := by omega
  by_cases hheld : vma.vaddrHaveMap v = true
  · rw [if_pos hheld, if_pos (.inr (.inr hheld))]
  rw [if_neg hheld, if_neg (by simp [hroom, hheld]), h.attached.pagetable]
  have hcontains : ¬vma.pagesTree.contains v = true := hheld
  simp only [Checked.unwrap_some, lift_ok_bind, mapPages_zero hfit, if_neg hcontains]
  rfl

theorem anonUnmapPages_eq (hanon : vma.isAnon = true) (halign : Vaddr.isAlign v = true)
    (hin : vma.inVma v = true) (b : Build) :
    vma.anonUnmapPages b v =
      match vma.pagesTree.get? v with
      | none => pure (none, vma)
      | some pg => do
        (vma.withoutPage v).assertUnmapped b v
        return (some pg, vma.withoutPage v) := by
  unfold anonUnmapPages
  simp only [hanon, halign, hin, b.assert_true, lift_ok_bind]
  rfl

/-- No page can be mapped at `v`: the area ends before the end of the page, the entry is in
use, or there is no memory for the tables. -/
def Refuses (vma : Vma) (p : Phys) (pt v : ℕ) : Prop :=
  vma.endVaddr - v < pageSize ∨ (p.pte pt v).valid = true ∨
    ¬p.Supplies (p.missing pt v).card

theorem not_refuses : ¬vma.Refuses p pt v ↔ ¬vma.endVaddr - v < pageSize ∧
    (p.pte pt v).valid = false ∧ p.Supplies (p.missing pt v).card := by
  simp only [Refuses, not_or, Bool.not_eq_true, not_not]

theorem get?_counted (vma : Vma) (v : ℕ) (f : Frame) (cnt : ℕ) :
    (vma.counted v f cnt).pagesTree.get? v = some f := by
  rw [counted, OrdMap.get?_insert, if_pos rfl]

theorem AnonPage.map_cases (h : AnonPage own p pt vma v) {b : Build} {r : Except Unit Unit}
    (hrun : vma.anonMapOnePage b f order v p = .ok ((r, w), p')) :
    r = .error () ∧ w = vma ∧ Quiet own p p' pt ∨
      r = .ok () ∧ vma.pagesTree.get? v = none ∧ ¬vma.Refuses p pt v ∧
        (∃ cnt, b.add vma.phyPgsCnt 1 = .ok cnt ∧ w = vma.counted v f cnt) ∧
        Rewrites own p p' pt v (PTE.leaf f (vmaFlags2PteFlags vma.vmFlags)) := by
  rw [h.anonMapOnePage_eq] at hrun
  split_ifs at hrun with hearly
  · cases hrun
    exact .inl ⟨rfl, rfl, .refl h.attached.table⟩
  · simp only [not_or] at hearly
    obtain ⟨-, hroom, hheld⟩ := hearly
    have hword := h.word
    have hlt := h.lt_end
    have hnone : vma.pagesTree.get? v = none := by
      simpa [vaddrHaveMap, OrdMap.contains] using hheld
    rw [bind_apply, Checked.bind_eq_ok] at hrun
    obtain ⟨⟨m, q⟩, hmap, hrun⟩ := hrun
    obtain ⟨hwalk, ⟨-, rfl, hquiet⟩ | ⟨hvalid, rfl, hrewrites⟩⟩ :=
      (mapPages_sat h.attached.table h.attached.owned (by omega)).of_ok hmap
    · cases hrun
      exact .inl ⟨rfl, rfl, hquiet⟩
    · simp only at hrun
      rw [lift_bind_apply, Checked.bind_eq_ok] at hrun
      obtain ⟨cnt, hcnt, hrun⟩ := hrun
      cases hrun
      exact .inr ⟨rfl, hnone, not_refuses.mpr ⟨hroom, hvalid, hwalk⟩, ⟨cnt, hcnt, rfl⟩,
        hrewrites⟩

theorem AnonPage.exists_map (h : AnonPage own p pt vma v) (hnone : vma.pagesTree.get? v = none)
    (hfree : ¬vma.Refuses p pt v) (f : Frame) :
    ∃ w p', vma.anonMapOnePage .release f 0 v p = .ok ((.ok (), w), p') := by
  have hword := h.word
  have hlt := h.lt_end
  obtain ⟨hroom, hvalid, hwalk⟩ := not_refuses.mp hfree
  have hfit : v + pageSize < wordSize := by omega
  rw [h.anonMapOnePage_eq, if_neg (by simp [vaddrHaveMap, OrdMap.contains, hnone, hroom]),
    bind_apply]
  cases hmap : mapPages .debug pt v f 0 (vmaFlags2PteFlags vma.vmFlags) p with
  | error e =>
    obtain ⟨-, hshort⟩ := (mapPages_sat h.attached.table h.attached.owned hfit).of_error hmap
    exact absurd hwalk hshort
  | ok r =>
    obtain ⟨m, q⟩ := r
    obtain ⟨-, ⟨hc, -, -⟩ | ⟨-, rfl, -⟩⟩ :=
      (mapPages_sat h.attached.table h.attached.owned hfit).of_ok hmap
    · cases hc.symm.trans hvalid
    · exact ⟨_, q, rfl⟩

theorem anonUnmapPages_release (hget : vma.pagesTree.get? v = some f) (p : Phys) :
    vma.anonUnmapPages .release v p = .ok ((some f, vma.withoutPage v), p) := by
  unfold anonUnmapPages
  rw [hget]
  rfl

/-- The two results are the same, and so are the pages of the area and of the page table. -/
def SameEffect {α : Type} (own : Fin 512 → Prop) (pt : ℕ)
    (x y : Checked ((α × Vma) × Phys)) : Prop :=
  match x, y with
  | .ok ((a, w), p), .ok ((a', w'), p') =>
    a = a' ∧ (∀ u, w.pagesTree.get? u = w'.pagesTree.get? u) ∧ SameMap own pt p p'
  | .error e, .error e' => e = e'
  | _, _ => False

theorem SameEffect.refl {α : Type} (own : Fin 512 → Prop) (pt : ℕ)
    (x : Checked ((α × Vma) × Phys)) : SameEffect own pt x x := by
  cases x with
  | error e => rfl
  | ok r => exact ⟨rfl, fun _ => rfl, .refl own pt r.2⟩

/-- The two functions do the same in both builds. In each of them a page that has been
unmapped is not mapped, unmapping undoes mapping, and mapping leaves everything as it is if
it fails. -/
structure AnonRight (own : Fin 512 → Prop) (p : Phys) (pt : ℕ) (vma : Vma) (v : ℕ) : Prop where
  map_same : ∀ f order, SameEffect own pt (vma.anonMapOnePage .debug f order v p)
    (vma.anonMapOnePage .release f order v p)
  unmap_same : SameEffect own pt (vma.anonUnmapPages .debug v p)
    (vma.anonUnmapPages .release v p)
  unmap_invalid : ∀ b f w p', vma.anonUnmapPages b v p = .ok ((some f, w), p') →
    (p'.pte pt v).valid = false
  unmap_undoes : ∀ b f order w p', vma.anonMapOnePage b f order v p = .ok ((.ok (), w), p') →
    ∃ w' p'', w.anonUnmapPages b v p' = .ok ((some f, w'), p'') ∧
      (∀ u, w'.pagesTree.get? u = vma.pagesTree.get? u) ∧ w'.phyPgsCnt = vma.phyPgsCnt ∧
      SameMap own pt p p''
  map_fails : ∀ b f order w p', vma.anonMapOnePage b f order v p = .ok ((.error (), w), p') →
    w = vma ∧ SameMap own pt p p'

theorem AnonPage.map_same (h : AnonPage own p pt vma v) (hrefuses : vma.Refuses p pt v)
    (f : Frame) (order : ℕ) : SameEffect own pt (vma.anonMapOnePage .debug f order v p)
      (vma.anonMapOnePage .release f order v p) := by
  rw [h.anonMapOnePage_eq, h.anonMapOnePage_eq]
  split_ifs with hearly
  · exact .refl own pt _
  · simp only [not_or] at hearly
    have hword := h.word
    have hlt := h.lt_end
    rw [bind_apply, bind_apply]
    cases hmap : mapPages .debug pt v f 0 (vmaFlags2PteFlags vma.vmFlags) p with
    | error e => exact .refl own pt (.error e)
    | ok r =>
      obtain ⟨m, q⟩ := r
      obtain ⟨hwalk, ⟨-, rfl, -⟩ | ⟨hvalid, rfl, -⟩⟩ :=
        (mapPages_sat h.attached.table h.attached.owned (by omega)).of_ok hmap
      · exact .refl own pt _
      · exact absurd hrefuses (not_refuses.mpr ⟨hearly.2.1, hvalid, hwalk⟩)

/-- Of a page that the area has the release build leaves the entry, and a page that it can
map it cannot unmap. -/
theorem AnonRight.refuses (h : AnonPage own p pt vma v) (hright : AnonRight own p pt vma v) :
    vma.pagesTree.get? v = none ∧ vma.Refuses p pt v := by
  have hnone : vma.pagesTree.get? v = none := by
    cases hget : vma.pagesTree.get? v with
    | none => rfl
    | some f =>
      have hinvalid := hright.unmap_invalid _ _ _ _ (anonUnmapPages_release hget p)
      rw [(h.attached.held f hget).2.2] at hinvalid
      cases hinvalid
  refine ⟨hnone, ?_⟩
  by_contra hfree
  obtain ⟨w, p', hrun⟩ := h.exists_map hnone hfree 0
  obtain ⟨hc, -⟩ | ⟨-, -, -, ⟨cnt, -, rfl⟩, hmap⟩ := h.map_cases hrun
  · cases hc
  obtain ⟨w', p'', hunmap, -, -, hsame⟩ := hright.unmap_undoes _ _ _ _ _ hrun
  cases (anonUnmapPages_release (vma.get?_counted v 0 cnt) p').symm.trans hunmap
  have htarget := hsame v h.attached.owned
  have hinvalid := (not_refuses.mp hfree).2.1
  rw [hmap.pte v h.attached.owned, if_pos ⟨rfl, rfl, rfl⟩, PTE.target, PTE.target,
    leaf_vmaFlags_valid, hinvalid] at htarget
  cases htarget

/-- The builds agree, and each undoes what it did, just where there is nothing to undo: the
page is not in the area, and no page can be mapped there. -/
theorem anonRight_iff (h : AnonPage own p pt vma v) :
    AnonRight own p pt vma v ↔ vma.pagesTree.get? v = none ∧ vma.Refuses p pt v := by
  refine ⟨AnonRight.refuses h, ?_⟩
  rintro ⟨hnone, hrefuses⟩
  have hunmap : ∀ b, vma.anonUnmapPages b v p = .ok ((none, vma), p) := by
    intro b
    rw [anonUnmapPages_eq h.anon h.align h.inVma, hnone]
    rfl
  refine ⟨h.map_same hrefuses, ?_, ?_, ?_, ?_⟩
  · rw [hunmap, hunmap]
    exact .refl own pt _
  · intro b f w p' hrun
    cases (hunmap b).symm.trans hrun
  · intro b f order w p' hrun
    obtain ⟨hc, -⟩ | ⟨-, -, hfree, -⟩ := h.map_cases hrun
    · cases hc
    · exact absurd hrefuses hfree
  · intro b f order w p' hrun
    obtain ⟨-, hw, hquiet⟩ | ⟨hc, -⟩ := h.map_cases hrun
    · exact ⟨hw, hquiet.sameMap⟩
    · cases hc

end Spec

def anonArea (last pt : ℕ) : Vma :=
  { Vma.empty 0x1000 last with
    vmFlags := .VM_READ ||| .VM_WRITE ||| .VM_USER ||| .VM_ANON
    pagetable := some pt }

theorem anonArea_anonPage {p : Phys} {pt last : ℕ} (h : PtOk userOwn p pt) (hlast : 0x1000 < last)
    (hword : last < wordSize) : AnonPage userOwn p pt (anonArea last pt) 0x1000 where
  attached := ⟨h, userOwn_of_lt (by decide), rfl, fun f hf => by cases hf⟩
  anon := by
    show VmFlags.contains (.VM_READ ||| .VM_WRITE ||| .VM_USER ||| .VM_ANON) .VM_ANON = true
    decide
  align := rfl
  inVma := by
    show (decide (0x1000 ≤ 0x1000) && decide (0x1000 < last)) = true
    simp [hlast]
  word := hword

/-- An area that is smaller than a page. -/
theorem anonRight_half_page : ∃ pt p, newUser .bare = .ok (pt, p) ∧
    AnonRight userOwn p pt (anonArea 0x1800 pt) 0x1000 := by
  have hnew : (newUser .bare).isOk := by decide +kernel
  obtain ⟨⟨pt, p⟩, hnew⟩ := Checked.exists_of_isOk hnew
  have hok := ptOk_newUser_bare hnew
  have hpage := anonArea_anonPage hok (show 0x1000 < 0x1800 by decide) (by decide)
  exact ⟨pt, p, hnew, (anonRight_iff hpage).mpr ⟨rfl, .inl (show 0x1800 - 0x1000 < 4096 by decide)⟩⟩

/-- In a release build a page that has been mapped and unmapped is still mapped. -/
theorem release_keeps_entry : ∃ pt p pg q w r,
    newUser .bare = .ok (pt, p) ∧ allocOrPanic p = .ok (pg, q) ∧
      (anonArea 0x2000 pt).anonMapOnePage .release pg 0 0x1000 q = .ok ((.ok (), w), r) ∧
      w.anonUnmapPages .release 0x1000 r = .ok ((some pg, w.withoutPage 0x1000), r) ∧
      (r.pte pt 0x1000).valid = true := by
  have hrun : ((newUser >>= fun pt => allocOrPanic >>= fun pg =>
      (anonArea 0x2000 pt).anonMapOnePage .release pg 0 0x1000) .bare).toOption.map (·.1.1.isOk) =
      some true := by decide +kernel
  obtain ⟨⟨⟨r, w⟩, q'⟩, hrun, hr⟩ := Option.map_eq_some_iff.mp hrun
  have hrun := Checked.eq_ok_of_toOption hrun
  rw [bind_apply, Checked.bind_eq_ok] at hrun
  obtain ⟨⟨pt, p⟩, hnew, hrun⟩ := hrun
  rw [bind_apply, Checked.bind_eq_ok] at hrun
  obtain ⟨⟨pg, q⟩, halloc, hrun⟩ := hrun
  have hok := ptOk_newUser_bare hnew
  obtain ⟨-, hfresh, rfl⟩ := (allocOrPanic_sat p).of_ok halloc
  have hpage := anonArea_anonPage (hok.allocated hfresh) (show 0x1000 < 0x2000 by decide)
    (by decide)
  obtain ⟨rfl, -⟩ | ⟨rfl, -, -, ⟨cnt, -, rfl⟩, hmap⟩ := hpage.map_cases hrun
  · cases hr
  refine ⟨pt, p, pg, _, _, q', hnew, halloc, hrun,
    anonUnmapPages_release (get?_counted _ _ _ _) q', ?_⟩
  rw [hmap.pte _ hpage.attached.owned, if_pos ⟨rfl, rfl, rfl⟩, leaf_vmaFlags_valid]

end Vma

end Zinix
