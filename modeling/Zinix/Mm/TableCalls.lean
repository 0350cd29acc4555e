import Zinix.Mm.Isolation

/-!
# Calls on one page table

Every table below the root is reached on one path only, so a call for a page changes the
entry of that page and of no other.
-/

namespace Zinix

open Program

/-- `PageTable::default`. -/
def PageTable.default : Program Phys ℕ := do
  let root ← Phys.allocOrPanic
  let p ← get
  let pt := p.tableCnt
  set { p with tables := replaceAt p.tables pt [root], tableCnt := pt + 1 }
  return pt

/-- The address in the direct map to which an entry leads. -/
def PageTable.kvaddrFrom (vaddr : ℕ) (pte : PTE) : Checked ℕ := do
  let off := vaddr % pageSize
  addUsize (← addUsize pte.getPointPaddr off) phyMemOffset

/-- The address in the direct map of a byte of the user space. -/
def PageTable.getKvaddrByUvaddr (pt vaddr : ℕ) : Program Phys (Option ℕ) := do
  match ← PageTable.walk pt (← Vaddr.floor vaddr) with
  | none => return none
  | some x =>
    if x.level = walkRetLevelLeaf then
      let pte := PTE.ofWord (← Phys.getUsizeByAddr x.pteAddr)
      return some (← PageTable.kvaddrFrom vaddr pte)
    else
      throw .todo

def pageNumber (vaddr : ℕ) : ℕ := vaddr / 2 ^ 12 % 2 ^ 27

namespace Phys

/-- The entry for a page, if the tables above it are there. -/
def leafOf (p : Phys) (pt vaddr : ℕ) : Option PTE :=
  (p.tables pt).head?.bind fun root => p.mmuWalk root (pageIndices vaddr)

/-- The entry for a page, empty if a table above it is missing. -/
def entryOf (p : Phys) (pt vaddr : ℕ) : PTE := (p.leafOf pt vaddr).getD default

/-- The physical address and the flags of a page that is mapped. -/
def translation (p : Phys) (pt vaddr : ℕ) : Option (ℕ × BitVec 8) :=
  if (p.entryOf pt vaddr).valid then
    some ((p.entryOf pt vaddr).getPointPaddr, (p.entryOf pt vaddr).flags)
  else none

def SameEntries (p p' : Phys) (pt : ℕ) : Prop := ∀ u, p'.entryOf pt u = p.entryOf pt u

def SameOthers (p p' : Phys) (pt vaddr : ℕ) : Prop :=
  ∀ u, pageNumber u ≠ pageNumber vaddr → p'.entryOf pt u = p.entryOf pt u

end Phys

theorem samePage_iff_pageNumber (u v : ℕ) : SamePage u v ↔ pageNumber u = pageNumber v := by
  simp only [SamePage, addrGetPpn0, addrGetPpn1, addrGetPpn2, pageNumber, Fin.ext_iff,
    Fin.val_ofNat, Nat.shiftRight_eq_div_pow]
  omega

theorem PTE.leaf_getPointPaddr (f : Frame) (flags : BitVec 8) :
    (PTE.leaf f flags).getPointPaddr = f.paddr :=
  PTE.getPointPaddr_setPpnByPaddr default f

section Entries

variable {own : Fin 512 → Prop} {p p' : Phys} {pt v : ℕ} {e : PTE}

theorem PtOk.entryOf_eq (h : PtOk own p pt) (hv : own (addrGetPpn2 v)) :
    p.entryOf pt v = p.pte pt v := by
  rw [Phys.entryOf, Phys.leafOf, h.head, Option.bind_some, pageIndices, mmuWalk_eq p h.tree hv,
    Phys.pte, leafEntry]
  cases tableAt p.mem (p.root pt) [addrGetPpn1 v, addrGetPpn2 v] with
  | none => rfl
  | some f => rfl

def ownAll (_ : Fin 512) : Prop := True

theorem Quiet.sameEntries (h : PtOk ownAll p pt) (hquiet : Quiet ownAll p p' pt) :
    p.SameEntries p' pt := by
  intro u
  rw [hquiet.ok.entryOf_eq trivial, h.entryOf_eq trivial, hquiet.pte u trivial]

theorem Rewrites.sameOthers (h : PtOk ownAll p pt) (hr : Rewrites ownAll p p' pt v e) :
    p.SameOthers p' pt v := by
  intro u hu
  rw [hr.ok.entryOf_eq trivial, h.entryOf_eq trivial, hr.pte u trivial,
    if_neg (mt (samePage_iff_pageNumber u v).mp hu)]

theorem Rewrites.entryOf_self (hr : Rewrites ownAll p p' pt v e) : p'.entryOf pt v = e := by
  rw [hr.ok.entryOf_eq trivial, hr.pte v trivial, if_pos ⟨rfl, rfl, rfl⟩]

theorem translation_eq_none : p.translation pt v = none ↔ (p.entryOf pt v).valid = false := by
  rw [Phys.translation]
  split_ifs with hvalid <;> simp [hvalid]

end Entries

namespace PageTable

open Phys

variable {flags : BitVec 8}

/-- What others do to memory while a page table is in use: they leave its tables alone. -/
structure Elsewhere (p p' : Phys) (pt : ℕ) : Prop where
  tables : p'.tables pt = p.tables pt
  mem : ∀ f ∈ p.tables pt, p'.mem f = p.mem f
  live : ∀ f ∈ p.tables pt, f ∈ p'.live

/-- A page table that was made with an empty root and changed by calls only. -/
inductive Made (pt : ℕ) : Phys → Prop
  | default {p p' : Phys} : PageTable.default p = .ok (pt, p') → Made pt p'
  | call {p p' : Phys} {vaddr : ℕ} {c : TableCall} :
      Made pt p → c.run pt vaddr p = .ok ((), p') → Made pt p'
  | elsewhere {p p' : Phys} : Made pt p → Elsewhere p p' pt → Made pt p'

variable {p p' : Phys} {pt : ℕ}

theorem ptOk_default (own : Fin 512 → Prop) :
    Sat PageTable.default p (fun pt p' => PtOk own p' pt) (Short 1 p) := by
  unfold PageTable.default
  refine (allocOrPanic_sat p).bind ?_
  rintro root _ ⟨-, -, rfl⟩
  apply Sat.get_bind
  apply Sat.set_bind
  refine sat_pure (ptOk_newRoot replaceAt_self (fun i _ => ?_) (Finset.mem_insert_self ..))
  exact congrFun replaceAt_self i

theorem Made.ptOk (h : Made pt p) : PtOk ownAll p pt := by
  induction h with
  | default hrun => exact (ptOk_default ownAll).of_ok hrun
  | call _ hrun ih => exact ((TableCall.run_sat ih trivial _).of_ok hrun).1
  | elsewhere _ hother ih => exact ih.congr hother.tables hother.mem hother.live

/-- The result of `map_one_page` for a page, and what it does to the entries. -/
def MapRight (p p' : Phys) (pt v : ℕ) (pg : Frame) (flags : BitVec 8) (r : Except ℤ Unit) : Prop :=
  if p.translation pt v = none then
    r = .ok () ∧ p'.translation pt v = some (pg.paddr, flags) ∧ p.SameOthers p' pt v
  else r = .error (-1) ∧ p.SameEntries p' pt

/-- The result of `_unmap_one_page`. -/
def UnmapRight (p p' : Phys) (pt v : ℕ) (r : Except ℤ ℕ) : Prop :=
  p'.translation pt v = none ∧ (∀ t, p.translation pt v = some t → r = .ok t.1) ∧
    p.SameOthers p' pt v

/-- The result of `change_map_flags`. -/
def ChangeRight (p p' : Phys) (pt v : ℕ) (flags : BitVec 8) (r : Except Unit Unit) : Prop :=
  match p.translation pt v with
  | none => r = .error () ∧ p.SameEntries p' pt
  | some t => r = .ok () ∧ p'.translation pt v = some (t.1, flags) ∧ p.SameOthers p' pt v

theorem mapOnePage_right (h : PtOk ownAll p pt) (v : ℕ) (pg : Frame)
    (hflags : flags &&& PTEFlags.V ≠ 0) :
    Needs (p.missing pt v).card (mapOnePage pt v pg flags) p fun r p' =>
      MapRight p p' pt v pg flags r := by
  refine needs_of_sat ((mapOnePage_sat h trivial pg flags).imp ?_)
  rintro r p' ⟨hspent, -, hcases | hcases⟩
  · obtain ⟨hvalid, rfl, hquiet⟩ := hcases
    rw [← h.entryOf_eq trivial] at hvalid
    rw [MapRight, if_neg (by rw [translation_eq_none, hvalid]; decide)]
    exact ⟨hspent, rfl, hquiet.sameEntries h⟩
  · obtain ⟨hvalid, rfl, hr⟩ := hcases
    rw [← h.entryOf_eq trivial] at hvalid
    have hleaf : (PTE.leaf pg flags).valid = true := by
      rw [PTE.valid, PTE.getBits, PTE.leaf_flags, bne_iff_ne]
      exact hflags
    rw [MapRight, if_pos (translation_eq_none.mpr hvalid)]
    refine ⟨hspent, rfl, ?_, hr.sameOthers h⟩
    rw [translation, hr.entryOf_self, if_pos hleaf, PTE.leaf_flags, PTE.leaf_getPointPaddr]

theorem unmapOnePage_right (h : PtOk ownAll p pt) (v : ℕ) :
    Needs (p.missing pt v).card (unmapOnePage pt v) p fun r p' => UnmapRight p p' pt v r := by
  refine needs_of_sat ((unmapOnePage_sat h trivial).imp ?_)
  rintro r p' ⟨hspent, rfl, hr⟩
  refine ⟨hspent, ?_, fun t ht => ?_, hr.sameOthers h⟩
  · rw [translation_eq_none, hr.entryOf_self, PTE.unmapped_valid]
  · rw [translation] at ht
    split_ifs at ht
    cases ht
    rw [h.entryOf_eq trivial]

theorem changeMapFlags_right (h : PtOk ownAll p pt) (v : ℕ) (hflags : flags &&& PTEFlags.V ≠ 0) :
    ∃ r p', changeMapFlags pt v flags p = .ok (r, p') ∧ ChangeRight p p' pt v flags r := by
  refine ((changeMapFlags_sat h trivial flags).imp ?_).returns
  rintro r p' (⟨hvalid, rfl, hquiet⟩ | ⟨hvalid, rfl, hr⟩)
  · rw [← h.entryOf_eq trivial, ← translation_eq_none] at hvalid
    rw [ChangeRight, hvalid]
    exact ⟨rfl, hquiet.sameEntries h⟩
  · rw [← h.entryOf_eq trivial] at hvalid hr
    have hnew : ((p.entryOf pt v).withFlags flags).valid = true := by
      rw [PTE.valid, PTE.getBits, PTE.withFlags_flags, bne_iff_ne]
      exact hflags
    rw [ChangeRight, translation, if_pos hvalid]
    refine ⟨rfl, ?_, hr.sameOthers h⟩
    rw [translation, hr.entryOf_self, if_pos hnew, PTE.withFlags_flags]
    rfl

/-- A call acts on the page it is for, whatever calls were made before. It needs a frame for
each table that is missing above the page, and panics if there are not as many. -/
theorem calls_act_on_one_page (h : Made pt p) (v : ℕ) :
    (∀ (pg : Frame) (flags : BitVec 8), flags &&& PTEFlags.V ≠ 0 →
      Needs (p.missing pt v).card (mapOnePage pt v pg flags) p fun r p' =>
        MapRight p p' pt v pg flags r) ∧
    Needs (p.missing pt v).card (unmapOnePage pt v) p (fun r p' => UnmapRight p p' pt v r) ∧
    ∀ flags : BitVec 8, flags &&& PTEFlags.V ≠ 0 →
      ∃ r p', changeMapFlags pt v flags p = .ok (r, p') ∧ ChangeRight p p' pt v flags r :=
  ⟨fun pg _ hflags => mapOnePage_right h.ptOk v pg hflags, unmapOnePage_right h.ptOk v,
    fun _ hflags => changeMapFlags_right h.ptOk v hflags⟩

def onePageMapped : Program Phys Unit := do
  let pt ← PageTable.default
  (TableCall.mapOnePage 5 0xff).run pt 0x1000

theorem made_onePageMapped : ∃ p, onePageMapped .bare = .ok ((), p) ∧ Made 1 p := by
  have hok : (onePageMapped .bare).map (fun _ => ()) = .ok () := by decide +kernel
  have hfst : (PageTable.default .bare).map Prod.fst = .ok 1 := by decide +kernel
  obtain ⟨⟨u, p⟩, hrun, -⟩ := Checked.map_eq_ok.mp hok
  obtain ⟨⟨pt, p₀⟩, hdefault, rfl⟩ := Checked.map_eq_ok.mp hfst
  refine ⟨p, hrun, ?_⟩
  rw [onePageMapped, bind_apply, hdefault, Checked.ok_bind] at hrun
  exact .call (.default hdefault) hrun

/-- A page under another entry of the root is mapped with two new tables, and the first page
is unmapped and gets other flags without any. -/
theorem calls_act_on_one_page_otherTables :
    ∃ p, Made 1 p ∧ p.translation 1 0x1000 = some (0x5000, 0xff) ∧
      (p.missing 1 0x40000000).card = 2 ∧ p.missing 1 0x1000 = ∅ ∧ p.Supplies 2 ∧
      (∃ r p', mapOnePage 1 0x40000000 7 0xff p = .ok (r, p') ∧
        MapRight p p' 1 0x40000000 7 0xff r) ∧
      (∃ r p', unmapOnePage 1 0x1000 p = .ok (r, p') ∧ UnmapRight p p' 1 0x1000 r) ∧
      ∃ r p', changeMapFlags 1 0x1000 0xf p = .ok (r, p') ∧ ChangeRight p p' 1 0x1000 0xf r := by
  obtain ⟨p, hrun, hmade⟩ := made_onePageMapped
  have hfacts : (onePageMapped .bare).map (fun r => (r.2.translation 1 0x1000,
      (r.2.missing 1 0x40000000).card, (r.2.missing 1 0x1000).card, decide (r.2.Supplies 2))) =
        .ok (some (0x5000, 0xff), 2, 0, true) := by
    decide +kernel
  rw [hrun] at hfacts
  simp only [Except.map, Except.ok.injEq, Prod.mk.injEq, decide_eq_true_eq,
    Finset.card_eq_zero] at hfacts
  obtain ⟨htranslation, hother, hfirst, hsupplies⟩ := hfacts
  have hmap := (calls_act_on_one_page hmade 0x40000000).1 7 0xff (by decide)
  obtain ⟨-, hunmap, hchange⟩ := calls_act_on_one_page hmade 0x1000
  rw [Needs, hother, if_pos hsupplies] at hmap
  rw [Needs, hfirst, Finset.card_empty, if_pos (show p.Supplies 0 from rfl)] at hunmap
  exact ⟨p, hmade, htranslation, hother, hfirst, hsupplies, hmap, hunmap,
    hchange 0xf (by decide)⟩

section Kvaddr

variable {u : ℕ} {f : Frame} {i : Fin 512}

/-- No entry above the last level is a leaf in the user space. -/
structure NoSuperpages (p : Phys) (pt : ℕ) : Prop where
  head : (p.tables pt).head? = some (p.root pt)
  top : ∀ u < userSpaceEnd, (entryAt p.mem (p.root pt) (addrGetPpn2 u)).isLeaf = false
  middle : ∀ u < userSpaceEnd, ∀ f, (entryAt p.mem (p.root pt) (addrGetPpn2 u)).next = some f →
    (entryAt p.mem f (addrGetPpn1 u)).isLeaf = false

theorem noSuperpages_of_ptOk {own : Fin 512 → Prop} (h : PtOk own p pt)
    (hown : ∀ u < userSpaceEnd, own (addrGetPpn2 u)) : NoSuperpages p pt where
  head := h.head
  top := fun u hu => h.tree.dir (addrGetPpn2 u) [] (hown u hu) _ rfl
  middle := fun u hu f hf => h.tree.dir (addrGetPpn1 u) [addrGetPpn2 u] (hown u hu) f hf

/-- The direct-map address of a user address that is mapped. -/
def kvaddrOf (p : Phys) (pt u : ℕ) : Option ℕ :=
  ((p.leafOf pt u).filter PTE.valid).map fun e => e.getPointPaddr + u % pageSize + phyMemOffset

theorem mmuWalk_cons (hleaf : (entryAt p.mem f i).isLeaf = false) (j : Fin 512)
    (rest : List (Fin 512)) : p.mmuWalk f (i :: j :: rest) =
      (entryAt p.mem f i).next.bind fun g => p.mmuWalk g (j :: rest) := by
  rw [mmuWalk]
  · rw [← entryAt, hleaf, PTE.next]
    cases (entryAt p.mem f i).valid with
    | false => rfl
    | true => rfl
  · intro hnil
    cases hnil

def SameWords (p p' : Phys) : Prop := ∀ g j, entryAt p'.mem g j = entryAt p.mem g j

theorem nextTable_same (pt : ℕ) (f : Frame) (i : Fin 512) :
    Sat (nextTable pt (f, i) (entryAt p.mem f i) false) p
      (fun r p' => r = (entryAt p.mem f i).next ∧ SameWords p p') fun _ => False := by
  unfold nextTable
  refine Sat.ite (fun hvalid => ?_) fun hvalid => ?_
  · refine Sat.modify_bind (sat_pure ⟨?_, ?_⟩)
    · rw [PTE.next, if_pos hvalid]
    · exact entryAt_storeWord_same (PTE.ofWord_toWord _)
  · refine sat_pure ⟨?_, fun _ _ => rfl⟩
    rw [PTE.next, if_neg hvalid]

/-- A walk that adds no table ends in a leaf entry, valid or not, or at a missing table. -/
theorem walk_same (h : NoSuperpages p pt) (hu : u < userSpaceEnd) :
    Sat (walk pt u) p (fun r p' => SameWords p p' ∧
      (r = none ∧ p.leafOf pt u = none ∨ ∃ f, r = some ⟨2, (f, addrGetPpn0 u)⟩ ∧
        p.leafOf pt u = some (entryAt p.mem f (addrGetPpn0 u)))) fun _ => False := by
  have hleaf : p.leafOf pt u = (entryAt p.mem (p.root pt) (addrGetPpn2 u)).next.bind fun m =>
      p.mmuWalk m [addrGetPpn1 u, addrGetPpn0 u] := by
    rw [leafOf, h.head, Option.bind_some, pageIndices, mmuWalk_cons (h.top u hu)]
  unfold walk walkCommon getRootPage
  rw [bind_assoc]
  apply Sat.get_bind
  rw [h.head, pure_bind, walkFrom, getUsizeByAddr]
  apply Sat.get_bind
  rw [← entryAt, h.top u hu, if_neg (by simp), if_neg (by simp)]
  refine (nextTable_same pt (p.root pt) (addrGetPpn2 u)).bind ?_
  rintro r p₁ ⟨rfl, hsame₁⟩
  cases hnext : (entryAt p.mem (p.root pt) (addrGetPpn2 u)).next with
  | none => exact sat_pure ⟨hsame₁, .inl ⟨rfl, by rw [hleaf, hnext, Option.bind_none]⟩⟩
  | some m =>
    have hmid := h.middle u hu m hnext
    rw [hnext, Option.bind_some, mmuWalk_cons hmid] at hleaf
    change Sat (walkFrom pt false m 1 [addrGetPpn1 u, addrGetPpn0 u]) _ _ _
    rw [walkFrom, getUsizeByAddr]
    apply Sat.get_bind
    rw [← entryAt, hsame₁, hmid, if_neg (by simp), if_neg (by simp), ← hsame₁]
    refine (nextTable_same pt m (addrGetPpn1 u)).bind ?_
    rintro r p₂ ⟨rfl, hsame₂⟩
    have hsame : SameWords p p₂ := fun g j => (hsame₂ g j).trans (hsame₁ g j)
    rw [hsame₁]
    cases hnext' : (entryAt p.mem m (addrGetPpn1 u)).next with
    | none => exact sat_pure ⟨hsame, .inl ⟨rfl, by rw [hleaf, hnext', Option.bind_none]⟩⟩
    | some f =>
      refine (walkFrom_leaf false).imp ?_
      rintro _ _ ⟨rfl, rfl⟩
      exact ⟨hsame, .inr ⟨f, rfl, by rw [hleaf, hnext', Option.bind_some]; rfl⟩⟩

theorem leafOf_down (p : Phys) (pt u : ℕ) : p.leafOf pt (Vaddr.down u) = p.leafOf pt u := by
  obtain ⟨h0, h1, h2⟩ := samePage_down u
  rw [leafOf, leafOf, pageIndices, pageIndices, h0, h1, h2]

theorem kvaddrFrom_eq_ok {u k : ℕ} {e : PTE} : kvaddrFrom u e = .ok k ↔
    e.getPointPaddr + u % pageSize + phyMemOffset < wordSize ∧
      k = e.getPointPaddr + u % pageSize + phyMemOffset := by
  rw [kvaddrFrom, Checked.bind_eq_ok]
  simp only [addUsize_eq_ok]
  constructor
  · rintro ⟨a, ⟨-, rfl⟩, hlt, rfl⟩
    exact ⟨hlt, rfl⟩
  · rintro ⟨hlt, rfl⟩
    exact ⟨_, ⟨by omega, rfl⟩, hlt, rfl⟩

/-- The code answers from the leaf entry without a look at its valid bit. -/
theorem getKvaddrByUvaddr_eq (h : NoSuperpages p pt) (hu : u < userSpaceEnd) :
    ∃ p', getKvaddrByUvaddr pt u p = match p.leafOf pt u with
      | none => .ok (none, p')
      | some e => (kvaddrFrom u e).map fun k => (some k, p') := by
  have hdown : Vaddr.down u < userSpaceEnd := (Vaddr.down_le u).trans_lt hu
  have hfloor : Vaddr.floor u = .ok (Vaddr.down u) := by
    apply Vaddr.floor_eq
    have hword : userSpaceEnd + pageSize < wordSize := by decide
    omega
  obtain ⟨r, p', hwalk, hsame, hcases⟩ := (walk_same h hdown).returns
  refine ⟨p', ?_⟩
  rw [leafOf_down] at hcases
  unfold getKvaddrByUvaddr
  rw [lift_bind_apply, hfloor, Checked.ok_bind, bind_apply, hwalk, Checked.ok_bind]
  rcases hcases with ⟨rfl, hnone⟩ | ⟨f, rfl, hsome⟩
  · rw [hnone]
    rfl
  · rw [hsome, ← hsame]
    change ((liftM (kvaddrFrom u (entryAt p'.mem f (addrGetPpn0 (Vaddr.down u)))) :
      Program Phys ℕ) >>= fun k => pure (some k)) p' = _
    rw [lift_bind_apply]
    dsimp only
    cases kvaddrFrom u (entryAt p'.mem f (addrGetPpn0 (Vaddr.down u))) with
    | error e => rfl
    | ok k => rfl

/-- The answer is right exactly if the page has no leaf entry, or a valid one whose address
is in the direct map. -/
theorem getKvaddrByUvaddr_right_iff (h : NoSuperpages p pt) (hu : u < userSpaceEnd) :
    (∃ p', getKvaddrByUvaddr pt u p = .ok (kvaddrOf p pt u, p')) ↔
      ∀ e, p.leafOf pt u = some e →
        e.valid ∧ e.getPointPaddr + u % pageSize + phyMemOffset < wordSize := by
  obtain ⟨p', heq⟩ := getKvaddrByUvaddr_eq h hu
  rw [heq, kvaddrOf]
  cases hleaf : p.leafOf pt u with
  | none => simp
  | some e =>
    simp only [Option.some.injEq, forall_eq', Checked.map_eq_ok, Prod.mk.injEq,
      kvaddrFrom_eq_ok]
    cases hvalid : e.valid with
    | false => simp [hvalid]
    | true => simp [hvalid]

theorem noSuperpages_of_made (h : Made pt p) : NoSuperpages p pt :=
  noSuperpages_of_ptOk h.ptOk fun _ _ => trivial

/-- The page that is mapped, and one without a table. -/
theorem getKvaddrByUvaddr_right_iff_mapped :
    ∃ p, NoSuperpages p 1 ∧ kvaddrOf p 1 0x1234 = some (phyMemOffset + 0x5234) ∧
      kvaddrOf p 1 0x400000 = none ∧
      (∃ p', getKvaddrByUvaddr 1 0x1234 p = .ok (kvaddrOf p 1 0x1234, p')) ∧
      ∃ p', getKvaddrByUvaddr 1 0x400000 p = .ok (kvaddrOf p 1 0x400000, p') := by
  obtain ⟨p, hrun, hmade⟩ := made_onePageMapped
  have hfacts : (onePageMapped .bare).map (fun r => (kvaddrOf r.2 1 0x1234,
      kvaddrOf r.2 1 0x400000, (r.2.leafOf 1 0x1234).map fun e => (e.valid, e.getPointPaddr),
      (r.2.leafOf 1 0x400000).isNone)) =
        .ok (some (phyMemOffset + 0x5234), none, some (true, 0x5000), true) := by
    decide +kernel
  rw [hrun] at hfacts
  simp only [Except.map, Except.ok.injEq, Prod.mk.injEq, Option.isNone_iff_eq_none] at hfacts
  obtain ⟨hfirst, hother, hleaf, hnone⟩ := hfacts
  have hno := noSuperpages_of_made hmade
  refine ⟨p, hno, hfirst, hother, (getKvaddrByUvaddr_right_iff hno (by decide)).mpr ?_,
    (getKvaddrByUvaddr_right_iff hno (by decide)).mpr ?_⟩
  · intro e he
    rw [he, Option.map_some, Option.some.injEq, Prod.mk.injEq] at hleaf
    rw [hleaf.1, hleaf.2]
    decide
  · intro e he
    rw [hnone] at he
    cases he

/-- The page next to the one that is mapped has no translation, but its table is there. -/
theorem unmapped_page_has_kvaddr :
    ∃ p p', NoSuperpages p 1 ∧ p.translation 1 0x2234 = none ∧
      getKvaddrByUvaddr 1 0x2234 p = .ok (some (phyMemOffset + 0x234), p') := by
  obtain ⟨p, hrun, hmade⟩ := made_onePageMapped
  have hboth : ((onePageMapped >>= fun _ => get >>= fun p =>
      getKvaddrByUvaddr 1 0x2234 >>= fun k => pure (p.translation 1 0x2234, k)) .bare).map
      Prod.fst = .ok (none, some (phyMemOffset + 0x234)) := by
    decide +kernel
  obtain ⟨⟨r, p''⟩, hr, rfl⟩ := Checked.map_eq_ok.mp hboth
  rw [bind_apply, hrun, Checked.ok_bind] at hr
  change (getKvaddrByUvaddr 1 0x2234 >>= fun k => pure (p.translation 1 0x2234, k)) p = _ at hr
  rw [bind_apply, Checked.bind_eq_ok] at hr
  obtain ⟨⟨k, p'⟩, hk, hpair⟩ := hr
  have hpair : ((p.translation 1 0x2234, k), p') = ((none, some (phyMemOffset + 0x234)), p'') :=
    Except.ok.inj hpair
  rw [Prod.mk.injEq, Prod.mk.injEq] at hpair
  obtain ⟨⟨htranslation, rfl⟩, rfl⟩ := hpair
  exact ⟨p, p', noSuperpages_of_made hmade, htranslation, hk⟩

end Kvaddr

end PageTable

end Zinix
