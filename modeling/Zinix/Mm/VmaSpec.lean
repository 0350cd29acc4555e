import Zinix.Mm.Areas

/-!
# What the operations on areas do

A new page is zero or filled from a file; `Vma.backing` is the content it gets.
-/

namespace Zinix

open Program Phys PageTable

variable {e : Panic}

section Flags

theorem vmaFlags2PteFlags_congr {f g : VmFlags} (h : f &&& 0b1111 = g &&& 0b1111) :
    vmaFlags2PteFlags f = vmaFlags2PteFlags g := by
  rw [vmaFlags2PteFlags, vmaFlags2PteFlags, h]

theorem or_dirty_low (f : VmFlags) : (f ||| .VM_DIRTY) &&& 0b1111 = f &&& 0b1111 := by
  rw [BitVec.and_or_distrib_right]
  simp [VmFlags.VM_DIRTY]

theorem or_dirty_and_low (f m : VmFlags) :
    ((f ||| .VM_DIRTY) &&& m) &&& 0b1111 = (f &&& m) &&& 0b1111 := by
  rw [BitVec.and_assoc, BitVec.and_comm m, ← BitVec.and_assoc, or_dirty_low, BitVec.and_assoc,
    BitVec.and_comm _ m, ← BitVec.and_assoc]

/-- The area after `_do_alloc_one_page` has marked it. -/
def Vma.touched (vma : Vma) : Vma := if vma.writeable then vma.setDirty else vma

theorem Vma.entryFlags_touched {vma : Vma} {flags : BitVec 8} (h : vma.EntryFlags flags) :
    vma.touched.EntryFlags flags := by
  unfold touched
  split_ifs
  · rcases h with rfl | ⟨hsome, rfl⟩
    · exact .inl (vmaFlags2PteFlags_congr (or_dirty_low _).symm)
    · exact .inr ⟨hsome, vmaFlags2PteFlags_congr (or_dirty_and_low _ _).symm⟩
  · exact h

@[simp] theorem Vma.touched_pagesTree (vma : Vma) : vma.touched.pagesTree = vma.pagesTree := by
  unfold touched
  split_ifs <;> rfl

@[simp] theorem Vma.touched_pagetable (vma : Vma) : vma.touched.pagetable = vma.pagetable := by
  unfold touched
  split_ifs <;> rfl

end Flags

/-- The content that a page of an area gets when it is brought in. -/
def Vma.backing (vma : Vma) (v : ℕ) : Checked PageData :=
  if vma.isAnon then
    return fun _ => 0
  else do
    match ← vma.filePiece v with
    | none => return fun _ => 0
    | some piece =>
      let buf ← vma.readPiece piece
      return PageData.setBytes (fun _ => 0) piece.pageOff buf

theorem Vma.avoids_filePiece (vma : Vma) (v : ℕ) (h : .overflow ≠ e) :
    (vma.filePiece v).Avoids e := by
  have hfirst : ∀ rightOff leftOff : ℕ, Checked.Avoids (do
      let needRead ← subUsize rightOff leftOff
      return some (FilePiece.mk leftOff needRead vma.fileOff)) e := by
    intro rightOff leftOff
    refine .bind (avoids_subUsize h) fun needRead => ?_
    exact Checked.avoids_ok _
  have hlater : ∀ rightOff fileMapStart : ℕ, Checked.Avoids (do
      let inFile ← subUsize v fileMapStart
      let realInFileOff ← addUsize inFile vma.fileOff
      return some (FilePiece.mk 0 rightOff realInFileOff)) e := by
    intro rightOff fileMapStart
    refine .bind (avoids_subUsize h) fun inFile => ?_
    refine .bind (avoids_addUsize h) fun realInFileOff => ?_
    exact Checked.avoids_ok _
  unfold Vma.filePiece
  refine .bind (avoids_addUsize h) fun fileMapStart => ?_
  refine .bind (avoids_addUsize h) fun fileMapEnd => ?_
  split_ifs
  · refine .bind (avoids_addUsize h) fun pageEnd => ?_
    split_ifs
    · refine .bind (avoids_subUsize h) fun leftOff => ?_
      exact hfirst _ _
    · refine .bind (avoids_subUsize h) fun leftOff => ?_
      exact .bind (avoids_subUsize h) fun rightOff => hfirst _ _
    · exact Checked.avoids_ok _
  · exact Checked.avoids_ok _
  · refine .bind (avoids_addUsize h) fun pageEnd => ?_
    split_ifs
    · exact hlater _ _
    · exact .bind (avoids_subUsize h) fun rightOff => hlater _ _

theorem Vma.avoids_readPiece (vma : Vma) (piece : FilePiece) (h : .unwrapNone ≠ e)
    (h' : .assertion ≠ e) : (vma.readPiece piece).Avoids e := by
  unfold Vma.readPiece
  refine .bind (Checked.avoids_unwrap _ h) fun file => ?_
  refine .bind (Checked.avoids_unwrap _ h) fun buf => ?_
  refine .bind (Checked.avoids_ensure h') fun _ => ?_
  exact Checked.avoids_ok _

theorem Vma.avoids_backing (vma : Vma) (v : ℕ) (h : .overflow ≠ e) (h' : .unwrapNone ≠ e)
    (h'' : .assertion ≠ e) : (vma.backing v).Avoids e := by
  unfold Vma.backing
  split_ifs
  · exact Checked.avoids_ok _
  · refine .bind (vma.avoids_filePiece v h) fun piece => ?_
    cases piece with
    | none => exact Checked.avoids_ok _
    | some piece => exact .bind (vma.avoids_readPiece piece h' h'') fun _ => Checked.avoids_ok _

theorem Vma.fastAllocOnePageAndGet_area (vma : Vma) (v : ℕ) (p : Phys) :
    Sat (vma.fastAllocOnePageAndGet v) p (fun r _ => r.2 = vma ∨ r.2 = vma.withPage v r.1)
      fun _ => True := by
  unfold Vma.fastAllocOnePageAndGet
  refine Sat.ensure_bind (fun _ => ?_) fun _ => trivial
  refine Sat.ensure_bind (fun _ => ?_) fun _ => trivial
  refine Sat.ite (fun _ => ?_) fun _ => ?_
  · refine (Sat.true _ p).bind fun pg p' _ => ?_
    refine Sat.lift_bind (fun pt _ => ?_) fun _ _ => trivial
    refine (Sat.true _ p').bind fun r p'' _ => ?_
    cases r with
    | error e => exact sat_throw trivial
    | ok _ => exact sat_pure (.inr rfl)
  · refine Sat.lift_bind (fun pg _ => ?_) fun _ _ => trivial
    exact sat_pure (.inl rfl)

section Alloc

variable {p p' : Phys} {pt : ℕ} {A A' : Areas} {k v : ℕ} {f : Frame} {vma : Vma}
  {own : Fin 512 → Prop} {u : ℕ} {E : Panic → Prop} {pg : PageData} {vma' d : Vma}
  {gone : ℕ → Bool} {R : Region}

theorem grows_allocated (hf : f ∉ p.live) : Grows p (p.allocated f) pt where
  tables := List.prefix_rfl
  others := fun _ _ => rfl
  fresh := fun _ hg => .inl hg
  live := fun _ hg => Finset.mem_insert_of_mem hg
  mem := fun _ hg _ => replaceAt_of_ne (ne_of_mem_of_not_mem hg hf)
  cnt := rfl

theorem AreasIn.allocated (h : AreasIn R p pt A) (hf : f ∉ p.live) :
    AreasIn R (p.allocated f) pt A := by
  refine h.congr rfl ?_ ?_
  · intro g hg
    exact replaceAt_of_ne (ne_of_mem_of_not_mem (h.table.live g hg) hf)
  · intro g hg
    exact Finset.mem_insert_of_mem (h.owned_live hg)

theorem PtOk.allocated (h : PtOk own p pt) (hf : f ∉ p.live) :
    PtOk own (p.allocated f) pt := by
  refine h.congr rfl ?_ ?_
  · intro g hg
    exact replaceAt_of_ne (ne_of_mem_of_not_mem (h.live g hg) hf)
  · intro g hg
    exact Finset.mem_insert_of_mem (h.live g hg)

theorem PtOk.pte_allocated (h : PtOk own p pt) (hf : f ∉ p.live) (hu : own (addrGetPpn2 u)) :
    (p.allocated f).pte pt u = p.pte pt u := by
  have htables : (p.allocated f).tables pt = p.tables pt := rfl
  refine h.pte_congr htables ?_ hu
  intro g hg
  exact replaceAt_of_ne (ne_of_mem_of_not_mem (h.live g hg) hf)

/-- The panics of `__fast_alloc_one_page_and_get` on a page that is not in the area. -/
def AllocPanic (p : Phys) (pt : ℕ) (vma : Vma) (v : ℕ) (e : Panic) : Prop :=
  Short (1 + (p.missing pt v).card) p e ∨
    e = .assertion ∧ ¬ (vma.inVma v ∧ Vaddr.isAlign v) ∨ e = .todo ∧ (p.pte pt v).valid

/-- The panics of `_do_alloc_one_page`. -/
def FillPanic (p : Phys) (pt : ℕ) (vma : Vma) (v : ℕ) (e : Panic) : Prop :=
  Short (1 + (p.missing pt v).card) p e ∨ e = .todo ∧ (p.pte pt v).valid ∨
    vma.backing v = .error e

theorem AllocPanic.fill {e : Panic} (h : AllocPanic p pt vma v e) (hin : vma.inVma v)
    (halign : Vaddr.isAlign v) : FillPanic p pt vma v e := by
  rcases h with h | ⟨_, h⟩ | h
  · exact .inl h
  · exact absurd ⟨hin, halign⟩ h
  · exact .inr (.inl h)

theorem FillPanic.not_supplies {e : Panic} (h : FillPanic p pt vma v e) (he : e = .outOfMemory) :
    ¬p.Supplies (1 + (p.missing pt v).card) := by
  subst he
  rcases h with h | ⟨h, -⟩ | h
  · exact h.2
  · cases h
  · have havoids := vma.avoids_backing v (e := .outOfMemory) (by decide) (by decide) (by decide)
    exact absurd rfl (havoids _ h)

theorem PtOk.pte_setPage (h : PtOk own p pt) (hf : f ∉ p.tables pt) (pg : PageData)
    (hu : own (addrGetPpn2 u)) : (p.setPage f pg).pte pt u = p.pte pt u := by
  have htables : (p.setPage f pg).tables pt = p.tables pt := rfl
  refine h.pte_congr htables ?_ hu
  intro g hg
  exact replaceAt_of_ne (ne_of_mem_of_not_mem hg hf)

section Placed

variable {own : Fin 512 → Prop} {flags : BitVec 8} {pg : PageData}

/-- A fresh frame with the content `pg` has been mapped at `v`. It takes a frame for itself
and one for each table that was missing. -/
structure Placed (own : Fin 512 → Prop) (p p' : Phys) (pt v : ℕ) (flags : BitVec 8) (f : Frame)
    (pg : PageData) : Prop where
  free : (p.pte pt v).valid = false
  fresh : f ∉ p.live
  mapped : ∃ q, Rewrites own (p.allocated f) q pt v (PTE.leaf f flags) ∧ p' = q.setPage f pg
  spent : Spent (1 + (p.missing pt v).card) p p'
  hung : Hung own p p' pt (tablePaths v)

theorem Placed.mem (h : Placed own p p' pt v flags f pg) : p'.mem f = pg := by
  obtain ⟨q, -, rfl⟩ := h.mapped
  exact replaceAt_self

theorem PtOk.not_mem_of_rewrites (h : PtOk own p pt) (hf : f ∉ p.live) {q : Phys} {e : PTE}
    (hq : Rewrites own (p.allocated f) q pt v e) : f ∉ q.tables pt := by
  intro hmem
  rcases hq.grows.fresh f hmem with htable | hfresh
  · exact hf (h.live f htable)
  · exact hfresh (Finset.mem_insert_self f p.live)

theorem Placed.setPage (h : Placed own p p' pt v flags f pg) (hpt : PtOk own p pt)
    (pg' : PageData) : Placed own p (p'.setPage f pg') pt v flags f pg' := by
  have hhung := h.hung
  obtain ⟨q, hq, rfl⟩ := h.mapped
  have hf := hpt.not_mem_of_rewrites h.fresh hq
  have hok : PtOk own (q.setPage f pg) pt :=
    hq.ok.congr rfl (fun g hg => replaceAt_of_ne (ne_of_mem_of_not_mem hg hf)) hq.ok.live
  refine ⟨h.free, h.fresh, ⟨q, hq, ?_⟩, h.spent.congr rfl rfl, ?_⟩
  · rw [Phys.setPage, Phys.setPage, Phys.setPage, replaceAt_replaceAt]
  · have hall := hhung.trans (hok.hung_setPage hf pg')
    rwa [Finset.union_empty] at hall

theorem Placed.pte (h : Placed own p p' pt v flags f pg) (hpt : PtOk own p pt)
    (hv : own (addrGetPpn2 v)) : p'.pte pt v = PTE.leaf f flags := by
  obtain ⟨q, hq, rfl⟩ := h.mapped
  rw [hq.ok.pte_setPage (hpt.not_mem_of_rewrites h.fresh hq) pg hv, hq.pte v hv,
    if_pos ⟨rfl, rfl, rfl⟩]

theorem Placed.pte_of_ne (h : Placed own p p' pt v flags f pg) (hpt : PtOk own p pt)
    (hu : own (addrGetPpn2 u)) (hne : ¬SamePage u v) : p'.pte pt u = p.pte pt u := by
  obtain ⟨q, hq, rfl⟩ := h.mapped
  rw [hq.ok.pte_setPage (hpt.not_mem_of_rewrites h.fresh hq) pg hu, hq.pte u hu, if_neg hne,
    hpt.pte_allocated h.fresh hu]

theorem Placed.grows (h : Placed own p p' pt v flags f pg) : Grows p p' pt := by
  obtain ⟨q, hq, rfl⟩ := h.mapped
  have hgrows : Grows p q pt := (grows_allocated h.fresh).trans hq.grows
  refine ⟨hgrows.tables, hgrows.others, hgrows.fresh, hgrows.live, fun g hg hnot => ?_, hgrows.cnt⟩
  rw [← hgrows.mem g hg hnot]
  exact replaceAt_of_ne (ne_of_mem_of_not_mem hg h.fresh)

theorem Vma.fastAllocOnePageAndGet_placed (h : PtOk own p pt) (hv : own (addrGetPpn2 v))
    (hpt : vma.pagetable = some pt) (hnone : vma.pagesTree.get? v = none) :
    Sat (vma.fastAllocOnePageAndGet v) p
      (fun r p' => ∃ f, r = (f, vma.withPage v f) ∧
        Placed own p p' pt v (vmaFlags2PteFlags vma.vmFlags) f fun _ => 0)
      (AllocPanic p pt vma v) := by
  unfold Vma.fastAllocOnePageAndGet
  refine Sat.ensure_bind (fun hin => ?_) (fun hin => .inr (.inl ⟨rfl, fun hc => hin hc.1⟩))
  refine Sat.ensure_bind (fun halign => ?_) (fun ha => .inr (.inl ⟨rfl, fun hc => ha hc.2⟩))
  rw [if_pos (by simp [Vma.vaddrHaveMap, OrdMap.contains, hnone])]
  refine ((allocOrPanic_sat p).weaken fun _ he => .inl (he.mono (Nat.le_add_right ..))).bind ?_
  rintro f _ ⟨hspent, hf, rfl⟩
  have hpte : (p.allocated f).pte pt v = p.pte pt v := h.pte_allocated hf hv
  have hhung := h.hung_allocated hf
  have hcard := hhung.card_missing hv
  refine Sat.unwrap_bind hpt ?_
  refine ((mapOnePage_sat (h.allocated hf) hv f _).weaken
    fun _ he => .inl (hcard ▸ he.of_spent hspent)).bind ?_
  rintro r q ⟨hspent', hhung', ⟨hvalid, rfl, _⟩ | ⟨hvalid, rfl, hr⟩⟩
  · exact sat_throw (.inr (.inr ⟨rfl, by rwa [hpte] at hvalid⟩))
  · have hall := hhung.trans hhung'
    rw [Finset.empty_union] at hall
    refine sat_pure ⟨f, rfl, by rwa [hpte] at hvalid, hf, ⟨q, hr, ?_⟩,
      hcard ▸ hspent.trans hspent', hall⟩
    have hzero : q.mem f = fun _ => 0 := by
      have hlive : f ∈ (p.allocated f).live := Finset.mem_insert_self f p.live
      have htable : f ∉ (p.allocated f).tables pt := fun ht => hf (h.live f ht)
      rw [hr.grows.mem f hlive htable]
      exact replaceAt_self
    rw [← hzero, Phys.setPage, replaceAt_eq_self rfl]

theorem Vma.allocAndFill_placed (h : PtOk own p pt) (hv : own (addrGetPpn2 v))
    (hpt : vma.pagetable = some pt) (hnone : vma.pagesTree.get? v = none)
    (hin : vma.inVma v) (halign : Vaddr.isAlign v) :
    Sat (vma.allocAndFill v) p
      (fun r p' => ∃ f pg, r = (f, vma.withPage v f) ∧ vma.backing v = .ok pg ∧
        Placed own p p' pt v (vmaFlags2PteFlags vma.vmFlags) f pg)
      (FillPanic p pt vma v) := by
  have halloc := (vma.fastAllocOnePageAndGet_placed h hv hpt hnone).weaken
    fun e he => he.fill hin halign
  unfold Vma.allocAndFill
  refine Sat.ite ?_ ?_
  · intro hanon
    refine halloc.imp ?_
    rintro _ p' ⟨f, rfl, hplaced⟩
    refine ⟨f, fun _ => 0, rfl, ?_, hplaced⟩
    rw [Vma.backing, if_pos hanon]
    rfl
  · intro hanon
    refine Sat.lift_bind ?_ ?_
    · intro piece hpiece
      refine halloc.bind ?_
      rintro _ p' ⟨f, rfl, hplaced⟩
      cases piece with
      | none =>
        refine sat_pure ⟨f, fun _ => 0, rfl, ?_, hplaced⟩
        rw [Vma.backing, if_neg hanon, hpiece]
        rfl
      | some piece =>
        have hback : vma.backing v = (vma.readPiece piece >>= fun buf =>
            pure (PageData.setBytes (fun _ => 0) piece.pageOff buf)) := by
          rw [Vma.backing, if_neg hanon, hpiece]
          rfl
        refine Sat.lift_bind ?_ ?_
        · intro buf hbuf
          have hbuf : vma.readPiece piece = .ok buf := hbuf
          refine Sat.modify_bind (sat_pure ⟨f, _, rfl, ?_, hplaced.setPage h _⟩)
          rw [hback, hbuf, hplaced.mem]
          rfl
        · intro e he
          have he : vma.readPiece piece = .error e := he
          refine .inr (.inr ?_)
          rw [hback, he]
          rfl
    · intro e he
      refine .inr (.inr ?_)
      rw [Vma.backing, if_neg hanon, he]
      rfl

theorem Vma.doAllocOnePage_placed (h : PtOk own p pt) (hv : own (addrGetPpn2 v))
    (hpt : vma.pagetable = some pt) (hnone : vma.pagesTree.get? v = none)
    (hin : vma.inVma v) (halign : Vaddr.isAlign v) :
    Sat (vma.doAllocOnePage v) p
      (fun r p' => ∃ f pg, r = (.ok f, (vma.withPage v f).touched) ∧ vma.backing v = .ok pg ∧
        Placed own p p' pt v (vmaFlags2PteFlags vma.vmFlags) f pg)
      (FillPanic p pt vma v) := by
  unfold Vma.doAllocOnePage
  rw [if_neg (by simp [hin, halign])]
  refine (Vma.allocAndFill_placed h hv hpt hnone hin halign).bind ?_
  rintro _ p' ⟨f, pg, rfl, hpg, hplaced⟩
  exact sat_pure ⟨f, pg, rfl, hpg, hplaced⟩

end Placed

theorem Vma.fastAllocOnePageAndGet_held (hin : vma.inVma v) (halign : Vaddr.isAlign v)
    (hget : vma.pagesTree.get? v = some f) :
    Sat (vma.fastAllocOnePageAndGet v) p (fun r p' => r = (f, vma) ∧ p' = p) E := by
  unfold Vma.fastAllocOnePageAndGet
  refine Sat.ensure_bind (fun _ => ?_) (fun h => absurd hin h)
  refine Sat.ensure_bind (fun _ => ?_) (fun h => absurd halign h)
  rw [if_neg (by simp [Vma.vaddrHaveMap, OrdMap.contains, hget])]
  exact Sat.unwrap_bind hget (sat_pure ⟨rfl, rfl⟩)

/-- A page with the content `pg` has joined the area `k`. -/
structure Added (R : Region) (p p' : Phys) (pt : ℕ) (A : Areas) (k : ℕ) (vma : Vma) (v : ℕ)
    (f : Frame) (pg : PageData) : Prop
    extends Placed R.own p p' pt v (vmaFlags2PteFlags vma.vmFlags) f pg where
  page : R.page v
  ok : AreasIn R p' pt (replaceAt A k (some (vma.withPage v f)))
  pte : p'.pte pt v = PTE.leaf f (vmaFlags2PteFlags vma.vmFlags)
  others : ∀ u, R.page u → u ≠ v → p'.pte pt u = p.pte pt u

theorem isUserPage_of_inVma (hend : vma.endVaddr ≤ userSpaceEnd) (hin : vma.inVma v)
    (halign : Vaddr.isAlign v) : IsUserPage v := by
  simp only [Vma.inVma, Bool.and_eq_true, decide_eq_true_eq] at hin
  simp only [Vaddr.isAlign, beq_iff_eq] at halign
  exact ⟨halign, by omega⟩

/-- The page table of the area maps a page that the area has. -/
structure Vma.Attached (own : Fin 512 → Prop) (p : Phys) (pt : ℕ) (vma : Vma) (v : ℕ) : Prop where
  table : PtOk own p pt
  owned : own (addrGetPpn2 v)
  pagetable : vma.pagetable = some pt
  held : ∀ f, vma.pagesTree.get? v = some f →
    f ∈ p.live ∧ f ∉ p.tables pt ∧ (p.pte pt v).valid = true

theorem Vma.Attached.setPage (h : vma.Attached own p pt v) (hget : vma.pagesTree.get? v = some f)
    (pg : PageData) :
    vma.Attached own (p.setPage f pg) pt v where
  table := by
    refine h.table.congr rfl (fun g hg => ?_) fun g hg => h.table.live g hg
    exact replaceAt_of_ne (ne_of_mem_of_not_mem hg (h.held f hget).2.1)
  owned := h.owned
  pagetable := h.pagetable
  held := by
    intro g hg
    rw [h.table.pte_setPage (h.held f hget).2.1 pg h.owned]
    exact h.held g hg

theorem AreasIn.setPage (h : AreasIn R p pt A) (hf : f ∉ p.tables pt) (pg : PageData) :
    AreasIn R (p.setPage f pg) pt A :=
  h.congr rfl (fun _ hg => replaceAt_of_ne (ne_of_mem_of_not_mem hg hf)) fun _ => h.owned_live

theorem holds_withPage_self : Holds (replaceAt A k (some (vma.withPage v f))) k v f :=
  Holds.of_get replaceAt_self (by simp [Vma.withPage])

theorem Placed.added (hplaced : Placed R.own p p' pt v (vmaFlags2PteFlags vma.vmFlags) f pg)
    (h : AreasIn R p pt A) (hA : A k = some vma) (hv : R.page v) :
    Added R p p' pt A k vma v f pg := by
  have hf := hplaced.fresh
  have hpte := hplaced.pte h.table (R.own_page hv)
  have hothers := fun u hu => hplaced.pte_of_ne h.table (u := u) (R.own_page hu)
  obtain ⟨q, hr, hq⟩ := hplaced.mapped
  refine ⟨hplaced, hv, ?_, hpte, fun u hu hne => hothers u hu (by rwa [R.samePage_iff hu hv])⟩
  have hfree : ((p.allocated f).pte pt v).valid = false := by
    rw [h.table.pte_allocated hf (R.own_page hv)]
    exact hplaced.free
  rw [hq]
  exact ((h.allocated hf).addPage hA hv hfree (.inl rfl) hr (Finset.mem_insert_self f p.live)
    fun hown => hf (h.owned_live hown)).setPage (h.table.not_mem_of_rewrites hf hr) pg

theorem Vma.doAllocOnePage_sat (h : AreasIn R p pt A) (hA : A k = some vma) (hv : R.page v)
    (hnone : vma.pagesTree.get? v = none) (hin : vma.inVma v) (halign : Vaddr.isAlign v) :
    Sat (vma.doAllocOnePage v) p
      (fun r p' => ∃ f pg, r = (.ok f, (vma.withPage v f).touched) ∧ vma.backing v = .ok pg ∧
        Added R p p' pt A k vma v f pg)
      (FillPanic p pt vma v) := by
  refine (Vma.doAllocOnePage_placed h.table (R.own_page hv) (h.pagetable k vma hA) hnone hin
    halign).imp ?_
  rintro _ p' ⟨f, pg, rfl, hpg, hplaced⟩
  exact ⟨f, pg, rfl, hpg, hplaced.added h hA hv⟩

theorem AreasIn.replace (h : AreasIn R p pt A) (hA : A k = some vma)
    (htree : vma'.pagesTree = vma.pagesTree) (hpt : vma'.pagetable = vma.pagetable)
    (hflags : ∀ flags, vma.EntryFlags flags → vma'.EntryFlags flags) :
    AreasIn R p pt (replaceAt A k (some vma')) := by
  refine h.retag ⟨?_, ?_, ?_⟩
  · intro j w hw
    rw [replaceAt_apply] at hw
    split_ifs at hw
    · cases hw
      rw [hpt, h.pagetable k vma hA]
    · exact h.pagetable j w hw
  · intro j w hw u g hg
    rw [replaceAt_apply] at hw
    split_ifs at hw with hj
    · cases hw
      exact ⟨not_false, vma, hj ▸ hA, htree ▸ hg, hflags⟩
    · exact ⟨not_false, w, hw, hg, fun _ hf => hf⟩
  · intro j u g hg _
    rw [holds_replaceAt]
    by_cases hj : j = k
    · subst hj
      exact .inl ⟨rfl, htree ▸ hg.get hA⟩
    · exact .inr ⟨hj, hg⟩

theorem AreasIn.insertEmpty (h : AreasIn R p pt A) (hnone : ∀ v f, ¬ Holds A k v f)
    (htree : vma'.pagesTree = ∅) (hpt : vma'.pagetable = some pt) :
    AreasIn R p pt (replaceAt A k (some vma')) := by
  refine h.retag ⟨?_, ?_, ?_⟩
  · intro j w hw
    rw [replaceAt_apply] at hw
    split_ifs at hw
    · cases hw
      exact hpt
    · exact h.pagetable j w hw
  · intro j w hw u g hg
    rw [replaceAt_apply] at hw
    split_ifs at hw
    · cases hw
      rw [htree, OrdMap.get?_empty] at hg
      cases hg
    · exact ⟨not_false, w, hw, hg, fun _ hf => hf⟩
  · intro j u g hg _
    rw [holds_replaceAt]
    refine .inr ⟨?_, hg⟩
    rintro rfl
    exact hnone u g hg

theorem Added.ok_touched (h : Added R p p' pt A k vma v f pg) :
    AreasIn R p' pt (replaceAt A k (some (vma.withPage v f).touched)) := by
  have hok := h.ok.replace replaceAt_self ((vma.withPage v f).touched_pagesTree)
    ((vma.withPage v f).touched_pagetable) fun _ => Vma.entryFlags_touched
  rwa [replaceAt_replaceAt] at hok

theorem Added.isLocal (h : Added R p p' pt A k vma v f pg) (hA : A k = some vma)
    (hnone : vma.pagesTree.get? v = none) {w : Vma}
    (hw : w.pagesTree = (vma.withPage v f).pagesTree) :
    Local p A p' (replaceAt A k (some w)) pt := by
  refine Local.of_grows h.grows ?_
  intro j u g hg
  have hg : Holds (replaceAt A k (some (vma.withPage v f))) j u g := by
    rw [holds_replaceAt] at hg ⊢
    rwa [hw] at hg
  rcases (holds_withPage hA hnone).mp hg with hg | ⟨_, _, rfl⟩
  · exact .inl ⟨j, u, hg⟩
  · exact .inr h.fresh

theorem Vma.withoutPages_none (h : ∀ v, gone v = false) :
    vma.withoutPages gone = vma := by
  have htree : (vma.pagesTree.filter fun v => !gone v) = vma.pagesTree := by
    ext v
    simp [h]
  rw [withoutPages, htree]

theorem without_insert {gone' : ℕ → Bool} (h : AreasIn R p pt A) (hA : A k = some vma)
    (hf : vma.pagesTree.get? v = some f) (hgone : ∀ u, gone' u = (gone u || decide (u = v))) :
    Without pt (replaceAt A k (some (vma.withoutPages gone)))
      (replaceAt A k (some (vma.withoutPages gone'))) (· = v) := by
  refine ⟨?_, ?_, ?_⟩
  · intro j w hw
    rw [replaceAt_apply] at hw
    split_ifs at hw
    · cases hw
      exact h.pagetable k vma hA
    · exact h.pagetable j w hw
  · intro j w hw u g hg
    have hne : u ≠ v := by
      rintro rfl
      obtain ⟨hold, hnot⟩ := (holds_withoutPages hA).mp (Holds.of_get hw hg)
      have hj := (h.unique hold (Holds.of_get hA hf)).1
      have := hnot hj
      rw [hgone] at this
      simp at this
    rw [replaceAt_apply] at hw
    split_ifs at hw with hj
    · cases hw
      refine ⟨hne, vma.withoutPages gone, by rw [hj, replaceAt_self], ?_, fun _ hf => hf⟩
      simp only [Vma.withoutPages, OrdMap.get?_filter, hgone, hne] at hg ⊢
      simpa using hg
    · exact ⟨hne, w, by rw [replaceAt_of_ne hj, hw], hg, fun _ hf => hf⟩
  · intro j u g hg hne
    rw [holds_withoutPages hA] at hg ⊢
    refine ⟨hg.1, fun hj => ?_⟩
    rw [hgone, hg.2 hj]
    simpa using hne

/-- The loop of `Drop for VMA`: the pages leave the area `k` one by one. -/
theorem Vma.drop_loop (h : AreasIn R p pt A) (hA : A k = some vma) (hd : d.pagetable = some pt)
    (hsub : ∀ v f, d.pagesTree.get? v = some f → vma.pagesTree.get? v = some f) :
    Sat (d.pagesTree.entries.foldlM (fun _ e => do
        let pt ← Checked.unwrap d.pagetable
        let _ ← unmapOnePage pt e.1) ()) p
      (fun _ p' => AreasIn R p' pt (replaceAt A k (some (vma.withoutPages d.pagesTree.contains))) ∧
        Grows p p' pt ∧ p'.live = p.live) E := by
  have hloop := Sat.foldlM (s := p) (b := ()) (E := E)
    (g := fun _ (e : ℕ × Frame) => do
      let pt ← Checked.unwrap d.pagetable
      let _ ← unmapOnePage pt e.1)
    (fun done _ p' => AreasIn R p' pt (replaceAt A k (some (vma.withoutPages fun u =>
      decide (u ∈ done.map Prod.fst)))) ∧ Grows p p' pt ∧ p'.live = p.live)
    (l := d.pagesTree.entries) ?_ ?_
  · refine hloop.imp ?_
    rintro _ p' ⟨hok, hgrows⟩
    have hcontains : d.pagesTree.contains = fun u => decide (u ∈ d.pagesTree.entries.map Prod.fst) :=
      funext fun u => d.pagesTree.contains_eq u
    rw [hcontains]
    exact ⟨hok, hgrows⟩
  · rintro done ⟨v, f⟩ rest hl _ p₁ ⟨hok, hgrows, hlive⟩
    have hget : vma.pagesTree.get? v = some f := by
      refine hsub v f (OrdMap.get?_eq_some.mpr ?_)
      rw [hl]
      simp
    have hold := Holds.of_get hA hget
    have hv := h.page k v f hold
    -- the page is still in the area, so its tables are there
    have hvalid : (p₁.pte pt v).valid = true := by
      refine hok.pte_valid ((holds_withoutPages hA).mpr ⟨hold, fun _ => ?_⟩)
      have hnodup := d.pagesTree.keys_nodup
      rw [hl, List.map_append, List.map_cons] at hnodup
      exact decide_eq_false fun hmem => (List.nodup_middle.mp hnodup).notMem
        (List.mem_append_left _ hmem)
    refine Sat.unwrap_bind hd ?_
    refine (unmapOnePage_mapped hok.table (R.own_page hv) hvalid).bind ?_
    rintro _ p₂ ⟨-, hr, hlive'⟩
    refine sat_pure ⟨hok.unmap hv (PTE.unmapped_valid _) hr ?_, hgrows.trans hr.grows,
      hlive'.trans hlive⟩
    refine without_insert h hA hget ?_
    intro u
    rw [Bool.eq_iff_iff, Bool.or_eq_true]
    simp [or_comm]
  · refine ⟨?_, Grows.refl p pt, rfl⟩
    have hall : vma.withoutPages (fun u => decide (u ∈ ([] : List (ℕ × Frame)).map Prod.fst)) =
        vma := Vma.withoutPages_none fun _ => rfl
    rw [hall, replaceAt_eq_self hA]
    exact h

/-- A part `d` of the area `k` is dropped: its pages are gone, and their frames are free. -/
theorem Vma.drop_sat (h : AreasIn R p pt A) (hA : A k = some vma) (hd : d.pagetable = some pt)
    (hsub : ∀ v f, d.pagesTree.get? v = some f → vma.pagesTree.get? v = some f)
    (hreserve : d.cowWriteReservePgs = none) :
    Sat d.drop p
      (fun _ p' => AreasIn R p' pt (replaceAt A k (some (vma.withoutPages d.pagesTree.contains))) ∧
        Local p A p' (replaceAt A k (some (vma.withoutPages d.pagesTree.contains))) pt ∧
        p'.live = p.live.filter fun f => f ∉ d.pagesTree.entries.map Prod.snd) E := by
  unfold Vma.drop
  refine (Vma.drop_loop h hA hd hsub).bind ?_
  rintro _ p₁ ⟨hok, hgrows, hlive⟩
  have hfreed : ∀ f ∈ d.pagesTree.entries.map Prod.snd, ∃ v, d.pagesTree.contains v ∧
      Holds A k v f := by
    intro f hf
    obtain ⟨⟨v, f⟩, he, rfl⟩ := List.mem_map.mp hf
    have hget := OrdMap.get?_eq_some.mpr he
    exact ⟨v, OrdMap.contains_iff.mpr ⟨f, hget⟩, Holds.of_get hA (hsub v f hget)⟩
  have hkept : ∀ f, Owned p₁ pt (replaceAt A k (some (vma.withoutPages d.pagesTree.contains))) f →
      f ∉ d.pagesTree.entries.map Prod.snd := by
    rintro f hown hf
    obtain ⟨v, hv, hold⟩ := hfreed f hf
    rcases hown with ht | ⟨j, u, hj⟩
    · obtain ⟨hlive, htab⟩ := h.live k v f hold
      rcases hgrows.fresh f ht with ht | ht
      · exact htab ht
      · exact ht hlive
    · obtain ⟨hj, hnot⟩ := (holds_withoutPages hA).mp hj
      obtain ⟨rfl, rfl⟩ := h.inj j u f k v hj hold
      rw [hnot rfl] at hv
      cases hv
  simp only [hreserve, Option.getD_none]
  refine sat_modify ⟨hok.congr rfl (fun _ _ => rfl) ?_, ⟨?_, ?_, hgrows.others, hgrows.cnt.ge⟩, ?_⟩
  · intro f hf
    exact Finset.mem_filter.mpr ⟨hok.owned_live hf, hkept f hf, List.not_mem_nil⟩
  · intro f hf hnot
    refine ⟨Finset.mem_filter.mpr ⟨hgrows.live f hf, ?_, List.not_mem_nil⟩,
      hgrows.mem f hf fun ht => hnot (.inl ht)⟩
    intro hmem
    obtain ⟨v, _, hold⟩ := hfreed f hmem
    exact hnot (.inr ⟨k, v, hold⟩)
  · rintro f (ht | ⟨j, u, hj⟩)
    · exact (hgrows.fresh f ht).imp_left .inl
    · exact .inl (.inr ⟨j, u, ((holds_withoutPages hA).mp hj).1⟩)
  · show Finset.filter _ p₁.live = _
    rw [hlive]
    exact Finset.filter_congr fun f _ => and_iff_left List.not_mem_nil

section NewRoot

variable {own : Fin 512 → Prop} {root : Frame}
  {mem : Frame → PageData}

theorem tableAt_newRoot (hzero : ∀ i, own i → mem root i = 0) {q : List (Fin 512)}
    (hq : Inner own q) (hne : q ≠ []) : tableAt mem root q = none := by
  match q, hq with
  | [], _ => exact absurd rfl hne
  | [i], hi => simp [tableAt, entryAt, hzero i hi]
  | [j, i], hi => simp [tableAt, entryAt, hzero i hi]

theorem tableOk_newRoot (hzero : ∀ i, own i → mem root i = 0) :
    TableOk own mem [root] root := by
  have hnil : ∀ q f, Inner own q → tableAt mem root q = some f → q = [] := by
    intro q f hq hf
    by_contra hne
    rw [tableAt_newRoot hzero hq hne] at hf
    cases hf
  refine ⟨?_, ?_, ?_⟩
  · intro q hq f hf
    rw [hnil q f hq hf] at hf
    cases hf
    exact List.mem_singleton_self root
  · intro q q' hq hq' f hf hf'
    rw [hnil q f hq hf, hnil q' f hq' hf']
  · intro i q hq f hf
    obtain rfl := hnil q f hq.tail hf
    cases hf
    simp [entryAt, hzero i hq]

theorem ptOk_newRoot (htables : p.tables pt = [root]) (hzero : ∀ i, own i → p.mem root i = 0)
    (hlive : root ∈ p.live) : PtOk own p pt := by
  have hroot : p.root pt = root := by rw [Phys.root, htables, List.headD_cons]
  refine ⟨?_, ?_, ?_⟩
  · rw [hroot, htables, List.head?_cons]
  · rw [hroot, htables]
    exact tableOk_newRoot hzero
  · rw [htables]
    simpa using hlive

theorem pte_newRoot (htables : p.tables pt = [root]) (hzero : ∀ i, own i → p.mem root i = 0)
    {v : ℕ} (hv : own (addrGetPpn2 v)) : (p.pte pt v).valid = false := by
  have hq : Inner own [addrGetPpn1 v, addrGetPpn2 v] := hv
  have hroot : p.root pt = root := by rw [Phys.root, htables, List.headD_cons]
  have hdefault : (default : PTE).valid = false := by decide
  rw [Phys.pte, hroot, leafEntry, tableAt_newRoot hzero hq (by simp)]
  exact hdefault

end NewRoot

theorem areasIn_newRoot {root : Frame} (htables : p.tables pt = [root])
    (hzero : ∀ i, R.own i → p.mem root i = 0) (hlive : root ∈ p.live) :
    AreasIn R p pt fun _ => none := by
  refine ⟨ptOk_newRoot htables hzero hlive, by simp, by simp [Holds], by simp [Holds],
    by simp [Holds], by simp, ?_⟩
  intro v hv hvalid
  rw [pte_newRoot htables hzero (R.own_page hv)] at hvalid
  cases hvalid

theorem Phys.withUser_owned (p : Phys) (root : Frame) (i : Fin 512) (hi : userOwn i) :
    (p.withUser root).mem root i = 0 := by
  have hi : i = 0 ∨ i = 1 := by
    simp only [userOwn] at hi
    simp only [Fin.ext_iff]
    omega
  simp only [Phys.withUser, replaceAt_self, if_pos hi]

theorem PageTable.newUser_sat (hkernel : p.tables kernelPagetable ≠ []) :
    Sat newUser p
      (fun pt p' => pt = p.tableCnt ∧ p'.tableCnt = p.tableCnt + 1 ∧
        AreasOk p' pt (fun _ => none) ∧ Local p (fun _ => none) p' (fun _ => none) pt ∧
        Spent 1 p p' ∧ ∀ q, Inner userOwn q → (p'.hasTable pt q = true ↔ q = []))
      (Short 1 p) := by
  refine (newUser_withUser hkernel).imp ?_
  rintro _ _ ⟨hspent, rfl, root, hroot, rfl⟩
  refine ⟨rfl, rfl, areasIn_newRoot (replaceAt_self (b := [root])) (p.withUser_owned root) ?_,
    ⟨?_, ?_, ?_, ?_⟩, hspent, fun q hq => ?_⟩
  · exact Finset.mem_insert_self root p.live
  · intro f hf _
    have hne : f ≠ root := ne_of_mem_of_not_mem hf hroot
    refine ⟨Finset.mem_insert_of_mem hf, ?_⟩
    simp only [Phys.withUser, replaceAt_of_ne hne]
    exact replaceAt_of_ne hne
  · rintro f (hf | ⟨_, _, _, hf, _⟩)
    · simp only [Phys.withUser, replaceAt_self, List.mem_singleton] at hf
      subst hf
      exact .inr hroot
    · cases hf
  · intro q hq
    exact replaceAt_of_ne hq
  · simp [Phys.withUser]
  · have htop : (p.withUser root).root p.tableCnt = root := by simp [Phys.root, withUser]
    rw [hasTable, htop]
    by_cases hnil : q = []
    · simp [hnil, tableAt]
    · simp [hnil, tableAt_newRoot (p.withUser_owned root) hq hnil]

theorem PageTable.ptOk_newUser_bare (hnew : newUser .bare = .ok (pt, p)) : PtOk userOwn p pt := by
  have hkernel : Phys.bare.tables kernelPagetable ≠ [] := by decide
  obtain ⟨-, -, hok, -⟩ := (newUser_sat hkernel).of_ok hnew
  exact hok.table

end Alloc

def tablesOf (pages : List ℕ) : Finset (List (Fin 512)) := pages.toFinset.biUnion tablePaths

/-- The frames of a page table with these pages: the root, the pages and the tables above
them. -/
def framesFor (pages : List ℕ) : ℕ := 1 + pages.length + (tablesOf pages).card

theorem framesFor_mono {pages pages' : List ℕ} (h : pages <+: pages') :
    framesFor pages ≤ framesFor pages' := by
  have hsub : tablesOf pages ⊆ tablesOf pages' := by
    refine Finset.biUnion_subset_biUnion_of_subset_left _ fun v hv => ?_
    rw [List.mem_toFinset] at hv ⊢
    exact h.subset hv
  have hlen := h.length_le
  have hcard := Finset.card_le_card hsub
  unfold framesFor
  omega

theorem tablesOf_concat (pages : List ℕ) (v : ℕ) :
    tablesOf (pages ++ [v]) = tablesOf pages ∪ tablePaths v := by
  unfold tablesOf
  rw [List.toFinset_append, Finset.union_biUnion]
  simp

/-- A page table has been made since, with the tables above these pages, and the frames for
all of them have been handed out. -/
structure Paid (p p' : Phys) (pt : ℕ) (pages : List ℕ) : Prop where
  spent : Spent (framesFor pages) p p'
  tables : ∀ q, Inner userOwn q → (p'.hasTable pt q = true ↔ q = [] ∨ q ∈ tablesOf pages)

section Paid

variable {p p' p'' : Phys} {pt v : ℕ} {pages : List ℕ}

theorem Paid.framesFor_concat (h : Paid p p' pt pages) (hv : userOwn (addrGetPpn2 v)) :
    framesFor (pages ++ [v]) = framesFor pages + (1 + (p'.missing pt v).card) := by
  have hmissing : p'.missing pt v = tablePaths v \ tablesOf pages := by
    ext q
    rw [missing, Finset.mem_filter, Finset.mem_sdiff]
    refine and_congr_right fun hq => ?_
    have hinner := inner_of_mem_tablePaths hv hq
    rw [← Bool.not_eq_true, h.tables q hinner.1]
    simp [hinner.2]
  have hcard := Finset.card_sdiff_add_card (tablePaths v) (tablesOf pages)
  rw [framesFor, framesFor, tablesOf_concat, hmissing, Finset.union_comm, ← hcard,
    List.length_append, List.length_singleton]
  omega

theorem Paid.concat (h : Paid p p' pt pages) (hv : userOwn (addrGetPpn2 v))
    (hspent : Spent (1 + (p'.missing pt v).card) p' p'')
    (hhung : Hung userOwn p' p'' pt (tablePaths v)) : Paid p p'' pt (pages ++ [v]) where
  spent := by
    rw [h.framesFor_concat hv]
    exact h.spent.trans hspent
  tables := fun q hq => by
    rw [hhung q hq, h.tables q hq, tablesOf_concat, Finset.mem_union, or_assoc]

theorem Paid.setPage (h : Paid p p' pt pages) (hpt : PtOk userOwn p' pt) {f : Frame}
    (hf : f ∉ p'.tables pt) (pg : PageData) : Paid p (p'.setPage f pg) pt pages where
  spent := h.spent.congr rfl rfl
  tables := fun q hq => by
    rw [hpt.hung_setPage hf pg q hq, h.tables q hq]
    simp

end Paid

end Zinix
