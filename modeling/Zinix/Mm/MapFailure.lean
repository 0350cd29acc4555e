import Zinix.Mm.Prefault

/-!
# When `map_one_page` fails

`__fast_alloc_one_page_and_get` stops at a `todo!()` if `map_one_page` fails, which happens
at a page that is mapped though the area that is found there does not hold it.
-/

namespace Zinix

open Program

theorem Phys.allocOrPanic_eq (p : Phys) :
    allocOrPanic p = match p.allocator.pick p.live with
      | none => .error .outOfMemory
      | some f => .ok (f, p.allocated f) := by
  unfold allocOrPanic allocOnePage
  rw [bind_assoc, bind_apply]
  show (match p.allocator.pick p.live with | none => _ | some f => _ : Program Phys _) p >>= _ = _
  cases p.allocator.pick p.live with
  | none => rfl
  | some f => rfl

namespace Vma

variable {own : Fin 512 → Prop} {p : Phys} {pt v : ℕ} {vma : Vma}

/-- The part of the page that is read from a file can be computed. -/
def PieceOk (vma : Vma) (v : ℕ) : Prop := vma.isAnon ∨ ∃ piece, vma.filePiece v = .ok piece

theorem fastAllocOnePageAndGet_eq (hnone : vma.pagesTree.get? v = none) (hin : vma.inVma v)
    (halign : Vaddr.isAlign v) :
    vma.fastAllocOnePageAndGet v = do
      let pg ← Phys.allocOrPanic
      let pt ← Checked.unwrap vma.pagetable
      match ← PageTable.mapOnePage pt v pg (vmaFlags2PteFlags vma.vmFlags) with
      | .error _ => throw .todo
      | .ok _ => return (pg, vma.withPage v pg) := by
  unfold fastAllocOnePageAndGet
  rw [Checked.ensure_pos hin, Checked.ensure_pos halign,
    if_pos (by simp [vaddrHaveMap, OrdMap.contains, hnone])]
  rfl

theorem fastAllocOnePageAndGet_noFrame (hnone : vma.pagesTree.get? v = none) (hin : vma.inVma v)
    (halign : Vaddr.isAlign v) (hpick : p.allocator.pick p.live = none) :
    vma.fastAllocOnePageAndGet v p = .error .outOfMemory := by
  rw [fastAllocOnePageAndGet_eq hnone hin halign, bind_apply, Phys.allocOrPanic_eq, hpick]
  rfl

/-- `map_one_page` fails on a page that is mapped, if there is a frame to map. -/
theorem fastAllocOnePageAndGet_todo (h : PtOk own p pt) (hv : own (addrGetPpn2 v))
    (hpt : vma.pagetable = some pt) (hnone : vma.pagesTree.get? v = none) (hin : vma.inVma v)
    (halign : Vaddr.isAlign v) (hvalid : (p.pte pt v).valid) {f : Frame}
    (hpick : p.allocator.pick p.live = some f) :
    vma.fastAllocOnePageAndGet v p = .error .todo := by
  have hf := p.allocator.fresh _ f hpick
  rw [fastAllocOnePageAndGet_eq hnone hin halign, bind_apply, Phys.allocOrPanic_eq, hpick]
  dsimp only
  rw [Checked.ok_bind]
  refine Sat.panics (Sat.unwrap_bind hpt ?_)
  rw [← h.pte_allocated hf hv] at hvalid
  refine (Phys.sat_of_short_zero (PageTable.mapOnePage_sat (h.allocated hf) hv f _)
    (PageTable.missing_of_valid hvalid)).bind ?_
  rintro _ _ ⟨-, -, ⟨-, rfl, -⟩ | ⟨hfree, -⟩⟩
  · exact sat_throw rfl
  · cases hvalid.symm.trans hfree

theorem allocAndFill_of_pieceOk (h : vma.PieceOk v) {e : Panic}
    (he : vma.fastAllocOnePageAndGet v p = .error e) : vma.allocAndFill v p = .error e := by
  unfold allocAndFill
  by_cases hanon : vma.isAnon
  · rw [if_pos hanon, he]
  · obtain ⟨piece, hpiece⟩ := h.resolve_left hanon
    rw [if_neg hanon, lift_bind_apply, hpiece, Checked.ok_bind, bind_apply, he]
    rfl

theorem pieceOk_of_todo (h : vma.allocAndFill v p = .error .todo) : vma.PieceOk v := by
  unfold allocAndFill at h
  by_cases hanon : vma.isAnon
  · exact .inl hanon
  · cases hpiece : vma.filePiece v with
    | ok piece => exact .inr ⟨piece, hpiece⟩
    | error e =>
      rw [if_neg hanon, lift_bind_apply, hpiece] at h
      exact absurd (Except.error.inj h) (vma.avoids_filePiece v (e := .todo) (by decide) e hpiece)

theorem doAllocOnePage_todo_iff (h : PtOk own p pt) (hv : own (addrGetPpn2 v))
    (hpt : vma.pagetable = some pt) (hnone : vma.pagesTree.get? v = none) (hin : vma.inVma v)
    (halign : Vaddr.isAlign v) :
    vma.doAllocOnePage v p = .error .todo ↔
      (p.pte pt v).valid ∧ (p.allocator.pick p.live).isSome ∧ vma.PieceOk v := by
  have hfill : vma.doAllocOnePage v p = .error .todo ↔ vma.allocAndFill v p = .error .todo := by
    unfold doAllocOnePage
    rw [if_neg (by simp [hin, halign]), bind_apply]
    cases vma.allocAndFill v p with
    | error e => simp only [Checked.error_bind, Except.error.injEq]
    | ok r => exact ⟨nofun, nofun⟩
  rw [hfill]
  constructor
  · intro htodo
    have hpiece := pieceOk_of_todo htodo
    rcases (allocAndFill_placed h hv hpt hnone hin halign).of_error htodo with
      ⟨he, -⟩ | ⟨-, hvalid⟩ | hback
    · cases he
    · refine ⟨hvalid, ?_, hpiece⟩
      rw [Option.isSome_iff_ne_none]
      intro hpick
      have hmemory := fastAllocOnePageAndGet_noFrame hnone hin halign hpick
      cases htodo.symm.trans (allocAndFill_of_pieceOk hpiece hmemory)
    · exact absurd rfl (vma.avoids_backing v (by decide) (by decide) (by decide) .todo hback)
  · rintro ⟨hvalid, hsome, hpiece⟩
    obtain ⟨f, hpick⟩ := Option.isSome_iff_exists.mp hsome
    exact allocAndFill_of_pieceOk hpiece
      (fastAllocOnePageAndGet_todo h hv hpt hnone hin halign hvalid hpick)

end Vma

namespace Mm

variable {mm : Mm} {p : Phys} {a : ℕ} {prot : PgFaultProt}
  {k : ℕ} {vma : Vma}

/-- A fault at a page that is mapped, though the area that is found there does not hold it.
There is a frame for it. -/
structure Clash (mm : Mm) (p : Phys) (a : ℕ) (prot : PgFaultProt) (k : ℕ) (vma : Vma) : Prop where
  fault : mm.translate p a prot = none
  found : mm.findVma (Vaddr.down a) = some (k, vma)
  absent : vma.pagesTree.get? (Vaddr.down a) = none
  held : ∃ j f, Holds mm.areas j (Vaddr.down a) f
  frame : (p.allocator.pick p.live).isSome
  piece : vma.PieceOk (Vaddr.down a)

-- The unifier looks into the sums with a page size.
set_option maxRecDepth 10000

/-- The handler panics in the allocation of the page if it panics in this way. -/
theorem trapPageFaultHandler_todo (h : mm.trapPageFaultHandler a p = .error .todo) :
    ∃ k vma, mm.findVma (Vaddr.down a) = some (k, vma) ∧
      vma.pagesTree.get? (Vaddr.down a) = none ∧
        vma.doAllocOnePage (Vaddr.down a) p = .error .todo := by
  unfold Mm.trapPageFaultHandler at h
  rw [lift_bind_apply] at h
  cases hfloor : Vaddr.floor a with
  | error e =>
    rw [hfloor] at h
    have havoids : (Vaddr.floor a).Avoids .todo := Vaddr.avoids_floor nofun
    exact absurd (Except.error.inj h) (havoids e hfloor)
  | ok v =>
    obtain ⟨-, rfl⟩ := Vaddr.floor_eq_ok hfloor
    rw [hfloor, Checked.ok_bind] at h
    cases hfind : mm.findVma (Vaddr.down a) with
    | none =>
      rw [hfind] at h
      cases h
    | some e =>
      obtain ⟨k, vma⟩ := e
      rw [hfind] at h
      simp only at h
      cases hget : vma.pagesTree.get? (Vaddr.down a) with
      | some f =>
        rw [if_pos (by simp [Vma.findPage, hget])] at h
        cases h
      | none =>
        rw [if_neg (by simp [Vma.findPage, hget]), bind_apply] at h
        refine ⟨k, vma, rfl, hget, ?_⟩
        cases hrun : vma.doAllocOnePage (Vaddr.down a) p with
        | error e =>
          rw [hrun] at h
          rw [Except.error.inj h]
        | ok r =>
          obtain ⟨⟨ret, w⟩, q⟩ := r
          rw [hrun] at h
          cases ret with
          | error u => cases h
          | ok g => cases h

theorem trapPageFaultHandler_of_todo (ha : a < userSpaceEnd)
    (hfind : mm.findVma (Vaddr.down a) = some (k, vma))
    (hget : vma.pagesTree.get? (Vaddr.down a) = none)
    (h : vma.doAllocOnePage (Vaddr.down a) p = .error .todo) :
    mm.trapPageFaultHandler a p = .error .todo := by
  have hfloor : Vaddr.floor a = .ok (Vaddr.down a) := by
    refine Vaddr.floor_eq ?_
    simp only [userSpaceEnd, pageSize, wordSize] at ha ⊢
    omega
  unfold Mm.trapPageFaultHandler
  rw [lift_bind_apply, hfloor, Checked.ok_bind, hfind]
  simp only
  rw [if_neg (by simp [Vma.findPage, hget]), bind_apply, h]
  rfl

theorem Sound.trapPageFaultHandler_todo_iff (h : Sound mm p)
    (hfault : mm.translate p a prot = none) :
    mm.trapPageFaultHandler a p = .error .todo ↔ ∃ k vma, Clash mm p a prot k vma := by
  have halign : Vaddr.isAlign (Vaddr.down a) := by simp [Vaddr.isAlign, Vaddr.down_mod]
  have hiff : ∀ k vma, mm.findVma (Vaddr.down a) = some (k, vma) →
      vma.pagesTree.get? (Vaddr.down a) = none →
      (vma.doAllocOnePage (Vaddr.down a) p = .error .todo ↔ Clash mm p a prot k vma) := by
    intro k vma hfind hget
    obtain ⟨hk, hin, -⟩ := findVma_eq_some.mp hfind
    have hpage := isUserPage_down (lt_of_findVma h.low hfind)
    rw [Vma.doAllocOnePage_todo_iff h.ok.table hpage.own (h.ok.pagetable k vma hk) hget hin halign]
    constructor
    · rintro ⟨hvalid, hframe, hpiece⟩
      obtain ⟨j, f, hf⟩ := h.ok.covered _ hpage hvalid
      exact ⟨hfault, hfind, hget, ⟨j, f, hf⟩, hframe, hpiece⟩
    · intro hclash
      obtain ⟨j, f, hf⟩ := hclash.held
      exact ⟨h.ok.pte_valid hf, hclash.frame, hclash.piece⟩
  constructor
  · intro htodo
    obtain ⟨k, vma, hfind, hget, hrun⟩ := trapPageFaultHandler_todo htodo
    exact ⟨k, vma, (hiff k vma hfind hget).mp hrun⟩
  · rintro ⟨k, vma, hclash⟩
    exact trapPageFaultHandler_of_todo (lt_of_findVma h.low hclash.found) hclash.found hclash.absent
      ((hiff k vma hclash.found hclash.absent).mpr hclash)

/-- After a fault the area that is found holds the page, so the next fault is no clash. -/
theorem PagedIn.not_clash {mm' : Mm} {p' : Phys} {j : ℕ} {w : Vma} {f : Frame} {pg : PageData}
    (h : PagedIn mm p (Vaddr.down a) mm' p' k vma f pg) :
    ¬Clash mm' p' a prot j w := by
  intro hclash
  have habsent := hclash.absent
  cases hclash.found.symm.trans h.found'
  rw [Vma.touched_pagesTree, Vma.withPage, OrdMap.get?_insert, if_pos rfl] at habsent
  cases habsent

theorem access_succ (a : ℕ) (prot : PgFaultProt) (n : ℕ) (mm : Mm) (p : Phys) :
    access a prot (n + 1) mm p = match mm.translate p a prot with
      | some f => .ok ((f, mm), p)
      | none => mm.trapPageFaultHandler a p >>= fun r => access a prot n r.1 r.2 := by
  rw [Mm.access]
  show (match mm.translate p a prot with | some f => _ | none => _ : Program Phys _) p = _
  cases mm.translate p a prot with
  | some f => rfl
  | none => rfl

theorem Sound.access_todo_iff (h : Sound mm p) :
    Mm.access a prot accessTries mm p = .error .todo ↔ ∃ k vma, Clash mm p a prot k vma := by
  rw [accessTries, access_succ]
  cases hfault : mm.translate p a prot with
  | some f =>
    constructor
    · intro hreturns
      cases hreturns
    · rintro ⟨k, vma, hclash⟩
      rw [hclash.fault] at hfault
      cases hfault
  | none =>
    rw [← h.trapPageFaultHandler_todo_iff hfault]
    cases hrun : mm.trapPageFaultHandler a p with
    | error e => simp only [Checked.error_bind, Except.error.injEq]
    | ok r =>
      obtain ⟨mm', p'⟩ := r
      obtain ⟨k, vma, f, pg, hin⟩ := (trapPageFaultHandler_sat h.ok h.low a).of_ok hrun
      refine ⟨fun htodo => ?_, fun hreturns => by cases hreturns⟩
      rw [Checked.ok_bind, access_succ] at htodo
      cases hfault' : mm'.translate p' a prot with
      | some f =>
        rw [hfault'] at htodo
        cases htodo
      | none =>
        rw [hfault'] at htodo
        rcases Checked.bind_eq_error.mp htodo with htodo | ⟨r, -, hend⟩
        · obtain ⟨j, w, hclash⟩ :=
            ((hin.sound h).trapPageFaultHandler_todo_iff hfault').mp htodo
          exact absurd hclash hin.not_clash
        · cases hend

end Mm
end Zinix
