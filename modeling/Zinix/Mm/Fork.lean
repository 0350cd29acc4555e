import Zinix.Mm.Prefault

/-!
# The eager fork

`new_mm_by_old` copies each resident page of the parent into a new frame. It panics where a
page is resident that does not lie in its area, and if there are not enough frames.
-/

namespace Zinix

open Program

variable {p p' : Phys} {A A' : Areas} {pt v : ℕ} {vma : Vma}

/-- The kernel has its page table, and the table that comes next has no frames. -/
structure Phys.Booted (p : Phys) : Prop where
  kernel : p.tables kernelPagetable ≠ []
  next : ∀ pt, p.tableCnt ≤ pt → p.tables pt = []

theorem Phys.Booted.of_local (h : p.Booted) (hlocal : Local p A p' A' pt)
    (hpt : pt ≠ kernelPagetable) (hcnt : pt < p'.tableCnt) :
    p'.Booted where
  kernel := by
    rw [hlocal.others _ hpt.symm]
    exact h.kernel
  next := by
    intro q hq
    rw [hlocal.others q (by omega)]
    exact h.next q (hlocal.cnt.trans hq)

theorem Phys.booted_bare : Phys.bare.Booted := by
  refine ⟨by decide, ?_⟩
  intro pt hpt
  have hne : pt ≠ kernelPagetable := by
    rintro rfl
    cases hpt
  exact if_neg hne

structure Vma.CopiedTo (p p' : Phys) (pt : ℕ) (vma w : Vma) : Prop where
  shape : w = { vma.childOf pt with pagesTree := w.pagesTree }
  copied : ∀ v f, vma.pagesTree.get? v = some f →
    ∃ g, w.pagesTree.get? v = some g ∧ p'.mem g = p.mem f
  only : ∀ v g, w.pagesTree.get? v = some g → ∃ f, vma.pagesTree.get? v = some f
  inside : ∀ v f, vma.pagesTree.get? v = some f → vma.inVma v

theorem Vma.CopiedTo.sameArea {w : Vma} (h : Vma.CopiedTo p p' pt vma w) : SameArea vma w := by
  rw [h.shape]
  exact ⟨rfl, rfl, rfl, rfl, rfl, rfl, rfl, rfl⟩

theorem Vma.fastAllocOnePageAndGet_outside (h : ¬vma.inVma v) (p : Phys) :
    vma.fastAllocOnePageAndGet v p = .error .assertion := by
  unfold Vma.fastAllocOnePageAndGet
  rw [Checked.ensure_neg h]
  rfl

theorem Local.of_holds {A'' : Areas} (h : Local p A p' A' pt)
    (hA : ∀ k v f, Holds A'' k v f → Holds A' k v f) : Local p A p' A'' pt :=
  h.trans (.of_grows (.refl p' pt) fun k v f hf => .inl ⟨k, v, hA k v f hf⟩)

theorem Added.mem_holds {R : Region} {k j u : ℕ} {f g : Frame} {pg : PageData} (h : Added R p p' pt A k vma v f pg)
    (hok : AreasIn R p pt A) (hg : Holds A j u g) : p'.mem g = p.mem g := by
  obtain ⟨hlive, htable⟩ := hok.live j u g hg
  exact h.grows.mem g hlive htable

namespace Mm

variable {mm new : Mm} {p p₀ p₁ p' : Phys} {k v : ℕ} {vma w : Vma} {f g : Frame}
  {before : List ℕ} {done : List (ℕ × Frame)} {visited : List (ℕ × Vma)}

/-- User code sees no change in frames that are not those of its address space. -/
theorem Sound.seen_congr (h : Sound mm p) (htables : p'.tables mm.pagetable = p.tables mm.pagetable)
    (hmem : ∀ f, Owned p mm.pagetable mm.areas f → p'.mem f = p.mem f) (hv : IsUserPage v) :
    mm.seen p' v = mm.seen p v := by
  have hpte := h.ok.table.pte_congr htables (fun f hf => hmem f (.inl hf)) hv.own
  unfold Mm.seen
  rw [hpte]
  by_cases hvalid : (p.pte mm.pagetable v).valid
  · obtain ⟨k, hk⟩ := h.holds_of_valid hv hvalid
    rw [if_pos hvalid, if_pos hvalid, hmem _ (.inr ⟨k, v, hk⟩)]
  · rw [if_neg hvalid, if_neg hvalid]

theorem Sound.congr (h : Sound mm p) (htables : p'.tables mm.pagetable = p.tables mm.pagetable)
    (hmem : ∀ f ∈ p.tables mm.pagetable, p'.mem f = p.mem f)
    (hlive : ∀ f, Owned p mm.pagetable mm.areas f → f ∈ p'.live) : Sound mm p' :=
  ⟨h.ok.congr htables hmem hlive, h.low⟩

/-- An address space that can be forked. Its keys are in the range that the fork visits. -/
structure UserSpace (mm : Mm) (p : Phys) : Prop where
  sound : Sound mm p
  keys : ∀ k vma, mm.areas k = some vma → k < userSpaceEnd
  booted : p.Booted

def Overhangs (mm : Mm) : Prop :=
  ∃ k vma v f, mm.areas k = some vma ∧ vma.pagesTree.get? v = some f ∧ ¬vma.inVma v

theorem overhangs_iff : mm.Overhangs ↔
    ∃ e ∈ mm.vmas.entries, ∃ q ∈ e.2.pagesTree.entries, ¬e.2.inVma q.1 := by
  constructor
  · rintro ⟨k, vma, v, f, hk, hf, hout⟩
    exact ⟨_, OrdMap.get?_eq_some.mp hk, _, OrdMap.get?_eq_some.mp hf, hout⟩
  · rintro ⟨e, he, q, hq, hout⟩
    exact ⟨e.1, e.2, q.1, q.2, OrdMap.get?_eq_some.mpr he, OrdMap.get?_eq_some.mpr hq, hout⟩

instance : Decidable mm.Overhangs := decidable_of_iff _ overhangs_iff.symm

def pagesOf (areas : List (ℕ × Vma)) : List ℕ :=
  areas.flatMap fun e => e.2.pagesTree.entries.map Prod.fst

/-- The frames that a fork takes: one for the root of the new page table, one for each
resident page, and one for each table above them. -/
def forkFrames (mm : Mm) : ℕ := framesFor (pagesOf (mm.vmas.range userSpaceStart userSpaceEnd))

def ForkPanic (mm : Mm) (p : Phys) (e : Panic) : Prop :=
  e = .outOfMemory ∧ ¬p.Supplies mm.forkFrames ∨ e = .assertion ∧ mm.Overhangs

/-- The child while the pages of an area are copied. The copy began in the memory `p₀`, with
some pages copied before, and the fork in `p`. -/
structure CopyingPages (p p₀ : Phys) (new : Mm) (k : ℕ) (vma : Vma) (before : List ℕ)
    (done : List (ℕ × Frame)) (w : Vma) (p₁ : Phys) : Prop where
  ok : AreasOk p₁ new.pagetable (replaceAt new.areas k (some w))
  isLocal : Local p (fun _ => none) p₁ (replaceAt new.areas k (some w)) new.pagetable
  cnt : p.tableCnt < p₁.tableCnt
  kept : ∀ j u g, Holds new.areas j u g → p₁.mem g = p₀.mem g
  shape : w = { vma.childOf new.pagetable with pagesTree := w.pagesTree }
  copied : ∀ v f, (v, f) ∈ done → ∃ g, w.pagesTree.get? v = some g ∧ p₁.mem g = p.mem f
  only : ∀ v g, w.pagesTree.get? v = some g → ∃ f, (v, f) ∈ done
  inside : ∀ v f, (v, f) ∈ done → vma.inVma v
  paid : Paid p p₁ new.pagetable (before ++ done.map Prod.fst)

structure Forked (mm : Mm) (p : Phys) (done : List (ℕ × Vma)) (new : Mm) (p₁ : Phys) : Prop where
  pagetable : new.pagetable = p.tableCnt
  startBrk : new.startBrk = mm.startBrk
  brk : new.brk = mm.brk
  ok : AreasOk p₁ new.pagetable new.areas
  isLocal : Local p (fun _ => none) p₁ new.areas new.pagetable
  cnt : p.tableCnt < p₁.tableCnt
  copied : ∀ k vma, (k, vma) ∈ done →
    ∃ w, new.areas k = some w ∧ Vma.CopiedTo p p₁ new.pagetable vma w
  only : ∀ k w, new.areas k = some w → ∃ vma, (k, vma) ∈ done
  paid : Paid p p₁ new.pagetable (pagesOf done)

theorem CopyingPages.copyPage (h : CopyingPages p p₀ new k vma before done w p₁) (hv : IsUserPage v)
    (hnext : before ++ (done ++ [(v, f)]).map Prod.fst <+:
      pagesOf (mm.vmas.range userSpaceStart userSpaceEnd))
    (hf : f ∈ p.live ∧ f ∉ p.tables new.pagetable) (hnone : w.pagesTree.get? v = none)
    (hnew : new.areas k = none) (hfree : (p₁.pte new.pagetable v).valid = false)
    (hget : mm.areas k = some vma) (hheld : vma.pagesTree.get? v = some f) :
    Sat (copyPage w (v, f)) p₁ (CopyingPages p p₀ new k vma before (done ++ [(v, f)]))
      (mm.ForkPanic p) := by
  have hpages : before ++ (done ++ [(v, f)]).map Prod.fst = before ++ done.map Prod.fst ++ [v] := by
    simp
  have hrange : w.inVma v = vma.inVma v := by rw [h.shape]; rfl
  unfold Mm.copyPage
  by_cases hin : vma.inVma v
  swap
  · -- the assertion of `__fast_alloc_one_page_and_get`
    have hpanic := Vma.fastAllocOnePageAndGet_outside (hrange ▸ hin) p₁
    refine Sat.bind (R := fun _ _ => False) ?_ fun _ _ hfalse => hfalse.elim
    rw [Sat, hpanic]
    exact .inr ⟨rfl, k, vma, v, f, hget, hheld, hin⟩
  have hpt : w.pagetable = some new.pagetable := h.ok.pagetable k w replaceAt_self
  refine ((Vma.fastAllocOnePageAndGet_placed h.ok.table hv.own hpt hnone).weaken ?_).bind ?_
  · rintro e (he | ⟨-, hout⟩ | ⟨-, hvalid⟩)
    · have hall := he.of_spent h.paid.spent
      rw [← h.paid.framesFor_concat hv.own, ← hpages] at hall
      exact .inl (hall.mono (framesFor_mono hnext))
    · refine absurd ⟨hrange ▸ hin, ?_⟩ hout
      simpa [Vaddr.isAlign] using hv.1
    · rw [hfree] at hvalid
      cases hvalid
  rintro _ p₂ ⟨g, rfl, hplaced⟩
  have hzero := hplaced.added h.ok replaceAt_self hv
  have hadd := (hplaced.setPage h.ok.table (p₂.mem f)).added h.ok replaceAt_self hv
  have hstep := hadd.isLocal replaceAt_self hnone (w := w.withPage v g) rfl
  have hok := hadd.ok
  rw [replaceAt_replaceAt] at hstep hok
  have hdata : p₂.mem f = p.mem f := by
    have hall := h.isLocal.trans (hzero.isLocal replaceAt_self hnone (w := w.withPage v g) rfl)
    refine (hall.keep f hf.1 ?_).2
    rintro (htable | ⟨_, _, _, hempty, _⟩)
    · exact hf.2 htable
    · cases hempty
  refine Sat.modify_bind (sat_pure ⟨hok, h.isLocal.trans hstep, h.cnt.trans_le hstep.cnt, ?_, ?_,
    ?_, ?_, ?_, hpages ▸ h.paid.concat hv.own hadd.spent hadd.hung⟩)
  · intro j u g' hg'
    have hne : j ≠ k := by
      rintro rfl
      obtain ⟨w', hw', -⟩ := hg'
      rw [hnew] at hw'
      cases hw'
    have hold : Holds (replaceAt new.areas k (some w)) j u g' :=
      holds_replaceAt.mpr (.inr ⟨hne, hg'⟩)
    rw [hadd.mem_holds h.ok hold, h.kept j u g' hg']
  · have hshape := congrArg (fun x : Vma => x.withPage v g) h.shape
    exact hshape
  · intro u f' hmem
    simp only [Vma.withPage, OrdMap.get?_insert]
    rcases List.mem_append.mp hmem with hmem | hmem
    · obtain ⟨g', hg', hmem'⟩ := h.copied u f' hmem
      have hne : u ≠ v := by
        rintro rfl
        rw [hnone] at hg'
        cases hg'
      refine ⟨g', by rw [if_neg hne, hg'], ?_⟩
      rw [hadd.mem_holds h.ok (Holds.of_get replaceAt_self hg'), hmem']
    · cases List.mem_singleton.mp hmem
      exact ⟨g, if_pos rfl, hadd.mem.trans hdata⟩
  · intro u g' hg'
    simp only [Vma.withPage, OrdMap.get?_insert] at hg'
    split_ifs at hg' with hu
    · exact ⟨f, by simp [hu]⟩
    · obtain ⟨f', hf'⟩ := h.only u g' hg'
      exact ⟨f', List.mem_append_left _ hf'⟩
  · intro u f' hmem
    rcases List.mem_append.mp hmem with hmem | hmem
    · exact h.inside u f' hmem
    · cases List.mem_singleton.mp hmem
      exact hin

theorem pagesOf_prefix {l l' : List (ℕ × Vma)} (h : l <+: l') : pagesOf l <+: pagesOf l' := by
  obtain ⟨rest, rfl⟩ := h
  rw [pagesOf, pagesOf, List.flatMap_append]
  exact List.prefix_append ..

/-- A page of the parent is not mapped in the child before it is copied. -/
theorem CopyingPages.free (h : CopyingPages p p₀ new k vma before done w p₁) (hmm : UserSpace mm p)
    (hvisited : ∀ e ∈ visited, mm.areas e.1 = some e.2) (hforked : Forked mm p visited new p₀)
    (hget : mm.areas k = some vma) (hheld : vma.pagesTree.get? v = some f)
    (hdone : ∀ g, (v, g) ∉ done) :
    (p₁.pte new.pagetable v).valid = false := by
  have hv : IsUserPage v := hmm.sound.ok.user k v f (Holds.of_get hget hheld)
  by_contra hvalid
  obtain ⟨j, g, hg⟩ := h.ok.covered v hv (by simpa using hvalid)
  rcases holds_replaceAt.mp hg with ⟨-, hg⟩ | ⟨hne, w', hw', hg⟩
  · obtain ⟨f', hf'⟩ := h.only v g hg
    exact hdone f' hf'
  · -- the page would be resident in two areas of the parent
    obtain ⟨vma', hvma'⟩ := hforked.only j w' hw'
    obtain ⟨w'', hw'', hcopy⟩ := hforked.copied j vma' hvma'
    cases hw'.symm.trans hw''
    obtain ⟨f', hf'⟩ := hcopy.only v g hg
    have hother : Holds mm.areas j v f' := Holds.of_get (hvisited _ hvma') hf'
    exact hne (hmm.sound.ok.unique hother (Holds.of_get hget hheld)).1

theorem UserSpace.not_mem_tables (h : UserSpace mm p) (f : Frame) : f ∉ p.tables p.tableCnt := by
  rw [h.booted.next _ le_rfl]
  exact List.not_mem_nil

theorem Forked.copyVma (h : Forked mm p visited new p₁) (hmm : UserSpace mm p)
    (hvisited : ∀ e ∈ visited, mm.areas e.1 = some e.2) (hget : mm.areas k = some vma)
    (hfirst : ∀ vma', (k, vma') ∉ visited)
    (hnext : visited ++ [(k, vma)] <+: mm.vmas.range userSpaceStart userSpaceEnd) :
    Sat (copyVma new (k, vma)) p₁ (Forked mm p (visited ++ [(k, vma)])) (mm.ForkPanic p) := by
  have hlist : pagesOf (visited ++ [(k, vma)]) =
      pagesOf visited ++ vma.pagesTree.entries.map Prod.fst := by
    simp [pagesOf]
  have hnew : new.areas k = none := by
    rw [Option.eq_none_iff_forall_ne_some]
    intro w hw
    obtain ⟨vma', hvma'⟩ := h.only k w hw
    exact hfirst vma' hvma'
  have hempty : ∀ u g, ¬Holds new.areas k u g := by
    rintro u g ⟨w, hw, -⟩
    rw [hnew] at hw
    cases hw
  unfold Mm.copyVma
  refine Sat.unwrap_bind (hmm.sound.ok.pagetable k vma hget) ?_
  have hpages : Sat (vma.pagesTree.entries.foldlM copyPage (vma.childOf new.pagetable)) p₁
      (CopyingPages p p₁ new k vma (pagesOf visited) vma.pagesTree.entries) (mm.ForkPanic p) := by
    refine Sat.foldlM (CopyingPages p p₁ new k vma (pagesOf visited)) ?_ ?_
    · rintro done ⟨v, f⟩ rest hsplit w p₂ hcopying
      have hheld : vma.pagesTree.get? v = some f := OrdMap.get?_eq_some.mpr (by simp [hsplit])
      have hdone : ∀ g, (v, g) ∉ done := by
        intro g hg
        have hsorted := vma.pagesTree.sorted
        rw [hsplit] at hsorted
        exact lt_irrefl v ((List.pairwise_append.mp hsorted).2.2 _ hg _ List.mem_cons_self)
      have hnone : w.pagesTree.get? v = none := by
        rw [Option.eq_none_iff_forall_ne_some]
        intro g hg
        obtain ⟨f', hf'⟩ := hcopying.only v g hg
        exact hdone f' hf'
      have hholds := Holds.of_get hget hheld
      have hpart : pagesOf visited ++ (done ++ [(v, f)]).map Prod.fst <+:
          pagesOf (mm.vmas.range userSpaceStart userSpaceEnd) := by
        have hall := pagesOf_prefix hnext
        rw [hlist, hsplit] at hall
        refine List.IsPrefix.trans ?_ hall
        rw [List.prefix_append_right_inj]
        exact (show done ++ [(v, f)] <+: done ++ (v, f) :: rest by simp).map _
      refine hcopying.copyPage (hmm.sound.ok.user k v f hholds) hpart
        ⟨(hmm.sound.ok.live k v f hholds).1, ?_⟩ hnone hnew
        (hcopying.free hmm hvisited h hget hheld hdone) hget hheld
      rw [h.pagetable]
      exact hmm.not_mem_tables f
    · refine ⟨h.ok.insertEmpty hempty rfl rfl, h.isLocal.of_holds ?_, h.cnt, fun _ _ _ _ => rfl,
        rfl, ?_, ?_, ?_, by simpa using h.paid⟩
      · intro j u g hg
        rcases holds_replaceAt.mp hg with ⟨-, hg⟩ | ⟨-, hg⟩
        · cases hg
        · exact hg
      · intro u g hmem
        cases hmem
      · intro u g hg
        cases hg
      · intro u g hmem
        cases hmem
  refine hpages.bind ?_
  intro w p₂ hcopying
  have hcontains : !new.vmas.contains k := by
    rw [OrdMap.contains, show new.vmas.get? k = none from hnew]
    rfl
  refine Sat.ensure_bind (fun _ => ?_) fun hnot => absurd hcontains hnot
  have hareas : (new.setVma k w).areas = replaceAt new.areas k (some w) := areas_setVma new k w
  refine sat_pure ⟨h.pagetable, h.startBrk, h.brk, hareas ▸ hcopying.ok,
    hareas ▸ hcopying.isLocal, hcopying.cnt, ?_, ?_, hlist ▸ hcopying.paid⟩
  · intro j vma' hmem
    rw [hareas]
    rcases List.mem_append.mp hmem with hold | hmem
    · have hne : j ≠ k := by
        rintro rfl
        exact hfirst vma' hold
      obtain ⟨w', hw', hcopy⟩ := h.copied j vma' hold
      refine ⟨w', by rw [replaceAt_of_ne hne, hw'], hcopy.shape, ?_, hcopy.only, hcopy.inside⟩
      intro u f hf
      obtain ⟨g, hg, hdata⟩ := hcopy.copied u f hf
      exact ⟨g, hg, (hcopying.kept j u g (Holds.of_get hw' hg)).trans hdata⟩
    · cases List.mem_singleton.mp hmem
      refine ⟨w, replaceAt_self, hcopying.shape, ?_, ?_, ?_⟩
      · intro u f hf
        exact hcopying.copied u f (OrdMap.get?_eq_some.mp hf)
      · intro u g hg
        obtain ⟨f, hf⟩ := hcopying.only u g hg
        exact ⟨f, OrdMap.get?_eq_some.mpr hf⟩
      · intro u f hf
        exact hcopying.inside u f (OrdMap.get?_eq_some.mp hf)
  · intro j w' hw'
    rw [hareas, replaceAt_apply] at hw'
    split_ifs at hw' with hj
    · exact ⟨vma, by simp [hj]⟩
    · obtain ⟨vma', hvma'⟩ := h.only j w' hw'
      exact ⟨vma', List.mem_append_left _ hvma'⟩

/-- The fork copies all areas. It panics only if memory runs out or a page lies outside its
area. -/
theorem UserSpace.newMmByOld (h : UserSpace mm p) :
    Sat mm.newMmByOld p (Forked mm p (mm.vmas.range userSpaceStart userSpaceEnd))
      (mm.ForkPanic p) := by
  have hroot : framesFor [] ≤ mm.forkFrames := framesFor_mono List.nil_prefix
  unfold Mm.newMmByOld
  refine ((PageTable.newUser_sat h.booted.kernel).weaken fun _ he => .inl (he.mono hroot)).bind ?_
  rintro pt p₁ ⟨rfl, hcnt, hok, hlocal, hspent, hempty⟩
  refine Sat.foldlM (Forked mm p) ?_ ⟨rfl, rfl, rfl, hok, hlocal, by omega, ?_, ?_, hspent,
    fun q hq => (hempty q hq).trans (by simp [pagesOf, tablesOf])⟩
  · rintro done ⟨k, vma⟩ rest hsplit new p₂ hforked
    have hmem : ∀ e ∈ mm.vmas.range userSpaceStart userSpaceEnd, mm.areas e.1 = some e.2 :=
      fun e he => (OrdMap.mem_range.mp he).1
    rw [hsplit] at hmem
    refine hforked.copyVma h (fun e he => hmem e (List.mem_append_left _ he))
      (hmem (k, vma) (by simp)) ?_ (hsplit ▸ by simp)
    intro vma' hvma'
    have hsorted := mm.vmas.range_sorted userSpaceStart userSpaceEnd
    rw [hsplit] at hsorted
    exact lt_irrefl k ((List.pairwise_append.mp hsorted).2.2 _ hvma' _ List.mem_cons_self)
  · intro k vma hmem
    cases hmem
  · intro k w hk
    cases hk

namespace Forked

variable (h : Forked mm p (mm.vmas.range userSpaceStart userSpaceEnd) new p')
  (hmm : UserSpace mm p)

include h hmm

/-- The frames of the parent and all others that were in use are left alone. -/
theorem mem_of_live (hf : f ∈ p.live) : f ∈ p'.live ∧ p'.mem f = p.mem f := by
  refine h.isLocal.keep f hf ?_
  rintro (htable | ⟨_, _, _, hempty, _⟩)
  · rw [h.pagetable] at htable
    exact hmm.not_mem_tables f htable
  · cases hempty

theorem fresh (hf : Owned p' new.pagetable new.areas f) : f ∉ p.live := by
  rcases h.isLocal.fresh f hf with (htable | ⟨_, _, _, hempty, _⟩) | hfresh
  · rw [h.pagetable] at htable
    exact absurd htable (hmm.not_mem_tables f)
  · cases hempty
  · exact hfresh

theorem copied_areas (hk : mm.areas k = some vma) :
    ∃ w, new.areas k = some w ∧ Vma.CopiedTo p p' new.pagetable vma w :=
  h.copied k vma (OrdMap.mem_range.mpr ⟨hk, Nat.zero_le k, hmm.keys k vma hk⟩)

omit hmm in
theorem only_areas (hk : new.areas k = some w) :
    ∃ vma, mm.areas k = some vma ∧ Vma.CopiedTo p p' new.pagetable vma w := by
  obtain ⟨vma, hvma⟩ := h.only k w hk
  obtain ⟨w', hw', hcopy⟩ := h.copied k vma hvma
  cases hk.symm.trans hw'
  exact ⟨vma, (OrdMap.mem_range.mp hvma).1, hcopy⟩

theorem areas_rel (k : ℕ) : Option.Rel SameArea (mm.areas k) (new.areas k) := by
  cases hk : mm.areas k with
  | some vma =>
    obtain ⟨w, hw, hcopy⟩ := h.copied_areas hmm hk
    rw [hw]
    exact .some hcopy.sameArea
  | none =>
    cases hk' : new.areas k with
    | none => exact .none
    | some w =>
      obtain ⟨vma, hvma, -⟩ := h.only_areas hk'
      rw [hk] at hvma
      cases hvma

theorem sound : Sound new p' := by
  refine ⟨h.ok, ?_⟩
  intro k w hk
  obtain ⟨vma, hvma, hcopy⟩ := h.only_areas hk
  rw [hcopy.sameArea.endVaddr]
  exact hmm.sound.low k vma hvma

theorem not_overhangs : ¬mm.Overhangs := by
  rintro ⟨k, vma, v, f, hk, hf, hout⟩
  obtain ⟨w, -, hcopy⟩ := h.copied_areas hmm hk
  exact hout (hcopy.inside v f hf)

theorem holds_copy (hf : Holds mm.areas k v f) :
    ∃ g, Holds new.areas k v g ∧ p'.mem g = p.mem f := by
  obtain ⟨vma, hk, hf⟩ := hf
  obtain ⟨w, hw, hcopy⟩ := h.copied_areas hmm hk
  obtain ⟨g, hg, hdata⟩ := hcopy.copied v f hf
  exact ⟨g, Holds.of_get hw hg, hdata⟩

omit hmm in
theorem holds_old (hg : Holds new.areas k v g) : ∃ f, Holds mm.areas k v f := by
  obtain ⟨w, hw, hg⟩ := hg
  obtain ⟨vma, hk, hcopy⟩ := h.only_areas hw
  obtain ⟨f, hf⟩ := hcopy.only v g hg
  exact ⟨f, Holds.of_get hk hf⟩

theorem tables_eq : p'.tables mm.pagetable = p.tables mm.pagetable := by
  refine h.isLocal.others _ ?_
  rw [h.pagetable]
  intro heq
  have hhead := hmm.sound.ok.table.head
  rw [heq, hmm.booted.next _ le_rfl] at hhead
  cases hhead

theorem mem_owned (hf : Owned p mm.pagetable mm.areas f) : f ∈ p'.live ∧ p'.mem f = p.mem f :=
  h.mem_of_live hmm (hmm.sound.ok.owned_live hf)

theorem parent_sound : Sound mm p' :=
  hmm.sound.congr (h.tables_eq hmm) (fun _ hf => (h.mem_owned hmm (.inl hf)).2)
    fun _ hf => (h.mem_owned hmm hf).1

theorem parent_seen (hv : IsUserPage v) : mm.seen p' v = mm.seen p v :=
  hmm.sound.seen_congr (h.tables_eq hmm) (fun _ hf => (h.mem_owned hmm hf).2) hv

theorem child_seen (hv : IsUserPage v) : new.seen p' v = mm.seen p v := by
  unfold Mm.seen
  by_cases hvalid : (p.pte mm.pagetable v).valid
  · obtain ⟨k, hk⟩ := hmm.sound.holds_of_valid hv hvalid
    obtain ⟨g, hg, hdata⟩ := h.holds_copy hmm hk
    rw [if_pos hvalid, if_pos (h.ok.pte_valid hg), h.ok.pte_frame hg, hdata]
  · have hvalid' : ¬(p'.pte new.pagetable v).valid := by
      intro hvalid'
      obtain ⟨k, g, hg⟩ := h.ok.covered v hv hvalid'
      obtain ⟨f, hf⟩ := h.holds_old hg
      exact hvalid (hmm.sound.ok.pte_valid hf)
    rw [if_neg hvalid, if_neg hvalid']
    cases hfind : mm.findVma v with
    | none => rw [findVma_none_of_rel (h.areas_rel hmm) hfind]
    | some e =>
      obtain ⟨w, hfind', hsame⟩ := findVma_of_rel (h.areas_rel hmm) hfind
      rw [hfind', Option.map_some, Option.map_some, hsame.backing]

end Forked

end Mm

end Zinix
