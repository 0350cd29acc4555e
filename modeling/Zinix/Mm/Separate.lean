import Zinix.Mm.SpaceWork

/-!
# Address spaces side by side

Address spaces in one physical memory have no frame in common, and work on one of them
leaves the others as they are.
-/

namespace Zinix

variable {ι κ : Type} {p p' : Phys} {F : ι → Option Mm} {mm mm' : Mm} {A A' : Areas} {pt v : ℕ}
  {f : Frame}
  {i : ι}

theorem Phys.Booted.kernel_lt (h : p.Booted) : kernelPagetable < p.tableCnt := by
  by_contra hle
  exact h.kernel (h.next _ (Nat.not_lt.mp hle))

structure Separate (p : Phys) (F : ι → Option Mm) : Prop where
  booted : p.Booted
  sane : ∀ i mm, F i = some mm → mm.Sane p
  table : ∀ i mm, F i = some mm → mm.pagetable ≠ kernelPagetable ∧ mm.pagetable < p.tableCnt
  tables : ∀ i j mm mm', F i = some mm → F j = some mm' → mm.pagetable = mm'.pagetable → i = j
  frames : ∀ i j mm mm' f, F i = some mm → F j = some mm' →
    Owned p mm.pagetable mm.areas f → Owned p mm'.pagetable mm'.areas f → i = j

/-- Where the address spaces are when a new one has taken the place of another. -/
def exchanged [DecidableEq ι] (i j : ι) : Option (Option ι) := some (if j = i then none else some j)

theorem exchanged_inj [DecidableEq ι] {a b : ι} (k : Option ι) (ha : exchanged i a = some k)
    (hb : exchanged i b = some k) : a = b := by
  have hab := (Option.some.inj ha).trans (Option.some.inj hb).symm
  split_ifs at hab with ha' hb' hb'
  · rw [ha', hb']
  · exact Option.some.inj hab

theorem bind_exchanged [DecidableEq ι] {new : Mm} :
    (fun j => (exchanged i j).bind (replaceAt (replaceAt (fun a : Option ι => a.bind F) none
      (some new)) (some i) none)) = replaceAt F i (some new) := by
  funext j
  by_cases hj : j = i
  · simp [exchanged, hj, replaceAt_apply]
  · simp [exchanged, hj, replaceAt_apply]

structure Untouched (mm : Mm) (p p' : Phys) : Prop where
  tables : p'.tables mm.pagetable = p.tables mm.pagetable
  live : ∀ f, Owned p mm.pagetable mm.areas f → f ∈ p'.live
  mem : ∀ f, Owned p mm.pagetable mm.areas f → p'.mem f = p.mem f

theorem Mm.Sane.untouched (h : mm.Sane p) (hlocal : Local p A p' A' pt)
    (hpt : mm.pagetable ≠ pt)
    (hapart : ∀ f, Owned p mm.pagetable mm.areas f → ¬Owned p pt A f) : Untouched mm p p' := by
  have hkeep : ∀ f, Owned p mm.pagetable mm.areas f → f ∈ p'.live ∧ p'.mem f = p.mem f :=
    fun f hf => hlocal.keep f (h.sound.ok.owned_live hf) (hapart f hf)
  exact ⟨hlocal.others _ hpt, fun f hf => (hkeep f hf).1, fun f hf => (hkeep f hf).2⟩

namespace Untouched

variable (h : Untouched mm p p')

include h

theorem sane (hmm : mm.Sane p) : mm.Sane p' :=
  ⟨hmm.sound.congr h.tables (fun f hf => h.mem f (.inl hf)) h.live, hmm.plain, hmm.heap, hmm.keys,
    hmm.brk_le⟩

theorem owned_iff : Owned p' mm.pagetable mm.areas f ↔ Owned p mm.pagetable mm.areas f := by
  rw [Owned, Owned, h.tables]

theorem seen (hmm : mm.Sane p) (hv : IsUserPage v) : mm.seen p' v = mm.seen p v :=
  hmm.sound.seen_congr h.tables h.mem hv

theorem trans {p'' : Phys} (h' : Untouched mm p' p'') : Untouched mm p p'' := by
  refine ⟨h'.tables.trans h.tables, ?_, ?_⟩
  · intro f hf
    exact h'.live f (h.owned_iff.mpr hf)
  · intro f hf
    exact (h'.mem f (h.owned_iff.mpr hf)).trans (h.mem f hf)

end Untouched

namespace Separate

/-- The address spaces may be numbered in another way, and some may be left out. -/
theorem comp (h : Separate p F) {g : κ → Option ι}
    (hg : ∀ a b i, g a = some i → g b = some i → a = b) : Separate p fun a => (g a).bind F where
  booted := h.booted
  sane := by
    intro a mm ha
    obtain ⟨i, -, hi⟩ := Option.bind_eq_some_iff.mp ha
    exact h.sane i mm hi
  table := by
    intro a mm ha
    obtain ⟨i, -, hi⟩ := Option.bind_eq_some_iff.mp ha
    exact h.table i mm hi
  tables := by
    intro a b mm mm' ha hb heq
    obtain ⟨i, hga, hi⟩ := Option.bind_eq_some_iff.mp ha
    obtain ⟨j, hgb, hj⟩ := Option.bind_eq_some_iff.mp hb
    cases h.tables i j mm mm' hi hj heq
    exact hg a b i hga hgb
  frames := by
    intro a b mm mm' f ha hb hf hf'
    obtain ⟨i, hga, hi⟩ := Option.bind_eq_some_iff.mp ha
    obtain ⟨j, hgb, hj⟩ := Option.bind_eq_some_iff.mp hb
    cases h.frames i j mm mm' f hi hj hf hf'
    exact hg a b i hga hgb

/-- What is done at one place: frames of the address space there and free ones go to the one
that is there afterwards. -/
structure Change (p : Phys) (F : ι → Option Mm) (i : ι) (p' : Phys) (o : Option Mm) (pt : ℕ)
    (A A' : Areas) : Prop where
  isLocal : Local p A p' A' pt
  old : ∀ f, Owned p pt A f → ∃ mm, F i = some mm ∧ Owned p mm.pagetable mm.areas f
  new : ∀ mm, o = some mm → mm.Sane p' ∧ mm.pagetable = pt ∧ mm.areas = A'
  others : ∀ j mm, j ≠ i → F j = some mm → mm.pagetable ≠ pt
  notKernel : pt ≠ kernelPagetable
  cnt : pt < p'.tableCnt

section Change

variable {i j : ι} {o : Option Mm} (h : Separate p F) (hc : Change p F i p' o pt A A')

include h hc

theorem untouched (hj : j ≠ i) (hmm : F j = some mm) : Untouched mm p p' := by
  refine (h.sane j mm hmm).untouched hc.isLocal (hc.others j mm hj hmm) ?_
  intro f hf hold
  obtain ⟨mm', hmm', hf'⟩ := hc.old f hold
  exact hj (h.frames j i mm mm' f hmm hmm' hf hf')

theorem not_owned_new (hj : j ≠ i) (hmm : F j = some mm)
    (hf : Owned p mm.pagetable mm.areas f) : ¬Owned p' pt A' f := by
  intro hnew
  rcases hc.isLocal.fresh f hnew with hold | hfree
  · obtain ⟨mm', hmm', hf'⟩ := hc.old f hold
    exact hj (h.frames j i mm mm' f hmm hmm' hf hf')
  · exact hfree ((h.sane j mm hmm).sound.ok.owned_live hf)

theorem change [DecidableEq ι] : Separate p' (replaceAt F i o) := by
  have hcases : ∀ j mm, replaceAt F i o j = some mm → j = i ∧ o = some mm ∨
      j ≠ i ∧ F j = some mm := by
    intro j mm hj
    rw [replaceAt_apply] at hj
    split_ifs at hj with heq
    · exact .inl ⟨heq, hj⟩
    · exact .inr ⟨heq, hj⟩
  refine ⟨h.booted.of_local hc.isLocal hc.notKernel hc.cnt, ?_, ?_, ?_, ?_⟩
  · intro j mm hj
    rcases hcases j mm hj with ⟨-, ho⟩ | ⟨hne, hj⟩
    · exact (hc.new mm ho).1
    · exact (h.untouched hc hne hj).sane (h.sane j mm hj)
  · intro j mm hj
    rcases hcases j mm hj with ⟨-, ho⟩ | ⟨-, hj⟩
    · rw [(hc.new mm ho).2.1]
      exact ⟨hc.notKernel, hc.cnt⟩
    · exact ⟨(h.table j mm hj).1, (h.table j mm hj).2.trans_le hc.isLocal.cnt⟩
  · intro j k mm mm' hj hk heq
    rcases hcases j mm hj with ⟨hji, ho⟩ | ⟨hne, hold⟩
    · rcases hcases k mm' hk with ⟨hki, -⟩ | ⟨hne', hold'⟩
      · rw [hji, hki]
      · rw [(hc.new mm ho).2.1] at heq
        exact absurd heq.symm (hc.others k mm' hne' hold')
    · rcases hcases k mm' hk with ⟨-, ho'⟩ | ⟨-, hold'⟩
      · rw [(hc.new mm' ho').2.1] at heq
        exact absurd heq (hc.others j mm hne hold)
      · exact h.tables j k mm mm' hold hold' heq
  · intro j k mm mm' f hj hk hf hf'
    rcases hcases j mm hj with ⟨hji, ho⟩ | ⟨hne, hold⟩
    · rcases hcases k mm' hk with ⟨hki, -⟩ | ⟨hne', hold'⟩
      · rw [hji, hki]
      · obtain ⟨-, hpt, hareas⟩ := hc.new mm ho
        rw [hpt, hareas] at hf
        rw [(h.untouched hc hne' hold').owned_iff] at hf'
        exact absurd hf (h.not_owned_new hc hne' hold' hf')
    · rw [(h.untouched hc hne hold).owned_iff] at hf
      rcases hcases k mm' hk with ⟨-, ho'⟩ | ⟨hne', hold'⟩
      · obtain ⟨-, hpt, hareas⟩ := hc.new mm' ho'
        rw [hpt, hareas] at hf'
        exact absurd hf' (h.not_owned_new hc hne hold hf)
      · rw [(h.untouched hc hne' hold').owned_iff] at hf'
        exact h.frames j k mm mm' f hold hold' hf hf'

end Change

section Kinds

variable {i : ι} (h : Separate p F)
  {new : Mm} {p₁ p₂ : Phys}

include h

theorem change_worked (hi : F i = some mm) (hw : mm.Worked p mm' p') :
    Change p F i p' (some mm') mm.pagetable mm.areas mm'.areas where
  isLocal := hw.isLocal
  old := fun f hf => ⟨mm, hi, hf⟩
  new := by
    rintro _ ⟨⟩
    exact ⟨hw.sane, hw.pagetable, rfl⟩
  others := fun j mm' hj hmm' heq => hj (h.tables j i mm' mm hmm' hi heq)
  notKernel := (h.table i mm hi).1
  cnt := (h.table i mm hi).2.trans_le hw.isLocal.cnt

theorem change_made (hm : Mm.Made p mm p') :
    Change p F i p' (some mm) p.tableCnt (fun _ => none) mm.areas where
  isLocal := hm.pagetable ▸ hm.isLocal
  old := by
    rintro f (ht | ⟨_, _, _, hnone, _⟩)
    · rw [h.booted.next _ le_rfl] at ht
      cases ht
    · cases hnone
  new := by
    rintro _ ⟨⟩
    exact ⟨hm.sane, hm.pagetable, rfl⟩
  others := fun j mm' _ hmm' => (h.table j mm' hmm').2.ne
  notKernel := h.booted.kernel_lt.ne'
  cnt := hm.cnt

theorem change_dropped (hi : F i = some mm)
    (hlocal : Local p mm.areas p' (fun _ => none) mm.pagetable) :
    Change p F i p' none mm.pagetable mm.areas fun _ => none where
  isLocal := hlocal
  old := fun _ hf => ⟨mm, hi, hf⟩
  new := nofun
  others := fun j mm' hj hmm' heq => hj (h.tables j i mm' mm hmm' hi heq)
  notKernel := (h.table i mm hi).1
  cnt := (h.table i mm hi).2.trans_le hlocal.cnt

theorem made_beside [DecidableEq ι] (hm : Mm.Made p new p₁) :
    Separate p₁ (replaceAt (fun a : Option ι => a.bind F) none (some new)) := by
  have hwide : Separate p fun a : Option ι => a.bind F :=
    h.comp (g := fun a => a) fun a b i ha hb => ha.trans hb.symm
  exact hwide.change (hwide.change_made hm)

theorem exchange_untouched [DecidableEq ι] (hi : F i = some mm) (hm : Mm.Made p new p₁)
    (hlocal : Local p₁ mm.areas p₂ (fun _ => none) mm.pagetable) : Untouched new p₁ p₂ := by
  have hmade := h.made_beside hm
  have hold : replaceAt (fun a : Option ι => a.bind F) none (some new) (some i) = some mm := hi
  exact hmade.untouched (hmade.change_dropped hold hlocal) (Option.some_ne_none i).symm rfl

theorem exchange_others [DecidableEq ι] {other : Mm} {j : ι} (hi : F i = some mm)
    (hm : Mm.Made p new p₁) (hlocal : Local p₁ mm.areas p₂ (fun _ => none) mm.pagetable)
    (hj : j ≠ i) (hother : F j = some other) : Untouched other p p₂ := by
  have hwide : Separate p fun a : Option ι => a.bind F :=
    h.comp (g := fun a => a) fun a b i ha hb => ha.trans hb.symm
  have hfirst : Untouched other p p₁ :=
    hwide.untouched (i := none) (j := some j) (hwide.change_made hm) (Option.some_ne_none j) hother
  have hmade := h.made_beside hm
  have hold : replaceAt (fun a : Option ι => a.bind F) none (some new) (some i) = some mm := hi
  refine hfirst.trans (hmade.untouched (hmade.change_dropped hold hlocal) (j := some j) ?_ hother)
  exact fun heq => hj (Option.some.inj heq)

theorem exchange [DecidableEq ι] (hi : F i = some mm) (hm : Mm.Made p new p₁)
    (hlocal : Local p₁ mm.areas p₂ (fun _ => none) mm.pagetable) :
    Separate p₂ (replaceAt F i (some new)) := by
  -- for a while there is one address space more
  have hmade := h.made_beside hm
  have hold : replaceAt (fun a : Option ι => a.bind F) none (some new) (some i) = some mm := hi
  have hboth := hmade.change (hmade.change_dropped hold hlocal)
  rw [← bind_exchanged]
  exact hboth.comp fun _ _ k ha hb => exchanged_inj k ha hb

end Kinds

end Separate

end Zinix
