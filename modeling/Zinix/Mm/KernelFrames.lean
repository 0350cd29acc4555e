import Zinix.Mm.Separate

/-!
# Address spaces beside the frames of the kernel

The kernel has frames of its own: the tables of its page table, the pages of its temporary
mappings and the stacks of the tasks. No address space has one of them.
-/

namespace Zinix

variable {ι κ : Type} {p p' : Phys} {F : ι → Option Mm} {K K' : Set Frame} {i : ι} {mm : Mm}

/-- Address spaces that share a memory with the frames `K` of the kernel. -/
structure Beside (p : Phys) (F : ι → Option Mm) (K : Set Frame) : Prop where
  separate : Separate p F
  live : ∀ f ∈ K, f ∈ p.live
  apart : ∀ i mm f, F i = some mm → Owned p mm.pagetable mm.areas f → f ∉ K

/-- What the kernel does with its frames: it writes to them and to free ones, and it takes free
ones only. -/
structure KernelStep (p : Phys) (K : Set Frame) (p' : Phys) (K' : Set Frame) : Prop where
  keep : ∀ f ∈ p.live, f ∉ K → f ∈ p'.live ∧ p'.mem f = p.mem f
  fresh : ∀ f ∈ K', f ∈ K ∨ f ∉ p.live
  live : ∀ f ∈ K', f ∈ p'.live
  others : ∀ q, q ≠ kernelPagetable → p'.tables q = p.tables q
  kernel : p'.tables kernelPagetable ≠ []
  cnt : p.tableCnt ≤ p'.tableCnt

namespace KernelStep

theorem trans {p'' : Phys} {K'' : Set Frame} (h : KernelStep p K p' K')
    (h' : KernelStep p' K' p'' K'') : KernelStep p K p'' K'' where
  keep := by
    intro f hf hnot
    obtain ⟨hlive, hmem⟩ := h.keep f hf hnot
    have hnot' : f ∉ K' := fun hK' => (h.fresh f hK').elim hnot fun hfree => hfree hf
    obtain ⟨hlive', hmem'⟩ := h'.keep f hlive hnot'
    exact ⟨hlive', hmem'.trans hmem⟩
  fresh := by
    intro f hf
    rcases h'.fresh f hf with hK' | hfree
    · exact h.fresh f hK'
    · by_cases hK : f ∈ K
      · exact .inl hK
      · exact .inr fun hlive => hfree (h.keep f hlive hK).1
  live := h'.live
  others := fun q hq => (h'.others q hq).trans (h.others q hq)
  kernel := h'.kernel
  cnt := h.cnt.trans h'.cnt

end KernelStep

theorem PtOk.ne_nil {own : Fin 512 → Prop} {pt : ℕ} (h : PtOk own p pt) : p.tables pt ≠ [] := by
  intro hnil
  have hhead := h.head
  rw [hnil] at hhead
  cases hhead

def kernelFrames (p : Phys) (A : Areas) : Set Frame := Owned p kernelPagetable A

theorem Local.kernelStep {R : Region} {A A' : Areas} (h : Local p A p' A' kernelPagetable)
    (h' : AreasIn R p' kernelPagetable A') :
    KernelStep p (kernelFrames p A) p' (kernelFrames p' A') :=
  ⟨h.keep, h.fresh, fun _ => h'.owned_live, h.others, h'.table.ne_nil, h.cnt⟩

namespace Beside

theorem untouched (h : Beside p F K) (hs : KernelStep p K p' K') (hi : F i = some mm) :
    Untouched mm p p' := by
  have hkeep : ∀ f, Owned p mm.pagetable mm.areas f → f ∈ p'.live ∧ p'.mem f = p.mem f := fun f hf =>
    hs.keep f ((h.separate.sane i mm hi).sound.ok.owned_live hf) (h.apart i mm f hi hf)
  exact ⟨hs.others _ (h.separate.table i mm hi).1, fun f hf => (hkeep f hf).1,
    fun f hf => (hkeep f hf).2⟩

theorem kernelStep (h : Beside p F K) (hs : KernelStep p K p' K') : Beside p' F K' := by
  have howned : ∀ {i mm}, F i = some mm → ∀ f, Owned p' mm.pagetable mm.areas f ↔
      Owned p mm.pagetable mm.areas f := fun hi f => (h.untouched hs hi).owned_iff
  refine ⟨⟨⟨hs.kernel, fun q hq => ?_⟩, ?_, ?_, h.separate.tables, ?_⟩, hs.live, ?_⟩
  · have hlt := h.separate.booted.kernel_lt
    have hq := hs.cnt.trans hq
    rw [hs.others q (hlt.trans_le hq).ne', h.separate.booted.next q hq]
  · exact fun i mm hi => (h.untouched hs hi).sane (h.separate.sane i mm hi)
  · exact fun i mm hi => (h.separate.table i mm hi).imp_right fun hlt => hlt.trans_le hs.cnt
  · intro i j mm mm' f hi hj hf hf'
    rw [howned hi] at hf
    rw [howned hj] at hf'
    exact h.separate.frames i j mm mm' f hi hj hf hf'
  · intro i mm f hi hf hK'
    rw [howned hi] at hf
    rcases hs.fresh f hK' with hK | hfree
    · exact h.apart i mm f hi hf hK
    · exact hfree ((h.separate.sane i mm hi).sound.ok.owned_live hf)

section Change

variable {o : Option Mm} {pt : ℕ} {A A' : Areas}

theorem kept (h : Beside p F K) (hc : Separate.Change p F i p' o pt A A') {f : Frame}
    (hf : f ∈ K) : f ∈ p'.live ∧ p'.mem f = p.mem f := by
  refine hc.isLocal.keep f (h.live f hf) fun hold => ?_
  obtain ⟨mm, hmm, hown⟩ := hc.old f hold
  exact h.apart i mm f hmm hown hf

theorem change [DecidableEq ι] (h : Beside p F K) (hc : Separate.Change p F i p' o pt A A') :
    Beside p' (replaceAt F i o) K := by
  refine ⟨h.separate.change hc, fun f hf => (h.kept hc hf).1, ?_⟩
  intro j mm f hj hf hK
  rw [replaceAt_apply] at hj
  split_ifs at hj with heq
  · obtain ⟨-, hpt, hareas⟩ := hc.new mm hj
    rw [hpt, hareas] at hf
    rcases hc.isLocal.fresh f hf with hold | hfree
    · obtain ⟨old, hold, hown⟩ := hc.old f hold
      exact h.apart i old f hold hown hK
    · exact hfree (h.live f hK)
  · rw [(h.separate.untouched hc heq hj).owned_iff] at hf
    exact h.apart j mm f hj hf hK

end Change

/-- The address spaces may be numbered in another way, and some may be left out. -/
theorem comp (h : Beside p F K) {g : κ → Option ι}
    (hg : ∀ a b i, g a = some i → g b = some i → a = b) : Beside p (fun a => (g a).bind F) K := by
  refine ⟨h.separate.comp hg, h.live, ?_⟩
  intro a mm f ha
  obtain ⟨i, -, hi⟩ := Option.bind_eq_some_iff.mp ha
  exact h.apart i mm f hi

end Beside

end Zinix
