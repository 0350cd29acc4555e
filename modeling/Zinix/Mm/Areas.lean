import Zinix.Mm.MmStruct
import Zinix.Mm.PageTableSpec

/-!
# Areas and their page table

The areas of an address space keep their pages in trees, and the page table keeps the same
pages in its entries. `AreasOk` says that the two agree. An entry may lack the right to
write if the area is one that an address space forked from it copies lazily.
-/

namespace Zinix

/-- The entries of the root that a user page table owns. -/
def userOwn (i : Fin 512) : Prop := i.val < 2

def IsUserPage (v : ℕ) : Prop := v % pageSize = 0 ∧ v < userSpaceEnd

theorem userOwn_of_lt {v : ℕ} (h : v < userSpaceEnd) : userOwn (addrGetPpn2 v) := by
  simp only [userOwn, addrGetPpn2, Fin.val_ofNat, Nat.shiftRight_eq_div_pow, userSpaceEnd] at *
  omega

theorem IsUserPage.own {v : ℕ} (h : IsUserPage v) : userOwn (addrGetPpn2 v) := userOwn_of_lt h.2

theorem samePage_iff_eq {u v : ℕ} (hu : u % pageSize = 0) (hv : v % pageSize = 0)
    (h : u / 2 ^ 39 = v / 2 ^ 39) : SamePage u v ↔ u = v := by
  simp only [SamePage, addrGetPpn0, addrGetPpn1, addrGetPpn2, Fin.ext_iff, Fin.val_ofNat,
    Nat.shiftRight_eq_div_pow, pageSize] at *
  omega

theorem IsUserPage.samePage_iff {u v : ℕ} (hu : IsUserPage u) (hv : IsUserPage v) :
    SamePage u v ↔ u = v := by
  refine samePage_iff_eq hu.1 hv.1 ?_
  simp only [IsUserPage, userSpaceEnd] at hu hv
  omega

theorem samePage_down (v : ℕ) : SamePage (Vaddr.down v) v := by
  simp only [SamePage, addrGetPpn0, addrGetPpn1, addrGetPpn2, Fin.ext_iff, Fin.val_ofNat,
    Nat.shiftRight_eq_div_pow, Vaddr.down, pageSize]
  omega

theorem isUserPage_down {v : ℕ} (h : v < userSpaceEnd) : IsUserPage (Vaddr.down v) :=
  ⟨Vaddr.down_mod v, lt_of_le_of_lt (Vaddr.down_le v) h⟩

theorem Phys.pte_down (p : Phys) (pt v : ℕ) : p.pte pt (Vaddr.down v) = p.pte pt v := by
  obtain ⟨h0, h1, h2⟩ := samePage_down v
  simp only [Phys.pte, leafEntry, h0, h1, h2]

theorem PTE.default_permits (prot : PgFaultProt) : (default : PTE).permits prot = false := rfl

theorem Phys.translate_eq {own : Fin 512 → Prop} {p : Phys} {pt vaddr : ℕ} (h : PtOk own p pt)
    (hv : own (addrGetPpn2 vaddr)) (prot : PgFaultProt) :
    p.translate pt vaddr prot =
      if (p.pte pt vaddr).permits prot then some (p.pte pt vaddr).frame else none := by
  simp only [Phys.translate, h.head, Option.bind_eq_bind, Option.bind_some]
  rw [mmuWalk_eq p h.tree hv, Phys.pte, leafEntry]
  cases tableAt p.mem (p.root pt) [addrGetPpn1 vaddr, addrGetPpn2 vaddr] with
  | none => simp [PTE.default_permits]
  | some f => rfl

theorem PtOk.congr {own : Fin 512 → Prop} {p p' : Phys} {pt : ℕ} (h : PtOk own p pt)
    (htables : p'.tables pt = p.tables pt) (hmem : ∀ f ∈ p.tables pt, p'.mem f = p.mem f)
    (hlive : ∀ f ∈ p.tables pt, f ∈ p'.live) : PtOk own p' pt := by
  have hroot : p'.root pt = p.root pt := by rw [Phys.root, Phys.root, htables]
  refine ⟨?_, ?_, ?_⟩
  · rw [htables, hroot]
    exact h.head
  · rw [hroot, htables]
    exact h.tree.congr hmem
  · rw [htables]
    exact hlive

theorem PtOk.pte_congr {own : Fin 512 → Prop} {p p' : Phys} {pt : ℕ} (h : PtOk own p pt)
    (htables : p'.tables pt = p.tables pt) (hmem : ∀ f ∈ p.tables pt, p'.mem f = p.mem f) {u : ℕ}
    (hu : own (addrGetPpn2 u)) : p'.pte pt u = p.pte pt u := by
  rw [Phys.pte, Phys.pte, Phys.root, htables]
  exact leafEntry_congr h.tree hmem hu

def Vma.EntryFlags (vma : Vma) (flags : BitVec 8) : Prop :=
  flags = vmaFlags2PteFlags vma.vmFlags ∨
    vma.cowWriteReservePgs.isSome ∧ flags = vmaFlags2PteFlags (vma.vmFlags &&& ~~~VmFlags.VM_WRITE)

@[simp] theorem leaf_vmaFlags_valid (f : Frame) (flags : VmFlags) :
    (PTE.leaf f (vmaFlags2PteFlags flags)).valid = true := by
  rw [PTE.valid, PTE.getBits, PTE.leaf_flags, vmaFlags2PteFlags]
  generalize BitVec.setWidth 8 ((flags &&& 0b1111) <<< 1) = b
  revert b
  decide

theorem Vma.EntryFlags.valid {vma : Vma} {flags : BitVec 8} (h : vma.EntryFlags flags) (f : Frame) :
    (PTE.leaf f flags).valid = true := by
  rcases h with rfl | ⟨_, rfl⟩
  · exact leaf_vmaFlags_valid ..
  · exact leaf_vmaFlags_valid ..

abbrev Areas := ℕ → Option Vma

/-- Area `k` holds frame `f` for the page `v`. -/
def Holds (A : Areas) (k v : ℕ) (f : Frame) : Prop :=
  ∃ vma, A k = some vma ∧ vma.pagesTree.get? v = some f

/-- A part of the user's or of the kernel's addresses, with the entries of the root that lead
there. -/
structure Region where
  own : Fin 512 → Prop
  page : ℕ → Prop
  own_page : ∀ {v}, page v → own (addrGetPpn2 v)
  samePage_iff : ∀ {u v}, page u → page v → (SamePage u v ↔ u = v)

abbrev userRegion : Region := ⟨userOwn, IsUserPage, IsUserPage.own, IsUserPage.samePage_iff⟩

structure AreasIn (R : Region) (p : Phys) (pt : ℕ) (A : Areas) : Prop where
  table : PtOk R.own p pt
  pagetable : ∀ k vma, A k = some vma → vma.pagetable = some pt
  page : ∀ k v f, Holds A k v f → R.page v
  inj : ∀ k v f k' v', Holds A k v f → Holds A k' v' f → k = k' ∧ v = v'
  live : ∀ k v f, Holds A k v f → f ∈ p.live ∧ f ∉ p.tables pt
  mapped : ∀ k vma, A k = some vma → ∀ v f, vma.pagesTree.get? v = some f →
    ∃ flags, vma.EntryFlags flags ∧ p.pte pt v = PTE.leaf f flags
  covered : ∀ v, R.page v → (p.pte pt v).valid → ∃ k f, Holds A k v f

abbrev AreasOk := AreasIn userRegion

theorem AreasOk.table {p : Phys} {pt : ℕ} {A : Areas} (h : AreasOk p pt A) : PtOk userOwn p pt :=
  AreasIn.table h

theorem AreasOk.user {p : Phys} {pt : ℕ} {A : Areas} (h : AreasOk p pt A) (k v : ℕ) (f : Frame)
    (hf : Holds A k v f) : IsUserPage v := AreasIn.page h k v f hf

section Holds

variable {A : Areas} {k k' v u : ℕ} {f g : Frame} {vma : Vma}

theorem Holds.of_get (hA : A k = some vma) (h : vma.pagesTree.get? v = some f) : Holds A k v f :=
  ⟨vma, hA, h⟩

theorem not_holds_none : ¬Holds (fun _ => none) k v f := by
  rintro ⟨_, hnone, -⟩
  cases hnone

theorem Holds.get (h : Holds A k v f) (hA : A k = some vma) : vma.pagesTree.get? v = some f := by
  obtain ⟨w, hw, hget⟩ := h
  cases hw.symm.trans hA
  exact hget

theorem holds_replaceAt : Holds (replaceAt A k (some vma)) k' u g ↔
    k' = k ∧ vma.pagesTree.get? u = some g ∨ k' ≠ k ∧ Holds A k' u g := by
  unfold Holds
  by_cases hk : k' = k
  · subst hk
    simp
  · simp [hk, replaceAt_of_ne]

def Vma.withPage (vma : Vma) (v : ℕ) (f : Frame) : Vma :=
  { vma with pagesTree := vma.pagesTree.insert v f }

theorem holds_withPage (hA : A k = some vma) (hv : vma.pagesTree.get? v = none) :
    Holds (replaceAt A k (some (vma.withPage v f))) k' u g ↔
      Holds A k' u g ∨ k' = k ∧ u = v ∧ g = f := by
  rw [holds_replaceAt, Vma.withPage, OrdMap.get?_insert]
  by_cases hk : k' = k
  · subst hk
    have hold : Holds A k' u g ↔ vma.pagesTree.get? u = some g :=
      ⟨fun h => h.get hA, Holds.of_get hA⟩
    rw [hold]
    by_cases hu : u = v
    · subst hu
      simp [hv, eq_comm]
    · simp [hu]
  · simp [hk]

def Vma.withoutPages (vma : Vma) (gone : ℕ → Bool) : Vma :=
  { vma with pagesTree := vma.pagesTree.filter fun v => !gone v }

theorem holds_withoutPages (hA : A k = some vma) {gone : ℕ → Bool} :
    Holds (replaceAt A k (some (vma.withoutPages gone))) k' u g ↔
      Holds A k' u g ∧ (k' = k → gone u = false) := by
  rw [holds_replaceAt, Vma.withoutPages, OrdMap.get?_filter]
  by_cases hk : k' = k
  · subst hk
    have hold : Holds A k' u g ↔ vma.pagesTree.get? u = some g :=
      ⟨fun h => h.get hA, Holds.of_get hA⟩
    rw [hold]
    cases gone u <;> simp
  · simp [hk]

end Holds

section AreasOk

variable {R : Region} {p p' p'' : Phys} {pt : ℕ} {A A' A'' : Areas} {k v u : ℕ} {f : Frame}
  {vma : Vma}

def Owned (p : Phys) (pt : ℕ) (A : Areas) (f : Frame) : Prop :=
  f ∈ p.tables pt ∨ ∃ k v, Holds A k v f

theorem owned_none : Owned p pt (fun _ => none) f ↔ f ∈ p.tables pt :=
  or_iff_left fun ⟨_, _, hf⟩ => not_holds_none hf

theorem AreasIn.owned_live (h : AreasIn R p pt A) (hf : Owned p pt A f) : f ∈ p.live := by
  rcases hf with hf | ⟨k, v, hf⟩
  · exact h.table.live f hf
  · exact (h.live k v f hf).1

theorem AreasIn.pte_valid (h : AreasIn R p pt A) (hf : Holds A k v f) :
    (p.pte pt v).valid = true := by
  obtain ⟨vma, hA, hget⟩ := hf
  obtain ⟨flags, hflags, hpte⟩ := h.mapped k vma hA v f hget
  rw [hpte, hflags.valid]

theorem AreasIn.pte_frame (h : AreasIn R p pt A) (hf : Holds A k v f) : (p.pte pt v).frame = f := by
  obtain ⟨vma, hA, hget⟩ := hf
  obtain ⟨flags, _, hpte⟩ := h.mapped k vma hA v f hget
  rw [hpte, PTE.leaf_frame]

theorem AreasIn.unique (h : AreasIn R p pt A) {k' : ℕ} {g : Frame} (hf : Holds A k v f)
    (hg : Holds A k' v g) : k = k' ∧ f = g := by
  have heq : f = g := by rw [← h.pte_frame hf, ← h.pte_frame hg]
  subst heq
  exact ⟨(h.inj k v f k' v hf hg).1, rfl⟩

/-- The areas after some pages are gone. Nothing that the page table shows has changed
in the others. -/
structure Without (pt : ℕ) (A A' : Areas) (gone : ℕ → Prop) : Prop where
  pagetable : ∀ k vma, A' k = some vma → vma.pagetable = some pt
  sub : ∀ k vma', A' k = some vma' → ∀ u g, vma'.pagesTree.get? u = some g → ¬ gone u ∧
    ∃ vma, A k = some vma ∧ vma.pagesTree.get? u = some g ∧
      ∀ flags, vma.EntryFlags flags → vma'.EntryFlags flags
  keep : ∀ k u g, Holds A k u g → ¬ gone u → Holds A' k u g

theorem Without.holds {gone : ℕ → Prop} (h : Without pt A A' gone) (hf : Holds A' k v f) :
    Holds A k v f := by
  obtain ⟨vma', hA', hget⟩ := hf
  obtain ⟨_, vma, hA, hget, _⟩ := h.sub k vma' hA' v f hget
  exact Holds.of_get hA hget

theorem AreasIn.shrink (h : AreasIn R p pt A) {gone : ℕ → Prop} (hw : Without pt A A' gone)
    (htable : PtOk R.own p' pt)
    (hpte : ∀ u, R.page u → ¬ gone u → p'.pte pt u = p.pte pt u)
    (hgone : ∀ u, R.page u → gone u → (p'.pte pt u).valid = false)
    (hlive : ∀ k v f, Holds A' k v f → f ∈ p'.live ∧ f ∉ p'.tables pt) : AreasIn R p' pt A' where
  table := htable
  pagetable := hw.pagetable
  page := fun k v f hf => h.page k v f (hw.holds hf)
  inj := fun k v f k' v' hf hf' => h.inj k v f k' v' (hw.holds hf) (hw.holds hf')
  live := hlive
  mapped := by
    intro k vma' hA' u g hget'
    obtain ⟨hnot, vma, hA, hget, htag⟩ := hw.sub k vma' hA' u g hget'
    obtain ⟨flags, hflags, heq⟩ := h.mapped k vma hA u g hget
    exact ⟨flags, htag flags hflags,
      by rw [hpte u (h.page k u g (Holds.of_get hA hget)) hnot, heq]⟩
  covered := by
    intro u hu hvalid
    have hnot : ¬ gone u := by
      intro hg
      rw [hgone u hu hg] at hvalid
      cases hvalid
    rw [hpte u hu hnot] at hvalid
    obtain ⟨k, g, hg⟩ := h.covered u hu hvalid
    exact ⟨k, g, hw.keep k u g hg hnot⟩

/-- Nothing happens to an address space as long as its tables are not touched and its
frames stay live. -/
theorem AreasIn.congr (h : AreasIn R p pt A) (htables : p'.tables pt = p.tables pt)
    (hmem : ∀ f ∈ p.tables pt, p'.mem f = p.mem f) (hlive : ∀ f, Owned p pt A f → f ∈ p'.live) :
    AreasIn R p' pt A := by
  have hsame : Without pt A A fun _ => False :=
    ⟨h.pagetable, fun k vma hA u g hget => ⟨not_false, vma, hA, hget, fun _ hf => hf⟩,
      fun _ _ _ hf _ => hf⟩
  refine h.shrink hsame (h.table.congr htables hmem fun f hf => hlive f (.inl hf)) ?_ ?_ ?_
  · exact fun u hu _ => h.table.pte_congr htables hmem (R.own_page hu)
  · exact fun _ _ hf => hf.elim
  · intro k v f hf
    rw [htables]
    exact ⟨hlive f (.inr ⟨k, v, hf⟩), (h.live k v f hf).2⟩

theorem AreasIn.retag (h : AreasIn R p pt A) (hw : Without pt A A' fun _ => False) :
    AreasIn R p pt A' :=
  h.shrink hw h.table (fun _ _ _ => rfl) (fun _ _ hf => hf.elim)
    fun k v f hf => h.live k v f (hw.holds hf)

theorem AreasIn.emptied (h : AreasIn R p pt A) (hempty : ∀ k v f, ¬Holds A k v f) :
    AreasIn R p pt fun _ => none :=
  h.retag ⟨nofun, nofun, fun k u g hg _ => absurd hg (hempty k u g)⟩

theorem AreasIn.unmap (h : AreasIn R p pt A) (hv : R.page v) {e : PTE} (he : e.valid = false)
    (hr : Rewrites R.own p p' pt v e) (hw : Without pt A A' (· = v)) : AreasIn R p' pt A' := by
  refine h.shrink hw hr.ok ?_ ?_ ?_
  · intro u hu hne
    rw [hr.pte u (R.own_page hu), if_neg (by rwa [R.samePage_iff hu hv])]
  · rintro u hu rfl
    rw [hr.pte u (R.own_page hu), if_pos ⟨rfl, rfl, rfl⟩, he]
  · intro k u f hf
    have hf := hw.holds hf
    obtain ⟨hlive, htab⟩ := h.live k u f hf
    refine ⟨hr.grows.live f hlive, fun hmem => ?_⟩
    rcases hr.grows.fresh f hmem with hmem | hfresh
    · exact htab hmem
    · exact hfresh hlive

/-- A free frame that is mapped at a page that was not mapped joins an area. -/
theorem AreasIn.addPage (h : AreasIn R p pt A) (hA : A k = some vma) (hv : R.page v)
    (hfree : (p.pte pt v).valid = false) {flags : BitVec 8} (hflags : vma.EntryFlags flags)
    (hr : Rewrites R.own p p' pt v (PTE.leaf f flags)) (hlive : f ∈ p.live)
    (hown : ¬ Owned p pt A f) : AreasIn R p' pt (replaceAt A k (some (vma.withPage v f))) := by
  have hnone : ∀ k g, ¬ Holds A k v g := by
    intro k g hg
    rw [h.pte_valid hg] at hfree
    cases hfree
  have hget : vma.pagesTree.get? v = none := by
    cases hget : vma.pagesTree.get? v with
    | none => rfl
    | some g => exact absurd (Holds.of_get hA hget) (hnone k g)
  have holds : ∀ {k' u g}, Holds (replaceAt A k (some (vma.withPage v f))) k' u g ↔
      Holds A k' u g ∨ k' = k ∧ u = v ∧ g = f := holds_withPage hA hget
  have hpte : ∀ u, R.page u → u ≠ v → p'.pte pt u = p.pte pt u := by
    intro u hu hne
    rw [hr.pte u (R.own_page hu), if_neg (by rwa [R.samePage_iff hu hv])]
  have hptev : p'.pte pt v = PTE.leaf f flags := by
    rw [hr.pte v (R.own_page hv), if_pos ⟨rfl, rfl, rfl⟩]
  have hfresh : ∀ g ∈ p.live, g ∉ p.tables pt → g ∉ p'.tables pt := by
    intro g hg htab hmem
    rcases hr.grows.fresh g hmem with hmem | hnot
    · exact htab hmem
    · exact hnot hg
  refine ⟨hr.ok, ?_, ?_, ?_, ?_, ?_, ?_⟩
  · intro k' w hw
    rw [replaceAt_apply] at hw
    split_ifs at hw
    · cases hw
      exact h.pagetable k vma hA
    · exact h.pagetable k' w hw
  · intro k' u g hg
    rcases holds.mp hg with hg | ⟨_, rfl, _⟩
    · exact h.page k' u g hg
    · exact hv
  · intro k₁ u₁ g k₂ u₂ h₁ h₂
    rcases holds.mp h₁ with hold₁ | ⟨hk₁, hu₁, hg₁⟩ <;>
      rcases holds.mp h₂ with hold₂ | ⟨hk₂, hu₂, hg₂⟩
    · exact h.inj _ _ _ _ _ hold₁ hold₂
    · exact absurd (.inr ⟨_, _, hg₂ ▸ hold₁⟩) hown
    · exact absurd (.inr ⟨_, _, hg₁ ▸ hold₂⟩) hown
    · exact ⟨hk₁.trans hk₂.symm, hu₁.trans hu₂.symm⟩
  · intro k' u g hg
    rcases holds.mp hg with hg | ⟨_, _, rfl⟩
    · obtain ⟨hl, ht⟩ := h.live k' u g hg
      exact ⟨hr.grows.live g hl, hfresh g hl ht⟩
    · exact ⟨hr.grows.live g hlive, hfresh g hlive fun ht => hown (.inl ht)⟩
  · intro k' w hw u g hg
    have hu : R.page u := by
      rcases holds.mp (Holds.of_get hw hg) with hg | ⟨_, rfl, _⟩
      · exact h.page k' u g hg
      · exact hv
    by_cases huv : u = v
    · subst huv
      rcases holds.mp (Holds.of_get hw hg) with hg | ⟨rfl, _, rfl⟩
      · exact absurd hg (hnone k' g)
      · rw [replaceAt_self] at hw
        cases hw
        exact ⟨flags, hflags, hptev⟩
    · rw [hpte u hu huv]
      rw [replaceAt_apply] at hw
      split_ifs at hw with hk
      · cases hw
        rw [Vma.withPage, OrdMap.get?_insert, if_neg huv] at hg
        exact h.mapped k vma hA u g hg
      · exact h.mapped k' w hw u g hg
  · intro u hu hvalid
    by_cases huv : u = v
    · subst huv
      exact ⟨k, f, holds.mpr (.inr ⟨rfl, rfl, rfl⟩)⟩
    · rw [hpte u hu huv] at hvalid
      obtain ⟨k', g, hg⟩ := h.covered u hu hvalid
      exact ⟨k', g, holds.mpr (.inl hg)⟩

/-- What work on one address space means for the others: it writes to its own frames
and to free ones, and it takes free ones only. -/
structure Local (p : Phys) (A : Areas) (p' : Phys) (A' : Areas) (pt : ℕ) : Prop where
  keep : ∀ f ∈ p.live, ¬ Owned p pt A f → f ∈ p'.live ∧ p'.mem f = p.mem f
  fresh : ∀ f, Owned p' pt A' f → Owned p pt A f ∨ f ∉ p.live
  others : ∀ q, q ≠ pt → p'.tables q = p.tables q
  cnt : p.tableCnt ≤ p'.tableCnt

theorem Local.refl (p : Phys) (A : Areas) (pt : ℕ) : Local p A p A pt where
  keep := fun _ hf _ => ⟨hf, rfl⟩
  fresh := fun _ hf => .inl hf
  others := fun _ _ => rfl
  cnt := le_rfl

theorem Local.trans (h : Local p A p' A' pt) (h' : Local p' A' p'' A'' pt) :
    Local p A p'' A'' pt where
  keep := by
    intro f hf hnot
    obtain ⟨hlive, hmem⟩ := h.keep f hf hnot
    have hnot' : ¬ Owned p' pt A' f := by
      intro hown
      rcases h.fresh f hown with hown | hfresh
      · exact hnot hown
      · exact hfresh hf
    obtain ⟨hlive', hmem'⟩ := h'.keep f hlive hnot'
    exact ⟨hlive', hmem'.trans hmem⟩
  fresh := by
    intro f hf
    rcases h'.fresh f hf with hown | hfresh
    · exact h.fresh f hown
    · by_cases hown : Owned p pt A f
      · exact .inl hown
      · exact .inr fun hlive => hfresh (h.keep f hlive hown).1
  others := fun q hq => (h'.others q hq).trans (h.others q hq)
  cnt := h.cnt.trans h'.cnt

theorem Local.of_grows (h : Grows p p' pt)
    (hA' : ∀ k v f, Holds A' k v f → (∃ k v, Holds A k v f) ∨ f ∉ p.live) :
    Local p A p' A' pt where
  keep := fun f hf hnot => ⟨h.live f hf, h.mem f hf fun ht => hnot (.inl ht)⟩
  fresh := by
    rintro f (ht | ⟨k, v, hf⟩)
    · exact (h.fresh f ht).imp_left .inl
    · exact (hA' k v f hf).imp_left .inr
  others := h.others
  cnt := h.cnt.ge

end AreasOk

end Zinix
