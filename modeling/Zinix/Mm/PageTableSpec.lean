import Zinix.Mm.Frames

/-!
# What the page table operations do

Every operation on a page table leaves the live frames of others alone and changes at most
the entry of its own page. Walks may add tables, which does not change any entry.
-/

namespace Zinix

open Program

variable {own : Fin 512 → Prop} {p p' p'' : Phys} {pt : ℕ}

namespace Phys

def root (p : Phys) (pt : ℕ) : Frame := (p.tables pt).headD 0

/-- Memory after a user page table is made, whose root is given. -/
def withUser (p : Phys) (root : Frame) : Phys :=
  { p.allocated root with
    mem := replaceAt (p.allocated root).mem root fun i =>
      if i = 0 ∨ i = 1 then 0 else (p.allocated root).mem (p.root kernelPagetable) i
    tables := replaceAt p.tables p.tableCnt [root]
    tableCnt := p.tableCnt + 1 }

/-- Memory after a frame has become the table below an entry. -/
def withTable (p : Phys) (pt : ℕ) (f : Frame) (i : Fin 512) (g : Frame) : Phys :=
  { p with
    mem := storeWord (replaceAt p.mem g fun _ => 0) f i ((entryAt p.mem f i).dir g).toWord
    live := insert g p.live
    tables := replaceAt p.tables pt (p.tables pt ++ [g]) }

theorem mem_withTable (p : Phys) (pt : ℕ) (f : Frame) (i : Fin 512) (g : Frame) :
    (p.withTable pt f i g).mem = storeWord (replaceAt p.mem g fun _ => 0) f i
      ((entryAt p.mem f i).dir g).toWord := rfl

def pte (p : Phys) (pt vaddr : ℕ) : PTE := leafEntry p.mem (p.root pt) vaddr

end Phys

/-- A page table whose owned tables are live pages of its own. -/
structure PtOk (own : Fin 512 → Prop) (p : Phys) (pt : ℕ) : Prop where
  head : (p.tables pt).head? = some (p.root pt)
  tree : TableOk own p.mem (p.tables pt) (p.root pt)
  live : ∀ f ∈ p.tables pt, f ∈ p.live

/-- What work on a page table does to memory: it may take fresh frames for tables,
and it writes to tables of this page table alone. -/
structure Grows (p p' : Phys) (pt : ℕ) : Prop where
  tables : p.tables pt <+: p'.tables pt
  others : ∀ q, q ≠ pt → p'.tables q = p.tables q
  fresh : ∀ f ∈ p'.tables pt, f ∈ p.tables pt ∨ f ∉ p.live
  live : ∀ f ∈ p.live, f ∈ p'.live
  mem : ∀ f ∈ p.live, f ∉ p.tables pt → p'.mem f = p.mem f
  cnt : p'.tableCnt = p.tableCnt

namespace Grows

variable {p p' p'' : Phys} {pt : ℕ}

theorem refl (p : Phys) (pt : ℕ) : Grows p p pt where
  tables := List.prefix_rfl
  others := fun _ _ => rfl
  fresh := fun _ hf => .inl hf
  live := fun _ hf => hf
  mem := fun _ _ _ => rfl
  cnt := rfl

theorem trans (h : Grows p p' pt) (h' : Grows p' p'' pt) : Grows p p'' pt where
  tables := h.tables.trans h'.tables
  others := fun q hq => (h'.others q hq).trans (h.others q hq)
  fresh := by
    intro f hf
    rcases h'.fresh f hf with hf | hf
    · exact h.fresh f hf
    · exact .inr fun hlive => hf (h.live f hlive)
  live := fun f hf => h'.live f (h.live f hf)
  mem := by
    intro f hf hnot
    have hnot' : f ∉ p'.tables pt := by
      intro hmem
      rcases h.fresh f hmem with hmem | hfresh
      · exact hnot hmem
      · exact hfresh hf
    rw [h'.mem f (h.live f hf) hnot', h.mem f hf hnot]
  cnt := h'.cnt.trans h.cnt

theorem root_eq (h : Grows p p' pt) (hhead : (p.tables pt).head? = some (p.root pt)) :
    p'.root pt = p.root pt := by
  obtain ⟨l, hl⟩ := h.tables
  cases hp : p.tables pt with
  | nil =>
    rw [hp] at hhead
    cases hhead
  | cons f rest => simp [Phys.root, ← hl, hp]

end Grows

/-- The entries of the root that lead into tables of others are left alone. -/
def KeepsRest (own : Fin 512 → Prop) (p p' : Phys) (pt : ℕ) : Prop :=
  ∀ i, ¬own i → p'.mem (p'.root pt) i = p.mem (p'.root pt) i

/-- Work on a page table that leaves every entry as it was. -/
structure Quiet (own : Fin 512 → Prop) (p p' : Phys) (pt : ℕ) : Prop where
  ok : PtOk own p' pt
  pte : ∀ u, own (addrGetPpn2 u) → p'.pte pt u = p.pte pt u
  grows : Grows p p' pt
  rest : KeepsRest own p p' pt

def SamePage (u v : ℕ) : Prop :=
  addrGetPpn0 u = addrGetPpn0 v ∧ addrGetPpn1 u = addrGetPpn1 v ∧ addrGetPpn2 u = addrGetPpn2 v

instance (u v : ℕ) : Decidable (SamePage u v) := inferInstanceAs (Decidable (_ ∧ _ ∧ _))

/-- Work on a page table that changes the entry of one page. -/
structure Rewrites (own : Fin 512 → Prop) (p p' : Phys) (pt vaddr : ℕ) (e : PTE) : Prop where
  ok : PtOk own p' pt
  pte : ∀ u, own (addrGetPpn2 u) → p'.pte pt u = if SamePage u vaddr then e else p.pte pt u
  grows : Grows p p' pt
  rest : KeepsRest own p p' pt

theorem KeepsRest.trans (h : KeepsRest own p p' pt) (h' : KeepsRest own p' p'' pt)
    (hroot : p''.root pt = p'.root pt) : KeepsRest own p p'' pt := by
  intro i hi
  rw [h' i hi, hroot, h i hi]

theorem Quiet.refl (h : PtOk own p pt) :
    Quiet own p p pt := ⟨h, fun _ _ => rfl, Grows.refl p pt, fun _ _ => rfl⟩

theorem Quiet.trans (h : Quiet own p p' pt) (h' : Quiet own p' p'' pt) : Quiet own p p'' pt :=
  ⟨h'.ok, fun u hu => (h'.pte u hu).trans (h.pte u hu), h.grows.trans h'.grows,
    h.rest.trans h'.rest (h'.grows.root_eq h.ok.head)⟩

theorem Quiet.rewrites {vaddr : ℕ} {e : PTE} (h : Quiet own p p' pt)
    (h' : Rewrites own p' p'' pt vaddr e) :
    Rewrites own p p'' pt vaddr e := by
  refine ⟨h'.ok, ?_, h.grows.trans h'.grows, h.rest.trans h'.rest (h'.grows.root_eq h.ok.head)⟩
  intro u hu
  rw [h'.pte u hu, h.pte u hu]

section Store

variable {own : Fin 512 → Prop} {p : Phys} {pt : ℕ} {f : Frame} {i : Fin 512} {w : BitVec 64}
  {q : List (Fin 512)}

theorem setPage_mem (p : Phys) (f : Frame) (i : Fin 512) (w : BitVec 64) :
    (p.setPage f (replaceAt (p.mem f) i w)).mem = storeWord p.mem f i w := rfl

theorem grows_store (hf : f ∈ p.tables pt) :
    Grows p (p.setPage f (replaceAt (p.mem f) i w)) pt where
  tables := List.prefix_rfl
  others := fun _ _ => rfl
  fresh := fun _ hf => .inl hf
  live := fun _ hf => hf
  mem := fun _ _ hg => storeWord_of_ne (ne_of_mem_of_not_mem hf hg).symm w
  cnt := rfl

theorem keepsRest_store (h : PtOk own p pt) (hq : Inner own q)
    (hf : tableAt p.mem (p.root pt) q = some f) (hi : q = [] → own i) :
    KeepsRest own p (p.setPage f (replaceAt (p.mem f) i w)) pt := by
  intro j hj
  show storeWord p.mem f i w (p.root pt) j = p.mem (p.root pt) j
  by_cases hroot : f = p.root pt
  · subst hroot
    have hown := hi (h.tree.inj q [] hq trivial _ hf rfl)
    have hne : j ≠ i := by
      rintro rfl
      exact hj hown
    rw [storeWord, replaceAt_self, replaceAt_of_ne hne]
  · rw [storeWord_of_ne (Ne.symm hroot)]

theorem quiet_store (h : PtOk own p pt) (hq : Inner own (i :: q))
    (hf : tableAt p.mem (p.root pt) q = some f) (hw : PTE.ofWord w = entryAt p.mem f i) :
    Quiet own p (p.setPage f (replaceAt (p.mem f) i w)) pt := by
  have hentry := entryAt_storeWord_same hw
  refine ⟨⟨h.head, h.tree.of_entryAt hentry, h.live⟩,
    fun u _ => leafEntry_of_entryAt hentry u, grows_store (h.tree.mem_pgs q hq.tail f hf),
    keepsRest_store h hq.tail hf ?_⟩
  rintro rfl
  exact hq

theorem rewrites_store (h : PtOk own p pt) {vaddr : ℕ} (hv : own (addrGetPpn2 vaddr))
    (hf : tableAt p.mem (p.root pt) [addrGetPpn1 vaddr, addrGetPpn2 vaddr] = some f) {e : PTE} :
    Rewrites own p (p.setPage f (replaceAt (p.mem f) (addrGetPpn0 vaddr) e.toWord)) pt
      vaddr e := by
  have hq : Inner own [addrGetPpn1 vaddr, addrGetPpn2 vaddr] := hv
  refine ⟨⟨h.head, h.tree.storeLeaf hq rfl hf, h.live⟩, ?_,
    grows_store (h.tree.mem_pgs _ hq f hf), keepsRest_store h hq hf (by simp)⟩
  intro u hu
  have hentry := leafEntry_storeLeaf (w := e.toWord) h.tree hv hf hu
  rw [PTE.ofWord_toWord] at hentry
  exact hentry

end Store

/-- The paths of the tables above a page, without the root. -/
def tablePaths (v : ℕ) : Finset (List (Fin 512)) :=
  {[addrGetPpn2 v], [addrGetPpn1 v, addrGetPpn2 v]}

theorem inner_of_mem_tablePaths {v : ℕ} (hv : own (addrGetPpn2 v)) {q : List (Fin 512)}
    (hq : q ∈ tablePaths v) : Inner own q ∧ q ≠ [] := by
  simp only [tablePaths, Finset.mem_insert, Finset.mem_singleton] at hq
  rcases hq with rfl | rfl
  · exact ⟨hv, by simp⟩
  · exact ⟨hv, by simp⟩

namespace Phys

def hasTable (p : Phys) (pt : ℕ) (q : List (Fin 512)) : Bool :=
  (tableAt p.mem (p.root pt) q).isSome

def lacking (p : Phys) (pt : ℕ) (qs : Finset (List (Fin 512))) : Finset (List (Fin 512)) :=
  qs.filter fun q => p.hasTable pt q = false

def missing (p : Phys) (pt v : ℕ) : Finset (List (Fin 512)) :=
  (tablePaths v).filter fun q => p.hasTable pt q = false

theorem card_missing_le (p : Phys) (pt v : ℕ) : (p.missing pt v).card ≤ 2 :=
  (Finset.card_filter_le ..).trans Finset.card_le_two

end Phys

open Phys

/-- The tables at these paths have been added to the tree, if they were not there. -/
def Hung (own : Fin 512 → Prop) (p p' : Phys) (pt : ℕ) (qs : Finset (List (Fin 512))) : Prop :=
  ∀ q, Inner own q → (p'.hasTable pt q = true ↔ p.hasTable pt q = true ∨ q ∈ qs)

/-- Tables are all that is new, each in a frame that was handed out for it. -/
structure Hangs (own : Fin 512 → Prop) (p p' : Phys) (pt : ℕ) (qs : Finset (List (Fin 512))) :
    Prop where
  quiet : Quiet own p p' pt
  hung : Hung own p p' pt qs
  spent : Spent (p.lacking pt qs).card p p'

section Hung

variable {v : ℕ} {f : Frame} {qs qs' : Finset (List (Fin 512))}

theorem Hung.trans (h : Hung own p p' pt qs) (h' : Hung own p' p'' pt qs') :
    Hung own p p'' pt (qs ∪ qs') := by
  intro q hq
  rw [h' q hq, h q hq, Finset.mem_union, or_assoc]

theorem Hung.card_lacking (h : Hung own p p' pt qs) (hin : ∀ q ∈ qs', Inner own q) :
    (p.lacking pt (qs ∪ qs')).card = (p.lacking pt qs).card + (p'.lacking pt qs').card := by
  have hrest : p'.lacking pt qs' = p.lacking pt (qs ∪ qs') \ p.lacking pt qs := by
    ext q
    simp only [lacking, Finset.mem_filter, Finset.mem_sdiff, Finset.mem_union,
      ← Bool.not_eq_true]
    by_cases hq : q ∈ qs'
    · rw [h q (hin q hq)]
      tauto
    · tauto
  have hsub : p.lacking pt qs ⊆ p.lacking pt (qs ∪ qs') :=
    Finset.filter_subset_filter _ Finset.subset_union_left
  rw [hrest, Nat.add_comm, Finset.card_sdiff_add_card_eq_card hsub]

theorem Hangs.trans (h : Hangs own p p' pt qs) (h' : Hangs own p' p'' pt qs')
    (hin : ∀ q ∈ qs', Inner own q) : Hangs own p p'' pt (qs ∪ qs') where
  quiet := h.quiet.trans h'.quiet
  hung := h.hung.trans h'.hung
  spent := by
    rw [h.hung.card_lacking hin]
    exact h.spent.trans h'.spent

theorem Hung.card_missing (h : Hung own p p' pt ∅) (hv : own (addrGetPpn2 v)) :
    (p'.missing pt v).card = (p.missing pt v).card := by
  have hcard := h.card_lacking fun q hq => (inner_of_mem_tablePaths hv hq).1
  rw [Finset.empty_union] at hcard
  exact (hcard.trans (Nat.zero_add _)).symm

theorem Hung.missing (h : Hung own p p' pt (tablePaths v)) (hv : own (addrGetPpn2 v)) :
    (p'.missing pt v).card = 0 := by
  rw [Finset.card_eq_zero, Phys.missing, Finset.filter_eq_empty_iff]
  intro q hq
  simp [(h q (inner_of_mem_tablePaths hv hq).1).mpr (.inr hq)]

theorem PtOk.hung_congr (h : PtOk own p pt) (htables : p'.tables pt = p.tables pt)
    (hmem : ∀ f ∈ p.tables pt, p'.mem f = p.mem f) : Hung own p p' pt ∅ := by
  intro q hq
  have hroot : p'.root pt = p.root pt := by rw [root, root, htables]
  simp only [hasTable, hroot, tableAt_congr h.tree hmem hq, Finset.notMem_empty, or_false]

theorem PtOk.hung_allocated (h : PtOk own p pt) (hf : f ∉ p.live) :
    Hung own p (p.allocated f) pt ∅ :=
  h.hung_congr rfl fun g hg => replaceAt_of_ne (ne_of_mem_of_not_mem (h.live g hg) hf)

theorem PtOk.hung_setPage (h : PtOk own p pt) (hf : f ∉ p.tables pt) (pg : PageData) :
    Hung own p (p.setPage f pg) pt ∅ :=
  h.hung_congr rfl fun _ hg => replaceAt_of_ne (ne_of_mem_of_not_mem hg hf)

theorem PtOk.hung_storeLeaf (h : PtOk own p pt) (hv : own (addrGetPpn2 v))
    (hf : tableAt p.mem (p.root pt) [addrGetPpn1 v, addrGetPpn2 v] = some f) (e : PTE) :
    Hung own p (p.setPage f (replaceAt (p.mem f) (addrGetPpn0 v) e.toWord)) pt ∅ := by
  intro q hq
  have hinner : Inner own [addrGetPpn1 v, addrGetPpn2 v] := hv
  have hsame := tableAt_storeLeaf (i := addrGetPpn0 v) (w := e.toWord) h.tree hinner rfl hf hq
  show (tableAt (storeWord p.mem f _ _) (p.root pt) q).isSome = true ↔ _
  rw [hsame, ← hasTable]
  simp

end Hung

namespace PageTable

variable {own : Fin 512 → Prop} {p : Phys} {pt v : ℕ} {f g : Frame} {i : Fin 512}
  {q : List (Fin 512)} {E : Panic → Prop}

theorem getRootPage_sat (h : PtOk own p pt) :
    Sat (getRootPage pt) p (fun f p' => f = p.root pt ∧ p' = p) E := by
  unfold getRootPage
  apply Sat.get_bind
  rw [h.head]
  exact sat_pure ⟨rfl, rfl⟩

section NewTable

theorem grows_withTable (hf : f ∈ p.tables pt) (hg : g ∉ p.live) :
    Grows p (p.withTable pt f i g) pt := by
  have htables : (p.withTable pt f i g).tables pt = p.tables pt ++ [g] := replaceAt_self
  refine ⟨?_, fun q hq => replaceAt_of_ne hq, fun x hx => ?_,
    fun x hx => Finset.mem_insert_of_mem hx, fun x hx hnot => ?_, rfl⟩
  · rw [htables]
    exact List.prefix_append ..
  · rw [htables, List.mem_append, List.mem_singleton] at hx
    refine hx.imp_right ?_
    rintro rfl
    exact hg
  · have hxf : x ≠ f := (ne_of_mem_of_not_mem hf hnot).symm
    rw [mem_withTable, storeWord_of_ne hxf, replaceAt_of_ne (ne_of_mem_of_not_mem hx hg)]

variable (h : PtOk own p pt) (hq : Inner own (i :: q))
  (hf : tableAt p.mem (p.root pt) q = some f) (hg : g ∉ p.live)

include h hg

theorem mem_cleared {x : Frame} (hx : x ∈ p.tables pt) :
    replaceAt p.mem g (fun _ => 0) x = p.mem x :=
  replaceAt_of_ne (ne_of_mem_of_not_mem (h.live x hx) hg)

include hq hf

theorem keepsRest_withTable : KeepsRest own p (p.withTable pt f i g) pt := by
  have hmem := h.tree.mem_pgs q hq.tail f hf
  rw [KeepsRest, (grows_withTable (i := i) hmem hg).root_eq h.head]
  intro j hj
  rw [mem_withTable]
  by_cases hroot : p.root pt = f
  · have hnil : q = [] := h.tree.inj q [] hq.tail trivial f hf (by rw [tableAt, hroot])
    subst hnil
    have hne : j ≠ i := by
      rintro rfl
      exact hj hq
    rw [hroot, storeWord, replaceAt_self, replaceAt_of_ne hne, mem_cleared h hg hmem]
  · rw [storeWord_of_ne hroot, mem_cleared h hg (h.tree.mem_pgs [] trivial _ rfl)]

theorem quiet_newTable (hnone : (entryAt p.mem f i).next = none) :
    Quiet own p (p.withTable pt f i g) pt ∧
      ∀ q', Inner own q' → tableAt (p.withTable pt f i g).mem (p.root pt) q' =
        if q' = i :: q then some g else tableAt p.mem (p.root pt) q' := by
  have hmem := h.tree.mem_pgs q hq.tail f hf
  have hgrows := grows_withTable (i := i) hmem hg
  have hpgs : g ∉ p.tables pt := fun hmem => hg (h.live g hmem)
  have hcongr : ∀ x ∈ p.tables pt, replaceAt p.mem g (fun _ => 0) x = p.mem x := fun _ hx =>
    mem_cleared h hg hx
  have htree := h.tree.congr hcongr
  have hf' : tableAt (replaceAt p.mem g fun _ => 0) (p.root pt) q = some f := by
    rw [tableAt_congr h.tree hcongr hq.tail, hf]
  have hnone' : (entryAt (replaceAt p.mem g fun _ => 0) f i).next = none := by
    rw [entryAt, mem_cleared h hg hmem]
    exact hnone
  have hw : (PTE.ofWord ((entryAt p.mem f i).dir g).toWord).next = some g := by simp
  have hzero : replaceAt p.mem g (fun _ => 0) g = fun _ => (0 : BitVec 64) := replaceAt_self
  have hroot := hgrows.root_eq h.head
  have htables : (p.withTable pt f i g).tables pt = p.tables pt ++ [g] := replaceAt_self
  refine ⟨⟨⟨?_, ?_, fun x hx => ?_⟩, fun u hu => ?_, hgrows, keepsRest_withTable h hq hf hg⟩,
    fun q' hq' => ?_⟩
  · rw [hroot, htables, List.head?_append, h.head]
    rfl
  · rw [hroot, htables]
    exact htree.storeDir hq hf' hnone' hw hpgs hzero (by simp) (by simp)
  · rw [htables, List.mem_append, List.mem_singleton] at hx
    exact Finset.mem_insert.mpr (hx.symm.imp_right (h.live x))
  · rw [Phys.pte, Phys.pte, hroot, ← leafEntry_congr h.tree hcongr hu]
    exact leafEntry_storeDir htree hq hf' hnone' hw hpgs hzero hu
  · rw [← tableAt_congr h.tree hcongr hq']
    exact tableAt_storeDir htree hq hf' hnone' hw hpgs hzero hq'

end NewTable

theorem nextTable_sat (h : PtOk own p pt) (hq : Inner own (i :: q))
    (hf : tableAt p.mem (p.root pt) q = some f) (alloc : Bool) :
    Sat (nextTable pt (f, i) (entryAt p.mem f i) alloc) p
      (fun r p' => (∃ g, r = some g ∧ tableAt p'.mem (p'.root pt) (i :: q) = some g ∧
          Hangs own p p' pt {i :: q}) ∨
        alloc = false ∧ r = none ∧ p' = p ∧ tableAt p.mem (p.root pt) (i :: q) = none)
      fun e => alloc = true ∧ Short (p.lacking pt {i :: q}).card p e := by
  have hnext : tableAt p.mem (p.root pt) (i :: q) = (entryAt p.mem f i).next := by
    rw [tableAt, hf, Option.bind_some]
  unfold nextTable
  refine Sat.ite (fun hvalid => ?_) fun hvalid => ?_
  · -- the entry is written back as it was
    rw [PTE.next, if_pos hvalid] at hnext
    have hsame := PTE.ofWord_toWord (entryAt p.mem f i)
    have htable : ∀ q', tableAt (storeWord p.mem f i (entryAt p.mem f i).toWord) (p.root pt) q' =
        tableAt p.mem (p.root pt) q' := fun q' => tableAt_of_entryAt (entryAt_storeWord_same hsame)
    have hhas : p.hasTable pt (i :: q) = true := by rw [hasTable, hnext, Option.isSome_some]
    refine Sat.modify_bind (sat_pure (.inl ⟨_, rfl, (htable _).trans hnext,
      quiet_store h hq hf hsame, fun q' _ => ?_, ?_⟩))
    · show (tableAt (storeWord p.mem f i _) (p.root pt) q').isSome = true ↔ _
      rw [htable, ← hasTable, Finset.mem_singleton]
      refine ⟨.inl, fun hor => hor.elim id ?_⟩
      rintro rfl
      exact hhas
    · rw [lacking, Finset.filter_singleton, if_neg (by simp [hhas])]
      exact (Spent.refl p).congr rfl rfl
  · rw [PTE.next, if_neg hvalid] at hnext
    have hcard : (p.lacking pt {i :: q}).card = 1 := by
      rw [lacking, Finset.filter_singleton, hasTable, hnext]
      rfl
    cases alloc with
    | false => exact sat_pure (.inr ⟨rfl, rfl, rfl, hnext⟩)
    | true =>
      rw [if_pos rfl, hcard]
      refine ((allocOrPanic_sat p).weaken fun _ he => ⟨rfl, he⟩).bind ?_
      rintro g _ ⟨hspent, hg, rfl⟩
      obtain ⟨hquiet, htable⟩ := quiet_newTable h hq hf hg (if_neg hvalid)
      have hroot := hquiet.grows.root_eq h.head
      refine Sat.modify_bind (Sat.modify_bind (sat_pure (.inl ⟨g, rfl, ?_, hquiet,
        fun q' hq' => ?_, ?_⟩)))
      · exact (congrArg (tableAt _ · _) hroot).trans ((htable _ hq).trans (if_pos rfl))
      · show (p.withTable pt f i g).hasTable pt q' = true ↔ _
        rw [hasTable, hroot, htable q' hq', Finset.mem_singleton, hasTable]
        split_ifs with heq
        · simp [heq]
        · simp [heq]
      · rw [hcard]
        exact hspent.congr rfl rfl

theorem walkFrom_apply (h : PtOk own p pt) (hq : Inner own (i :: q))
    (hf : tableAt p.mem (p.root pt) q = some f) {alloc : Bool} {level : ℕ} (hlevel : level ≠ 2)
    (rest : List (Fin 512)) :
    walkFrom pt alloc f level (i :: rest) p =
      (nextTable pt (f, i) (entryAt p.mem f i) alloc >>= fun
        | none => pure none
        | some g => walkFrom pt alloc g (level + 1) rest) p := by
  rw [walkFrom, getUsizeByAddr]
  show (if (entryAt p.mem f i).isLeaf then _ else _ : Program Phys (Option WalkRet)) p = _
  rw [h.tree.dir i q hq f hf, if_neg (by simp), if_neg hlevel]
  rfl

theorem walkFrom_leaf (alloc : Bool) :
    Sat (walkFrom pt alloc f 2 [i]) p (fun r p' => r = some ⟨2, (f, i)⟩ ∧ p' = p) E := by
  rw [walkFrom, getUsizeByAddr]
  apply Sat.get_bind
  refine Sat.ite (fun _ => sat_pure ⟨rfl, rfl⟩) (fun _ => ?_)
  rw [if_pos rfl]
  exact sat_pure ⟨rfl, rfl⟩

/-- A walk ends at the entry of the page, or at a missing table if it may not add
any. -/
theorem walkCommon_sat (h : PtOk own p pt) (hv : own (addrGetPpn2 v)) (alloc : Bool) :
    Sat (walkCommon pt v alloc) p
      (fun r p' => (∃ f, r = some ⟨2, (f, addrGetPpn0 v)⟩ ∧
          tableAt p'.mem (p'.root pt) [addrGetPpn1 v, addrGetPpn2 v] = some f ∧
          Hangs own p p' pt (tablePaths v)) ∨
        alloc = false ∧ r = none ∧ Quiet own p p' pt ∧
          tableAt p'.mem (p'.root pt) [addrGetPpn1 v, addrGetPpn2 v] = none)
      fun e => alloc = true ∧ Short (p.missing pt v).card p e := by
  have htop : Inner own [addrGetPpn2 v] := hv
  have hmid : Inner own [addrGetPpn1 v, addrGetPpn2 v] := hv
  have hin : ∀ q ∈ ({[addrGetPpn1 v, addrGetPpn2 v]} : Finset (List (Fin 512))), Inner own q := by
    intro q hq
    rwa [Finset.mem_singleton.mp hq]
  have hpaths : tablePaths v = {[addrGetPpn2 v]} ∪ {[addrGetPpn1 v, addrGetPpn2 v]} :=
    Finset.insert_eq ..
  rw [show p.missing pt v = p.lacking pt (tablePaths v) from rfl, hpaths]
  unfold walkCommon
  refine (getRootPage_sat h).bind ?_
  rintro _ _ ⟨rfl, rfl⟩
  rw [Sat, walkFrom_apply h htop rfl (by decide), ← Sat]
  refine ((nextTable_sat h htop rfl alloc).weaken fun e he => ⟨he.1, he.2.mono <|
    Finset.card_le_card (Finset.filter_subset_filter _ Finset.subset_union_left)⟩).bind ?_
  rintro _ p₁ (⟨m, rfl, hm, hhangs⟩ | ⟨halloc, rfl, rfl, hnone⟩)
  swap
  · refine sat_pure (.inr ⟨halloc, rfl, Quiet.refl h, ?_⟩)
    rw [tableAt, hnone, Option.bind_none]
  show Sat (walkFrom pt alloc m 1 [addrGetPpn1 v, addrGetPpn0 v]) p₁ _ _
  rw [Sat, walkFrom_apply hhangs.quiet.ok hmid hm (by decide), ← Sat]
  rw [hhangs.hung.card_lacking hin]
  refine ((nextTable_sat hhangs.quiet.ok hmid hm alloc).weaken
    fun e he => ⟨he.1, he.2.of_spent hhangs.spent⟩).bind ?_
  rintro _ p₂ (⟨g, rfl, hg, hhangs'⟩ | ⟨halloc, rfl, rfl, hnone⟩)
  · refine (walkFrom_leaf alloc).imp ?_
    rintro _ _ ⟨rfl, rfl⟩
    exact .inl ⟨g, rfl, hg, hhangs.trans hhangs' hin⟩
  · exact sat_pure (.inr ⟨halloc, rfl, hhangs.quiet, hnone⟩)

theorem walkAlloc_sat (h : PtOk own p pt) (hv : own (addrGetPpn2 v)) :
    Sat (walkAlloc pt v) p
      (fun r p' => Hangs own p p' pt (tablePaths v) ∧ ∃ f, r = ⟨2, (f, addrGetPpn0 v)⟩ ∧
        tableAt p'.mem (p'.root pt) [addrGetPpn1 v, addrGetPpn2 v] = some f)
      (Short (p.missing pt v).card p) := by
  unfold walkAlloc
  refine ((walkCommon_sat h hv true).weaken fun _ he => he.2).bind ?_
  rintro r p' (⟨f, rfl, hf, hhangs⟩ | ⟨halloc, _⟩)
  · exact sat_pure ⟨hhangs, f, rfl, hf⟩
  · cases halloc

theorem pte_of_tableAt
    (hf : tableAt p.mem (p.root pt) [addrGetPpn1 v, addrGetPpn2 v] = some f) :
    PTE.ofWord (p.mem f (addrGetPpn0 v)) = p.pte pt v := by
  rw [Phys.pte, leafEntry, hf]
  rfl

theorem exists_tableAt (hvalid : (p.pte pt v).valid = true) :
    ∃ f, tableAt p.mem (p.root pt) [addrGetPpn1 v, addrGetPpn2 v] = some f := by
  refine Option.ne_none_iff_exists'.mp fun hnone => ?_
  simp [Phys.pte, leafEntry, hnone] at hvalid

theorem missing_of_valid (hvalid : (p.pte pt v).valid = true) : (p.missing pt v).card = 0 := by
  obtain ⟨f, hf⟩ := exists_tableAt hvalid
  obtain ⟨m, hm, -⟩ := Option.bind_eq_some_iff.mp hf
  rw [Finset.card_eq_zero, missing, Finset.filter_eq_empty_iff]
  intro q hq
  simp only [tablePaths, Finset.mem_insert, Finset.mem_singleton] at hq
  rcases hq with rfl | rfl
  · simp [hasTable, hm]
  · simp [hasTable, hf]

theorem mapOnePage_sat (h : PtOk own p pt) (hv : own (addrGetPpn2 v)) (pg : Frame)
    (flags : BitVec 8) :
    Sat (mapOnePage pt v pg flags) p
      (fun r p' => Spent (p.missing pt v).card p p' ∧ Hung own p p' pt (tablePaths v) ∧
        ((p.pte pt v).valid = true ∧ r = .error (-1) ∧ Quiet own p p' pt ∨
          (p.pte pt v).valid = false ∧ r = .ok () ∧
            Rewrites own p p' pt v (PTE.leaf pg flags)))
      (Short (p.missing pt v).card p) := by
  unfold mapOnePage
  refine (walkAlloc_sat h hv).bind ?_
  rintro _ p' ⟨⟨hquiet, hhung, hspent⟩, f, rfl, hf⟩
  simp only [walkRetLevelLeaf, ↓reduceIte, getUsizeByAddr, bind_assoc, pure_bind]
  apply Sat.get_bind
  simp only [pte_of_tableAt hf, hquiet.pte v hv]
  refine Sat.ite (fun hvalid => ?_) fun hvalid => ?_
  · exact sat_pure ⟨hspent, hhung, .inl ⟨hvalid, rfl, hquiet⟩⟩
  · have hall := hhung.trans (hquiet.ok.hung_storeLeaf hv hf (PTE.leaf pg flags))
    rw [Finset.union_empty] at hall
    exact Sat.modify_bind (sat_pure ⟨hspent.congr rfl rfl, hall, .inr ⟨by simpa using hvalid, rfl,
      hquiet.rewrites (rewrites_store hquiet.ok hv hf)⟩⟩)

theorem unmapOnePage_sat (h : PtOk own p pt) (hv : own (addrGetPpn2 v)) :
    Sat (unmapOnePage pt v) p
      (fun r p' => Spent (p.missing pt v).card p p' ∧ r = .ok (p.pte pt v).getPointPaddr ∧
        Rewrites own p p' pt v (p.pte pt v).unmapped)
      (Short (p.missing pt v).card p) := by
  unfold unmapOnePage
  refine (walkAlloc_sat h hv).bind ?_
  rintro _ p' ⟨⟨hquiet, -, hspent⟩, f, rfl, hf⟩
  simp only [walkRetLevelLeaf, ↓reduceIte, getUsizeByAddr, bind_assoc, pure_bind]
  apply Sat.get_bind
  simp only [pte_of_tableAt hf, hquiet.pte v hv]
  exact Sat.modify_bind (sat_pure ⟨hspent.congr rfl rfl, rfl,
    hquiet.rewrites (rewrites_store hquiet.ok hv hf)⟩)

/-- The tables above a page that is mapped are there. -/
theorem unmapOnePage_mapped (h : PtOk own p pt) (hv : own (addrGetPpn2 v))
    (hvalid : (p.pte pt v).valid = true) :
    Sat (unmapOnePage pt v) p
      (fun r p' => r = .ok (p.pte pt v).getPointPaddr ∧
        Rewrites own p p' pt v (p.pte pt v).unmapped ∧ p'.live = p.live) E := by
  refine sat_of_short_zero ?_ (missing_of_valid hvalid)
  refine (unmapOnePage_sat h hv).imp fun r p' hr => ⟨hr.2.1, hr.2.2, ?_⟩
  have hspent := hr.1
  rw [missing_of_valid hvalid] at hspent
  exact (Option.some.inj hspent.live).symm

theorem changeMapFlags_sat (h : PtOk own p pt) (hv : own (addrGetPpn2 v)) (flags : BitVec 8) :
    Sat (changeMapFlags pt v flags) p
      (fun r p' => (p.pte pt v).valid = false ∧ r = .error () ∧ Quiet own p p' pt ∨
        (p.pte pt v).valid = true ∧ r = .ok () ∧
          Rewrites own p p' pt v ((p.pte pt v).withFlags flags)) E := by
  unfold changeMapFlags
  refine ((walkCommon_sat h hv false).weaken fun e he => by cases he.1).bind ?_
  rintro r p' (⟨f, rfl, hf, hquiet, -⟩ | ⟨_, rfl, hquiet, hnone⟩)
  · simp only [walkRetLevelLeaf, ↓reduceIte, getUsizeByAddr, bind_assoc, pure_bind]
    apply Sat.get_bind
    simp only [pte_of_tableAt hf, hquiet.pte v hv]
    refine Sat.ite (fun hvalid => ?_) fun hvalid => ?_
    · exact sat_pure (.inl ⟨by simpa using hvalid, rfl, hquiet⟩)
    · exact Sat.modify_bind (sat_pure (.inr ⟨by simpa using hvalid, rfl,
        hquiet.rewrites (rewrites_store hquiet.ok hv hf)⟩))
  · -- without a table there is no entry
    refine sat_pure (.inl ⟨?_, rfl, hquiet⟩)
    have hpte : p'.pte pt v = default := by simp only [Phys.pte, leafEntry, hnone]
    rw [← hquiet.pte v hv, hpte]
    decide

theorem getRootPage_kernel (hkernel : p.tables kernelPagetable ≠ []) {root : Frame} :
    Sat (getRootPage kernelPagetable) (p.allocated root)
      (fun f p' => f = p.root kernelPagetable ∧ p' = p.allocated root) E := by
  obtain ⟨kernel, rest, hk⟩ := List.exists_cons_of_ne_nil hkernel
  have htables : ((p.allocated root).tables kernelPagetable).head? =
      some (p.root kernelPagetable) := by
    simp [Phys.allocated, Phys.setPage, Phys.root, hk]
  unfold getRootPage
  apply Sat.get_bind
  rw [htables]
  exact sat_pure ⟨rfl, rfl⟩

theorem newUser_withUser (hkernel : p.tables kernelPagetable ≠ []) :
    Sat newUser p (fun pt p' => Spent 1 p p' ∧ pt = p.tableCnt ∧
      ∃ root ∉ p.live, p' = p.withUser root) (Short 1 p) := by
  unfold newUser
  refine (allocOrPanic_sat p).bind ?_
  rintro root _ ⟨hspent, hroot, rfl⟩
  refine (getRootPage_kernel hkernel).bind ?_
  rintro _ _ ⟨rfl, rfl⟩
  exact Sat.get_bind (Sat.set_bind (sat_pure ⟨hspent.congr rfl rfl, rfl, root, hroot, rfl⟩))

end PageTable

end Zinix
