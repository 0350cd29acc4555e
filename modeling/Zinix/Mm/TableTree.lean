import Zinix.Mm.PageTable

/-!
# The tree of tables

A table is named by the indices that lead to it, the last one first. The invariant speaks
of the subtrees that a page table owns: those below some entries of its root, while the
other entries lead into tables of the kernel.
-/

namespace Zinix

def entryAt (mem : Frame → PageData) (f : Frame) (i : Fin 512) : PTE := PTE.ofWord (mem f i)

def PTE.next (e : PTE) : Option Frame := if e.valid then some e.frame else none

@[simp] theorem PTE.next_default : (default : PTE).next = none := rfl

@[simp] theorem PTE.next_dir (e : PTE) (f : Frame) : (e.dir f).next = some f := by
  rw [next, dir_valid, if_pos rfl, dir_frame]

def tableAt (mem : Frame → PageData) (root : Frame) : List (Fin 512) → Option Frame
  | [] => some root
  | i :: q => (tableAt mem root q).bind fun f => (entryAt mem f i).next

def Inner (own : Fin 512 → Prop) : List (Fin 512) → Prop
  | [] => True
  | [i] => own i
  | [_, i] => own i
  | _ => False

section Tree

variable {own : Fin 512 → Prop} {mem mem' : Frame → PageData} {root f g : Frame} {pgs : List Frame}
  {q : List (Fin 512)} {i : Fin 512}
  {vaddr : ℕ} {w : BitVec 64}

theorem Inner.tail (h : Inner own (i :: q)) : Inner own q := by
  match q, h with
  | [], _ => trivial
  | [_], h => exact h

theorem Inner.length_le (h : Inner own q) : q.length ≤ 2 := by
  match q, h with
  | [], _ => simp
  | [_], _ => simp
  | [_, _], _ => simp

/-- The owned tables are distinct pages of the page table, and their entries lead to
tables. -/
structure TableOk (own : Fin 512 → Prop) (mem : Frame → PageData) (pgs : List Frame)
    (root : Frame) : Prop where
  mem_pgs : ∀ q, Inner own q → ∀ f, tableAt mem root q = some f → f ∈ pgs
  inj : ∀ q q', Inner own q → Inner own q' → ∀ f, tableAt mem root q = some f →
    tableAt mem root q' = some f → q = q'
  dir : ∀ i q, Inner own (i :: q) → ∀ f, tableAt mem root q = some f →
    (entryAt mem f i).isLeaf = false

/-- The entry for a page of an owned subtree, or an empty one if its table is missing. -/
def leafEntry (mem : Frame → PageData) (root : Frame) (vaddr : ℕ) : PTE :=
  match tableAt mem root [addrGetPpn1 vaddr, addrGetPpn2 vaddr] with
  | some f => entryAt mem f (addrGetPpn0 vaddr)
  | none => default

theorem tableAt_congr (h : TableOk own mem pgs root) (hmem : ∀ f ∈ pgs, mem' f = mem f)
    (hq : Inner own q) : tableAt mem' root q = tableAt mem root q := by
  induction q with
  | nil => rfl
  | cons i q ih =>
    rw [tableAt, tableAt, ih hq.tail]
    cases hf : tableAt mem root q with
    | none => rfl
    | some f => simp only [Option.bind_some, entryAt, hmem f (h.mem_pgs q hq.tail f hf)]

theorem TableOk.congr (h : TableOk own mem pgs root) (hmem : ∀ f ∈ pgs, mem' f = mem f) :
    TableOk own mem' pgs root where
  mem_pgs := by
    intro q hq f hf
    rw [tableAt_congr h hmem hq] at hf
    exact h.mem_pgs q hq f hf
  inj := by
    intro q q' hq hq' f hf hf'
    rw [tableAt_congr h hmem hq] at hf
    rw [tableAt_congr h hmem hq'] at hf'
    exact h.inj q q' hq hq' f hf hf'
  dir := by
    intro i q hq f hf
    rw [tableAt_congr h hmem hq.tail] at hf
    rw [entryAt, hmem f (h.mem_pgs q hq.tail f hf)]
    exact h.dir i q hq f hf

theorem leafEntry_congr (h : TableOk own mem pgs root) (hmem : ∀ f ∈ pgs, mem' f = mem f)
    (hv : own (addrGetPpn2 vaddr)) :
    leafEntry mem' root vaddr = leafEntry mem root vaddr := by
  have hq : Inner own [addrGetPpn1 vaddr, addrGetPpn2 vaddr] := hv
  rw [leafEntry, leafEntry, tableAt_congr h hmem hq]
  cases hf : tableAt mem root [addrGetPpn1 vaddr, addrGetPpn2 vaddr] with
  | none => rfl
  | some f => simp only [entryAt, hmem f (h.mem_pgs _ hq f hf)]

/-- The frames of the path to a leaf entry are all that the unit looks at. -/
theorem mmuWalk_eq (p : Phys) (h : TableOk own p.mem pgs root) (hv : own (addrGetPpn2 vaddr)) :
    p.mmuWalk root [addrGetPpn2 vaddr, addrGetPpn1 vaddr, addrGetPpn0 vaddr] =
      (tableAt p.mem root [addrGetPpn1 vaddr, addrGetPpn2 vaddr]).map
        fun f => entryAt p.mem f (addrGetPpn0 vaddr) := by
  have hroot := h.dir (addrGetPpn2 vaddr) [] hv root rfl
  simp only [Phys.mmuWalk, tableAt, Option.bind_some]
  rw [← entryAt, hroot]
  cases hvalid : (entryAt p.mem root (addrGetPpn2 vaddr)).valid with
  | false => simp [PTE.next, hvalid]
  | true =>
    have hnext : (entryAt p.mem root (addrGetPpn2 vaddr)).next =
        some (entryAt p.mem root (addrGetPpn2 vaddr)).frame := by simp [PTE.next, hvalid]
    set m := (entryAt p.mem root (addrGetPpn2 vaddr)).frame
    have hmid := h.dir (addrGetPpn1 vaddr) [addrGetPpn2 vaddr] hv m (by
      rw [tableAt, tableAt, Option.bind_some, hnext])
    rw [hnext, Option.bind_some]
    simp only [Bool.not_false, Bool.and_true, if_true]
    rw [← entryAt, hmid]
    cases hvalid' : (entryAt p.mem m (addrGetPpn1 vaddr)).valid with
    | false => simp [PTE.next, hvalid']
    | true =>
      simp only [PTE.next, hvalid', if_true, Option.map_some, Bool.not_false, Bool.and_true]
      rfl

/-- The memory after a store to word `i` of frame `f`. -/
def storeWord (mem : Frame → PageData) (f : Frame) (i : Fin 512) (w : BitVec 64) :
    Frame → PageData :=
  replaceAt mem f (replaceAt (mem f) i w)

theorem entryAt_storeWord (mem : Frame → PageData) (f g : Frame) (i j : Fin 512) (w : BitVec 64) :
    entryAt (storeWord mem f i w) g j =
      if g = f ∧ j = i then PTE.ofWord w else entryAt mem g j := by
  unfold entryAt storeWord
  by_cases hg : g = f
  · subst hg
    by_cases hj : j = i
    · subst hj
      simp
    · simp [hj, replaceAt_of_ne]
  · simp [hg, replaceAt_of_ne]

theorem storeWord_of_ne (hg : g ≠ f) (w : BitVec 64) : storeWord mem f i w g = mem g :=
  replaceAt_of_ne hg

theorem entryAt_storeWord_same (hw : PTE.ofWord w = entryAt mem f i) (g : Frame) (j : Fin 512) :
    entryAt (storeWord mem f i w) g j = entryAt mem g j := by
  rw [entryAt_storeWord]
  split_ifs with h
  · rw [hw, h.1, h.2]
  · rfl

theorem tableAt_of_entryAt (h : ∀ g j, entryAt mem' g j = entryAt mem g j) :
    tableAt mem' root q = tableAt mem root q := by
  induction q with
  | nil => rfl
  | cons i q ih => simp only [tableAt, ih, h]

theorem TableOk.of_entryAt (hok : TableOk own mem pgs root)
    (h : ∀ g j, entryAt mem' g j = entryAt mem g j) : TableOk own mem' pgs root where
  mem_pgs := fun q hq f hf => hok.mem_pgs q hq f (tableAt_of_entryAt h ▸ hf)
  inj := fun q q' hq hq' f hf hf' =>
    hok.inj q q' hq hq' f (tableAt_of_entryAt h ▸ hf) (tableAt_of_entryAt h ▸ hf')
  dir := by
    intro i q hq f hf
    rw [h]
    exact hok.dir i q hq f (tableAt_of_entryAt h ▸ hf)

theorem leafEntry_of_entryAt (h : ∀ g j, entryAt mem' g j = entryAt mem g j) (vaddr : ℕ) :
    leafEntry mem' root vaddr = leafEntry mem root vaddr := by
  rw [leafEntry, leafEntry, tableAt_of_entryAt h]
  cases tableAt mem root [addrGetPpn1 vaddr, addrGetPpn2 vaddr] with
  | none => rfl
  | some f => exact h f _

section StoreLeaf

variable {w : BitVec 64} (h : TableOk own mem pgs root) (hq : Inner own q) (hlen : q.length = 2)
  (hf : tableAt mem root q = some f)

include h hq hlen hf

theorem tableAt_storeLeaf {q' : List (Fin 512)} (hq' : Inner own q') :
    tableAt (storeWord mem f i w) root q' = tableAt mem root q' := by
  induction q' with
  | nil => rfl
  | cons j q' ih =>
    rw [tableAt, tableAt, ih hq'.tail]
    cases hg : tableAt mem root q' with
    | none => rfl
    | some g =>
      have hne : g ≠ f := by
        rintro rfl
        have heq := h.inj q' q hq'.tail hq g hg hf
        have := hq'.length_le
        rw [List.length_cons, heq, hlen] at this
        omega
      simp only [Option.bind_some, entryAt, storeWord_of_ne hne]

theorem TableOk.storeLeaf : TableOk own (storeWord mem f i w) pgs root where
  mem_pgs := by
    intro q' hq' g hg
    rw [tableAt_storeLeaf h hq hlen hf hq'] at hg
    exact h.mem_pgs q' hq' g hg
  inj := by
    intro q₁ q₂ hq₁ hq₂ g hg₁ hg₂
    rw [tableAt_storeLeaf h hq hlen hf hq₁] at hg₁
    rw [tableAt_storeLeaf h hq hlen hf hq₂] at hg₂
    exact h.inj q₁ q₂ hq₁ hq₂ g hg₁ hg₂
  dir := by
    intro j q' hq' g hg
    rw [tableAt_storeLeaf h hq hlen hf hq'.tail] at hg
    rw [entryAt_storeWord, if_neg]
    · exact h.dir j q' hq' g hg
    · rintro ⟨rfl, _⟩
      have heq := h.inj q' q hq'.tail hq g hg hf
      have := hq'.length_le
      rw [List.length_cons, heq, hlen] at this
      omega

end StoreLeaf

/-- A store to the leaf entry of a page changes the entry of this page alone. -/
theorem leafEntry_storeLeaf (h : TableOk own mem pgs root) (hv : own (addrGetPpn2 vaddr))
    (hf : tableAt mem root [addrGetPpn1 vaddr, addrGetPpn2 vaddr] = some f) {u : ℕ}
    (hu : own (addrGetPpn2 u)) :
    leafEntry (storeWord mem f (addrGetPpn0 vaddr) w) root u =
      if addrGetPpn0 u = addrGetPpn0 vaddr ∧ addrGetPpn1 u = addrGetPpn1 vaddr ∧
        addrGetPpn2 u = addrGetPpn2 vaddr then PTE.ofWord w else leafEntry mem root u := by
  have hqv : Inner own [addrGetPpn1 vaddr, addrGetPpn2 vaddr] := hv
  have hqu : Inner own [addrGetPpn1 u, addrGetPpn2 u] := hu
  rw [leafEntry, leafEntry, tableAt_storeLeaf h hqv rfl hf hqu]
  cases hg : tableAt mem root [addrGetPpn1 u, addrGetPpn2 u] with
  | none =>
    rw [if_neg]
    rintro ⟨_, h1, h2⟩
    rw [h1, h2, hf] at hg
    cases hg
  | some g =>
    simp only [entryAt_storeWord]
    by_cases hgf : g = f
    · subst hgf
      have heq := h.inj _ _ hqu hqv g hg hf
      simp only [List.cons.injEq, and_true] at heq
      simp [heq.1, heq.2]
    · rw [if_neg (fun hc => hgf hc.1), if_neg]
      rintro ⟨_, h1, h2⟩
      rw [h1, h2, hf] at hg
      exact hgf (Option.some.inj hg).symm

section StoreDir

variable {w : BitVec 64} (h : TableOk own mem pgs root) (hq : Inner own (i :: q))
  (hf : tableAt mem root q = some f) (hnone : (entryAt mem f i).next = none)
  (hw : (PTE.ofWord w).next = some g) (hg : g ∉ pgs) (hzero : mem g = fun _ => 0)

include h hq hf hnone hw hg hzero

/-- A new empty table hung below an entry is all that changes in the tree. -/
theorem tableAt_storeDir {q' : List (Fin 512)} (hq' : Inner own q') :
    tableAt (storeWord mem f i w) root q' =
      if q' = i :: q then some g else tableAt mem root q' := by
  have hgf : g ≠ f := by
    rintro rfl
    exact hg (h.mem_pgs q hq.tail g hf)
  induction q' with
  | nil => rfl
  | cons j q' ih =>
    rw [tableAt, ih hq'.tail]
    by_cases hchild : q' = i :: q
    · -- the entries of the new table are empty, and there was none before
      have hne : j :: q' ≠ i :: q := by
        intro heq
        have := congrArg List.length (List.cons.inj heq).2
        rw [hchild] at this
        simp at this
      rw [if_pos hchild, if_neg hne, Option.bind_some, tableAt, hchild, tableAt, hf,
        Option.bind_some, hnone, entryAt, storeWord_of_ne hgf, hzero]
      simp
    · rw [if_neg hchild]
      by_cases hqq : q' = q
      · subst hqq
        rw [hf, Option.bind_some, entryAt_storeWord]
        by_cases hj : j = i
        · subst hj
          rw [if_pos ⟨rfl, rfl⟩, if_pos rfl, hw]
        · rw [if_neg (fun hc => hj hc.2), if_neg (fun hc => hj (List.cons.inj hc).1), tableAt, hf,
            Option.bind_some]
      · rw [if_neg (fun hc => hqq (List.cons.inj hc).2), tableAt]
        cases hg' : tableAt mem root q' with
        | none => rfl
        | some g' =>
          have hne : g' ≠ f := by
            rintro rfl
            exact hqq (h.inj q' q hq'.tail hq.tail g' hg' hf)
          simp only [Option.bind_some, entryAt, storeWord_of_ne hne]

theorem TableOk.storeDir (hleaf : (PTE.ofWord w).isLeaf = false) {pgs' : List Frame}
    (hpgs : ∀ f, f ∈ pgs' ↔ f ∈ pgs ∨ f = g) : TableOk own (storeWord mem f i w) pgs' root where
  mem_pgs := by
    intro q' hq' g' hg'
    rw [tableAt_storeDir h hq hf hnone hw hg hzero hq'] at hg'
    rw [hpgs]
    split_ifs at hg'
    · exact .inr (Option.some.inj hg').symm
    · exact .inl (h.mem_pgs q' hq' g' hg')
  inj := by
    intro q₁ q₂ hq₁ hq₂ g' hg₁ hg₂
    rw [tableAt_storeDir h hq hf hnone hw hg hzero hq₁] at hg₁
    rw [tableAt_storeDir h hq hf hnone hw hg hzero hq₂] at hg₂
    split_ifs at hg₁ hg₂ with h₁ h₂ h₂
    · rw [h₁, h₂]
    · cases hg₁
      exact absurd (h.mem_pgs q₂ hq₂ g hg₂) hg
    · cases hg₂
      exact absurd (h.mem_pgs q₁ hq₁ g hg₁) hg
    · exact h.inj q₁ q₂ hq₁ hq₂ g' hg₁ hg₂
  dir := by
    intro j q' hq' g' hg'
    rw [tableAt_storeDir h hq hf hnone hw hg hzero hq'.tail] at hg'
    rw [entryAt_storeWord]
    split_ifs at hg' ⊢ with hc hchild hc
    · exact hleaf
    · exact hleaf
    · cases hg'
      rw [entryAt, hzero]
      simp
    · exact h.dir j q' hq' g' hg'

theorem leafEntry_storeDir {u : ℕ} (hu : own (addrGetPpn2 u)) :
    leafEntry (storeWord mem f i w) root u = leafEntry mem root u := by
  have hqu : Inner own [addrGetPpn1 u, addrGetPpn2 u] := hu
  have hgf : g ≠ f := by
    rintro rfl
    exact hg (h.mem_pgs q hq.tail g hf)
  rw [leafEntry, leafEntry, tableAt_storeDir h hq hf hnone hw hg hzero hqu]
  split_ifs with hc
  · have hbefore : tableAt mem root [addrGetPpn1 u, addrGetPpn2 u] = none := by
      rw [hc, tableAt, hf, Option.bind_some, hnone]
    simp only [hbefore, entryAt, storeWord_of_ne hgf, hzero]
    rfl
  · cases hg' : tableAt mem root [addrGetPpn1 u, addrGetPpn2 u] with
    | none => rfl
    | some g' =>
      have hne : g' ≠ f := by
        rintro rfl
        have heq := h.inj _ q hqu hq.tail g' hg' hf
        have := hq.length_le
        rw [List.length_cons, ← heq] at this
        simp at this
      simp only [entryAt, storeWord_of_ne hne]

end StoreDir

end Tree

end Zinix
