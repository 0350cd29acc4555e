import Zinix.Mm.Fork
import Zinix.Mm.Heap

/-!
# Work on one address space

What each call on an address space does to its areas and to memory. A page fault stops at a
page that another area than the one found there holds.
-/

namespace Zinix

open Program

namespace Mm

/-- An address space of the default build between two calls. -/
structure Sane (mm : Mm) (p : Phys) : Prop where
  sound : Sound mm p
  plain : ∀ k vma, mm.areas k = some vma → vma.cowWriteReservePgs = none
  heap : mm.HeapKept
  keys : ∀ k vma, mm.areas k = some vma → k < userSpaceEnd
  brk_le : mm.brk ≤ userSpaceEnd

/-- What a call does to its address space and to memory. -/
structure Worked (mm : Mm) (p : Phys) (mm' : Mm) (p' : Phys) : Prop where
  sane : Sane mm' p'
  pagetable : mm'.pagetable = mm.pagetable
  isLocal : Local p mm.areas p' mm'.areas mm.pagetable

variable {mm mm' mm'' : Mm} {p p' p'' : Phys} {k v a : ℕ} {vma w : Vma} {f : Frame}

theorem Worked.refl (h : Sane mm p) : Worked mm p mm p := ⟨h, rfl, .refl p _ _⟩

theorem Worked.trans (h : Worked mm p mm' p') (h' : Worked mm' p' mm'' p'') :
    Worked mm p mm'' p'' := by
  refine ⟨h'.sane, h'.pagetable.trans h.pagetable, h.isLocal.trans ?_⟩
  rw [← h.pagetable]
  exact h'.isLocal

section Fault

theorem PagedIn.worked {pg : PageData} (h : PagedIn mm p v mm' p' k vma f pg) (hmm : Sane mm p) :
    Worked mm p mm' p' := by
  have hk := (findVma_eq_some.mp h.found).1
  have hsame := PagedIn.sameArea vma v f
  refine ⟨⟨h.sound hmm.sound, fun j w hj => h.plain hmm.plain hj, ?_, ?_, ?_⟩, ?_, ?_⟩
  · rw [h.result]
    exact hmm.heap.sameRange hk ⟨hsame.startVaddr, hsame.endVaddr⟩
  · intro j w' hj
    obtain ⟨w, hw, -⟩ := areas_of_rel' h.areas_rel hj
    exact hmm.keys j w hw
  · rw [h.result, setVma_brk]
    exact hmm.brk_le
  · rw [h.result, setVma_pagetable]
  · rw [h.result, areas_setVma]
    exact h.added.isLocal hk h.absent (Vma.touched_pagesTree _)

-- The unifier looks into the sums with a page size.
set_option maxRecDepth 10000

theorem Sane.access (h : Sane mm p) (a : ℕ) (prot : PgFaultProt) (n : ℕ) :
    Sat (access a prot n mm) p
      (fun r p' => Worked mm p r.2 p' ∧ ∃ k, Holds r.2.areas k (Vaddr.down a) r.1)
      fun _ => True := by
  induction n generalizing mm p with
  | zero => exact sat_throw trivial
  | succ n ih =>
    unfold Mm.access
    apply Sat.get_bind
    cases htrans : mm.translate p a prot with
    | some f =>
      obtain ⟨ha, hvalid, rfl⟩ := h.sound.of_translate htrans
      exact sat_pure ⟨.refl h, h.sound.holds_of_valid (isUserPage_down ha) hvalid⟩
    | none =>
      have hfault := trapPageFaultHandler_sat h.sound.ok h.sound.low a
      refine (hfault.weaken fun _ _ => trivial).bind ?_
      rintro mm' p' ⟨k, vma, f, pg, hin⟩
      have hworked := hin.worked h
      refine (ih hworked.sane).imp ?_
      rintro r p'' ⟨hworked', hholds⟩
      exact ⟨hworked.trans hworked', hholds⟩

theorem Sane.setPage (h : Sane mm p) (hf : Holds mm.areas k v f) (pg : PageData) :
    Worked mm p mm (p.setPage f pg) := by
  obtain ⟨-, htable⟩ := h.sound.ok.live k v f hf
  refine ⟨⟨h.sound.setPage htable pg, h.plain, h.heap, h.keys, h.brk_le⟩, rfl, ?_⟩
  refine ⟨?_, fun _ hg => .inl hg, fun _ _ => rfl, le_rfl⟩
  intro g hg hnot
  refine ⟨hg, replaceAt_of_ne ?_⟩
  rintro rfl
  exact hnot (.inr ⟨k, v, hf⟩)

theorem Sane.userLoad (h : Sane mm p) (a : ℕ) (prot : PgFaultProt) :
    Sat (mm.userLoad a prot) p (fun r p' => Worked mm p r.2 p') fun _ => True := by
  unfold Mm.userLoad
  refine (h.access a prot accessTries).bind ?_
  rintro ⟨f, mm'⟩ p' ⟨hworked, -⟩
  exact hworked

theorem Sane.userStore (h : Sane mm p) (a : ℕ) (b : BitVec 8) :
    Sat (mm.userStore a b) p (fun mm' p' => Worked mm p mm' p') fun _ => True := by
  unfold Mm.userStore
  refine (h.access a .write accessTries).bind ?_
  rintro ⟨f, mm'⟩ p' ⟨hworked, k, hf⟩
  exact hworked.trans (hworked.sane.setPage hf _)

end Fault

section Mmap

variable {len : ℕ} {vaddr : Option ℕ} {flags prot : BitVec 64}

structure NewArea (mm : Mm) (w : Vma) : Prop where
  tree : w.pagesTree = ∅
  pagetable : w.pagetable = some mm.pagetable
  plain : w.cowWriteReservePgs = none
  top : w.endVaddr ≤ userSpaceEnd
  key : w.startVaddr < userSpaceEnd

theorem Sane.setNew (h : Sane mm p) (hw : NewArea mm w)
    (hheap : (mm.setVma w.startVaddr w).HeapKept) {A : Areas}
    (hA : ∀ j, j ≠ w.startVaddr → A j = mm.areas j) (hok : AreasOk p' mm.pagetable A)
    (hlocal : Local p mm.areas p' A mm.pagetable) (hempty : ∀ v f, ¬Holds A w.startVaddr v f) :
    Worked mm p (mm.setVma w.startVaddr w) p' := by
  have hareas : (mm.setVma w.startVaddr w).areas = replaceAt A w.startVaddr (some w) := by
    rw [areas_setVma]
    funext j
    rw [replaceAt_apply, replaceAt_apply]
    split_ifs with hj
    · rfl
    · rw [hA j hj]
  have hcases : ∀ j x, (mm.setVma w.startVaddr w).areas j = some x →
      j = w.startVaddr ∧ x = w ∨ mm.areas j = some x := by
    intro j x hj
    rw [areas_setVma, replaceAt_apply] at hj
    split_ifs at hj with heq
    · exact .inl ⟨heq, (Option.some.inj hj).symm⟩
    · exact .inr hj
  refine ⟨⟨⟨?_, ?_⟩, ?_, hheap, ?_, h.brk_le⟩, rfl, ?_⟩
  · rw [hareas]
    exact hok.insertEmpty hempty hw.tree hw.pagetable
  · intro j x hj
    rcases hcases j x hj with ⟨-, rfl⟩ | hj
    · exact hw.top
    · exact h.sound.low j x hj
  · intro j x hj
    rcases hcases j x hj with ⟨-, rfl⟩ | hj
    · exact hw.plain
    · exact h.plain j x hj
  · intro j x hj
    rcases hcases j x hj with ⟨rfl, -⟩ | hj
    · exact hw.key
    · exact h.keys j x hj
  · rw [hareas]
    refine hlocal.of_holds ?_
    intro j u g hg
    rcases holds_replaceAt.mp hg with ⟨-, hg⟩ | ⟨-, hg⟩
    · rw [hw.tree, OrdMap.get?_empty] at hg
      cases hg
    · exact hg

theorem Sane.insertNoCheck (h : Sane mm p) (hspot : Spot mm len w) (hw : NewArea mm w) :
    Sat (mm.insertNoCheck w) p (fun mm' p' => Worked mm p mm' p')
      fun _ => False := by
  have hheap : (mm.setVma w.startVaddr w).HeapKept :=
    h.heap.setVma rfl hspot.aligned (by rw [hspot.end_eq]; exact Nat.le_add_right _ _) hspot.below
  unfold Mm.insertNoCheck
  cases hold : mm.vmas.get? w.startVaddr with
  | none =>
    refine sat_pure (h.setNew hw hheap (fun _ _ => rfl) h.sound.ok (.refl p _ _) ?_)
    rintro v f ⟨old, hget, -⟩
    cases hold.symm.trans hget
  | some old =>
    refine (Vma.drop_sat h.sound.ok hold (h.sound.ok.pagetable _ old hold)
      (fun _ _ hf => hf) (h.plain _ old hold)).bind ?_
    rintro _ p' ⟨hok, hlocal, -⟩
    refine sat_pure (h.setNew hw hheap (fun j hj => replaceAt_of_ne hj) hok hlocal ?_)
    intro v f hf
    obtain ⟨hheld, hgone⟩ := (holds_withoutPages hold).mp hf
    have hcontains := OrdMap.contains_iff.mpr ⟨f, hheld.get hold⟩
    rw [hgone rfl] at hcontains
    cases hcontains

theorem newArea_of_spot (hspot : Spot mm len w) (htree : w.pagesTree = ∅)
    (hpt : w.pagetable = some mm.pagetable) (hplain : w.cowWriteReservePgs = none) :
    NewArea mm w := by
  have htop := hspot.top
  have hend := hspot.end_eq
  have hrange : mmapTop < userSpaceEnd := by decide
  exact ⟨htree, hpt, hplain, by omega, by omega⟩

theorem HeapKept.newArea_allocMmapAnon (h : mm.HeapKept)
    (hw : mm.allocMmapAnon vaddr len flags prot = .ok (some w)) :
    NewArea mm w := by
  have hspot := h.allocMmapAnon hw
  obtain ⟨ret, hret, hw⟩ := Checked.bind_eq_ok.mp hw
  obtain ⟨vma, rfl, rfl⟩ := Option.map_eq_some_iff.mp (Except.ok.inj hw)
  obtain ⟨-, -, hempty⟩ := h.allocUnmappedCore hret
  refine newArea_of_spot hspot ?_ rfl ?_
  · show vma.pagesTree = ∅
    rw [hempty]
    rfl
  · show vma.cowWriteReservePgs = none
    rw [hempty]
    rfl

theorem HeapKept.newArea_allocMmapFile (h : mm.HeapKept) {off fileLen : ℕ} {file : MappedFile}
    (hw : mm.allocMmapFile vaddr len file off fileLen flags prot = .ok (some w)) :
    NewArea mm w := by
  obtain ⟨hspot, -, heq⟩ := h.allocMmapFile hw
  refine newArea_of_spot hspot ?_ ?_ ?_
  · rw [heq]
    rfl
  · rw [heq]
    rfl
  · rw [heq]
    rfl

theorem Sane.sysMmap (h : Sane mm p) (va len : ℕ) (prot flags : BitVec 64)
    (file : Option MappedFile) (offset : ℕ) :
    Sat (mm.sysMmap va len prot flags file offset) p (fun r p' => Worked mm p r.2 p')
      (· ≠ .todo) := by
  have hinsert : ∀ {w : Vma} (k : ℤ), Spot mm len w → NewArea mm w →
      Sat (do return (k, ← mm.insertNoCheck w)) p (fun r p' => Worked mm p r.2 p') (· ≠ .todo) := by
    intro w k hspot hw
    exact ((h.insertNoCheck hspot hw).weaken fun _ he => he.elim).bind fun mm' p' hmm' => hmm'
  unfold Mm.sysMmap
  refine Sat.ite (fun _ => ?_) fun _ => ?_
  · refine Sat.lift_bind (fun r hr => ?_) ?_
    · cases r with
      | none => exact sat_pure (.refl h)
      | some w => exact hinsert _ (h.heap.allocMmapAnon hr) (h.heap.newArea_allocMmapAnon hr)
    · exact Checked.Avoids.bind avoids_allocUnmappedCore fun _ => Checked.avoids_ok _
  · cases file with
    | none => exact sat_pure (.refl h)
    | some file =>
      refine Sat.lift_bind (fun r hr => ?_) ?_
      · cases r with
        | none => exact sat_pure (.refl h)
        | some w => exact hinsert _ (h.heap.allocMmapFile hr).1 (h.heap.newArea_allocMmapFile hr)
      · refine Checked.Avoids.bind (Checked.avoids_ensure nofun) fun _ => ?_
        exact .bind avoids_allocUnmappedCore fun _ => Checked.avoids_ok _

end Mmap

section Brk

variable {b : ℕ}

theorem split_cases {new : Option Vma} (h : vma.split b = .ok (new, w)) :
    new = none ∧ w = vma ∨ ∃ d, new = some d ∧ d.pagetable = vma.pagetable ∧
      d.cowWriteReservePgs = none ∧ d.pagesTree = vma.pagesTree.filter (b ≤ ·) ∧
      w = { vma with endVaddr := b, pagesTree := vma.pagesTree.filter (· < b) } := by
  by_cases hin : vma.inVma b
  · rw [Vma.split_of_inVma hin] at h
    cases h
    exact .inl ⟨rfl, rfl⟩
  · rw [Vma.split, if_neg hin] at h
    simp only at h
    split_ifs at h
    · obtain ⟨pt, hpt, h⟩ := Checked.bind_eq_ok.mp h
      cases h
      exact .inr ⟨_, rfl, (Checked.unwrap_eq_ok.mp hpt).symm, rfl, rfl, rfl⟩

theorem Sane.setEnd (h : Sane mm p) (hk : mm.areas k = some vma) {top : ℕ} {tree : OrdMap Frame}
    (hw : w = { vma with endVaddr := b, pagesTree := tree }) (hb : b ≤ userSpaceEnd)
    (htop : top ≤ userSpaceEnd) (hheap : (mm.setVma k w).HeapKept)
    (hok : AreasOk p' mm.pagetable (replaceAt mm.areas k (some { vma with pagesTree := tree })))
    (hlocal : Local p mm.areas p' (replaceAt mm.areas k (some { vma with pagesTree := tree }))
      mm.pagetable) : Worked mm p { mm.setVma k w with brk := top } p' := by
  have hareas : areas { mm.setVma k w with brk := top } = replaceAt mm.areas k (some w) :=
    areas_setVma mm k w
  have hcases : ∀ j x, areas { mm.setVma k w with brk := top } j = some x →
      j = k ∧ x = w ∨ mm.areas j = some x := by
    intro j x hj
    rw [hareas, replaceAt_apply] at hj
    split_ifs at hj with heq
    · exact .inl ⟨heq, (Option.some.inj hj).symm⟩
    · exact .inr hj
  subst hw
  refine ⟨⟨⟨?_, ?_⟩, ?_, hheap.congr rfl rfl, ?_, htop⟩, rfl, ?_⟩
  · have hset : AreasOk p' mm.pagetable (replaceAt (replaceAt mm.areas k _) k
        (some { vma with endVaddr := b, pagesTree := tree })) :=
      hok.replace replaceAt_self rfl rfl fun _ hflags => hflags
    rw [replaceAt_replaceAt] at hset
    rwa [hareas]
  · intro j x hj
    rcases hcases j x hj with ⟨-, rfl⟩ | hj
    · exact hb
    · exact h.sound.low j x hj
  · intro j x hj
    rcases hcases j x hj with ⟨-, rfl⟩ | hj
    · exact h.plain k vma hk
    · exact h.plain j x hj
  · intro j x hj
    rcases hcases j x hj with ⟨rfl, -⟩ | hj
    · exact h.keys j vma hk
    · exact h.keys j x hj
  · rw [hareas]
    refine hlocal.of_holds ?_
    intro j u g hg
    rw [holds_replaceAt] at hg ⊢
    exact hg

theorem Sane.shrinkBrk (h : Sane mm p) (hlow : mm.startBrk ≤ b) (hb : b < mm.brk) :
    Sat (mm.shrinkBrk b) p (fun r p' => Worked mm p r.2 p') fun _ => True := by
  have hbound : b ≤ userSpaceEnd := hb.le.trans h.brk_le
  unfold Mm.shrinkBrk
  refine Sat.lift_bind (fun e he => ?_) fun _ _ => trivial
  obtain ⟨k, vma⟩ := e
  have hfind := Checked.unwrap_eq_ok.mp he
  have hkey := h.heap.key_of_findVma hfind
  have hk := (findVma_eq_some.mp hfind).1
  refine Sat.lift_bind (fun r hr => ?_) fun _ _ => trivial
  obtain ⟨new, w⟩ := r
  rcases split_cases hr with ⟨rfl, rfl⟩ | ⟨d, rfl, hpt, hplain, htree, hw⟩
  · refine sat_pure (h.setEnd hk rfl (h.sound.low k w hk) h.brk_le ?_ ?_ ?_)
    · exact h.heap.sameRange hk ⟨rfl, rfl⟩
    · rw [replaceAt_eq_self hk]
      exact h.sound.ok
    · rw [replaceAt_eq_self hk]
      exact .refl p _ _
  · have hsub : ∀ v f, d.pagesTree.get? v = some f → vma.pagesTree.get? v = some f := by
      intro v f hf
      rw [htree, OrdMap.get?_filter] at hf
      split_ifs at hf
      exact hf
    have hrest : (vma.pagesTree.filter fun v => !d.pagesTree.contains v) =
        vma.pagesTree.filter (· < b) := by
      ext v
      rw [OrdMap.get?_filter, OrdMap.get?_filter, htree, OrdMap.contains, OrdMap.get?_filter]
      by_cases hv : v < b
      · simp [hv]
      · cases vma.pagesTree.get? v with
        | none => simp
        | some f => simp [hv, Nat.not_lt.mp hv]
    refine (Vma.drop_sat h.sound.ok hk (hpt.trans (h.sound.ok.pagetable k vma hk)) hsub hplain).bind ?_
    rintro _ p' ⟨hok, hlocal, -⟩
    rw [Vma.withoutPages, hrest] at hok hlocal
    refine sat_pure (h.setEnd hk hw hbound h.brk_le ?_ hok hlocal)
    refine h.heap.setVma ?_ (h.heap.aligned k vma hk) ?_ ?_
    · rw [hw]
      exact h.heap.keyed k vma hk
    · rw [hw, hkey]
      exact hlow
    · intro hlt
      exact absurd hlt (by omega)

theorem brkLimit_le_mmapTop : mm.brkLimit ≤ mmapTop := by
  unfold brkLimit
  cases hhead : ((mm.vmas.range mm.startBrk mmapTop).drop 1).head? with
  | none => exact le_rfl
  | some e =>
    have hmem := List.mem_of_mem_drop (List.mem_of_head? hhead)
    exact (OrdMap.mem_range.mp hmem).2.2.le

theorem Sane.sysBrk (h : Sane mm p) (b : ℕ) :
    Sat (mm.sysBrk b) p (fun r p' => Worked mm p r.2 p') fun _ => True := by
  unfold Mm.sysBrk
  refine Sat.ite (fun _ => sat_pure (.refl h)) fun _ => ?_
  refine Sat.ite (fun _ => sat_pure (.refl h)) fun hlow => ?_
  refine Sat.ite (fun _ => sat_pure (.refl h)) fun _ => ?_
  refine Sat.ite (fun hlt => ?_) fun _ => ?_
  · refine (h.shrinkBrk (Nat.not_lt.mp hlow) hlt).bind ?_
    rintro ⟨r, mm'⟩ p' hmm'
    cases r with
    | ok _ => exact sat_pure hmm'
    | error _ => exact sat_pure hmm'
  · refine Sat.lift_bind (fun r hr => ?_) fun _ _ => trivial
    have hkept := h.heap.expandBrk (Nat.not_lt.mp hlow) hr
    have hmm' : Worked mm p r.2 p := by
      obtain ⟨-, ⟨-, rfl⟩ | ⟨hfit, k, vma, hfind, rfl⟩⟩ := expandBrk_cases hr
      · exact .refl h
      · have hk := (findVma_eq_some.mp hfind).1
        have hb : b ≤ userSpaceEnd := (hfit.trans brkLimit_le_mmapTop).trans (by decide)
        refine h.setEnd hk rfl hb hb (hkept.congr rfl rfl) ?_ ?_
        · rw [replaceAt_eq_self hk]
          exact h.sound.ok
        · rw [replaceAt_eq_self hk]
          exact .refl p _ _
    obtain ⟨r, mm'⟩ := r
    cases r with
    | ok _ => exact sat_pure hmm'
    | error _ => exact sat_pure hmm'

end Brk

section Drop

def emptied (A : Areas) (done : List ℕ) : Areas := fun k =>
  if k ∈ done then (A k).map fun vma => { vma with pagesTree := ∅ } else A k

theorem withoutPages_contains (vma : Vma) :
    vma.withoutPages vma.pagesTree.contains = { vma with pagesTree := ∅ } := by
  have htree : (vma.pagesTree.filter fun v => !vma.pagesTree.contains v) = ∅ := by
    ext v
    rw [OrdMap.get?_filter, OrdMap.contains, OrdMap.get?_empty]
    cases vma.pagesTree.get? v with
    | none => simp
    | some f => simp
  rw [Vma.withoutPages, htree]

theorem emptied_append {A : Areas} {done : List ℕ} (hk : A k = some vma) :
    replaceAt (emptied A done) k (some { vma with pagesTree := ∅ }) = emptied A (done ++ [k]) := by
  funext j
  rw [replaceAt_apply, emptied, emptied]
  by_cases hj : j = k
  · subst hj
    simp [hk]
  · simp [hj]

theorem local_dropTable (p : Phys) (A : Areas) (pt : ℕ) :
    Local p A (PageTable.drop p pt) (fun _ => none) pt where
  keep := by
    intro f hf hnot
    refine ⟨Finset.mem_sdiff.mpr ⟨hf, fun ht => hnot (.inl ?_)⟩, rfl⟩
    exact List.mem_toFinset.mp ht
  fresh := by
    rintro f (ht | ⟨_, _, _, hnone, _⟩)
    · have hnone : (PageTable.drop p pt).tables pt = [] := replaceAt_self
      rw [hnone] at ht
      cases ht
    · cases hnone
  others := fun _ hq => replaceAt_of_ne hq
  cnt := le_rfl

theorem Sane.drop (h : Sane mm p) :
    Sat mm.drop p
      (fun _ p' => p'.tables mm.pagetable = [] ∧
        Local p mm.areas p' (fun _ => none) mm.pagetable) fun _ => False := by
  have hloop : Sat (mm.vmas.entries.foldlM (fun _ e => e.2.drop) ()) p
      (fun _ p' => AreasOk p' mm.pagetable (emptied mm.areas (mm.vmas.entries.map Prod.fst)) ∧
        Local p mm.areas p' (emptied mm.areas (mm.vmas.entries.map Prod.fst)) mm.pagetable)
      fun _ => False := by
    refine Sat.foldlM (fun done _ p' =>
      AreasOk p' mm.pagetable (emptied mm.areas (done.map Prod.fst)) ∧
        Local p mm.areas p' (emptied mm.areas (done.map Prod.fst)) mm.pagetable) ?_ ?_
    · rintro done ⟨k, vma⟩ rest hsplit _ p₁ ⟨hok, hlocal⟩
      have hk : mm.areas k = some vma := OrdMap.get?_eq_some.mpr (by simp [hsplit])
      have hnew : k ∉ done.map Prod.fst := by
        intro hmem
        obtain ⟨e, he, rfl⟩ := List.mem_map.mp hmem
        have hsorted := mm.vmas.sorted
        rw [hsplit] at hsorted
        exact lt_irrefl e.1 ((List.pairwise_append.mp hsorted).2.2 e he (e.1, vma)
          List.mem_cons_self)
      have hget : emptied mm.areas (done.map Prod.fst) k = some vma := by
        rw [emptied, if_neg hnew, hk]
      refine (Vma.drop_sat hok hget (h.sound.ok.pagetable k vma hk) (fun _ _ hf => hf)
        (h.plain k vma hk)).imp ?_
      rintro _ p₂ ⟨hok', hlocal', -⟩
      rw [withoutPages_contains, emptied_append hk] at hok' hlocal'
      rw [List.map_append]
      exact ⟨hok', hlocal.trans hlocal'⟩
    · have hnil : emptied mm.areas [] = mm.areas := by
        funext k
        simp [emptied]
      rw [List.map_nil, hnil]
      exact ⟨h.sound.ok, .refl p _ _⟩
  unfold Mm.drop
  refine hloop.bind ?_
  rintro _ p' ⟨-, hlocal⟩
  exact sat_modify ⟨replaceAt_self, hlocal.trans (local_dropTable p' _ _)⟩

end Drop

section New

structure Made (p : Phys) (mm : Mm) (p' : Phys) : Prop where
  sane : Sane mm p'
  pagetable : mm.pagetable = p.tableCnt
  cnt : p.tableCnt < p'.tableCnt
  isLocal : Local p (fun _ => none) p' mm.areas mm.pagetable

theorem Built.sane {headers : List ProgramHeader} {file : MappedFile}
    (h : Built headers file mm p) : Sane mm p := by
  have hbrk := h.brk_le
  have htop : stackTop < userSpaceEnd := by decide
  refine ⟨h.tidy.sound, h.tidy.plain, h.heapKept, ?_, by omega⟩
  intro k vma hk
  have hheap := h.heap_lt
  obtain ⟨-, ⟨ph, -, -, hstart, -, hbelow⟩ | ⟨hstart, -⟩ | ⟨hstart, -⟩⟩ := h.place hk
  · have hpage := pageStart_le_pageEnd ph
    omega
  · omega
  · omega

theorem newFromElf_made (headers : List ProgramHeader) (file : MappedFile) :
    Sat (newFromElf headers file) p (fun mm p' => Built headers file mm p' ∧ Made p mm p')
      (· ≠ .todo) := by
  refine ((newFromElf_sat headers file).and (newFromElf_isLocal headers file)).mono ?_ ?_
  · rintro mm p' ⟨hbuilt, hpt, hcnt, hlocal⟩
    exact ⟨hbuilt, hbuilt.sane, hpt, by omega, hlocal⟩
  · exact fun _ he => he.2

theorem Sane.userSpace (h : Sane mm p) (hbooted : p.Booted) : UserSpace mm p :=
  ⟨h.sound, h.keys, hbooted⟩

theorem Sane.newMmByOld (h : Sane mm p) (hbooted : p.Booted) :
    Sat mm.newMmByOld p
      (fun new p' => Forked mm p (mm.vmas.range userSpaceStart userSpaceEnd) new p' ∧
        Made p new p') (mm.ForkPanic p) := by
  have hfork := (h.userSpace hbooted).newMmByOld.and (h.heap.newMmByOld p)
  refine hfork.mono ?_ fun _ he => he.1
  rintro new p' ⟨hforked, hheap⟩
  refine ⟨hforked, ⟨hforked.sound (h.userSpace hbooted), ?_, hheap, ?_, ?_⟩, hforked.pagetable,
    hforked.cnt, hforked.isLocal⟩
  · intro k w hk
    obtain ⟨vma, -, hcopy⟩ := hforked.only_areas hk
    rw [hcopy.shape]
    rfl
  · intro k w hk
    obtain ⟨vma, hvma, -⟩ := hforked.only_areas hk
    exact h.keys k vma hvma
  · rw [hforked.brk]
    exact h.brk_le

end New

end Mm

end Zinix
