import Zinix.Mm.Paging

/-!
# Pages that are brought in early

Two states of an address space of which the second has been paged in further show the same
memory to the user. Areas may overlap here.
-/

namespace Zinix

open Program

namespace Mm

variable {mm : Mm} {p : Phys} {a : ℕ} {f : Frame} {prot : PgFaultProt}

/-- What user code sees at a page: the frame that is mapped there, or else what the page
would be filled with. -/
def seen (mm : Mm) (p : Phys) (v : ℕ) : Option (Checked PageData) :=
  if (p.pte mm.pagetable v).valid then some (.ok (p.mem (p.pte mm.pagetable v).frame))
  else (mm.findVma v).map fun e => e.2.backing v

/-- The page table and the areas agree, and all areas are in the user space. -/
structure Sound (mm : Mm) (p : Phys) : Prop where
  ok : AreasOk p mm.pagetable mm.areas
  low : ∀ k vma, mm.areas k = some vma → vma.endVaddr ≤ userSpaceEnd

/-- The second state has been paged in further than the first. -/
structure Further (mm : Mm) (p : Phys) (mm' : Mm) (p' : Phys) : Prop where
  sound : Sound mm p
  sound' : Sound mm' p'
  pagetable : mm'.pagetable = mm.pagetable
  areas : ∀ k, Option.Rel SameArea (mm.areas k) (mm'.areas k)
  pte : ∀ v, IsUserPage v → (p.pte mm.pagetable v).valid →
    p'.pte mm.pagetable v = p.pte mm.pagetable v
  seen : ∀ v, IsUserPage v → mm'.seen p' v = mm.seen p v

def touchAll (mm : Mm) (addrs : List (ℕ × PgFaultProt)) : Program Phys Mm :=
  addrs.foldlM (fun mm e => do
    let (_, mm) ← access e.1 e.2 accessTries mm
    return mm) mm

section Sound

variable {mm mm' : Mm} {p p' : Phys} {a v k : ℕ} {f : Frame} {vma : Vma} {prot : PgFaultProt}

theorem Tidy.sound (h : Tidy mm p) : Sound mm p := ⟨h.ok, h.low⟩

theorem Sound.translate_eq (h : Sound mm p) (ha : a < userSpaceEnd) :
    mm.translate p a prot =
      if (p.pte mm.pagetable (Vaddr.down a)).permits prot then
        some (p.pte mm.pagetable (Vaddr.down a)).frame else none := by
  rw [Mm.translate, if_pos ha, Phys.translate_eq h.ok.table (userOwn_of_lt ha), Phys.pte_down]

theorem translate_of_not_lt (ha : ¬a < userSpaceEnd) : mm.translate p a prot = none := if_neg ha

theorem Sound.of_translate (h : Sound mm p) (hf : mm.translate p a prot = some f) :
    a < userSpaceEnd ∧ (p.pte mm.pagetable (Vaddr.down a)).valid ∧
      (p.pte mm.pagetable (Vaddr.down a)).frame = f := by
  by_cases ha : a < userSpaceEnd
  · rw [h.translate_eq ha] at hf
    split_ifs at hf with hpermits
    have hvalid : (p.pte mm.pagetable (Vaddr.down a)).valid := by
      simp only [PTE.permits, Bool.and_eq_true] at hpermits
      exact hpermits.1.1.1
    exact ⟨ha, hvalid, Option.some.inj hf⟩
  · rw [translate_of_not_lt ha] at hf
    cases hf

theorem Sound.holds_of_valid (h : Sound mm p) (hv : IsUserPage v)
    (hvalid : (p.pte mm.pagetable v).valid) :
    ∃ k, Holds mm.areas k v (p.pte mm.pagetable v).frame := by
  obtain ⟨k, f, hf⟩ := h.ok.covered v hv hvalid
  rw [h.ok.pte_frame hf]
  exact ⟨k, hf⟩

theorem Sound.frame_inj (h : Sound mm p) {u : ℕ} (hu : IsUserPage u) (hv : IsUserPage v)
    (hu' : (p.pte mm.pagetable u).valid) (hv' : (p.pte mm.pagetable v).valid)
    (heq : (p.pte mm.pagetable u).frame = (p.pte mm.pagetable v).frame) : u = v := by
  obtain ⟨j, hj⟩ := h.holds_of_valid hu hu'
  obtain ⟨k, hk⟩ := h.holds_of_valid hv hv'
  rw [heq] at hj
  exact (h.ok.inj j u _ k v hj hk).2

theorem Sound.not_mem_tables (h : Sound mm p) (hv : IsUserPage v)
    (hvalid : (p.pte mm.pagetable v).valid) :
    (p.pte mm.pagetable v).frame ∉ p.tables mm.pagetable := by
  obtain ⟨k, hk⟩ := h.holds_of_valid hv hvalid
  exact (h.ok.live k v _ hk).2

theorem Sound.setPage (h : Sound mm p) (hf : f ∉ p.tables mm.pagetable) (pg : PageData) :
    Sound mm (p.setPage f pg) := ⟨h.ok.setPage hf pg, h.low⟩

end Sound

namespace PagedIn

variable {mm mm' : Mm} {p p' : Phys} {v k : ℕ} {f : Frame} {vma : Vma} {pg : PageData}

theorem sound (h : PagedIn mm p v mm' p' k vma f pg) (hmm : Sound mm p) : Sound mm' p' := by
  refine ⟨?_, ?_⟩
  · rw [h.result, areas_setVma, setVma_pagetable]
    exact h.added.ok_touched
  · intro j w' hj
    obtain ⟨w, hw, hsame⟩ := areas_of_rel' h.areas_rel hj
    rw [hsame.endVaddr]
    exact hmm.low j w hw

theorem seen (h : PagedIn mm p v mm' p' k vma f pg) (hmm : Sound mm p) {u : ℕ}
    (hu : IsUserPage u) : mm'.seen p' u = mm.seen p u := by
  have htable : mm'.pagetable = mm.pagetable := by rw [h.result, setVma_pagetable]
  unfold Mm.seen
  rw [htable]
  by_cases huv : u = v
  · subst huv
    rw [h.added.pte, h.added.free, if_pos (leaf_vmaFlags_valid f vma.vmFlags), PTE.leaf_frame,
      h.added.mem, if_neg Bool.false_ne_true, h.found]
    exact congrArg some h.backing.symm
  · rw [h.added.others u hu huv]
    by_cases hvalid : (p.pte mm.pagetable u).valid
    · obtain ⟨j, hj⟩ := hmm.holds_of_valid hu hvalid
      obtain ⟨hlive, htab⟩ := hmm.ok.live j u _ hj
      rw [if_pos hvalid, if_pos hvalid, h.added.grows.mem _ hlive htab]
    · rw [if_neg hvalid, if_neg hvalid]
      cases hfind : mm.findVma u with
      | none => rw [findVma_none_of_rel h.areas_rel hfind]
      | some e =>
        obtain ⟨w', hfind', hsame⟩ := findVma_of_rel h.areas_rel hfind
        rw [hfind', Option.map_some, Option.map_some, hsame.backing]

theorem further (h : PagedIn mm p v mm' p' k vma f pg) (hmm : Sound mm p) :
    Further mm p mm' p' := by
  refine ⟨hmm, h.sound hmm, by rw [h.result, setVma_pagetable], h.areas_rel, ?_,
    fun u hu => h.seen hmm hu⟩
  intro u hu hvalid
  refine h.added.others u hu ?_
  rintro rfl
  rw [h.added.free] at hvalid
  cases hvalid

end PagedIn

namespace Further

variable {mm mm' mm'' : Mm} {p p' p'' : Phys} {a : ℕ} {f : Frame} {prot : PgFaultProt}

theorem refl (h : Sound mm p) : Further mm p mm p :=
  ⟨h, h, rfl, fun _ => rel_refl _, fun _ _ _ => rfl, fun _ _ => rfl⟩

theorem trans (h : Further mm p mm' p') (h' : Further mm' p' mm'' p'') :
    Further mm p mm'' p'' := by
  refine ⟨h.sound, h'.sound', h'.pagetable.trans h.pagetable,
    fun k => rel_trans (h.areas k) (h'.areas k), ?_, ?_⟩
  · intro v hv hvalid
    have hpte := h.pte v hv hvalid
    have hvalid' : (p'.pte mm'.pagetable v).valid := by rwa [h.pagetable, hpte]
    have hpte' := h'.pte v hv hvalid'
    rw [h.pagetable] at hpte'
    rw [hpte', hpte]
  · intro v hv
    rw [h'.seen v hv, h.seen v hv]

/-- What can be reached in the first state is reached in the second, in the same frame. -/
theorem translate (h : Further mm p mm' p') (hf : mm.translate p a prot = some f) :
    mm'.translate p' a prot = some f := by
  obtain ⟨ha, hvalid, -⟩ := h.sound.of_translate hf
  rw [h.sound'.translate_eq ha, h.pagetable, h.pte _ (isUserPage_down ha) hvalid,
    ← h.sound.translate_eq ha, hf]

theorem mem (h : Further mm p mm' p') (hf : mm.translate p a prot = some f) :
    p'.mem f = p.mem f := by
  obtain ⟨ha, hvalid, hframe⟩ := h.sound.of_translate hf
  have hpte := h.pte _ (isUserPage_down ha) hvalid
  have hseen := h.seen _ (isUserPage_down ha)
  rw [Mm.seen, Mm.seen, h.pagetable, hpte, if_pos hvalid, if_pos hvalid, hframe] at hseen
  exact Except.ok.inj (Option.some.inj hseen)

end Further

theorem Sound.seen_setPage {v u : ℕ} (h : Sound mm p) (hv : IsUserPage v)
    (hvalid : (p.pte mm.pagetable v).valid) (hu : IsUserPage u) (pg : PageData) :
    mm.seen (p.setPage (p.pte mm.pagetable v).frame pg) u =
      if u = v then some (.ok pg) else mm.seen p u := by
  have hpte := h.ok.table.pte_setPage (h.not_mem_tables hv hvalid) pg hu.own
  unfold Mm.seen
  rw [hpte]
  by_cases huv : u = v
  · subst huv
    rw [if_pos hvalid, if_pos rfl]
    exact congrArg (some ∘ Except.ok) replaceAt_self
  · rw [if_neg huv]
    by_cases hvalid' : (p.pte mm.pagetable u).valid
    · have hne : (p.pte mm.pagetable u).frame ≠ (p.pte mm.pagetable v).frame := by
        intro heq
        exact huv (h.frame_inj hu hv hvalid' hvalid heq)
      rw [if_pos hvalid', if_pos hvalid']
      exact congrArg (some ∘ Except.ok) (replaceAt_of_ne hne)
    · rw [if_neg hvalid', if_neg hvalid']

theorem Sound.translate_setPage {b : ℕ} {prot' : PgFaultProt} (h : Sound mm p)
    (hf : mm.translate p a prot = some f) (pg : PageData) :
    mm.translate (p.setPage f pg) b prot' = mm.translate p b prot' := by
  obtain ⟨ha, hvalid, rfl⟩ := h.of_translate hf
  have htab := h.not_mem_tables (isUserPage_down ha) hvalid
  by_cases hb : b < userSpaceEnd
  · rw [(h.setPage htab pg).translate_eq hb, h.translate_eq hb,
      h.ok.table.pte_setPage htab pg (isUserPage_down hb).own]
  · rw [translate_of_not_lt hb, translate_of_not_lt hb]

theorem Further.setPage {mm' : Mm} {p' : Phys} (h : Further mm p mm' p')
    (hf : mm.translate p a prot = some f) (pg : PageData) :
    Further mm (p.setPage f pg) mm' (p'.setPage f pg) := by
  have hf' := h.translate hf
  obtain ⟨ha, hvalid, hframe⟩ := h.sound.of_translate hf
  obtain ⟨-, hvalid', hframe'⟩ := h.sound'.of_translate hf'
  have hpage := isUserPage_down ha
  have htab := h.sound.not_mem_tables hpage hvalid
  have htab' := h.sound'.not_mem_tables hpage hvalid'
  rw [hframe] at htab
  rw [hframe'] at htab'
  refine ⟨h.sound.setPage htab pg, h.sound'.setPage htab' pg, h.pagetable, h.areas, ?_, ?_⟩
  · intro v hv hvalid
    have hpte := h.sound.ok.table.pte_setPage htab pg hv.own
    have hpte' := h.sound'.ok.table.pte_setPage htab' pg hv.own
    rw [hpte] at hvalid
    rw [h.pagetable] at hpte'
    rw [hpte', hpte, h.pte v hv hvalid]
  · intro v hv
    have hseen := h.sound.seen_setPage hpage hvalid hv pg
    have hseen' := h.sound'.seen_setPage hpage hvalid' hv pg
    rw [hframe] at hseen
    rw [hframe'] at hseen'
    rw [hseen, hseen', h.seen v hv]

section Touch

variable {mm : Mm} {p : Phys}

-- The unifier looks into the sums with a page size.
set_option maxRecDepth 10000

theorem Sound.access (h : Sound mm p) (a : ℕ) (prot : PgFaultProt) (n : ℕ) :
    Sat (access a prot n mm) p (fun r p' => Further mm p r.2 p') fun _ => True := by
  induction n generalizing mm p with
  | zero => exact sat_throw trivial
  | succ n ih =>
    unfold Mm.access
    apply Sat.get_bind
    cases mm.translate p a prot with
    | some f => exact sat_pure (.refl h)
    | none =>
      have hfault := trapPageFaultHandler_sat h.ok h.low a
      refine (hfault.weaken fun _ _ => trivial).bind ?_
      rintro mm' p' ⟨k, vma, f, pg, hin⟩
      exact (ih (hin.sound h)).mono (fun r p'' hr => (hin.further h).trans hr) fun _ he => he

theorem Sound.touchAll (h : Sound mm p) (addrs : List (ℕ × PgFaultProt)) :
    Sat (mm.touchAll addrs) p (fun mm' p' => Further mm p mm' p') fun _ => True := by
  refine Sat.foldlM (fun _ (mm' : Mm) p' => Further mm p mm' p') ?_ (.refl h)
  rintro done e rest - mm' p' hmm'
  refine (hmm'.sound'.access e.1 e.2 accessTries).bind ?_
  rintro ⟨f, mm''⟩ p'' hmm''
  exact sat_pure (hmm'.trans hmm'')

end Touch

end Mm

end Zinix
