import Zinix.Lib.Trace
import Zinix.Mm.MapFailure
import Zinix.Mm.Separate
import Zinix.Task.StackDecode

/-!
# The address spaces of all tasks

In every state the page tables show the pages of the areas and nothing else, and no frame is
in two areas. Areas may overlap though, and a fault at a page that another area holds ends
in the `todo!()` of `__fast_alloc_one_page_and_get`.
-/

namespace Zinix

open Program

/-- Memory and the address spaces in it, which are numbered as they are made. -/
structure Spaces where
  phys : Phys
  mms : ℕ → Option Mm
  cnt : ℕ

structure Executable where
  headers : List ProgramHeader
  file : MappedFile
  phEntrySize : ℕ
  entry : ℕ
  args : List (List Byte)

inductive SpaceAction where
  | create (x : Executable)
  | mmap (i va len : ℕ) (prot flags : BitVec 64) (file : Option MappedFile) (offset : ℕ)
  | brk (i brk : ℕ)
  | load (i vaddr : ℕ) (prot : PgFaultProt)
  | store (i vaddr : ℕ) (b : BitVec 8)
  | fork (i : ℕ)
  | execve (i : ℕ) (x : Executable)
  | drop (i : ℕ)

/-- The address space that a task works on. A new one is made beside those that are there. -/
def SpaceAction.space : SpaceAction → Option ℕ
  | .create _ | .fork _ => none
  | .mmap i .. | .brk i _ | .load i .. | .store i .. | .execve i _ | .drop i => some i

/-- `create_user_task`. -/
def Executable.load (x : Executable) : Program Phys (Option Mm) := do
  return (← Mm.createUserTaskWith x.headers x.file x.phEntrySize x.entry x.args).map Prod.fst

namespace Spaces

def onSpace (s : Spaces) (i : ℕ) (call : Mm → Program Phys Mm) : Checked Spaces := do
  let mm ← Checked.unwrap (s.mms i)
  let (mm, p) ← call mm s.phys
  return { s with phys := p, mms := replaceAt s.mms i (some mm) }

def added (s : Spaces) (mm : Mm) (p : Phys) : Spaces :=
  ⟨p, replaceAt s.mms s.cnt (some mm), s.cnt + 1⟩

def exec (s : Spaces) : SpaceAction → Checked Spaces
  | .create x => do
    let (r, p) ← x.load s.phys
    match r with
    | none => return { s with phys := p }
    | some mm => return s.added mm p
  | .mmap i va len prot flags file offset => s.onSpace i fun mm => do
    return (← mm.sysMmap va len prot flags file offset).2
  | .brk i brk => s.onSpace i fun mm => do return (← mm.sysBrk brk).2
  | .load i vaddr prot => s.onSpace i fun mm => do return (← mm.userLoad vaddr prot).2
  | .store i vaddr b => s.onSpace i fun mm => mm.userStore vaddr b
  | .fork i => do
    let mm ← Checked.unwrap (s.mms i)
    let (child, p) ← mm.newMmByOld s.phys
    return s.added child p
  | .execve i x => do
    let mm ← Checked.unwrap (s.mms i)
    let (r, p) ← x.load s.phys
    match r with
    | none => throw (.explicit "execve")
    | some new =>
      -- the old address space goes when the new one is in place
      let (_, p) ← mm.drop p
      return { s with phys := p, mms := replaceAt s.mms i (some new) }
  | .drop i => do
    let mm ← Checked.unwrap (s.mms i)
    let (_, p) ← mm.drop s.phys
    return { s with phys := p, mms := replaceAt s.mms i none }

def Step (s : Spaces) (a : SpaceAction) (t : Spaces) : Prop := s.exec a = .ok t

structure Start (s : Spaces) : Prop where
  booted : s.phys.Booted
  none : s.mms = fun _ => none

structure Good (s : Spaces) : Prop where
  separate : Separate s.phys s.mms
  free : ∀ i, s.cnt ≤ i → s.mms i = none

end Spaces

section Load

variable {p p₁ p₂ : Phys} {mm mm' : Mm}

theorem Mm.Made.worked (h : Made p mm p₁) (hw : Worked mm p₁ mm' p₂) : Made p mm' p₂ :=
  ⟨hw.sane, hw.pagetable.trans h.pagetable, h.cnt.trans_le hw.isLocal.cnt,
    hw.pagetable ▸ h.isLocal.trans hw.isLocal⟩

theorem Mm.createUserTaskWith_made (headers : List ProgramHeader) (file : MappedFile)
    (phEntrySize entry : ℕ) (args : List (List Byte)) :
    Sat (Mm.createUserTaskWith headers file phEntrySize entry args) p
      (fun r p' => ∃ mm regs, r = some (mm, regs) ∧ Mm.Made p mm p') (· ≠ .todo) := by
  refine (Mm.createUserTaskWith_written ..).imp ?_
  rintro _ _ ⟨mm, p₁, stack, f, pg, base, hrun, hstack, -, hget, rfl, rfl, -⟩
  obtain ⟨-, hmade⟩ := (Mm.newFromElf_made headers file).of_ok hrun
  exact ⟨mm, _, rfl, hmade.worked (hmade.sane.setPage (.of_get hstack hget) pg)⟩

theorem Executable.load_made (x : Executable) :
    Sat x.load p (fun r p' => ∃ mm, r = some mm ∧ Mm.Made p mm p') (· ≠ .todo) := by
  refine (Mm.createUserTaskWith_made ..).bind ?_
  rintro _ _ ⟨mm, regs, rfl, hmade⟩
  exact sat_pure ⟨mm, rfl, hmade⟩

end Load

namespace Spaces

variable {s t : Spaces} {i : ℕ} {call : Mm → Program Phys Mm}
  {mm new : Mm} {p p₁ : Phys} {a : SpaceAction} {as : List SpaceAction}

theorem onSpace_eq_ok (h : s.onSpace i call = .ok t) :
    ∃ mm mm' p', s.mms i = some mm ∧ call mm s.phys = .ok (mm', p') ∧
      t = { s with phys := p', mms := replaceAt s.mms i (some mm') } := by
  obtain ⟨mm, hmm, h⟩ := Checked.bind_eq_ok.mp h
  obtain ⟨⟨mm', p'⟩, hrun, h⟩ := Checked.bind_eq_ok.mp h
  cases h
  exact ⟨mm, mm', p', Checked.unwrap_eq_ok.mp hmm, hrun, rfl⟩

theorem Good.not_free (h : Good s) (hi : s.mms i = some mm) : i < s.cnt := by
  by_contra hle
  rw [h.free i (Nat.not_lt.mp hle)] at hi
  cases hi

theorem Good.at (h : Good s) (hi : i < s.cnt) {o : Option Mm}
    (hsep : Separate p (replaceAt s.mms i o)) : Good ⟨p, replaceAt s.mms i o, s.cnt⟩ := by
  refine ⟨hsep, fun j hj => ?_⟩
  show replaceAt s.mms i o j = none
  rw [replaceAt_of_ne (hi.trans_le hj).ne', h.free j hj]

theorem Good.added (h : Good s) (hm : mm.Made s.phys p) :
    Good (s.added mm p) := by
  refine ⟨h.separate.change (h.separate.change_made hm), fun j hj => ?_⟩
  have hlt : s.cnt < j := hj
  show replaceAt s.mms s.cnt _ j = none
  rw [replaceAt_of_ne hlt.ne', h.free j hlt.le]

theorem Good.untouched_made (h : Good s) (hi : s.mms i = some mm) (hm : new.Made s.phys p₁) :
    Untouched mm s.phys p₁ :=
  h.separate.untouched (h.separate.change_made hm) (h.not_free hi).ne hi

theorem Good.sane_made (h : Good s) (hi : s.mms i = some mm) (hm : new.Made s.phys p₁) :
    mm.Sane p₁ :=
  (h.untouched_made hi hm).sane (h.separate.sane i mm hi)

/-- When a new address space has been made, the old one can be dropped, and that leaves the
new one alone. -/
theorem Good.exchange (h : Good s) (hi : s.mms i = some mm) (hm : new.Made s.phys p₁) :
    ∃ p₂, mm.drop p₁ = .ok ((), p₂) ∧ Untouched new p₁ p₂ ∧
      Good ⟨p₂, replaceAt s.mms i (some new), s.cnt⟩ := by
  obtain ⟨_, p₂, hdrop, -, hlocal⟩ := (h.sane_made hi hm).drop.returns
  exact ⟨p₂, hdrop, h.separate.exchange_untouched hi hm hlocal,
    h.at (h.not_free hi) (h.separate.exchange hi hm hlocal)⟩

/-- What a step does to the address spaces: a new one is made, a task works on its own, or an
old one goes, with or without another in its place. The label is the one that is worked on. -/
inductive Changed (s : Spaces) (o : Option ℕ) : Spaces → Prop where
  | made {new : Mm} {p : Phys} (hm : new.Made s.phys p) : Changed s o (s.added new p)
  | worked {i : ℕ} {mm mm' : Mm} {p : Phys} (ho : o = some i) (hi : s.mms i = some mm)
      (hw : mm.Worked s.phys mm' p) : Changed s o ⟨p, replaceAt s.mms i (some mm'), s.cnt⟩
  | exchanged {i : ℕ} {mm new : Mm} {p₁ p₂ : Phys} (ho : o = some i) (hi : s.mms i = some mm)
      (hm : new.Made s.phys p₁) (hlocal : Local p₁ mm.areas p₂ (fun _ => none) mm.pagetable) :
      Changed s o ⟨p₂, replaceAt s.mms i (some new), s.cnt⟩
  | dropped {i : ℕ} {mm : Mm} {p : Phys} (ho : o = some i) (hi : s.mms i = some mm)
      (hlocal : Local s.phys mm.areas p (fun _ => none) mm.pagetable) :
      Changed s o ⟨p, replaceAt s.mms i none, s.cnt⟩

theorem Good.changed_onSpace (h : Good s) (hrun : s.onSpace i call = .ok t)
    (hcall : ∀ mm, mm.Sane s.phys →
      Sat (call mm) s.phys (fun mm' p' => mm.Worked s.phys mm' p') fun _ => True) :
    Changed s (some i) t := by
  obtain ⟨mm, mm', p', hi, hok, rfl⟩ := onSpace_eq_ok hrun
  exact .worked rfl hi ((hcall mm (h.separate.sane i mm hi)).of_ok hok)

theorem Good.changed (h : Good s) (hstep : s.exec a = .ok t) :
    Changed s a.space t := by
  cases a with
  | create x =>
    obtain ⟨⟨r, p⟩, hrun, hstep⟩ := Checked.bind_eq_ok.mp hstep
    obtain ⟨mm, rfl, hm⟩ := x.load_made.of_ok hrun
    cases hstep
    exact .made hm
  | mmap i va len prot flags file offset =>
    refine h.changed_onSpace hstep fun mm hmm => ?_
    exact ((hmm.sysMmap va len prot flags file offset).weaken
      fun _ _ => trivial).bind fun _ _ hw => hw
  | brk i brk =>
    refine h.changed_onSpace hstep fun mm hmm => ?_
    exact (hmm.sysBrk brk).bind fun _ _ hw => hw
  | load i vaddr prot =>
    refine h.changed_onSpace hstep fun mm hmm => ?_
    exact (hmm.userLoad vaddr prot).bind fun _ _ hw => hw
  | store i vaddr b => exact h.changed_onSpace hstep fun mm hmm => hmm.userStore vaddr b
  | fork i =>
    obtain ⟨mm, hi, hstep⟩ := Checked.bind_eq_ok.mp hstep
    obtain ⟨⟨child, p⟩, hrun, hstep⟩ := Checked.bind_eq_ok.mp hstep
    have hmm := h.separate.sane i mm (Checked.unwrap_eq_ok.mp hi)
    cases hstep
    exact .made ((hmm.newMmByOld h.separate.booted).of_ok hrun).2
  | execve i x =>
    obtain ⟨mm, hi, hstep⟩ := Checked.bind_eq_ok.mp hstep
    obtain ⟨⟨r, p₁⟩, hrun, hstep⟩ := Checked.bind_eq_ok.mp hstep
    obtain ⟨new, rfl, hm⟩ := x.load_made.of_ok hrun
    obtain ⟨⟨u, p₂⟩, hdrop, hstep⟩ := Checked.bind_eq_ok.mp hstep
    have hi := Checked.unwrap_eq_ok.mp hi
    have hlocal := ((h.sane_made hi hm).drop.of_ok hdrop).2
    cases hstep
    exact .exchanged rfl hi hm hlocal
  | drop i =>
    obtain ⟨mm, hi, hstep⟩ := Checked.bind_eq_ok.mp hstep
    obtain ⟨⟨u, p⟩, hdrop, hstep⟩ := Checked.bind_eq_ok.mp hstep
    have hi := Checked.unwrap_eq_ok.mp hi
    have hlocal := ((h.separate.sane i mm hi).drop.of_ok hdrop).2
    cases hstep
    exact .dropped rfl hi hlocal

theorem Changed.good {o : Option ℕ} (hc : Changed s o t) (h : Good s) : Good t := by
  cases hc with
  | made hm => exact h.added hm
  | worked _ hi hw =>
    exact h.at (h.not_free hi) (h.separate.change (h.separate.change_worked hi hw))
  | exchanged _ hi hm hlocal => exact h.at (h.not_free hi) (h.separate.exchange hi hm hlocal)
  | dropped _ hi hlocal =>
    exact h.at (h.not_free hi) (h.separate.change (h.separate.change_dropped hi hlocal))

theorem Good.step (h : Good s) (hstep : s.exec a = .ok t) : Good t :=
  (h.changed hstep).good h

theorem Start.good (h : Start s) : Good s := by
  refine ⟨⟨h.booted, ?_, ?_, ?_, ?_⟩, ?_⟩
  · rw [h.none]
    exact nofun
  · rw [h.none]
    exact nofun
  · rw [h.none]
    exact nofun
  · rw [h.none]
    exact nofun
  · intro i _
    rw [h.none]

theorem Good.states (h : Good s) {r : List (SpaceAction × Spaces)} (hrun : Trace.IsRun Step s r) :
    ∀ t ∈ Trace.states s r, Good t :=
  Trace.invariant Good (fun _ _ _ hs hstep => hs.step hstep) h hrun

/-- The leaf entry of a page is valid exactly if one area holds the page, and then it shows the
frame with the rights of the area. -/
structure PagesShown (mm : Mm) (p : Phys) : Prop where
  valid_iff : ∀ v, IsUserPage v →
    ((p.pte mm.pagetable v).valid ↔ ∃! k, ∃ f, Holds mm.areas k v f)
  entry : ∀ k vma v f, mm.areas k = some vma → vma.pagesTree.get? v = some f →
    p.pte mm.pagetable v = PTE.leaf f (vmaFlags2PteFlags vma.vmFlags)

/-- What all states should be like. The last part says that no call but `sys_brk`, which maps no
page, stops at a `todo!()`. -/
structure Right (s : Spaces) : Prop where
  shown : ∀ i mm, s.mms i = some mm → PagesShown mm s.phys
  once : ∀ i j mm mm' k k' v v' f, s.mms i = some mm → s.mms j = some mm' →
    Holds mm.areas k v f → Holds mm'.areas k' v' f → i = j ∧ k = k'
  mapped : ∀ a, (∀ i brk, a ≠ .brk i brk) → s.exec a ≠ .error .todo

/-- A page that is resident in one area is found in another one and touched in a way that its
own area does not allow. -/
def Clashes (s : Spaces) : Prop :=
  ∃ i mm a prot k vma, s.mms i = some mm ∧ mm.Clash s.phys a prot k vma

theorem Good.pagesShown (h : Good s) (hi : s.mms i = some mm) :
    PagesShown mm s.phys := by
  have hmm := h.separate.sane i mm hi
  have hok := hmm.sound.ok
  refine ⟨?_, ?_⟩
  · intro v hv
    constructor
    · intro hvalid
      obtain ⟨k, f, hf⟩ := hok.covered v hv hvalid
      refine ⟨k, ⟨f, hf⟩, ?_⟩
      rintro j ⟨g, hg⟩
      exact (hok.unique hg hf).1
    · rintro ⟨k, ⟨f, hf⟩, -⟩
      exact hok.pte_valid hf
  · intro k vma v f hk hget
    obtain ⟨flags, hflags | ⟨hcow, -⟩, hpte⟩ := hok.mapped k vma hk v f hget
    · rw [hpte, hflags]
    · rw [hmm.plain k vma hk] at hcow
      cases hcow

theorem Good.once (h : Good s) {mm' : Mm} {j k k' v v' : ℕ} {f : Frame} (hi : s.mms i = some mm)
    (hj : s.mms j = some mm') (hf : Holds mm.areas k v f) (hf' : Holds mm'.areas k' v' f) :
    i = j ∧ k = k' := by
  have hij := h.separate.frames i j mm mm' f hi hj (.inr ⟨k, v, hf⟩) (.inr ⟨k', v', hf'⟩)
  subst hij
  cases hi.symm.trans hj
  exact ⟨rfl, ((h.separate.sane i mm hi).sound.ok.inj k v f k' v' hf hf').1⟩

section Todo

variable {p : Phys}
  {mm : Mm} {vaddr : ℕ}

theorem onSpace_eq_todo (s : Spaces) (i : ℕ) (call : Mm → Program Phys Mm) :
    s.onSpace i call = .error .todo ↔ ∃ mm, s.mms i = some mm ∧ call mm s.phys = .error .todo := by
  unfold Spaces.onSpace
  cases s.mms i with
  | none => simp
  | some mm =>
    rw [Checked.unwrap_some, Checked.ok_bind]
    cases hrun : call mm s.phys with
    | error e => simp [hrun]
    | ok r => simp [hrun]

theorem userLoad_eq_todo {prot : PgFaultProt} :
    (do return (← mm.userLoad vaddr prot).2 : Program Phys Mm) p = .error .todo ↔
      Mm.access vaddr prot Mm.accessTries mm p = .error .todo := by
  unfold Mm.userLoad
  rw [bind_apply, bind_apply]
  cases Mm.access vaddr prot Mm.accessTries mm p with
  | error e => simp only [Checked.error_bind, Except.error.injEq]
  | ok r => exact ⟨nofun, nofun⟩

theorem userStore_eq_todo {b : BitVec 8} :
    mm.userStore vaddr b p = .error .todo ↔
      Mm.access vaddr .write Mm.accessTries mm p = .error .todo := by
  unfold Mm.userStore
  rw [bind_apply]
  cases Mm.access vaddr .write Mm.accessTries mm p with
  | error e => simp only [Checked.error_bind, Except.error.injEq]
  | ok r => exact ⟨nofun, nofun⟩

theorem of_unwrap_bind {α β : Type} {o : Option α} {g : α → Checked β}
    (h : (Checked.unwrap o >>= g) = .error .todo) : ∃ a, o = some a ∧ g a = .error .todo := by
  cases o with
  | none => cases h
  | some a => exact ⟨a, rfl, h⟩

theorem Good.clashes_of_todo (h : Good s) {a : SpaceAction} (ha : ∀ i brk, a ≠ .brk i brk)
    (htodo : s.exec a = .error .todo) : s.Clashes := by
  have haccess : ∀ i mm vaddr prot, s.mms i = some mm →
      Mm.access vaddr prot Mm.accessTries mm s.phys = .error .todo → s.Clashes := by
    intro i mm vaddr prot hi hrun
    obtain ⟨k, vma, hclash⟩ := (h.separate.sane i mm hi).sound.access_todo_iff.mp hrun
    exact ⟨i, mm, vaddr, prot, k, vma, hi, hclash⟩
  cases a with
  | create x =>
    rcases Checked.bind_eq_error.mp htodo with hload | ⟨⟨r, p⟩, -, hrest⟩
    · exact absurd rfl (x.load_made.of_error hload)
    · cases r with
      | none => cases hrest
      | some mm => cases hrest
  | mmap i va len prot flags file offset =>
    obtain ⟨mm, hi, hrun⟩ := (onSpace_eq_todo ..).mp htodo
    have hmm := (h.separate.sane i mm hi).sysMmap va len prot flags file offset
    rw [bind_apply] at hrun
    rcases Checked.bind_eq_error.mp hrun with hcall | ⟨r, -, hret⟩
    · exact absurd rfl (hmm.of_error hcall)
    · cases hret
  | brk i brk => exact absurd rfl (ha i brk)
  | load i vaddr prot =>
    obtain ⟨mm, hi, hrun⟩ := (onSpace_eq_todo ..).mp htodo
    exact haccess i mm vaddr prot hi (userLoad_eq_todo.mp hrun)
  | store i vaddr b =>
    obtain ⟨mm, hi, hrun⟩ := (onSpace_eq_todo ..).mp htodo
    exact haccess i mm vaddr .write hi (userStore_eq_todo.mp hrun)
  | fork i =>
    obtain ⟨mm, hi, hrest⟩ := of_unwrap_bind htodo
    rcases Checked.bind_eq_error.mp hrest with hfork | ⟨r, -, hret⟩
    · rcases ((h.separate.sane i mm hi).newMmByOld h.separate.booted).of_error hfork with
        ⟨he, -⟩ | ⟨he, -⟩
      · cases he
      · cases he
    · cases hret
  | execve i x =>
    obtain ⟨mm, hi, hrest⟩ := of_unwrap_bind htodo
    rcases Checked.bind_eq_error.mp hrest with hload | ⟨⟨r, p₁⟩, hrun, hrest⟩
    · exact absurd rfl (x.load_made.of_error hload)
    · obtain ⟨new, rfl, hm⟩ := x.load_made.of_ok hrun
      obtain ⟨p₂, hdrop, -⟩ := h.exchange hi hm
      simp only [hdrop, Checked.ok_bind] at hrest
      cases hrest
  | drop i =>
    obtain ⟨mm, hi, hrest⟩ := of_unwrap_bind htodo
    rcases Checked.bind_eq_error.mp hrest with hdrop | ⟨r, -, hret⟩
    · cases (h.separate.sane i mm hi).drop.of_error hdrop
    · cases hret

theorem Good.todo_of_clashes (h : Good s) (hclash : s.Clashes) :
    ∃ i vaddr prot, s.exec (.load i vaddr prot) = .error .todo := by
  obtain ⟨i, mm, vaddr, prot, k, vma, hi, hclash⟩ := hclash
  refine ⟨i, vaddr, prot, (onSpace_eq_todo ..).mpr ⟨mm, hi, userLoad_eq_todo.mpr ?_⟩⟩
  exact (h.separate.sane i mm hi).sound.access_todo_iff.mpr ⟨k, vma, hclash⟩

theorem Good.right_iff (h : Good s) : s.Right ↔ ¬s.Clashes := by
  constructor
  · rintro hright hclash
    obtain ⟨i, vaddr, prot, htodo⟩ := h.todo_of_clashes hclash
    refine hright.mapped _ ?_ htodo
    rintro _ _ ⟨⟩
  · intro hno
    refine ⟨fun i mm hi => h.pagesShown hi, ?_, ?_⟩
    · intro i j mm mm' k k' v v' f hi hj hf hf'
      exact h.once hi hj hf hf'
    · exact fun a ha htodo => hno (h.clashes_of_todo ha htodo)

end Todo

/-- In every state the page tables show the pages of the areas, and `map_one_page` can fail in
a page fault exactly if areas clash. -/
theorem right_iff_not_clashes (hs : Start s) {r : List (SpaceAction × Spaces)}
    (hrun : Trace.IsRun Step s r) : ∀ t ∈ Trace.states s r, t.Right ↔ ¬t.Clashes :=
  fun t ht => (hs.good.states hrun t ht).right_iff

theorem exists_run (h : as.foldlM exec s = .ok t) :
    ∃ r, Trace.IsRun Step s r ∧ t ∈ Trace.states s r := by
  induction as generalizing s with
  | nil =>
    cases h
    exact ⟨[], trivial, List.mem_singleton_self _⟩
  | cons a as ih =>
    rw [List.foldlM_cons] at h
    obtain ⟨u, hstep, hrest⟩ := Checked.bind_eq_ok.mp h
    obtain ⟨r, hr, ht⟩ := ih hrest
    refine ⟨(a, u) :: r, ⟨hstep, hr⟩, ?_⟩
    rw [Trace.states_cons]
    exact List.mem_cons_of_mem _ ht

/-- A list of actions leads to a state in which a further action panics. -/
theorem exists_run_error {e : Panic}
    (h : (as.foldlM exec s).map (fun t => (t.exec a).map fun _ => ()) = .ok (.error e)) :
    ∃ t r, Trace.IsRun Step s r ∧ t ∈ Trace.states s r ∧ t.exec a = .error e := by
  cases hrun : as.foldlM exec s with
  | error e' =>
    rw [hrun] at h
    cases h
  | ok t =>
    rw [hrun] at h
    obtain ⟨r, hr, ht⟩ := exists_run hrun
    refine ⟨t, r, hr, ht, ?_⟩
    cases hact : t.exec a with
    | error e' =>
      simp only [Except.map, hact, Except.ok.injEq, Except.error.injEq] at h
      rw [h]
    | ok u =>
      simp only [Except.map, hact, Except.ok.injEq, reduceCtorEq] at h

def boot : Spaces := ⟨.bare, fun _ => none, 0⟩

theorem start_boot : Start boot := ⟨Phys.booted_bare, rfl⟩

def noSegments : Executable := ⟨[], ⟨0, []⟩, 56, 0, []⟩

/-- A mapping of length 0 takes the place of the heap, and one of the whole range that of the
first. After a fault in it `sys_brk` cuts it short, and a mapping that may be written is placed at
the page that is resident. -/
def overlap : List SpaceAction :=
  [.create noSegments, .mmap 0 0x1000 0 3 0x20 none 0, .mmap 0 0 0x7fff000 1 0x20 none 0,
    .load 0 0x5000 .read, .brk 0 0x3000, .mmap 0 0x5000 0x1000 3 0x20 none 0]

theorem right_iff_not_clashes_create : ∃ r, Trace.IsRun Step boot r ∧ r ≠ [] ∧
    ∀ t ∈ Trace.states boot r, t.Right ↔ ¬t.Clashes := by
  have hrun : (boot.exec (.create noSegments)).isOk = true := by decide +kernel
  cases hstep : boot.exec (.create noSegments) with
  | error e =>
    rw [hstep] at hrun
    cases hrun
  | ok t =>
    have hr : Trace.IsRun Step boot [(.create noSegments, t)] := ⟨hstep, trivial⟩
    exact ⟨_, hr, by simp, right_iff_not_clashes start_boot hr⟩

/-- A store to the page is answered with a `todo!()`. -/
theorem overlap_not_right : ∃ t r, Trace.IsRun Step boot r ∧ t ∈ Trace.states boot r ∧
    t.exec (.store 0 0x5000 7) = .error .todo ∧ ¬t.Right := by
  have hrun : (overlap.foldlM exec boot).map
      (fun t => (t.exec (.store 0 0x5000 7)).map fun _ => ()) = .ok (.error .todo) := by
    decide +kernel
  obtain ⟨t, r, hr, ht, htodo⟩ := exists_run_error hrun
  refine ⟨t, r, hr, ht, htodo, fun hright => hright.mapped _ ?_ htodo⟩
  rintro i brk ⟨⟩

end Spaces

end Zinix
