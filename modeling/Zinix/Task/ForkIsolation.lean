import Zinix.Task.Clone
import Zinix.Task.Spaces

/-!
# A fork copies an address space and parts it from the old one

The child of `new_mm_by_old` has the areas of its parent and shows the same memory in frames
of its own. What a task does later leaves the memory of all other tasks alone.
-/

namespace Zinix

variable {p p' : Phys}

structure Vma.Duplicate (v w : Vma) : Prop extends SameArea v w where
  vmFlags : w.vmFlags = v.vmFlags

theorem Vma.CopiedTo.duplicate {pt : ℕ} {vma w : Vma} (h : Vma.CopiedTo p p' pt vma w) :
    Vma.Duplicate vma w := by
  refine ⟨h.sameArea, ?_⟩
  rw [h.shape]
  rfl

theorem Mm.Forked.duplicates {mm new : Mm}
    (h : Mm.Forked mm p (mm.vmas.range userSpaceStart userSpaceEnd) new p')
    (hmm : Mm.UserSpace mm p) (k : ℕ) :
    Option.Rel Vma.Duplicate (mm.areas k) (new.areas k) := by
  cases hk : mm.areas k with
  | some vma =>
    obtain ⟨w, hw, hcopy⟩ := h.copied_areas hmm hk
    rw [hw]
    exact .some hcopy.duplicate
  | none =>
    have hrel := h.areas_rel hmm k
    rw [hk] at hrel
    cases hw : new.areas k with
    | none => exact .none
    | some w =>
      rw [hw] at hrel
      cases hrel

/-- A write of the kernel to a page of a task with the page table of the task, as system calls
make it, or anything that a task does. -/
inductive TaskAction where
  | kernelStore (i vaddr : ℕ) (bytes : List Byte)
  | user (a : SpaceAction)

def TaskAction.space : TaskAction → Option ℕ
  | .kernelStore i _ _ => some i
  | .user a => a.space

namespace Spaces

variable {s t u : Spaces} {i j : ℕ} {mm : Mm} {a : TaskAction} {r : List (TaskAction × Spaces)}

def execTask (s : Spaces) : TaskAction → Checked Spaces
  | .kernelStore i vaddr bytes => do
    let mm ← Checked.unwrap (s.mms i)
    Checked.ensure (vaddr < userSpaceEnd) .assertion
    let f ← Checked.unwrap (s.phys.kernelFrame mm.pagetable vaddr)
    return { s with phys := s.phys.setPage f ((s.phys.mem f).setBytes (vaddr % pageSize) bytes) }
  | .user a => s.exec a

def TaskStep (s : Spaces) (a : TaskAction) (t : Spaces) : Prop := s.execTask a = .ok t

/-- What a task does leaves the areas of another one and all that it reads as they are. -/
def Isolated (s : Spaces) : Prop :=
  ∀ a t, s.execTask a = .ok t → ∀ j mm, s.mms j = some mm → a.space ≠ some j →
    t.mms j = some mm ∧ ∀ x, mm.userByte t.phys x = mm.userByte s.phys x

/-- A fork of the task `i` that leads to the state `t`: the child is a copy of the parent in
frames of its own, the parent is left alone, and from then on the tasks are isolated. -/
structure ForkRight (s : Spaces) (i : ℕ) (mm : Mm) (t : Spaces) (child : Mm) : Prop where
  areas : ∀ k, Option.Rel Vma.Duplicate (mm.areas k) (child.areas k)
  startBrk : child.startBrk = mm.startBrk
  brk : child.brk = mm.brk
  reads : ∀ x, child.userByte t.phys x = mm.userByte s.phys x
  apart : ∀ f, Owned t.phys mm.pagetable mm.areas f → ¬Owned t.phys child.pagetable child.areas f
  parent : t.mms i = some mm
  untouched : Untouched mm s.phys t.phys
  later : ∀ r, Trace.IsRun TaskStep t r → ∀ u ∈ Trace.states t r, u.Isolated

theorem Good.changed_task (h : Good s) (hstep : s.execTask a = .ok t) : Changed s a.space t := by
  cases a with
  | user a => exact h.changed hstep
  | kernelStore i vaddr bytes =>
    obtain ⟨mm, hi, hstep⟩ := Checked.bind_eq_ok.mp hstep
    obtain ⟨_, hlow, hstep⟩ := Checked.bind_eq_ok.mp hstep
    obtain ⟨f, hf, hstep⟩ := Checked.bind_eq_ok.mp hstep
    have hi := Checked.unwrap_eq_ok.mp hi
    have hmm := h.separate.sane i mm hi
    have hlow := Checked.ensure_eq_ok.mp hlow
    obtain ⟨hvalid, hframe⟩ := hmm.sound.of_kernelFrame hlow (Checked.unwrap_eq_ok.mp hf)
    obtain ⟨k, hk⟩ := hmm.sound.holds_of_valid (isUserPage_down hlow) hvalid
    rw [hframe] at hk
    have hw := Changed.worked (o := some i) rfl hi (hmm.setPage hk
      ((s.phys.mem f).setBytes (vaddr % pageSize) bytes))
    rw [replaceAt_eq_self hi] at hw
    cases hstep
    exact hw

theorem Good.states_task (h : Good s) (hrun : Trace.IsRun TaskStep s r) :
    ∀ t ∈ Trace.states s r, Good t :=
  Trace.invariant Good (fun _ _ _ hs hstep => (hs.changed_task hstep).good hs) h hrun

theorem Changed.untouched {o : Option ℕ} (hc : Changed s o t) (h : Good s)
    (hj : s.mms j = some mm) (hne : o ≠ some j) :
    t.mms j = some mm ∧ Untouched mm s.phys t.phys := by
  have hother : ∀ {i new}, o = some i → j ≠ i ∧ replaceAt s.mms i new j = some mm := by
    intro i new ho
    have hji : j ≠ i := by
      rintro rfl
      exact hne ho
    exact ⟨hji, by rw [replaceAt_of_ne hji, hj]⟩
  cases hc with
  | made hm =>
    refine ⟨?_, h.untouched_made hj hm⟩
    show replaceAt s.mms s.cnt _ j = some mm
    rw [replaceAt_of_ne (h.not_free hj).ne, hj]
  | worked ho hi hw =>
    obtain ⟨hji, hget⟩ := hother ho
    exact ⟨hget, h.separate.untouched (h.separate.change_worked hi hw) hji hj⟩
  | exchanged ho hi hm hlocal =>
    obtain ⟨hji, hget⟩ := hother ho
    exact ⟨hget, h.separate.exchange_others hi hm hlocal hji hj⟩
  | dropped ho hi hlocal =>
    obtain ⟨hji, hget⟩ := hother ho
    exact ⟨hget, h.separate.untouched (h.separate.change_dropped hi hlocal) hji hj⟩

theorem Good.isolated (h : Good s) : s.Isolated := by
  intro a t hstep j mm hj hne
  obtain ⟨hget, huntouched⟩ := (h.changed_task hstep).untouched h hj hne
  refine ⟨hget, Mm.userByte_congr fun v hv => ?_⟩
  exact huntouched.seen (h.separate.sane j mm hj) hv

theorem exec_fork (hi : s.mms i = some mm) :
    s.exec (.fork i) = (mm.newMmByOld s.phys).map fun r => s.added r.1 r.2 := by
  simp only [Spaces.exec, hi, Checked.unwrap_some, Checked.ok_bind]
  cases mm.newMmByOld s.phys with
  | error e => rfl
  | ok r => rfl

theorem Good.forkRight (h : Good s) (hi : s.mms i = some mm) {child : Mm} {p : Phys}
    (hrun : mm.newMmByOld s.phys = .ok (child, p)) :
    ForkRight s i mm (s.added child p) child := by
  have hmm := h.separate.sane i mm hi
  have hspace := hmm.userSpace h.separate.booted
  obtain ⟨hforked, hmade⟩ := (hmm.newMmByOld h.separate.booted).of_ok hrun
  have hcloned := hforked.cloned hspace
  have hnew := (Changed.made (o := none) hmade).untouched h hi (Option.some_ne_none i).symm
  refine ⟨hforked.duplicates hspace, hforked.startBrk, hforked.brk,
    Mm.userByte_congr hcloned.child_seen, hcloned.apart, hnew.1, hnew.2, ?_⟩
  intro r hr u hu
  exact ((h.added hmade).states_task hr u hu).isolated

theorem Good.exists_forkRight_iff (h : Good s) (hi : s.mms i = some mm) :
    (∃ t child, s.exec (.fork i) = .ok t ∧ t.mms s.cnt = some child ∧
      ForkRight s i mm t child) ↔ ¬mm.Overhangs ∧ s.phys.Supplies mm.forkFrames := by
  have hmm := h.separate.sane i mm hi
  cases hrun : mm.newMmByOld s.phys with
  | error e =>
    rw [exec_fork hi, hrun]
    refine ⟨?_, ?_⟩
    · rintro ⟨t, child, hfail, -⟩
      cases hfail
    · rintro ⟨hinside, hmemory⟩
      rcases (hmm.newMmByOld h.separate.booted).of_error hrun with ⟨-, hshort⟩ | ⟨-, hover⟩
      · exact absurd hmemory hshort
      · exact absurd hover hinside
  | ok r =>
    have hforked := ((hmm.newMmByOld h.separate.booted).of_ok hrun).1
    rw [exec_fork hi, hrun]
    refine ⟨fun _ => ⟨hforked.not_overhangs (hmm.userSpace h.separate.booted),
      hforked.paid.spent.supplies⟩, ?_⟩
    intro _
    exact ⟨s.added r.1 r.2, r.1, rfl, replaceAt_self, h.forkRight hi hrun⟩

/-- In every state a fork copies and parts the address space of a task exactly if all of its
pages lie in their areas and there are enough frames for the copy. -/
theorem exists_forkRight_iff_inside (hs : Start s) (hrun : Trace.IsRun TaskStep s r) :
    ∀ t ∈ Trace.states s r, ∀ i mm, t.mms i = some mm →
      ((∃ t' child, t.exec (.fork i) = .ok t' ∧ t'.mms t.cnt = some child ∧
        ForkRight t i mm t' child) ↔ ¬mm.Overhangs ∧ t.phys.Supplies mm.forkFrames) :=
  fun t ht _ _ hi => (hs.good.states_task hrun t ht).exists_forkRight_iff hi

/-- The first task stores a byte to its heap and forks. It has 17 resident pages, with three
tables above them. -/
theorem exists_forkRight_stored : ∃ t mm t' child, t.mms 0 = some mm ∧
    mm.forkFrames = 21 ∧ ¬mm.Overhangs ∧ t.phys.Supplies 21 ∧
    t.exec (.fork 0) = .ok t' ∧ t'.mms t.cnt = some child ∧ ForkRight t 0 mm t' child := by
  have hstate : ((boot.exec (.create noSegments)).bind fun t => t.exec (.store 0 0x1000 7)).map
      (fun t => (t.mms 0).map fun mm => (mm.forkFrames, decide mm.Overhangs,
        decide (t.phys.Supplies 21))) = .ok (some (21, false, true)) := by
    decide +kernel
  obtain ⟨t, hrun, hmm⟩ := Checked.map_eq_ok.mp hstate
  obtain ⟨t₀, hcreate, hstore⟩ := Checked.bind_eq_ok.mp hrun
  obtain ⟨mm, hmm, hfacts⟩ := Option.map_eq_some_iff.mp hmm
  simp only [Prod.mk.injEq, decide_eq_false_iff_not, decide_eq_true_eq] at hfacts
  obtain ⟨hframes, hinside, hsupplies⟩ := hfacts
  have hr : Trace.IsRun TaskStep boot
      [(.user (.create noSegments), t₀), (.user (.store 0 0x1000 7), t)] :=
    ⟨hcreate, hstore, trivial⟩
  obtain ⟨t', child, hright⟩ := (exists_forkRight_iff_inside start_boot hr t
    (by simp [Trace.states]) 0 mm hmm).mpr ⟨hinside, hframes ▸ hsupplies⟩
  exact ⟨t, mm, t', child, hmm, hframes, hinside, hsupplies, hright⟩

/-- A mapping over the whole range is cut short by `sys_brk` after a page in it has become
resident, and the task cannot fork any more. -/
theorem overhang_not_forked : ∃ t r mm, Trace.IsRun TaskStep boot r ∧ t ∈ Trace.states boot r ∧
    t.mms 0 = some mm ∧ mm.newMmByOld t.phys = .error .assertion ∧
    ¬∃ t' child, t.exec (.fork 0) = .ok t' ∧ t'.mms t.cnt = some child ∧
      ForkRight t 0 mm t' child := by
  have hrun : ((overlap.take 5).foldlM exec boot).map
      (fun t => (t.exec (.fork 0)).map fun _ => ()) = .ok (.error .assertion) := by
    decide +kernel
  obtain ⟨t, r, hr, ht, hfail⟩ := exists_run_error hrun
  cases hmm : t.mms 0 with
  | none =>
    simp only [Spaces.exec, hmm] at hfail
    cases hfail
  | some mm =>
    have hnew : mm.newMmByOld t.phys = .error .assertion := by
      rw [exec_fork hmm] at hfail
      cases hold : mm.newMmByOld t.phys with
      | error e =>
        rw [hold] at hfail
        cases hfail
        rfl
      | ok r =>
        rw [hold] at hfail
        cases hfail
    have hr := hr.map (T := TaskStep) (g := TaskAction.user) fun _ _ _ hstep => hstep
    refine ⟨t, _, mm, hr, by simpa using ht, hmm, hnew, ?_⟩
    rintro ⟨t', child, hok, -⟩
    rw [hfail] at hok
    cases hok

end Spaces

end Zinix
