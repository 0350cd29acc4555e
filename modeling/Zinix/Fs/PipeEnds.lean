import Zinix.Fs.Descriptors

/-!
# The end of a pipe's writers

The table of a task that has exited stays as it is, so that a pipe all of whose writers are
gone is closed exactly if none of them left its write end open.
-/

namespace Zinix.Descriptors

variable {s s' : Descriptors} {t p : ℕ}
  {a : FileAction}

theorem sound_boot : boot.Sound 0 where
  counted := by
    intro d
    have hcount : (List.replicate maxOpened (none : Option ℕ)).count (some d) = 0 := by
      simp [List.count_replicate]
    simp [entries, boot, hcount]
  old := by
    intro d hd
    exact absurd hd (lt_irrefl 0)
  empty := by
    intro t ht
    have ht : 1 ≤ t := ht
    exact if_neg (by omega)
  owner := by
    intro d p hd
    exact absurd hd (Nat.not_lt_zero d)
  writer := by
    intro p hp
    exact absurd hp (Nat.not_lt_zero p)
  unique := by
    intro p v w hv
    exact absurd hv.old (Nat.not_lt_zero v)
  writeCnt := by
    intro p w hw
    exact absurd hw.old (Nat.not_lt_zero w)
  waiting := by
    intro p hp
    exact absurd rfl hp

/-- In a state between two calls, with only tasks that exist having exited. -/
structure AtRest (s : Descriptors) : Prop where
  sound : s.Sound 0
  exists_of_exited : ∀ u, s.exited u = true → u < s.taskCnt

theorem atRest_boot : boot.AtRest := ⟨sound_boot, fun _ h => by cases h⟩

theorem Sound.closed_iff (h : s.Sound 0) (hp : p < s.pipeCnt) :
    s.Closed p ↔ ∀ t < s.taskCnt, ¬s.HoldsWrite t p := by
  obtain ⟨w, hw⟩ := h.writer p hp
  have hcnt := h.writeCnt p w hw
  have hrefs : s.strong w = s.entries w := by
    have hcount := h.counted w
    simpa using hcount
  constructor
  · rintro ⟨hzero, -⟩ t ht ⟨d, hmem, hd⟩
    have hpos := h.strong_pos_of_mem hmem
    rw [h.unique p d w hd hw] at hpos
    rw [hcnt, writersFor_pos hpos] at hzero
    cases hzero
  · intro hnone
    have hzero : s.strong w = 0 := by
      rw [hrefs, entries, Finset.sum_eq_zero_iff]
      intro t ht
      rw [List.count_eq_zero]
      exact fun hmem => hnone t (Finset.mem_range.mp ht) ⟨w, hmem, hw⟩
    rw [hzero, writersFor_zero] at hcnt
    refine ⟨hcnt, ?_⟩
    by_contra hwait
    exact h.waiting p hwait hcnt

theorem holdsWrite_congr {v : ℕ} (h : s.Sound 0) (hframe : Frame v s s')
    (hopened : s'.opened t = s.opened t) : s'.HoldsWrite t p ↔ s.HoldsWrite t p := by
  refine exists_congr fun d => ?_
  rw [hopened]
  refine and_congr_right fun hmem => ?_
  have hlt := h.old d (h.strong_pos_of_mem hmem)
  have hle := hframe.dfileCnt
  constructor
  · rintro ⟨-, hc, hf⟩
    exact ⟨hlt, (hframe.cls d hlt).symm.trans hc, by rwa [hframe.openFlags d hlt] at hf⟩
  · rintro ⟨-, hc, hf⟩
    exact ⟨by omega, (hframe.cls d hlt).trans hc, by rwa [hframe.openFlags d hlt]⟩

theorem lockedTask_eq_ok {q r : Pipe} {o : Outcome} (h : lockedTask q o = .ok r) : r = q := by
  cases o with
  | returned n =>
    cases h
    rfl
  | slept n => cases h

/-- Every call but `exit` ends with the references counted, and within its frame. -/
theorem Sound.call (h : s.Sound 0) (hexec : s.exec a = .ok s') (hexit : ∀ u, a ≠ .exit u)
    (ha : ∀ u ∈ a.actor, u = t) : Within t s s' 0 := by
  have hstart : Within t s s 0 := h.start t
  cases a with
  | createUserTask =>
    cases hexec
    exact hstart.createUserTask
  | pipe u =>
    cases hexec
    cases ha u rfl
    exact hstart.sysPipe
  | close u fd =>
    cases hexec
    cases ha u rfl
    exact hstart.sysClose fd
  | dup u oldFd newFd =>
    cases hexec
    cases ha u rfl
    exact hstart.doDup oldFd newFd
  | fcntl u fd cmd arg =>
    cases ha u rfl
    obtain ⟨⟨ret, s₁⟩, hr, hs'⟩ := Checked.bind_eq_ok.mp hexec
    cases hs'
    exact hstart.sysFcntl hr
  | openat u dirfd found flags =>
    cases hexec
    cases ha u rfl
    exact hstart.sysOpenat dirfd found flags
  | fork u =>
    cases hexec
    exact hstart.fork u
  | execve u =>
    cases hexec
    cases ha u rfl
    exact hstart.sysExecve
  | exit u => exact absurd rfl (hexit u)
  | read u fd buf =>
    cases ha u rfl
    rw [exec, sysRead] at hexec
    refine hstart.transfer (fun q r hr hq => ?_) hexec
    obtain ⟨stretch, hstretch, hr⟩ := Checked.bind_eq_ok.mp hr
    rw [lockedTask_eq_ok hr]
    exact readExact_pipe hstretch hq
  | write u fd buf =>
    cases ha u rfl
    obtain ⟨_, -, hexec⟩ := Checked.bind_eq_ok.mp hexec
    refine hstart.transfer (fun q r hr hq => ?_) hexec
    obtain ⟨stretch, hstretch, hr⟩ := Checked.bind_eq_ok.mp hr
    rw [lockedTask_eq_ok hr]
    exact writeExact_pipe hstretch hq
  | dfileRead u fd buf bufPos =>
    cases ha u rfl
    rw [exec, dfileRead] at hexec
    refine hstart.transfer (fun q r hr hq => ?_) hexec
    obtain ⟨stretch, hstretch, rfl⟩ := Checked.map_eq_ok.mp hr
    exact readExact_pipe hstretch hq
  | dfileWrite u fd buf bufPos =>
    cases ha u rfl
    rw [exec, dfileWrite] at hexec
    refine hstart.transfer (fun q r hr hq => ?_) hexec
    obtain ⟨stretch, hstretch, rfl⟩ := Checked.map_eq_ok.mp hr
    exact writeExact_pipe hstretch hq

theorem sound_exitSelf (h : s.Sound 0) (u : ℕ) : (s.exitSelf u).Sound 0 where
  counted := h.counted
  old := h.old
  empty := h.empty
  owner := h.owner
  writer := fun p hp => (h.writer p hp).imp fun _ hw => ⟨hw.old, hw.cls, hw.writeable⟩
  unique := fun p v w hv hw => h.unique p v w ⟨hv.old, hv.cls, hv.writeable⟩
    ⟨hw.old, hw.cls, hw.writeable⟩
  writeCnt := fun p w hw => h.writeCnt p w ⟨hw.old, hw.cls, hw.writeable⟩
  waiting := h.waiting

/-- A step keeps the references counted. It makes the write ends that exited tasks have
left open no fewer, and more only by an exit. -/
theorem AtRest.step (h : s.AtRest) (hstep : s.Step a s') :
    s'.AtRest ∧ ∀ u p, (s'.exited u = true ∧ s'.HoldsWrite u p) ↔
      (s.exited u = true ∧ s.HoldsWrite u p) ∨ (a = .exit u ∧ s.HoldsWrite u p) := by
  obtain ⟨hrun, hexec⟩ := hstep
  by_cases hexit : ∃ v, a = .exit v
  · obtain ⟨v, rfl⟩ := hexit
    cases hexec
    have hv : v < s.taskCnt := (hrun v rfl).1
    have hexited : ∀ u, (s.exitSelf v).exited u = true ↔ v = u ∨ s.exited u = true := by
      intro u
      show replaceAt s.exited v true u = true ↔ _
      rw [replaceAt_apply]
      split_ifs with huv
      · simp [huv]
      · simp [Ne.symm huv]
    have hholds : ∀ u p, (s.exitSelf v).HoldsWrite u p ↔ s.HoldsWrite u p := fun u p =>
      exists_congr fun d => and_congr_right fun _ =>
        ⟨fun hw => ⟨hw.old, hw.cls, hw.writeable⟩, fun hw => ⟨hw.old, hw.cls, hw.writeable⟩⟩
    refine ⟨⟨sound_exitSelf h.sound v, fun u hu => ?_⟩, fun u p => ?_⟩
    · rcases (hexited u).mp hu with rfl | hu
      · exact hv
      · exact h.exists_of_exited u hu
    · rw [hexited, hholds, FileAction.exit.injEq]
      tauto
  · have hne : ∀ u, a ≠ .exit u := fun u hu => hexit ⟨u, hu⟩
    -- the task that acts has not exited
    obtain ⟨t, ht, hother⟩ : ∃ t, (∀ u ∈ a.actor, u = t) ∧ ∀ u, s.exited u = true → u ≠ t := by
      cases hactor : a.actor with
      | none =>
        exact ⟨s.taskCnt, fun u hu => (Option.not_mem_none u hu).elim,
          fun u hu => (h.exists_of_exited u hu).ne⟩
      | some t =>
        refine ⟨t, fun u hu => (Option.some.inj hu).symm, fun u hu hut => ?_⟩
        rw [hut, (hrun t hactor).2.1] at hu
        cases hu
    obtain ⟨hsound, hframe⟩ := h.sound.call hexec hne ht
    have hholds : ∀ u p, s.exited u = true → (s'.HoldsWrite u p ↔ s.HoldsWrite u p) :=
      fun u p hu => holdsWrite_congr h.sound hframe
        (hframe.opened u (h.exists_of_exited u hu) (hother u hu))
    refine ⟨⟨hsound, fun u hu => ?_⟩, fun u p => ⟨?_, ?_⟩⟩
    · exact (h.exists_of_exited u (hframe.noExit u hu)).trans_le hframe.taskCnt
    · rintro ⟨hu, hw⟩
      have hu := hframe.noExit u hu
      exact Or.inl ⟨hu, (hholds u p hu).mp hw⟩
    · rintro (⟨hu, hw⟩ | ⟨ha, -⟩)
      · exact ⟨(hframe.exited u (h.exists_of_exited u hu)).trans hu, (hholds u p hu).mpr hw⟩
      · exact absurd ha (hne u)

/-- The write ends that exited tasks have left open at the end of a run are those with
which a task has exited during it. -/
theorem AtRest.run {r : List (FileAction × Descriptors)} (h : s.AtRest)
    (hrun : Trace.IsRun Step s r) :
    (Trace.final s r).AtRest ∧ ∀ u p,
      ((Trace.final s r).exited u = true ∧ (Trace.final s r).HoldsWrite u p) ↔
        (s.exited u = true ∧ s.HoldsWrite u p) ∨
          ∃ x ∈ Trace.steps s r, x.2 = .exit u ∧ x.1.HoldsWrite u p := by
  induction r generalizing s with
  | nil => exact ⟨h, fun u p => by simp [Trace.final, Trace.steps]⟩
  | cons x r ih =>
    obtain ⟨a, t⟩ := x
    obtain ⟨ht, hstep⟩ := h.step hrun.1
    obtain ⟨hfinal, hrest⟩ := ih ht hrun.2
    refine ⟨hfinal, fun u p => ?_⟩
    rw [Trace.final, hrest, hstep, Trace.steps]
    simp only [List.mem_cons, exists_eq_or_imp]
    tauto

/-- A pipe all of whose writers have closed its write end or exited has no writer and no
waiting reader exactly if none of them exited with the write end open. -/
theorem closed_iff_no_exit_open {r : List (FileAction × Descriptors)}
    (hrun : Trace.IsRun Step boot r) {p : ℕ} (hp : p < (Trace.final boot r).pipeCnt)
    (hreleased : (Trace.final boot r).Released p) :
    (Trace.final boot r).Closed p ↔
      ∀ x ∈ Trace.steps boot r, ∀ t, x.2 = .exit t → ¬x.1.HoldsWrite t p := by
  obtain ⟨hfinal, hleft⟩ := atRest_boot.run hrun
  rw [hfinal.sound.closed_iff hp]
  constructor
  · intro hnone x hx t ht hw
    obtain ⟨hexited, hholds⟩ := (hleft t p).mpr (Or.inr ⟨x, hx, ht, hw⟩)
    exact hnone t (hfinal.exists_of_exited t hexited) hholds
  · intro hclean t ht hw
    rcases (hleft t p).mp ⟨hreleased t ht hw, hw⟩ with ⟨hexited, -⟩ | ⟨x, hx, hexit, hholds⟩
    · cases hexited
    · exact hclean x hx t hexit hholds

def next (s : Descriptors) (a : FileAction) : Descriptors :=
  match s.exec a with
  | .ok s' => s'
  | .error _ => s

def ready (s : Descriptors) (a : FileAction) : Bool :=
  (a.actor.all fun t => decide (s.CanRun t)) && (s.exec a).isOk

theorem step_next (h : s.ready a = true) : s.Step a (s.next a) := by
  rw [ready, Bool.and_eq_true] at h
  refine ⟨fun t ht => ?_, ?_⟩
  · have hall := h.1
    rw [Option.mem_def.mp ht] at hall
    simpa using hall
  · obtain ⟨s', hs'⟩ := Checked.exists_of_isOk h.2
    rw [next, hs']

theorem isRun_of_ready (as : List FileAction)
    (h : ∀ x ∈ Trace.steps boot (Trace.record next boot as), x.1.ready x.2 = true) :
    Trace.IsRun Step boot (Trace.record next boot as) :=
  Trace.isRun_record fun x hx => step_next (h x hx)

set_option maxRecDepth 10000

/-- A task makes a pipe, closes the write end and exits. -/
def tidyExit : List FileAction := [.createUserTask, .pipe 1, .close 1 4, .exit 1]

theorem closed_iff_no_exit_open_tidyExit :
    (Trace.final boot (Trace.record next boot tidyExit)).Closed 0 ∧
      ∀ x ∈ Trace.steps boot (Trace.record next boot tidyExit), ∀ t,
        x.2 = .exit t → ¬x.1.HoldsWrite t 0 := by
  have hiff := closed_iff_no_exit_open (p := 0) (isRun_of_ready tidyExit
    (by decide +kernel)) (by decide +kernel) (by decide +kernel)
  have hclosed : (Trace.final boot (Trace.record next boot tidyExit)).Closed 0 := by
    decide +kernel
  exact ⟨hclosed, hiff.mp hclosed⟩

/-- A task makes a pipe and a child; the child closes its write end, and the task exits. -/
def exitOpen : List FileAction :=
  [.createUserTask, .pipe 1, .fork 1, .close 2 4, .exit 1]

/-- The only task with the write end has exited, but the pipe still has a writer, for which
a read of the child waits. -/
theorem exitOpen_not_closed :
    Trace.IsRun Step boot (Trace.record next boot exitOpen) ∧
      (Trace.final boot (Trace.record next boot exitOpen)).Released 0 ∧
      ((Trace.final boot (Trace.record next boot exitOpen)).pipes 0).writeCnt = 1 ∧
      ¬(Trace.final boot (Trace.record next boot exitOpen)).Closed 0 :=
  ⟨isRun_of_ready _ (by decide +kernel), by decide +kernel, by decide +kernel, by decide +kernel⟩

end Zinix.Descriptors
