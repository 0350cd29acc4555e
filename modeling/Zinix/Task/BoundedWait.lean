import Zinix.Task.QueueRuns

/-!
# No task starves

The timer takes the current task off the front of the running list at every eleventh tick,
and all tasks that become runnable go to its end. So the number of ticks until a task runs
is bounded by its place in the list.
-/

namespace Zinix

namespace Kernel

variable {k k' : Kernel} {a : KernelAct} {t u : ℕ} {r₀ r : List (KernelAct × Kernel)}

def isTick : KernelAct → Bool
  | .tick => true
  | _ => false

theorem requeue_runningList (k : Kernel) (assign : Option ℕ) :
    ∃ l, (k.requeue assign).runningList = k.runningList ++ l := by
  unfold requeue
  split
  · exact ⟨_, rfl⟩
  · split <;> exact ⟨[], (List.append_nil _).symm⟩
  · exact ⟨[], (List.append_nil _).symm⟩

theorem requeue_ticCounter (k : Kernel) (assign : Option ℕ) :
    (k.requeue assign).ticCounter = k.ticCounter := by
  unfold requeue
  split
  · rfl
  · split <;> rfl
  · rfl

theorem scheduler_ticCounter {assign : Option ℕ} (h : k.scheduler assign = .ok k') :
    k'.ticCounter = k.ticCounter := by
  unfold scheduler at h
  obtain ⟨_, _, h⟩ := Checked.bind_eq_ok.mp h
  split_ifs at h
  · split at h
    · cases h
      rfl
    · cases h
  · obtain ⟨next, _, h⟩ := Checked.bind_eq_ok.mp h
    cases h
    exact requeue_ticCounter _ _

theorem exec_ticCounter (h : k.exec a = .ok k') : k'.ticCounter =
    if isTick a then if k.ticCounter = ticMax then 0 else k.ticCounter + 1
    else k.ticCounter := by
  cases a with
  | fork =>
    obtain ⟨_, rfl⟩ := fork_eq_ok.mp h
    rfl
  | createTask | newPipe =>
    cases h
    rfl
  | tick =>
    rw [exec, timerEntry_eq] at h
    by_cases hmax : k.ticCounter = ticMax
    · rw [if_pos hmax] at h
      exact (scheduler_ticCounter h).trans (if_pos hmax).symm
    · rw [if_neg hmax] at h
      cases h
      exact (if_neg hmax).symm
  | sleep => exact @scheduler_ticCounter (k.setStatus k.running .sleeping) k' _ h
  | pipeSleep j => exact @scheduler_ticCounter (k.setStatus k.running .sleeping) k' _ h
  | exit exitCode =>
    simp only [exec, exitSelf, wakeUpAllSleeping_eq, Checked.ok_bind] at h
    exact (scheduler_ticCounter h).trans rfl
  | pipeWake j =>
    rw [exec, wakeUpWait_eq] at h
    cases h
    rfl

theorem step_ticCounter_le (h : k.ticCounter ≤ ticMax) (hstep : Step k a k') :
    k'.ticCounter ≤ ticMax := by
  rw [exec_ticCounter hstep.2]
  split_ifs
  · exact Nat.zero_le _
  · omega
  · exact h

theorem scheduler_runningList {assign : Option ℕ} {next : ℕ} {rest : List ℕ}
    (hl : k.runningList = k.running :: next :: rest) (h : k.scheduler assign = .ok k') :
    ∃ l, k'.runningList = next :: rest ++ l := by
  rw [scheduler_switch assign hl] at h
  cases h
  exact requeue_runningList { k with runningList := next :: rest } assign

/-- The tasks behind the current one keep their order. It leaves the front at the latest when
the timer has counted to its end. -/
theorem exec_runningList {next : ℕ} {rest : List ℕ}
    (hl : k.runningList = k.running :: next :: rest) (h : k.exec a = .ok k') :
    (∃ l, k'.runningList = next :: rest ++ l) ∨
      (isTick a → k.ticCounter ≠ ticMax) ∧ ∃ l, k'.runningList = k.runningList ++ l := by
  cases a with
  | fork =>
    obtain ⟨_, rfl⟩ := fork_eq_ok.mp h
    exact .inr ⟨by simp [isTick], _, rfl⟩
  | createTask =>
    cases h
    exact .inr ⟨by simp [isTick], _, rfl⟩
  | newPipe =>
    cases h
    exact .inr ⟨by simp [isTick], [], (List.append_nil _).symm⟩
  | tick =>
    rw [exec, timerEntry_eq] at h
    by_cases hmax : k.ticCounter = ticMax
    · rw [if_pos hmax] at h
      exact .inl (@scheduler_runningList { k with ticCounter := 0 } k' _ next rest hl h)
    · rw [if_neg hmax] at h
      cases h
      exact .inr ⟨fun _ => hmax, [], (List.append_nil _).symm⟩
  | sleep => exact .inl (@scheduler_runningList (k.setStatus k.running .sleeping) k' _ _ _ hl h)
  | pipeSleep j =>
    exact .inl (@scheduler_runningList (k.setStatus k.running .sleeping) k' _ _ _ hl h)
  | exit exitCode =>
    simp only [exec, exitSelf, wakeUpAllSleeping_eq, Checked.ok_bind] at h
    obtain ⟨l, hk'⟩ := @scheduler_runningList _ k' none next (rest ++ k.sleepList.reverse)
      (by simp [wakeAll, setStatus, hl]) h
    exact .inl ⟨k.sleepList.reverse ++ l, by rw [hk']; simp⟩
  | pipeWake j =>
    rw [exec, wakeUpWait_eq] at h
    cases h
    exact .inr ⟨by simp [isTick], _, rfl⟩

/-- All tasks that wait move up by the same number of places, and by one when the timer is at
its end. -/
theorem step_moves (hinv : k.StepInv) (hmem : t ∈ k.runningList) (hne : t ≠ k.running)
    (hstep : Step k a k') :
    ∃ d, (isTick a → k.ticCounter = ticMax → d = 1) ∧ ∀ u ∈ k.runningList, u ≠ k.running →
      u ∈ k'.runningList ∧ k'.runningList.idxOf u + d = k.runningList.idxOf u := by
  obtain ⟨rest, hl⟩ := hinv.1.running_eq_cons
  cases rest with
  | nil => exact absurd (List.mem_singleton.mp (hl ▸ hmem)) hne
  | cons next rest =>
    rcases exec_runningList hl hstep.2 with ⟨l, hk'⟩ | ⟨hnot, l, hk'⟩
    · refine ⟨1, fun _ _ => rfl, fun u hu hur => ?_⟩
      have hrest := (List.mem_cons.mp (hl ▸ hu)).resolve_left hur
      rw [hk', hl, List.idxOf_cons_ne _ hur.symm, List.idxOf_append_of_mem hrest]
      exact ⟨List.mem_append_left _ hrest, rfl⟩
    · refine ⟨0, fun htick hmax => absurd hmax (hnot htick), fun u hu _ => ?_⟩
      rw [hk', List.idxOf_append_of_mem hu]
      exact ⟨List.mem_append_left _ hu, rfl⟩

/-- A tick brings a waiting task nearer to the front, or the timer nearer to its end, and
nothing moves it back. -/
theorem step_waits (hinv : k.StepInv) (hmem : t ∈ k.runningList) (hne : t ≠ k.running)
    (hstep : Step k a k') : t ∈ k'.runningList ∧
      11 * k'.runningList.idxOf t + k.ticCounter + (if isTick a then 1 else 0) ≤
        11 * k.runningList.idxOf t + k'.ticCounter := by
  obtain ⟨d, hd, hmoves⟩ := step_moves hinv hmem hne hstep
  obtain ⟨hmem', hidx⟩ := hmoves t hmem hne
  refine ⟨hmem', ?_⟩
  rw [exec_ticCounter hstep.2]
  split_ifs with htick hmax
  · have := hd htick hmax
    rw [hmax, ticMax]
    omega
  · omega
  · omega

/-- As long as the task has not run, there have been fewer ticks than its place allows. -/
theorem ticks_le (hinv : k.StepInv) (hmem : t ∈ k.runningList)
    (hrun : Trace.IsRun Step k r) (hwait : ∀ k' ∈ Trace.states k r, k'.running ≠ t) :
    11 + k.ticCounter + r.countP (fun x => isTick x.1) ≤
      11 * k.runningList.idxOf t + (Trace.final k r).ticCounter := by
  have hne : t ≠ k.running := Ne.symm (hwait k (List.mem_cons_self ..))
  induction r generalizing k with
  | nil =>
    obtain ⟨rest, hl⟩ := hinv.1.running_eq_cons
    rw [hl, List.idxOf_cons_ne _ hne.symm, List.countP_nil, Trace.final]
    omega
  | cons x r ih =>
    obtain ⟨hmem', hle⟩ := step_waits hinv hmem hne hrun.1
    have hwait' : ∀ k' ∈ Trace.states x.2 r, k'.running ≠ t := fun k' hk' =>
      hwait k' (List.mem_cons_of_mem _ hk')
    have hrest := ih (step_stepInv _ _ _ hinv hrun.1) hmem' hrun.2 hwait'
      (Ne.symm (hwait' x.2 (List.mem_cons_self ..)))
    rw [List.countP_cons, Trace.final]
    omega

theorem running_ne_of_ahead (hinv : k.StepInv) (ht : t ∈ k.runningList) (hu : u ∈ k.runningList)
    (hlt : k.runningList.idxOf t < k.runningList.idxOf u) (hrun : Trace.IsRun Step k r)
    (hwait : ∀ k' ∈ Trace.states k r, k'.running ≠ t) : (Trace.final k r).running ≠ u := by
  have hne : u ≠ k.running := by
    rintro rfl
    obtain ⟨rest, hl⟩ := hinv.1.running_eq_cons
    simp [hl] at hlt
  induction r generalizing k with
  | nil => exact hne.symm
  | cons x r ih =>
    have htne : t ≠ k.running := Ne.symm (hwait k (List.mem_cons_self ..))
    obtain ⟨d, -, hmoves⟩ := step_moves hinv ht htne hrun.1
    obtain ⟨ht', hidxt⟩ := hmoves t ht htne
    obtain ⟨hu', hidxu⟩ := hmoves u hu hne
    have hinv' := step_stepInv _ _ _ hinv hrun.1
    have hlt' : x.2.runningList.idxOf t < x.2.runningList.idxOf u := by omega
    apply ih hinv' ht' hu' hlt' hrun.2 fun k' hk' => hwait k' (List.mem_cons_of_mem _ hk')
    rintro rfl
    obtain ⟨rest, hl⟩ := hinv'.1.running_eq_cons
    simp [hl] at hlt'

theorem stepInv_of_run (h : k.StepInv ∧ k.ticCounter ≤ ticMax) (hrun : Trace.IsRun Step k r) :
    ∀ k' ∈ Trace.states k r, k'.StepInv ∧ k'.ticCounter ≤ ticMax :=
  Trace.invariant (fun k => k.StepInv ∧ k.ticCounter ≤ ticMax) (fun k a k' hk hstep =>
    ⟨step_stepInv k a k' hk.1 hstep, step_ticCounter_le hk.2 hstep⟩) h hrun

/-- From every state that is reached, tasks come to run in the order of the running list. -/
theorem runs_in_order (hreach : Trace.IsRun Step coreInit r₀) (hk : k ∈ Trace.states coreInit r₀)
    (ht : t ∈ k.runningList) (hu : u ∈ k.runningList)
    (hlt : k.runningList.idxOf t < k.runningList.idxOf u) (hrun : Trace.IsRun Step k r)
    (hlast : (Trace.final k r).running = u) : ∃ k' ∈ Trace.states k r, k'.running = t := by
  have hstart := stepInv_of_run ⟨coreInit_stepInv, Nat.zero_le _⟩ hreach k hk
  by_contra hnone
  push Not at hnone
  exact running_ne_of_ahead hstart.1 ht hu hlt hrun hnone hlast

/-- From every state that is reached, a task at place `i` of the running list is the current
one before `11 * i` ticks are over. -/
theorem runs_within (hreach : Trace.IsRun Step coreInit r₀) (hk : k ∈ Trace.states coreInit r₀)
    (hmem : t ∈ k.runningList) (hrun : Trace.IsRun Step k r)
    (hticks : 11 * k.runningList.idxOf t ≤ r.countP fun x => isTick x.1) :
    ∃ k' ∈ Trace.states k r, k'.running = t := by
  have hstart := stepInv_of_run ⟨coreInit_stepInv, Nat.zero_le _⟩ hreach k hk
  by_contra hnone
  push Not at hnone
  have hle := ticks_le hstart.1 hmem hrun hnone
  have htic := (stepInv_of_run hstart hrun _ (Trace.final_mem_states ..)).2
  rw [ticMax] at htic
  omega

/-- The state after the boot task has made two user tasks. -/
def twoTasks : Kernel := (coreInit.create none true).create none true

def tickRun : List (KernelAct × Kernel) := Trace.record next twoTasks (List.replicate 22 .tick)

theorem tickRun_isRun : Trace.IsRun Step twoTasks tickRun := by
  have hall : ∀ x ∈ Trace.steps twoTasks tickRun, x.1.Allowed x.2 ∧ (x.1.exec x.2).isOk := by
    decide
  exact Trace.isRun_record fun x hx => step_next (hall x hx).1 (hall x hx).2

theorem isRun_twoTasks : Trace.IsRun Step coreInit
    [(.createTask true, coreInit.create none true), (.createTask true, twoTasks)] :=
  ⟨⟨trivial, rfl⟩, ⟨trivial, rfl⟩, trivial⟩

theorem runs_in_order_twoTasks : ∃ k ∈ Trace.states twoTasks tickRun, k.running = 1 :=
  runs_in_order (u := 2) isRun_twoTasks (Trace.final_mem_states ..) (by decide) (by decide)
    (by decide) tickRun_isRun (by decide +kernel)

theorem runs_within_twoTasks : ∃ k ∈ Trace.states twoTasks tickRun, k.running = 2 :=
  runs_within isRun_twoTasks (Trace.final_mem_states ..) (by decide) tickRun_isRun (by decide)

end Kernel

end Zinix
