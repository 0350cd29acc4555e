import Zinix.Task.QueueRuns

/-!
# Preemption and the status of runnable tasks

The wake-up of a pipe puts tasks back on the running list without resetting their status,
so a later tick takes such a task for one that is going to sleep.
-/

namespace Zinix

namespace Kernel

variable {k k' : Kernel}
  {assign : Option ℕ} {a : KernelAct}

/-- Every task on the running list but the current one is marked as running, and a
tick leaves the current task on the list. -/
structure PreemptOk (k : Kernel) : Prop where
  others : ∀ t ∈ k.runningList, t ≠ k.running → k.status t = .running
  tick : ∀ k', k.timerEntry = .ok k' → k.running ∈ k'.runningList

/-- All tasks on the running list are marked as running. -/
def Marked (k : Kernel) : Prop := ∀ t ∈ k.runningList, k.status t = .running

def NoPipeWake (k : Kernel) : KernelAct → Prop
  | .pipeWake j => k.waits j = []
  | _ => True

instance (k : Kernel) : (a : KernelAct) → Decidable (k.NoPipeWake a)
  | .pipeWake j => inferInstanceAs (Decidable (k.waits j = []))
  | .fork | .createTask _ | .tick | .sleep | .exit _ | .newPipe | .pipeSleep _ => .isTrue trivial

theorem mem_requeue {t : ℕ} :
    t ∈ (k.requeue assign).runningList ↔
      t ∈ k.runningList ∨ t = k.running ∧ k.status k.running = .running := by
  cases hs : k.status k.running with
  | running => simp [requeue_of_running hs]
  | sleeping =>
    cases assign with
    | none => simp [requeue_of_sleeping hs]
    | some j => simp [requeue_of_waiting hs]
  | zombie => simp [requeue_of_zombie hs]

theorem Marked.preemptOk (h : k.QueueInv) (hm : k.Marked) : k.PreemptOk where
  others := fun t ht _ => hm t ht
  tick := by
    intro k' htick
    rw [timerEntry_eq] at htick
    split_ifs at htick
    · obtain ⟨rest, hl⟩ := h.running_eq_cons
      have hs := hm _ h.running_mem
      cases rest with
      | nil =>
        rw [scheduler_single (k := { k with ticCounter := 0 }) none hl hs] at htick
        cases htick
        exact h.running_mem
      | cons next rest =>
        rw [scheduler_switch (k := { k with ticCounter := 0 }) none hl] at htick
        cases htick
        exact mem_requeue.mpr (.inr ⟨rfl, hs⟩)
    · cases htick
      exact h.running_mem

/-- The scheduler takes a task off the running list unless it is marked as running. -/
theorem marked_scheduler (h : k.QueueInv)
    (hothers : ∀ t ∈ k.runningList, t ≠ k.running → k.status t = .running)
    (hexec : k.scheduler assign = .ok k') : k'.Marked := by
  obtain ⟨rest, hl⟩ := h.running_eq_cons
  cases rest with
  | nil =>
    have hzero : 0 = k.running := by simpa [hl] using h.boot_mem
    have hs : k.status k.running = .running := hzero ▸ h.boot_status
    rw [scheduler_single assign hl hs] at hexec
    cases hexec
    intro t ht
    rw [hl, List.mem_singleton] at ht
    exact ht ▸ hs
  | cons next rest =>
    rw [scheduler_switch assign hl] at hexec
    cases hexec
    have hrest : ∀ t ∈ next :: rest, k.status t = .running := by
      intro t ht
      refine hothers t ?_ (h.ne_running hl ht)
      rw [hl]
      exact List.mem_cons_of_mem _ ht
    intro t ht
    simp only [status, requeue_tasks]
    rcases mem_requeue.mp ht with ht | ⟨rfl, hs⟩
    · exact hrest t ht
    · exact hs

theorem Marked.create (hm : k.Marked) (parent : Option ℕ) (isUser : Bool) :
    (k.create parent isUser).Marked := by
  intro t ht
  simp only [Kernel.create, newTask, addTask, status, Function.update_apply]
  split_ifs with heq
  · rfl
  · rcases List.mem_append.mp ht with ht | ht
    · exact hm t ht
    · exact absurd (List.mem_singleton.mp ht) heq

/-- Every action but the wake-up of a sleeper on a pipe keeps the marks. -/
theorem step_marked (h : k.StepInv) (hm : k.Marked) (hC : k.NoPipeWake a) (hstep : Step k a k') :
    k'.Marked := by
  obtain ⟨ha, hexec⟩ := hstep
  have hsleep : ∀ assign, k.running ≠ 0 →
      (k.setStatus k.running .sleeping).scheduler assign = .ok k' → k'.Marked := by
    intro assign hboot hexec
    refine marked_scheduler (h.1.setStatus_running hboot _ (fun hz => absurd hz h.2)) ?_ hexec
    intro t ht hne
    exact (status_setStatus_of_ne (k := k) hne _).trans (hm t ht)
  cases a with
  | fork =>
    obtain ⟨_, rfl⟩ := fork_eq_ok.mp hexec
    exact hm.create _ _
  | createTask isUser =>
    cases hexec
    exact hm.create _ _
  | tick =>
    rw [exec, timerEntry_eq] at hexec
    split_ifs at hexec
    · have h' : QueueInv { k with ticCounter := 0 } := { h.1 with }
      exact marked_scheduler h' (fun t ht _ => hm t ht) hexec
    · cases hexec
      exact hm
  | sleep => exact hsleep none ha hexec
  | pipeSleep j => exact hsleep (some j) ha.1 hexec
  | exit exitCode =>
    simp only [exec, exitSelf, wakeUpAllSleeping_eq, Checked.ok_bind] at hexec
    refine marked_scheduler (h.1.logExit ha h.2 exitCode).wakeAll ?_ hexec
    intro t ht hne
    change t ∈ k.runningList ++ k.sleepList.reverse at ht
    change t ≠ k.running at hne
    by_cases hmem : t ∈ k.sleepList
    · simp [status, wakeAll, setStatus, hmem]
    · have ht : t ∈ k.runningList := by simpa [hmem] using ht
      simpa [status, wakeAll, setStatus, hmem, hne] using hm t ht
  | newPipe =>
    cases hexec
    exact hm
  | pipeWake j =>
    rw [exec, wakeUpWait_eq] at hexec
    cases hexec
    intro t ht
    change t ∈ k.runningList ++ k.waits j at ht
    rw [hC, List.append_nil] at ht
    exact hm t ht

theorem step_preemptOk_iff (h : k.StepInv) (hm : k.Marked) (hstep : Step k a k') :
    k'.PreemptOk ↔ k.NoPipeWake a := by
  constructor
  · intro hok
    cases a with
    | pipeWake j =>
      obtain ⟨_, hexec⟩ := hstep
      rw [exec, wakeUpWait_eq] at hexec
      cases hexec
      -- a task on the wait list would now be on the running list, still marked as sleeping
      apply List.eq_nil_iff_forall_not_mem.mpr
      intro t ht
      have hne : t ≠ k.running :=
        ne_of_mem_of_not_mem ht ((h.1.not_elsewhere h.1.running_mem).2.2 j)
      have hrunning : k.status t = .running := hok.others t (List.mem_append_right _ ht) hne
      rw [h.1.wait_status j t ht] at hrunning
      cases hrunning
    | _ => trivial
  · intro hC
    exact (step_marked h hm hC hstep).preemptOk (step_stepInv k a k' h hstep).1

/-- In a run, the running list and the marks agree everywhere, and no tick takes a
runnable task off the list, exactly when no wake-up of a pipe finds a sleeper. -/
theorem preemptOk_iff_noPipeWake {r : List (KernelAct × Kernel)}
    (hrun : Trace.IsRun Step coreInit r) :
    (∀ k ∈ Trace.states coreInit r, k.PreemptOk) ↔
      ∀ x ∈ Trace.steps coreInit r, x.1.NoPipeWake x.2 := by
  have hm : coreInit.Marked := by simp [Marked, coreInit, status]
  exact Trace.all_states_iff_all_steps (fun k => k.StepInv ∧ k.Marked) PreemptOk NoPipeWake
    (fun k a k' h hC hstep =>
      ⟨step_stepInv k a k' h.1 hstep, step_marked h.1 h.2 hC hstep⟩)
    (fun _ _ _ h hstep => step_preemptOk_iff h.1 h.2 hstep)
    ⟨coreInit_stepInv, hm⟩ (hm.preemptOk coreInit_queueInv) hrun

/-- A run with a new task, ticks and an exit, but no pipe. -/
theorem preemptOk_exitRun :
    (∃ k ∈ Trace.states coreInit exitRun, k.runningList = [1, 0]) ∧
      ∀ k ∈ Trace.states coreInit exitRun, k.PreemptOk :=
  ⟨by decide, (preemptOk_iff_noPipeWake exitRun_isRun).mpr (by decide)⟩

/-- The second task sleeps on a pipe, the boot task wakes it, and the timer lets it
run and then preempts it. -/
def pipeWakeRun : List (KernelAct × Kernel) :=
  Trace.record next coreInit (.newPipe :: .createTask true :: List.replicate 11 .tick ++
    [.pipeSleep 0, .pipeWake 0] ++ List.replicate 22 .tick)

/-- The woken task waits to run with the mark of a sleeper, and the tick that
preempts it later takes it off the running list. -/
theorem not_preemptOk_pipeWakeRun :
    Trace.IsRun Step coreInit pipeWakeRun ∧
      (¬ ∀ k ∈ Trace.states coreInit pipeWakeRun, k.PreemptOk) ∧
      (Trace.final coreInit pipeWakeRun).runningList = [0] ∧
      (Trace.final coreInit pipeWakeRun).sleepList = [1] := by
  refine ⟨isRun_record_next (by decide), ?_, by decide, by decide⟩
  intro hall
  have hsome : ∃ k ∈ Trace.states coreInit pipeWakeRun,
      ¬ ∀ t ∈ k.runningList, t ≠ k.running → k.status t = .running := by
    decide
  obtain ⟨k, hk, hnot⟩ := hsome
  exact hnot (hall k hk).others

end Kernel

end Zinix
