import Zinix.Task.Queues

/-!
# Runs of the scheduler

Every action keeps the queue invariant, and so does every run from the state after
`Task::__core_init`.
-/

namespace Zinix

namespace Kernel

variable {k : Kernel}
  {k' : Kernel} {a : KernelAct}

namespace QueueInv

theorem create (h : k.QueueInv) (hz : k.status k.running ≠ .zombie) (parent : Option ℕ)
    (isUser : Bool) :
    (k.create parent isUser).QueueInv ∧ (k.create parent isUser).status k.running ≠ .zombie := by
  have hnew : ∀ t, t < k.taskCnt → (k.create parent isUser).tasks t = k.tasks t := by
    intro t ht
    simp only [Kernel.create, newTask, addTask]
    rw [Function.update_of_ne (by omega)]
  have hstatus : ∀ t, t < k.taskCnt → (k.create parent isUser).status t = k.status t := by
    intro t ht
    rw [status, hnew t ht, status]
  have hfresh : k.occurrences k.taskCnt = 0 := by
    rw [h.once, if_neg (by omega)]
  refine ⟨⟨?_, ?_, ?_, ?_, h.fresh_waits, ?_, ?_, ?_, ?_, ?_, ?_, ?_, ?_⟩, ?_⟩
  · obtain ⟨rest, hl⟩ := h.running_eq_cons
    simp [Kernel.create, newTask, addTask, hl]
  · exact List.mem_append_left _ h.boot_mem
  · rw [hstatus 0 (h.lt_of_mem_running h.boot_mem)]
    exact h.boot_status
  · intro t
    have honce := h.once t
    unfold occurrences at honce hfresh ⊢
    simp only [Kernel.create, newTask, addTask, List.count_append, List.count_singleton, beq_iff_eq]
    by_cases ht : k.taskCnt = t
    · subst ht
      simp only [if_true, Nat.lt_succ_self]
      omega
    · simp only [ht, if_false]
      have hiff : t < k.taskCnt + 1 ↔ t < k.taskCnt := by omega
      simp only [hiff]
      omega
  · intro t ht hne
    rcases List.mem_append.mp ht with ht | ht
    · rw [hstatus t (h.lt_of_mem_running ht)]
      exact h.running_status t ht hne
    · rw [List.mem_singleton.mp ht]
      simp [Kernel.create, newTask, addTask, status]
  · intro t ht
    rw [hstatus t (h.lt_of_mem_sleep ht)]
    exact h.sleep_status t ht
  · intro j t ht
    rw [hstatus t (h.lt_of_mem_wait ht)]
    exact h.wait_status j t ht
  · intro t ht
    rw [hstatus t (h.lt_of_mem_exit ht)]
    exact h.exit_status t ht
  · intro t ht
    rw [hnew t (h.lt_of_mem_exit ht)]
    exact h.exit_logged t ht
  · intro x hx
    obtain ⟨hc, hor⟩ := h.exits_code x hx
    have hlt : x.1 < k.taskCnt := by
      rcases hor with hmem | ⟨heq, _⟩
      · exact h.lt_of_mem_exit hmem
      · exact heq ▸ h.lt_of_mem_running h.running_mem
    rw [hnew x.1 hlt, hstatus x.1 hlt]
    exact ⟨hc, hor⟩
  · intro t ht
    change t < k.taskCnt + 1 at ht
    change _ < k.gTid + 1
    by_cases hlt : t < k.taskCnt
    · rw [hnew t hlt]
      exact (h.tid_lt t hlt).trans (Nat.lt_succ_self _)
    · obtain rfl : t = k.taskCnt := by omega
      simp [Kernel.create, newTask, addTask]
  · intro t ht u hu heq
    change t < k.taskCnt + 1 at ht
    change u < k.taskCnt + 1 at hu
    have hself : ((k.create parent isUser).tasks k.taskCnt).tid = k.gTid := by
      simp [Kernel.create, newTask, addTask]
    by_cases htl : t < k.taskCnt
    · by_cases hul : u < k.taskCnt
      · rw [hnew t htl, hnew u hul] at heq
        exact h.tid_inj t htl u hul heq
      · obtain rfl : u = k.taskCnt := by omega
        rw [hnew t htl, hself] at heq
        exact absurd heq (h.tid_lt t htl).ne
    · obtain rfl : t = k.taskCnt := by omega
      by_cases hul : u < k.taskCnt
      · rw [hnew u hul, hself] at heq
        exact absurd heq.symm (h.tid_lt u hul).ne
      · omega
  · rw [hstatus k.running (h.lt_of_mem_running h.running_mem)]
    exact hz

/-- The current task may write its exit code as long as it has not exited. -/
theorem logExit (h : k.QueueInv) (hboot : k.running ≠ 0) (hz : k.status k.running ≠ .zombie)
    (exitCode : Int32) :
    QueueInv (setStatus { k with
      tasks := Function.update k.tasks k.running { k.tasks k.running with exitCode }
      exits := k.exits ++ [(k.running, exitCode)] } k.running .zombie) := by
  obtain ⟨hs, he, hw⟩ := h.not_elsewhere h.running_mem
  set k' := setStatus { k with
    tasks := Function.update k.tasks k.running { k.tasks k.running with exitCode }
    exits := k.exits ++ [(k.running, exitCode)] } k.running .zombie with hk'
  have htasks : ∀ t, t ≠ k.running → k'.tasks t = k.tasks t := by
    intro t ht
    simp [hk', setStatus, ht]
  have hstatus : ∀ t, t ≠ k.running → k'.status t = k.status t := by
    intro t ht
    rw [status, htasks t ht, status]
  have hself : k'.tasks k.running =
      { k.tasks k.running with exitCode := exitCode, status := .zombie } := by
    simp [hk', setStatus]
  have htid : ∀ t, (k'.tasks t).tid = (k.tasks t).tid := by
    intro t
    by_cases ht : t = k.running
    · rw [ht, hself]
    · rw [htasks t ht]
  constructor
  · exact h.front
  · exact h.boot_mem
  · rw [hstatus 0 hboot.symm]
    exact h.boot_status
  · exact h.once
  · exact h.fresh_waits
  · intro t ht hne
    change t ≠ k.running at hne
    rw [hstatus t hne]
    exact h.running_status t ht hne
  · intro t ht
    rw [hstatus t (ne_of_mem_of_not_mem ht hs)]
    exact h.sleep_status t ht
  · intro j t ht
    rw [hstatus t (ne_of_mem_of_not_mem ht (hw j))]
    exact h.wait_status j t ht
  · intro t ht
    rw [hstatus t (ne_of_mem_of_not_mem ht he)]
    exact h.exit_status t ht
  · intro t ht
    rw [htasks t (ne_of_mem_of_not_mem ht he)]
    exact List.mem_append_left _ (h.exit_logged t ht)
  · intro x hx
    rcases List.mem_append.mp hx with hx | hx
    · have hmem := h.running_not_logged hz x hx
      rw [htasks x.1 (ne_of_mem_of_not_mem hmem he)]
      exact ⟨(h.exits_code x hx).1, .inl hmem⟩
    · rw [List.mem_singleton.mp hx]
      simp only [status, hself]
      exact ⟨trivial, .inr ⟨rfl, trivial⟩⟩
  · intro t ht
    rw [htid]
    exact h.tid_lt t ht
  · intro t ht u hu heq
    rw [htid, htid] at heq
    exact h.tid_inj t ht u hu heq

/-- Every allowed action returns and keeps the invariant, and the task that runs
next has not exited. -/
theorem exec (h : k.QueueInv) (hz : k.status k.running ≠ .zombie) {a : KernelAct}
    (ha : k.Allowed a) :
    ∃ k', k.exec a = .ok k' ∧ k'.QueueInv ∧ k'.status k'.running ≠ .zombie := by
  have hsleep : k.running ≠ 0 → ∀ assign : Option ℕ, (∀ j ∈ assign, j < k.waitCnt) →
      ∃ k', (k.setStatus k.running .sleeping).scheduler assign = .ok k' ∧ k'.QueueInv ∧
        k'.status k'.running ≠ .zombie := by
    intro hboot assign hassign
    refine (h.setStatus_running hboot .sleeping (fun hzombie => absurd hzombie hz)).scheduler
      hassign ?_
    intro hzombie
    change (k.setStatus k.running .sleeping).status k.running = .zombie at hzombie
    rw [status_setStatus, if_pos rfl] at hzombie
    cases hzombie
  cases a with
  | fork => exact ⟨_, fork_of_isUser ha, h.create hz _ _⟩
  | createTask isUser => exact ⟨_, rfl, h.create hz _ _⟩
  | tick =>
    rw [Kernel.exec, timerEntry_eq]
    split_ifs
    · have h' : QueueInv { k with ticCounter := 0 } := { h with }
      exact h'.scheduler (by simp) (fun hzombie => absurd hzombie hz)
    · exact ⟨_, rfl, { h with }, hz⟩
  | sleep => exact hsleep ha none (by simp)
  | exit exitCode =>
    have hlog := h.logExit ha hz exitCode
    simp only [Kernel.exec, exitSelf, wakeUpAllSleeping_eq, Checked.ok_bind]
    apply hlog.wakeAll.scheduler (by simp)
    intro _
    obtain ⟨hsl, _, _⟩ := hlog.not_elsewhere hlog.running_mem
    change k.running ∉ k.sleepList at hsl
    simp [Kernel.wakeAll, setStatus, hsl]
  | newPipe =>
    refine ⟨_, rfl, { h with once := ?_, fresh_waits := ?_ }, hz⟩
    · intro t
      have honce := h.once t
      unfold occurrences at honce ⊢
      simp only [Kernel.newPipe, Finset.sum_range_succ, h.fresh_waits k.waitCnt le_rfl,
        h.fresh_waits (k.waitCnt + 1) (by omega), List.count_nil]
      exact honce
    · intro j hj
      change k.waitCnt + 2 ≤ j at hj
      exact h.fresh_waits j (by omega)
  | pipeSleep j =>
    refine hsleep ha.1 (some j) ?_
    intro i hi
    rw [Option.mem_some_iff] at hi
    exact hi ▸ ha.2
  | pipeWake j => exact ⟨_, wakeUpWait_eq k j, h.wakeAllWaiting ha, hz⟩

end QueueInv

@[simp] theorem requeue_exits (k : Kernel) (assign : Option ℕ) :
    (k.requeue assign).exits = k.exits := by
  unfold requeue
  split
  · rfl
  · split <;> rfl
  · rfl

theorem scheduler_exits {assign : Option ℕ} (h : k.scheduler assign = .ok k') :
    k'.exits = k.exits := by
  unfold scheduler at h
  obtain ⟨_, _, h⟩ := Checked.bind_eq_ok.mp h
  split_ifs at h
  · split at h
    · cases h
      rfl
    · cases h
  · obtain ⟨next, _, h⟩ := Checked.bind_eq_ok.mp h
    cases h
    exact requeue_exits _ _

theorem exec_exits (h : k.exec a = .ok k') :
    ∃ l, k'.exits = k.exits ++ l ∧ ∀ exitCode, a = .exit exitCode → l = [(k.running, exitCode)] := by
  cases a with
  | fork =>
    obtain ⟨_, rfl⟩ := fork_eq_ok.mp h
    exact ⟨[], (List.append_nil _).symm, by simp⟩
  | createTask | newPipe =>
    cases h
    exact ⟨[], (List.append_nil _).symm, by simp⟩
  | tick =>
    refine ⟨[], ?_, by simp⟩
    rw [List.append_nil]
    rw [exec, timerEntry_eq] at h
    split_ifs at h
    · exact (scheduler_exits h).trans rfl
    · cases h
      rfl
  | sleep =>
    have hexits := scheduler_exits (k := k.setStatus k.running .sleeping) h
    exact ⟨[], hexits.trans (List.append_nil _).symm, by simp⟩
  | pipeSleep j =>
    have hexits := scheduler_exits (k := k.setStatus k.running .sleeping) h
    exact ⟨[], hexits.trans (List.append_nil _).symm, by simp⟩
  | exit exitCode =>
    simp only [exec, exitSelf, wakeUpAllSleeping_eq, Checked.ok_bind] at h
    refine ⟨[(k.running, exitCode)], scheduler_exits h, ?_⟩
    rintro _ ⟨⟩
    rfl
  | pipeWake j =>
    rw [exec, wakeUpWait_eq] at h
    cases h
    exact ⟨[], (List.append_nil _).symm, by simp⟩

/-- The queues at a scheduling point: the current task is at the front of the
running list, every task is in one queue once, every task that has called
`exitSelf` is on the exit list, and nothing the current task may do panics. -/
structure QueuesOk (k : Kernel) : Prop where
  front : k.runningList.head? = some k.running
  once : ∀ t, k.occurrences t = if t < k.taskCnt then 1 else 0
  exited : ∀ x ∈ k.exits, x.1 ∈ k.exitList
  no_panic : ∀ a, k.Allowed a → ∃ k', k.exec a = .ok k'

theorem QueueInv.queuesOk (h : k.QueueInv) (hz : k.status k.running ≠ .zombie) : k.QueuesOk where
  front := h.front
  once := h.once
  exited := h.running_not_logged hz
  no_panic := by
    intro a ha
    obtain ⟨k', hexec, _⟩ := h.exec hz ha
    exact ⟨k', hexec⟩

/-- The invariant with a current task that has not exited. -/
def StepInv (k : Kernel) : Prop := k.QueueInv ∧ k.status k.running ≠ .zombie

theorem coreInit_stepInv : coreInit.StepInv := ⟨coreInit_queueInv, by decide⟩

theorem step_stepInv (k : Kernel) (a : KernelAct) (k' : Kernel) (h : k.StepInv)
    (hstep : Step k a k') : k'.StepInv := by
  obtain ⟨k₁, hexec, hinv⟩ := h.1.exec h.2 hstep.1
  rw [hstep.2] at hexec
  cases hexec
  exact hinv

/-- In every run the queues are as they should be at every scheduling point, and
the task that exits in some step is on the exit list from then on. -/
theorem queuesOk_of_run {r : List (KernelAct × Kernel)} (hrun : Trace.IsRun Step coreInit r) :
    (∀ k ∈ Trace.states coreInit r, k.QueuesOk) ∧
      ∀ r₁ exitCode k₁ r₂, r = r₁ ++ (.exit exitCode, k₁) :: r₂ →
        ∀ k ∈ Trace.states k₁ r₂, (Trace.final coreInit r₁).running ∈ k.exitList := by
  constructor
  · intro k hk
    have hinv := Trace.invariant StepInv step_stepInv coreInit_stepInv hrun k hk
    exact hinv.1.queuesOk hinv.2
  · intro r₁ exitCode k₁ r₂ hr k hk
    rw [hr, Trace.isRun_append] at hrun
    obtain ⟨hrun₁, hstep, hrun₂⟩ := hrun
    set k₀ := Trace.final coreInit r₁ with hk₀
    have hinv₀ : k₀.StepInv :=
      Trace.invariant StepInv step_stepInv coreInit_stepInv hrun₁ k₀ (Trace.final_mem_states ..)
    have hlogged : (k₀.running, exitCode) ∈ k₁.exits := by
      obtain ⟨l, hl, hexit⟩ := exec_exits hstep.2
      simp [hl, hexit exitCode rfl]
    have hinv := Trace.invariant (fun k => k.StepInv ∧ (k₀.running, exitCode) ∈ k.exits)
      (fun k a k' h hstep => ⟨step_stepInv k a k' h.1 hstep, by
        obtain ⟨l, hl, _⟩ := exec_exits hstep.2
        rw [hl]
        exact List.mem_append_left _ h.2⟩)
      ⟨step_stepInv _ _ _ hinv₀ hstep, hlogged⟩ hrun₂ k hk
    exact (hinv.1.1.queuesOk hinv.1.2).exited _ hinv.2

instance (k : Kernel) (a : KernelAct) : Decidable (k.Allowed a) := by
  cases a <;> unfold Allowed <;> infer_instance

def next (k : Kernel) (a : KernelAct) : Kernel :=
  match k.exec a with
  | .ok k' => k'
  | .error _ => k

theorem step_next (ha : k.Allowed a) (hok : (k.exec a).isOk) :
    Step k a (k.next a) := by
  obtain ⟨k', hk'⟩ := Checked.exists_of_isOk hok
  exact ⟨ha, by rw [next, hk']⟩

theorem isRun_record_next {acts : List KernelAct}
    (h : ∀ x ∈ Trace.steps coreInit (Trace.record next coreInit acts),
      x.1.Allowed x.2 ∧ (x.1.exec x.2).isOk) :
    Trace.IsRun Step coreInit (Trace.record next coreInit acts) :=
  Trace.isRun_record (fun x hx => step_next (h x hx).1 (h x hx).2)

/-- The boot task makes a user task, the timer switches to it, and it exits. -/
def exitRun : List (KernelAct × Kernel) :=
  Trace.record next coreInit (.createTask true :: List.replicate 11 .tick ++ [.exit 7])

theorem exitRun_isRun : Trace.IsRun Step coreInit exitRun :=
  isRun_record_next (by decide)

theorem queuesOk_exitRun :
    (∀ k ∈ Trace.states coreInit exitRun, k.QueuesOk) ∧
      (Trace.final coreInit exitRun).exitList = [1] :=
  ⟨(queuesOk_of_run exitRun_isRun).1, by decide⟩

end Kernel

end Zinix
