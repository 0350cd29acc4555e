import Zinix.Task.QueueRuns

/-!
# Waiting for a task to exit

`wait_for` and `wait_children` look for their task on the sleep list, while a task that has
exited is on the exit list.
-/

namespace Zinix

namespace Kernel

variable {k : Kernel}
  {matching : Task → Bool} {t : ℕ}

/-- The pass that both functions make: the first match on the sleep list is reported,
and without one the caller sleeps. -/
def waitPass (k : Kernel) (matching : Task → Bool) : Checked ((Int32 × ℕ) ⊕ Kernel) :=
  match k.sleepList.find? (fun t => matching (k.tasks t)) with
  | some t => return .inl ((k.tasks t).exitCode, (k.tasks t).tid)
  | none => do
    let k ← k.sleepSelfInSleepingList
    return .inr k

def waitFor (k : Kernel) (tid : ℕ) : Checked ((Int32 × ℕ) ⊕ Kernel) :=
  k.waitPass (fun t => t.tid = tid)

/-- The parent is found as long as its task exists, and tasks are never dropped. -/
def waitChildren (k : Kernel) (ptid : ℕ) : Checked ((Int32 × ℕ) ⊕ Kernel) :=
  k.waitPass (fun t => t.parent.any (fun p => (k.tasks p).tid = ptid))

/-- Task `t` has called `exitSelf` with this code. -/
def Exited (k : Kernel) (t : ℕ) (exitCode : Int32) : Prop :=
  (t, exitCode) ∈ k.exits ∧ k.status t = .zombie ∧ t ∈ k.exitList

/-- A pass reports exited tasks that match and nothing else, and it reports one if
there is one. -/
structure WaitOk (k : Kernel) (matching : Task → Bool)
    (pass : Checked ((Int32 × ℕ) ⊕ Kernel)) : Prop where
  sound : ∀ exitCode tid, pass = .ok (.inl (exitCode, tid)) →
    ∃ t, (k.tasks t).tid = tid ∧ matching (k.tasks t) ∧ k.Exited t exitCode
  complete : ∀ t exitCode, k.Exited t exitCode → matching (k.tasks t) →
    ∃ out, pass = .ok (.inl out)

def NoneMatching (k : Kernel) (matching : Task → Bool) : Prop :=
  ∀ t ∈ k.sleepList ++ k.exitList, ¬ matching (k.tasks t)

instance (k : Kernel) (matching : Task → Bool) : Decidable (k.NoneMatching matching) :=
  inferInstanceAs (Decidable (∀ t ∈ k.sleepList ++ k.exitList, ¬ matching (k.tasks t)))

theorem waitPass_report_iff {out : Int32 × ℕ} :
    k.waitPass matching = .ok (.inl out) ↔
      ∃ t ∈ k.sleepList.find? (fun t => matching (k.tasks t)),
        out = ((k.tasks t).exitCode, (k.tasks t).tid) := by
  unfold waitPass
  cases hfind : k.sleepList.find? (fun t => matching (k.tasks t)) with
  | none =>
    simp only [Option.not_mem_none, false_and, exists_false, iff_false]
    intro h
    obtain ⟨k', _, h⟩ := Checked.bind_eq_ok.mp h
    cases h
  | some t =>
    simp only [Option.mem_some_iff, exists_eq_left']
    exact ⟨fun h => by cases h; rfl, fun h => by rw [h]; rfl⟩

theorem waitPass_of_mem (ht : t ∈ k.sleepList) (hm : matching (k.tasks t)) :
    ∃ u ∈ k.sleepList, matching (k.tasks u) ∧
      k.waitPass matching = .ok (.inl ((k.tasks u).exitCode, (k.tasks u).tid)) := by
  unfold waitPass
  cases hfind : k.sleepList.find? (fun t => matching (k.tasks t)) with
  | none => exact absurd hm (List.find?_eq_none.mp hfind t ht)
  | some u =>
    have hmu : matching (k.tasks u) := by simpa using List.find?_some hfind
    exact ⟨u, List.mem_of_find?_eq_some hfind, hmu, rfl⟩

theorem waitPass_of_none (hnone : ∀ t ∈ k.sleepList, ¬ matching (k.tasks t)) (out : Int32 × ℕ) :
    k.waitPass matching ≠ .ok (.inl out) := by
  intro h
  obtain ⟨t, ht, -⟩ := waitPass_report_iff.mp h
  rw [List.find?_eq_none.mpr hnone] at ht
  cases ht

theorem QueueInv.exited (h : k.QueueInv) (ht : t ∈ k.exitList) :
    k.Exited t (k.tasks t).exitCode :=
  ⟨h.exit_logged t ht, h.exit_status t ht, ht⟩

theorem QueueInv.waitOk_iff (h : k.QueueInv) (matching : Task → Bool) :
    k.WaitOk matching (k.waitPass matching) ↔ k.NoneMatching matching := by
  constructor
  · intro hok t ht hm
    have hsleep : ∀ u ∈ k.sleepList, ¬ matching (k.tasks u) := by
      intro u hu hmu
      -- the report names a sleeper, and no exited task has its identifier
      obtain ⟨w, hw, _, hpass⟩ := waitPass_of_mem hu hmu
      obtain ⟨v, htid, _, hexited⟩ := hok.sound _ _ hpass
      have hvw := h.tid_inj v (h.lt_of_mem_exit hexited.2.2) w (h.lt_of_mem_sleep hw) htid
      exact h.sleep_not_exit hw (hvw ▸ hexited.2.2)
    rcases List.mem_append.mp ht with ht | ht
    · exact hsleep t ht hm
    · obtain ⟨out, hpass⟩ := hok.complete t _ (h.exited ht) hm
      exact waitPass_of_none hsleep out hpass
  · intro hnone
    constructor
    · intro exitCode tid hpass
      exact absurd hpass
        (waitPass_of_none (fun t ht => hnone t (List.mem_append_left _ ht)) _)
    · intro t exitCode hexited hm
      exact absurd hm (hnone t (List.mem_append_right _ hexited.2.2))

/-- In every reachable state the two functions are right only about tasks of which
none is asleep on the sleep list and none has exited. -/
theorem waitOk_iff_noneMatching {r : List (KernelAct × Kernel)}
    (hrun : Trace.IsRun Step coreInit r) {k : Kernel} (hk : k ∈ Trace.states coreInit r) :
    (∀ tid, k.WaitOk (fun t => t.tid = tid) (k.waitFor tid) ↔
      k.NoneMatching (fun t => t.tid = tid)) ∧
    ∀ ptid, k.WaitOk (fun t => t.parent.any (fun p => (k.tasks p).tid = ptid))
        (k.waitChildren ptid) ↔
      k.NoneMatching (fun t => t.parent.any (fun p => (k.tasks p).tid = ptid)) := by
  have hinv := Trace.invariant StepInv step_stepInv coreInit_stepInv hrun k hk
  exact ⟨fun _ => hinv.1.waitOk_iff _, fun _ => hinv.1.waitOk_iff _⟩

theorem waitOk_exitRun :
    (Trace.final coreInit exitRun).WaitOk (fun t => t.tid = 1)
      ((Trace.final coreInit exitRun).waitFor 1) :=
  ((waitOk_iff_noneMatching exitRun_isRun (Trace.final_mem_states ..)).1 1).mpr (by decide)

/-- A user task forks, and the timer lets its child run until this last action. -/
def childRun (last : KernelAct) : List (KernelAct × Kernel) :=
  Trace.record next coreInit (.createTask true :: List.replicate 11 .tick ++
    .fork :: List.replicate 22 .tick ++ [last])

/-- A sleeping child is reported as exited, to a waiter for it and to its parent, and
a child that has exited is not reported. -/
theorem not_waitOk_sleeping_child :
    Trace.IsRun Step coreInit (childRun .sleep) ∧
      ((Trace.final coreInit (childRun .sleep)).tasks 2).status = .sleeping ∧
      (Trace.final coreInit (childRun .sleep)).waitFor 3 = .ok (.inl (0, 3)) ∧
      (Trace.final coreInit (childRun .sleep)).waitChildren 2 = .ok (.inl (0, 3)) ∧
      ¬ (Trace.final coreInit (childRun .sleep)).WaitOk (fun t => t.tid = 3)
        ((Trace.final coreInit (childRun .sleep)).waitFor 3) ∧
      Trace.IsRun Step coreInit (childRun (.exit 7)) ∧
      ((Trace.final coreInit (childRun (.exit 7))).tasks 2).exitCode = 7 ∧
      ¬ (Trace.final coreInit (childRun (.exit 7))).WaitOk (fun t => t.tid = 3)
        ((Trace.final coreInit (childRun (.exit 7))).waitFor 3) := by
  have hsleep : Trace.IsRun Step coreInit (childRun .sleep) :=
    isRun_record_next (by decide +kernel)
  have hexit : Trace.IsRun Step coreInit (childRun (.exit 7)) :=
    isRun_record_next (by decide +kernel)
  have hinv : ∀ r, Trace.IsRun Step coreInit r → (Trace.final coreInit r).QueueInv := by
    intro r hr
    exact (Trace.invariant StepInv step_stepInv coreInit_stepInv hr _
      (Trace.final_mem_states ..)).1
  refine ⟨hsleep, by decide +kernel, waitPass_report_iff.mpr ⟨2, ?_, by decide +kernel⟩,
    waitPass_report_iff.mpr ⟨2, ?_, by decide +kernel⟩, ?_, hexit, by decide +kernel, ?_⟩
  · decide +kernel
  · decide +kernel
  · rw [waitFor, (hinv _ hsleep).waitOk_iff]
    decide +kernel
  · rw [waitFor, (hinv _ hexit).waitOk_iff]
    decide +kernel

end Kernel

end Zinix
