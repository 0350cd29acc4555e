import Zinix.Task.Wait

/-!
# Whom `sys_wait4` waits for

The call dispatches on its `pid` with the two branches exchanged: a positive `pid` scans for
children of the caller, and `-1` scans for the task with the identifier `usize::MAX`.
-/

namespace Zinix

namespace Kernel

variable {k : Kernel}
  {k' : Kernel} {t : ℕ} {pid : Int64}

/-- A pass of `sys_wait4` by the current task. It returns the code that is stored at
`wstatus` with the answer of the call, or the state in which the caller sleeps before
its next pass. `mapped` says which bytes of the user the kernel can store to. As the
counter of identifiers does not wrap, `tid as isize` keeps its value. -/
def sysWait4 (k : Kernel) (mapped : ℕ → Bool) (pid : Int64) (wstatus : ℕ) (option : Int64) :
    Checked ((Int32 × ℤ) ⊕ Kernel) := do
  Checked.ensure (option = 0) .assertion
  let ptid := (k.tasks k.running).tid
  match ← (if pid ≠ -1 then k.waitChildren ptid else k.waitFor pid.toUInt64.toNat) with
  | .inl (exitCode, tid) =>
    -- `write_single` asserts the alignment of an `i32`
    Checked.ensure (wstatus % 4 = 0) .assertion
    Checked.ensure (∀ i < (4 : ℕ), mapped (wstatus + i)) (.explicit "error address access!")
    return .inl (exitCode, tid)
  | .inr k => return .inr k

/-- The current task has made the task `t`. -/
def IsChild (k : Kernel) (t : ℕ) : Prop :=
  t < k.taskCnt ∧ (k.tasks t).parent = some k.running

instance (k : Kernel) (t : ℕ) : Decidable (k.IsChild t) :=
  inferInstanceAs (Decidable (t < k.taskCnt ∧ (k.tasks t).parent = some k.running))

/-- A call with a positive `pid` returns that child of the caller and nothing else. A
call with `-1` returns children only, and one of them if the list it scans has one. -/
structure HonoursPid (k : Kernel) (pid : Int64) : Prop where
  only_pid : 0 < pid → ∀ mapped wstatus option exitCode ret,
    k.sysWait4 mapped pid wstatus option = .ok (.inl (exitCode, ret)) →
      ret = pid.toInt ∧ ∃ t, k.IsChild t ∧ (k.tasks t).tid = ret
  only_children : pid = -1 → ∀ mapped wstatus option exitCode ret,
    k.sysWait4 mapped pid wstatus option = .ok (.inl (exitCode, ret)) →
      ∃ t, k.IsChild t ∧ (k.tasks t).tid = ret
  any_child : pid = -1 → (∃ t ∈ k.sleepList, k.IsChild t) →
    ∀ mapped wstatus, wstatus % 4 = 0 → (∀ i < 4, mapped (wstatus + i) = true) →
      ∃ out, k.sysWait4 mapped pid wstatus 0 = .ok (.inl out)

def sleepingChild (k : Kernel) : Option ℕ := k.sleepList.find? (fun t => k.IsChild t)

/-- The states in which the exchanged branches do no harm. -/
structure Unmixed (k : Kernel) (pid : Int64) : Prop where
  first_child : 0 < pid → ∀ t ∈ k.sleepingChild, (k.tasks t).tid = pid.toInt
  last_tid : pid = -1 → ∀ t ∈ k.sleepList, (k.tasks t).tid = 2 ^ 64 - 1 → k.IsChild t
  child_last : pid = -1 → (∃ t ∈ k.sleepList, k.IsChild t) →
    ∃ t ∈ k.sleepList, (k.tasks t).tid = 2 ^ 64 - 1

instance (k : Kernel) (pid : Int64) : Decidable (k.Unmixed pid) :=
  decidable_of_iff
    ((0 < pid → ∀ t ∈ k.sleepingChild, (k.tasks t).tid = pid.toInt) ∧
      (pid = -1 → ∀ t ∈ k.sleepList, (k.tasks t).tid = 2 ^ 64 - 1 → k.IsChild t) ∧
      (pid = -1 → (∃ t ∈ k.sleepList, k.IsChild t) →
        ∃ t ∈ k.sleepList, (k.tasks t).tid = 2 ^ 64 - 1))
    ⟨fun h => ⟨h.1, h.2.1, h.2.2⟩, fun h => ⟨h.first_child, h.last_tid, h.child_last⟩⟩

/-! ### Parents -/

def ParentInv (k : Kernel) : Prop :=
  ∀ t < k.taskCnt, ∀ p ∈ (k.tasks t).parent, p < k.taskCnt

/-- The two states have the same tasks, with the same parents. -/
def SameFamily (k k' : Kernel) : Prop :=
  k'.taskCnt = k.taskCnt ∧ ∀ t, (k'.tasks t).parent = (k.tasks t).parent

theorem SameFamily.trans {k₁ k₂ k₃ : Kernel} (h : k₁.SameFamily k₂) (h' : k₂.SameFamily k₃) :
    k₁.SameFamily k₃ :=
  ⟨h'.1.trans h.1, fun t => (h'.2 t).trans (h.2 t)⟩

theorem ParentInv.of_sameFamily (h : k.ParentInv) (hsame : k.SameFamily k') :
    k'.ParentInv := by
  intro t ht p hp
  rw [hsame.1] at ht ⊢
  rw [hsame.2 t] at hp
  exact h t ht p hp

theorem sameFamily_setStatus (k : Kernel) (t : ℕ) (st : TaskStatus) :
    k.SameFamily (k.setStatus t st) := by
  refine ⟨rfl, fun u => ?_⟩
  by_cases h : u = t <;> simp [setStatus, h]

theorem sameFamily_requeue (k : Kernel) (assign : Option ℕ) : k.SameFamily (k.requeue assign) := by
  refine ⟨?_, fun t => by rw [requeue_tasks]⟩
  unfold requeue
  split
  · rfl
  · split <;> rfl
  · rfl

theorem sameFamily_scheduler {assign : Option ℕ} (h : k.scheduler assign = .ok k') :
    k.SameFamily k' := by
  unfold scheduler at h
  obtain ⟨_, _, h⟩ := Checked.bind_eq_ok.mp h
  split_ifs at h
  · split at h
    · cases h
      exact ⟨rfl, fun _ => rfl⟩
    · cases h
  · obtain ⟨next, _, h⟩ := Checked.bind_eq_ok.mp h
    cases h
    exact sameFamily_requeue { k with runningList := k.runningList.tail } assign

theorem sameFamily_wakeAll (k : Kernel) : k.SameFamily k.wakeAll := by
  refine ⟨rfl, fun t => ?_⟩
  simp only [wakeAll]
  split_ifs <;> rfl

theorem ParentInv.create (h : k.ParentInv) {parent : Option ℕ} {isUser : Bool}
    (hp : ∀ p ∈ parent, p < k.taskCnt) :
    (k.create parent isUser).ParentInv := by
  intro t ht p htp
  change t < k.taskCnt + 1 at ht
  change p < k.taskCnt + 1
  simp only [Kernel.create, newTask, addTask] at htp
  by_cases heq : t = k.taskCnt
  · subst heq
    rw [Function.update_self] at htp
    exact Nat.lt_succ_of_lt (hp p htp)
  · rw [Function.update_of_ne heq] at htp
    exact Nat.lt_succ_of_lt (h t (by omega) p htp)

theorem exec_parentInv (h : k.StepInv) (hpar : k.ParentInv) {a : KernelAct}
    (hexec : k.exec a = .ok k') : k'.ParentInv := by
  have hrunning : k.running < k.taskCnt := h.1.lt_of_mem_running h.1.running_mem
  cases a with
  | fork =>
    obtain ⟨_, rfl⟩ := fork_eq_ok.mp hexec
    apply hpar.create
    intro p hp
    rw [Option.mem_some_iff] at hp
    exact hp ▸ hrunning
  | createTask =>
    cases hexec
    exact hpar.create (by simp)
  | newPipe =>
    cases hexec
    exact hpar
  | tick =>
    rw [exec, timerEntry_eq] at hexec
    split_ifs at hexec
    · have hpar' : ParentInv { k with ticCounter := 0 } := hpar
      exact hpar'.of_sameFamily (sameFamily_scheduler hexec)
    · cases hexec
      exact hpar
  | sleep | pipeSleep _ =>
    apply hpar.of_sameFamily
    exact (sameFamily_setStatus k k.running .sleeping).trans (sameFamily_scheduler hexec)
  | exit exitCode =>
    simp only [exec, exitSelf, wakeUpAllSleeping_eq, Checked.ok_bind] at hexec
    have hwake := (sameFamily_wakeAll _).trans (sameFamily_scheduler hexec)
    have hlogged := (sameFamily_setStatus _ _ _).trans hwake
    apply ParentInv.of_sameFamily _ hlogged
    apply hpar.of_sameFamily
    refine ⟨rfl, fun t => ?_⟩
    by_cases ht : t = k.running <;> simp [ht]
  | pipeWake j =>
    rw [exec, wakeUpWait_eq] at hexec
    cases hexec
    exact hpar

/-- Among the tasks there are, `wait_children` picks those that the caller has made. -/
theorem QueueInv.parent_any_iff (h : k.QueueInv) (hpar : k.ParentInv) (ht : t < k.taskCnt) :
    (k.tasks t).parent.any (fun p => (k.tasks p).tid = (k.tasks k.running).tid) = true ↔
      k.IsChild t := by
  rw [IsChild, and_iff_right ht]
  cases hp : (k.tasks t).parent with
  | none => simp
  | some p =>
    simp only [Option.any_some, decide_eq_true_eq, Option.some.injEq]
    constructor
    · intro htid
      exact h.tid_inj p (hpar t ht p (by rw [hp]; rfl)) _ (h.lt_of_mem_running h.running_mem) htid
    · rintro rfl
      rfl

/-! ### What a pass reports -/

/-- The tasks that the dispatch on `pid` looks for. -/
def selects (k : Kernel) (pid : Int64) (t : Task) : Bool :=
  if pid ≠ -1 then t.parent.any (fun p => (k.tasks p).tid = (k.tasks k.running).tid)
  else t.tid = pid.toUInt64.toNat

theorem sysWait4_report_iff {mapped : ℕ → Bool} {wstatus : ℕ} {option : Int64} {exitCode : Int32}
    {ret : ℤ} :
    k.sysWait4 mapped pid wstatus option = .ok (.inl (exitCode, ret)) ↔
      option = 0 ∧ (wstatus % 4 = 0 ∧ ∀ i < 4, mapped (wstatus + i) = true) ∧
        ∃ t ∈ k.sleepList.find? (fun t => k.selects pid (k.tasks t)),
          exitCode = (k.tasks t).exitCode ∧ ret = (k.tasks t).tid := by
  have hpass : (if pid ≠ -1 then k.waitChildren (k.tasks k.running).tid
      else k.waitFor pid.toUInt64.toNat) = k.waitPass (k.selects pid) := by
    unfold waitChildren waitFor
    split_ifs with hpid
    · congr 1
      funext t
      simp [selects, hpid]
    · congr 1
      funext t
      simp [selects, hpid]
  simp only [sysWait4, hpass]
  constructor
  · intro h
    obtain ⟨_, hopt, h⟩ := Checked.bind_eq_ok.mp h
    obtain ⟨answer, hanswer, h⟩ := Checked.bind_eq_ok.mp h
    cases answer with
    | inl out =>
      obtain ⟨_, halign, h⟩ := Checked.bind_eq_ok.mp h
      obtain ⟨_, hmapped, h⟩ := Checked.bind_eq_ok.mp h
      obtain ⟨t, ht, rfl⟩ := waitPass_report_iff.mp hanswer
      cases h
      exact ⟨Checked.ensure_eq_ok.mp hopt,
        ⟨Checked.ensure_eq_ok.mp halign, Checked.ensure_eq_ok.mp hmapped⟩, t, ht, rfl, rfl⟩
    | inr k' => cases h
  · rintro ⟨hopt, ⟨halign, hmapped⟩, t, ht, rfl, rfl⟩
    rw [waitPass_report_iff.mpr ⟨t, ht, rfl⟩, Checked.ensure_pos hopt]
    simp only [Checked.ok_bind, Checked.ensure_pos halign, Checked.ensure_pos hmapped]
    rfl

theorem find?_selects_of_ne (h : k.QueueInv) (hpar : k.ParentInv) (hpid : pid ≠ -1) :
    k.sleepList.find? (fun t => k.selects pid (k.tasks t)) = k.sleepingChild := by
  apply List.find?_congr
  intro t ht
  rw [selects, if_pos hpid, Bool.eq_iff_iff, h.parent_any_iff hpar (h.lt_of_mem_sleep ht),
    decide_eq_true_eq]

theorem selects_neg_one (t : Task) : k.selects (-1) t = decide (t.tid = 2 ^ 64 - 1) := rfl

theorem find?_selects_neg_one (h : k.QueueInv) (ht : t ∈ k.sleepList)
    (htid : (k.tasks t).tid = 2 ^ 64 - 1) :
    t ∈ k.sleepList.find? (fun t => k.selects (-1) (k.tasks t)) := by
  cases hfind : k.sleepList.find? (fun t => k.selects (-1) (k.tasks t)) with
  | none =>
    have := List.find?_eq_none.mp hfind t ht
    simp [selects_neg_one, htid] at this
  | some u =>
    have hu : (k.tasks u).tid = 2 ^ 64 - 1 := by
      simpa [selects_neg_one] using List.find?_some hfind
    have hmem := h.lt_of_mem_sleep (List.mem_of_find?_eq_some hfind)
    rw [Option.mem_some_iff]
    exact h.tid_inj u hmem t (h.lt_of_mem_sleep ht) (hu.trans htid.symm)

/-- In every state with the two invariants the dispatch is right exactly where its
exchanged branches do no harm. -/
theorem QueueInv.honoursPid_iff (h : k.QueueInv) (hpar : k.ParentInv) (pid : Int64) :
    k.HonoursPid pid ↔ k.Unmixed pid := by
  constructor
  · intro hok
    refine ⟨?_, ?_, ?_⟩
    · intro hpos t ht
      have hpid : pid ≠ -1 := by
        rintro rfl
        exact absurd hpos (by decide)
      rw [← find?_selects_of_ne h hpar hpid] at ht
      exact (hok.only_pid hpos (fun _ => true) 0 0 _ _
        (sysWait4_report_iff.mpr ⟨rfl, ⟨rfl, fun _ _ => rfl⟩, t, ht, rfl, rfl⟩)).1
    · rintro rfl t ht htid
      obtain ⟨u, hchild, hu⟩ := hok.only_children rfl (fun _ => true) 0 0 _ _
        (sysWait4_report_iff.mpr ⟨rfl, ⟨rfl, fun _ _ => rfl⟩, t,
          find?_selects_neg_one h ht htid, rfl, rfl⟩)
      have hut := h.tid_inj u hchild.1 t (h.lt_of_mem_sleep ht) (by exact_mod_cast hu)
      exact hut ▸ hchild
    · rintro rfl hchild
      obtain ⟨out, hout⟩ := hok.any_child rfl hchild (fun _ => true) 0 rfl (fun _ _ => rfl)
      obtain ⟨-, -, t, ht, -⟩ := sysWait4_report_iff.mp hout
      refine ⟨t, List.mem_of_find?_eq_some ht, ?_⟩
      simpa [selects_neg_one] using List.find?_some ht
  · intro hcond
    refine ⟨?_, ?_, ?_⟩
    · intro hpos mapped wstatus option exitCode ret hret
      have hpid : pid ≠ -1 := by
        rintro rfl
        exact absurd hpos (by decide)
      obtain ⟨-, -, t, ht, -, rfl⟩ := sysWait4_report_iff.mp hret
      rw [find?_selects_of_ne h hpar hpid] at ht
      have htid := hcond.first_child hpos t ht
      have hchild : k.IsChild t := by simpa using List.find?_some ht
      exact ⟨htid, t, hchild, rfl⟩
    · rintro rfl mapped wstatus option exitCode ret hret
      obtain ⟨-, -, t, ht, -, rfl⟩ := sysWait4_report_iff.mp hret
      have htid : (k.tasks t).tid = 2 ^ 64 - 1 := by
        simpa [selects_neg_one] using List.find?_some ht
      exact ⟨t, hcond.last_tid rfl t (List.mem_of_find?_eq_some ht) htid, rfl⟩
    · rintro rfl hchild mapped wstatus halign hmapped
      obtain ⟨t, ht, htid⟩ := hcond.child_last rfl hchild
      exact ⟨_, sysWait4_report_iff.mpr
        ⟨rfl, ⟨halign, hmapped⟩, t, find?_selects_neg_one h ht htid, rfl, rfl⟩⟩

theorem reachable_parentInv {r : List (KernelAct × Kernel)} (hrun : Trace.IsRun Step coreInit r)
    {k : Kernel} (hk : k ∈ Trace.states coreInit r) : k.QueueInv ∧ k.ParentInv := by
  have hinv := Trace.invariant (fun k => k.StepInv ∧ k.ParentInv)
    (fun k a k' h hstep => ⟨step_stepInv k a k' h.1 hstep, exec_parentInv h.1 h.2 hstep.2⟩)
    ⟨coreInit_stepInv, by intro t _ p hp; cases hp⟩ hrun k hk
  exact ⟨hinv.1.1, hinv.2⟩

/-- In every reachable state a call honours its `pid` exactly in two cases: a positive
`pid` is that of the first child on the sleep list, or none is there; with `-1` no child
is on the list. The task with the identifier `usize::MAX`, which the last case would
report, exists only when the counter is about to wrap. -/
theorem sysWait4_honoursPid_iff {r : List (KernelAct × Kernel)}
    (hrun : Trace.IsRun Step coreInit r) {k : Kernel} (hk : k ∈ Trace.states coreInit r) :
    (∀ pid, k.HonoursPid pid ↔ k.Unmixed pid) ∧
      (k.gTid < 2 ^ 64 → (k.HonoursPid (-1) ↔ ∀ t ∈ k.sleepList, ¬ k.IsChild t)) := by
  obtain ⟨hinv, hpar⟩ := reachable_parentInv hrun hk
  refine ⟨hinv.honoursPid_iff hpar, ?_⟩
  intro hfew
  have hnone : ∀ t ∈ k.sleepList, (k.tasks t).tid ≠ 2 ^ 64 - 1 := by
    intro t ht htid
    have := hinv.tid_lt t (hinv.lt_of_mem_sleep ht)
    omega
  rw [hinv.honoursPid_iff hpar]
  constructor
  · intro hcond t ht hchild
    obtain ⟨u, hu, htid⟩ := hcond.child_last rfl ⟨t, ht, hchild⟩
    exact hnone u hu htid
  · intro hno
    refine ⟨fun hpos => absurd hpos (by decide), fun _ t ht htid => absurd htid (hnone t ht), ?_⟩
    rintro - ⟨t, ht, hchild⟩
    exact absurd hchild (hno t ht)

/-- A user task makes two children, and these two sleep. -/
def twoChildren : List (KernelAct × Kernel) :=
  Trace.record next coreInit (.createTask true :: List.replicate 11 .tick ++ [.fork, .fork] ++
    List.replicate 22 .tick ++ [.sleep, .sleep])

def stackPage (v : ℕ) : Bool := 0xffff000 ≤ v ∧ v < 0x10000000

theorem twoChildren_isRun : Trace.IsRun Step coreInit twoChildren :=
  isRun_record_next (by decide +kernel)

theorem twoChildren_report (hfind : (Trace.final coreInit twoChildren).sleepList.find?
      (fun t => (Trace.final coreInit twoChildren).selects pid
        ((Trace.final coreInit twoChildren).tasks t)) = some 2) :
    (Trace.final coreInit twoChildren).sysWait4 stackPage pid 0xffff000 0 = .ok (.inl (0, 3)) :=
  sysWait4_report_iff.mpr
    ⟨rfl, by decide, 2, hfind, by decide +kernel, by decide +kernel⟩

theorem sysWait4_honours_three :
    (Trace.final coreInit twoChildren).sysWait4 stackPage 3 0xffff000 0 = .ok (.inl (0, 3)) ∧
      (Trace.final coreInit twoChildren).HonoursPid 3 :=
  ⟨twoChildren_report (by decide +kernel),
    ((sysWait4_honoursPid_iff twoChildren_isRun (Trace.final_mem_states ..)).1 3).mpr
      (by decide +kernel)⟩

/-- The task with the children 3 and 4 gets 3 when it waits for 4, and also when it waits
for 9, which is no task. When it waits for any child it sleeps. -/
theorem not_honoursPid_twoChildren :
    Trace.IsRun Step coreInit twoChildren ∧
      (Trace.final coreInit twoChildren).sysWait4 stackPage 4 0xffff000 0 = .ok (.inl (0, 3)) ∧
      (Trace.final coreInit twoChildren).sysWait4 stackPage 9 0xffff000 0 = .ok (.inl (0, 3)) ∧
      ¬ (Trace.final coreInit twoChildren).HonoursPid 4 ∧
      ¬ (Trace.final coreInit twoChildren).HonoursPid 9 ∧
      ¬ (Trace.final coreInit twoChildren).HonoursPid (-1) := by
  obtain ⟨hinv, hpar⟩ := reachable_parentInv twoChildren_isRun (Trace.final_mem_states ..)
  simp only [hinv.honoursPid_iff hpar]
  exact ⟨twoChildren_isRun, twoChildren_report (by decide +kernel),
    twoChildren_report (by decide +kernel), by decide +kernel, by decide +kernel,
    by decide +kernel⟩

end Kernel

end Zinix
