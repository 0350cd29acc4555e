import Zinix.Task.Scheduler

/-!
# The queues hold every task once

The invariant is kept through the middle of an operation, when the current task has its new
status but still stands at the front of the running list.
-/

namespace Zinix

namespace Kernel

variable {k : Kernel}
  {j next : ℕ} {rest l : List ℕ}

@[simp] theorem status_setStatus (k : Kernel) (t u : ℕ) (st : TaskStatus) :
    (k.setStatus t st).status u = if u = t then st else k.status u := by
  unfold setStatus status
  by_cases h : u = t
  · subst u
    simp
  · simp [h]

theorem status_setStatus_of_ne {t u : ℕ} (h : u ≠ t) (st : TaskStatus) :
    (k.setStatus t st).status u = k.status u := by
  rw [status_setStatus, if_neg h]

@[simp] theorem setStatus_exitCode (k : Kernel) (t u : ℕ) (st : TaskStatus) :
    ((k.setStatus t st).tasks u).exitCode = (k.tasks u).exitCode := by
  by_cases h : u = t <;> simp [setStatus, h]

@[simp] theorem setStatus_tid (k : Kernel) (t u : ℕ) (st : TaskStatus) :
    ((k.setStatus t st).tasks u).tid = (k.tasks u).tid := by
  by_cases h : u = t <;> simp [setStatus, h]

/-- What holds of the queues at every moment. The current task is at the front of
the running list, and every other task has the status of its queue, with one
exception: a task woken from a pipe is on the running list and still marked as
sleeping. -/
structure QueueInv (k : Kernel) : Prop where
  front : k.runningList.head? = some k.running
  boot_mem : 0 ∈ k.runningList
  boot_status : k.status 0 = .running
  once : ∀ t, k.occurrences t = if t < k.taskCnt then 1 else 0
  fresh_waits : ∀ j, k.waitCnt ≤ j → k.waits j = []
  running_status : ∀ t ∈ k.runningList, t ≠ k.running → k.status t ≠ .zombie
  sleep_status : ∀ t ∈ k.sleepList, k.status t = .sleeping
  wait_status : ∀ j, ∀ t ∈ k.waits j, k.status t = .sleeping
  exit_status : ∀ t ∈ k.exitList, k.status t = .zombie
  exit_logged : ∀ t ∈ k.exitList, (t, (k.tasks t).exitCode) ∈ k.exits
  exits_code : ∀ x ∈ k.exits, (k.tasks x.1).exitCode = x.2 ∧
    (x.1 ∈ k.exitList ∨ x.1 = k.running ∧ k.status x.1 = .zombie)
  tid_lt : ∀ t < k.taskCnt, (k.tasks t).tid < k.gTid
  tid_inj : ∀ t < k.taskCnt, ∀ u < k.taskCnt, (k.tasks t).tid = (k.tasks u).tid → t = u

theorem coreInit_queueInv : coreInit.QueueInv where
  front := rfl
  boot_mem := by simp [coreInit]
  boot_status := rfl
  once := by
    intro t
    simp [occurrences, coreInit, List.count_singleton]
    by_cases h : t = 0 <;> simp [h, eq_comm]
  fresh_waits := fun _ _ => rfl
  running_status := by simp [coreInit, status]
  sleep_status := by simp [coreInit]
  wait_status := by simp [coreInit]
  exit_status := by simp [coreInit]
  exit_logged := by simp [coreInit]
  exits_code := by simp [coreInit]
  tid_lt := by simp [coreInit]
  tid_inj := by
    intro t ht u hu _
    simp only [coreInit] at ht hu
    omega

namespace QueueInv

variable {j t : ℕ}

theorem running_eq_cons (h : k.QueueInv) : ∃ rest, k.runningList = k.running :: rest := by
  cases hl : k.runningList with
  | nil =>
    have := h.front
    simp [hl] at this
  | cons t rest =>
    have := h.front
    rw [hl, List.head?_cons, Option.some.injEq] at this
    exact ⟨rest, by rw [this]⟩

theorem running_mem (h : k.QueueInv) : k.running ∈ k.runningList := by
  obtain ⟨rest, hl⟩ := h.running_eq_cons
  rw [hl]
  exact List.mem_cons_self ..

theorem occurrences_le (h : k.QueueInv) (t : ℕ) : k.occurrences t ≤ 1 := by
  rw [h.once]
  split_ifs <;> omega

theorem count_wait_le (k : Kernel) (hj : j < k.waitCnt) (t : ℕ) :
    (k.waits j).count t ≤ ∑ i ∈ Finset.range k.waitCnt, (k.waits i).count t :=
  Finset.single_le_sum (f := fun i => (k.waits i).count t) (fun _ _ => Nat.zero_le _)
    (Finset.mem_range.mpr hj)

theorem not_elsewhere (h : k.QueueInv) (ht : t ∈ k.runningList) :
    t ∉ k.sleepList ∧ t ∉ k.exitList ∧ ∀ j, t ∉ k.waits j := by
  have hle := h.occurrences_le t
  have hpos := List.count_pos_iff.mpr ht
  unfold occurrences at hle
  refine ⟨?_, ?_, ?_⟩
  · intro hmem
    have := List.count_pos_iff.mpr hmem
    omega
  · intro hmem
    have := List.count_pos_iff.mpr hmem
    omega
  · intro j hmem
    by_cases hj : j < k.waitCnt
    · have := List.count_pos_iff.mpr hmem
      have := count_wait_le k hj t
      omega
    · rw [h.fresh_waits j (by omega)] at hmem
      cases hmem

theorem sleep_not_exit (h : k.QueueInv) (ht : t ∈ k.sleepList) : t ∉ k.exitList := by
  intro hmem
  have := h.sleep_status t ht
  rw [h.exit_status t hmem] at this
  cases this

theorem wait_not_sleep (h : k.QueueInv) (ht : t ∈ k.waits j) : t ∉ k.sleepList := by
  intro hmem
  have hj : j < k.waitCnt := by
    by_contra hge
    rw [h.fresh_waits j (by omega)] at ht
    cases ht
  have hle := h.occurrences_le t
  have hwait := List.count_pos_iff.mpr ht
  have hsleep := List.count_pos_iff.mpr hmem
  have hsum := count_wait_le k hj t
  unfold occurrences at hle
  omega

theorem lt_of_occurrence (h : k.QueueInv) (ht : 0 < k.occurrences t) : t < k.taskCnt := by
  have := h.once t
  by_contra hge
  rw [if_neg hge] at this
  omega

theorem lt_of_mem_running (h : k.QueueInv) (ht : t ∈ k.runningList) : t < k.taskCnt := by
  apply h.lt_of_occurrence
  have := List.count_pos_iff.mpr ht
  unfold occurrences
  omega

theorem lt_of_mem_sleep (h : k.QueueInv) (ht : t ∈ k.sleepList) : t < k.taskCnt := by
  apply h.lt_of_occurrence
  have := List.count_pos_iff.mpr ht
  unfold occurrences
  omega

theorem lt_of_mem_exit (h : k.QueueInv) (ht : t ∈ k.exitList) : t < k.taskCnt := by
  apply h.lt_of_occurrence
  have := List.count_pos_iff.mpr ht
  unfold occurrences
  omega

theorem lt_of_mem_wait (h : k.QueueInv) (ht : t ∈ k.waits j) : t < k.taskCnt := by
  have hj : j < k.waitCnt := by
    by_contra hge
    rw [h.fresh_waits j (by omega)] at ht
    cases ht
  apply h.lt_of_occurrence
  have := List.count_pos_iff.mpr ht
  have := count_wait_le k hj t
  unfold occurrences
  omega

/-- Changing the status of the current task, if it is not the boot task. -/
theorem setStatus_running (h : k.QueueInv) (hboot : k.running ≠ 0) (st : TaskStatus)
    (hz : k.status k.running = .zombie → st = .zombie) :
    (k.setStatus k.running st).QueueInv := by
  obtain ⟨hs, he, hw⟩ := h.not_elsewhere h.running_mem
  constructor
  · exact h.front
  · exact h.boot_mem
  · rw [status_setStatus_of_ne hboot.symm]
    exact h.boot_status
  · exact h.once
  · exact h.fresh_waits
  · intro t ht hne
    change t ≠ k.running at hne
    rw [status_setStatus_of_ne hne]
    exact h.running_status t ht hne
  · intro t ht
    rw [status_setStatus_of_ne (ne_of_mem_of_not_mem ht hs)]
    exact h.sleep_status t ht
  · intro j t ht
    rw [status_setStatus_of_ne (ne_of_mem_of_not_mem ht (hw j))]
    exact h.wait_status j t ht
  · intro t ht
    rw [status_setStatus_of_ne (ne_of_mem_of_not_mem ht he)]
    exact h.exit_status t ht
  · intro t ht
    rw [setStatus_exitCode]
    exact h.exit_logged t ht
  · intro x hx
    obtain ⟨hc, hor⟩ := h.exits_code x hx
    refine ⟨(setStatus_exitCode ..).trans hc, hor.imp_right ?_⟩
    rintro ⟨hrun, hzombie⟩
    refine ⟨hrun, ?_⟩
    rw [status_setStatus, if_pos hrun]
    exact hz (hrun ▸ hzombie)
  · intro t ht
    rw [setStatus_tid]
    exact h.tid_lt t ht
  · intro t ht u hu heq
    rw [setStatus_tid, setStatus_tid] at heq
    exact h.tid_inj t ht u hu heq

/-- A change that moves tasks between queues and leaves the store alone. -/
theorem move (h : k.QueueInv) {k' : Kernel} (htasks : k'.tasks = k.tasks)
    (hcnt : k'.taskCnt = k.taskCnt) (hgtid : k'.gTid = k.gTid) (hexits : k'.exits = k.exits)
    (hfront : k'.runningList.head? = some k'.running)
    (hboot : 0 ∈ k'.runningList) (hocc : ∀ t, k'.occurrences t = k.occurrences t)
    (hfresh : ∀ j, k'.waitCnt ≤ j → k'.waits j = [])
    (hrunning : ∀ t ∈ k'.runningList, t ≠ k'.running → k.status t ≠ .zombie)
    (hsleep : ∀ t ∈ k'.sleepList, k.status t = .sleeping)
    (hwait : ∀ j, ∀ t ∈ k'.waits j, k.status t = .sleeping)
    (hexit : ∀ t ∈ k'.exitList, k.status t = .zombie ∧ (t, (k.tasks t).exitCode) ∈ k.exits)
    (hlog : ∀ x ∈ k.exits, x.1 ∈ k'.exitList ∨ x.1 = k'.running ∧ k.status x.1 = .zombie) :
    k'.QueueInv := by
  have hstatus : ∀ t, k'.status t = k.status t := by
    intro t
    rw [status, htasks, status]
  constructor
  · exact hfront
  · exact hboot
  · rw [hstatus]
    exact h.boot_status
  · intro t
    rw [hocc, hcnt]
    exact h.once t
  · exact hfresh
  · intro t ht hne
    rw [hstatus]
    exact hrunning t ht hne
  · intro t ht
    rw [hstatus]
    exact hsleep t ht
  · intro j t ht
    rw [hstatus]
    exact hwait j t ht
  · intro t ht
    rw [hstatus]
    exact (hexit t ht).1
  · intro t ht
    rw [htasks, hexits]
    exact (hexit t ht).2
  · intro x hx
    rw [hexits] at hx
    rw [htasks, hstatus]
    exact ⟨(h.exits_code x hx).1, hlog x hx⟩
  · intro t ht
    rw [htasks, hgtid]
    exact h.tid_lt t (hcnt ▸ ht)
  · intro t ht u hu heq
    rw [htasks] at heq
    exact h.tid_inj t (hcnt ▸ ht) u (hcnt ▸ hu) heq

end QueueInv

theorem fork_of_isUser (h : (k.tasks k.running).isUser = true) :
    k.fork = .ok (k.create (some k.running) true) := by
  rw [fork, Checked.ensure_pos h]
  rfl

theorem fork_eq_ok {k' : Kernel} :
    k.fork = .ok k' ↔ (k.tasks k.running).isUser = true ∧ k' = k.create (some k.running) true := by
  constructor
  · intro h
    obtain ⟨_, huser, h⟩ := Checked.bind_eq_ok.mp h
    cases h
    exact ⟨Checked.ensure_eq_ok.mp huser, rfl⟩
  · rintro ⟨huser, rfl⟩
    exact fork_of_isUser huser

/-- The number of occurrences in the wait lists when one of them changes. -/
theorem sum_waits_update (hj : j < k.waitCnt) (l : List ℕ) (t : ℕ) :
    ∑ i ∈ Finset.range k.waitCnt, (Function.update k.waits j l i).count t +
        (k.waits j).count t =
      ∑ i ∈ Finset.range k.waitCnt, (k.waits i).count t + l.count t := by
  have hmem : j ∈ Finset.range k.waitCnt := Finset.mem_range.mpr hj
  have hrest : ∑ i ∈ (Finset.range k.waitCnt).erase j, (Function.update k.waits j l i).count t =
      ∑ i ∈ (Finset.range k.waitCnt).erase j, (k.waits i).count t := by
    apply Finset.sum_congr rfl
    intro i hi
    rw [Function.update_of_ne (Finset.ne_of_mem_erase hi)]
  rw [← Finset.add_sum_erase _ _ hmem, ← Finset.add_sum_erase _ (fun i => (k.waits i).count t) hmem,
    hrest, Function.update_self]
  omega

theorem timerEntry_eq (k : Kernel) :
    k.timerEntry = if k.ticCounter = ticMax then scheduler { k with ticCounter := 0 } none
      else .ok { k with ticCounter := k.ticCounter + 1 } := by
  unfold timerEntry tic
  by_cases h : k.ticCounter = ticMax
  · rw [if_pos h, if_pos h, if_pos rfl]
  · rw [if_neg h, if_neg h]
    rfl

theorem scheduler_single (assign : Option ℕ) (hl : k.runningList = [k.running])
    (hs : k.status k.running = .running) : k.scheduler assign = .ok k := by
  simp [scheduler, hl, hs]

theorem requeue_of_running (hs : k.status k.running = .running) (assign : Option ℕ) :
    k.requeue assign = { k with runningList := k.runningList ++ [k.running] } := by
  simp only [requeue, hs]

theorem requeue_of_sleeping (hs : k.status k.running = .sleeping) :
    k.requeue none = { k with sleepList := k.sleepList ++ [k.running] } := by
  simp only [requeue, hs]

theorem requeue_of_waiting (hs : k.status k.running = .sleeping) (j : ℕ) :
    k.requeue (some j) =
      { k with waits := Function.update k.waits j (k.waits j ++ [k.running]) } := by
  simp only [requeue, hs]

theorem requeue_of_zombie (hs : k.status k.running = .zombie) (assign : Option ℕ) :
    k.requeue assign = { k with exitList := k.exitList ++ [k.running] } := by
  simp only [requeue, hs]

@[simp] theorem requeue_tasks (k : Kernel) (assign : Option ℕ) :
    (k.requeue assign).tasks = k.tasks := by
  unfold requeue
  split
  · rfl
  · split <;> rfl
  · rfl

theorem head?_requeue (k : Kernel) (assign : Option ℕ) (hl : k.runningList = next :: rest) :
    (k.requeue assign).runningList.head? = some next := by
  unfold requeue
  split
  · simp [hl]
  · split <;> simp [hl]
  · simp [hl]

theorem scheduler_switch (assign : Option ℕ) (hl : k.runningList = k.running :: next :: rest) :
    k.scheduler assign =
      .ok { requeue { k with runningList := next :: rest } assign with running := next } := by
  have hhead := head?_requeue { k with runningList := next :: rest } assign rfl
  simp only [scheduler, hl, List.length_cons, List.tail_cons, hhead, Checked.unwrap_some]
  rw [Checked.ensure_pos (by omega), if_neg (by omega)]
  rfl

namespace QueueInv

theorem ne_running (h : k.QueueInv) {rest : List ℕ} (hl : k.runningList = k.running :: rest)
    {t : ℕ} (ht : t ∈ rest) : t ≠ k.running := by
  rintro rfl
  have hle := h.occurrences_le k.running
  have hpos := List.count_pos_iff.mpr ht
  unfold occurrences at hle
  rw [hl, List.count_cons_self] at hle
  omega

/-- A current task that is not the boot task has the boot task behind it. -/
theorem exists_next (h : k.QueueInv) (hboot : k.running ≠ 0) :
    ∃ next rest, k.runningList = k.running :: next :: rest ∧ 0 ∈ next :: rest := by
  obtain ⟨rest, hl⟩ := h.running_eq_cons
  have hmem := h.boot_mem
  rw [hl] at hmem
  rcases List.mem_cons.mp hmem with heq | hmem
  · exact absurd heq.symm hboot
  · cases rest with
    | nil => cases hmem
    | cons next rest => exact ⟨next, rest, hl, hmem⟩

theorem running_not_logged (h : k.QueueInv) (hz : k.status k.running ≠ .zombie) :
    ∀ x ∈ k.exits, x.1 ∈ k.exitList := by
  intro x hx
  rcases (h.exits_code x hx).2 with hmem | ⟨heq, hzombie⟩
  · exact hmem
  · exact absurd (heq ▸ hzombie) hz

section Switch

variable {next : ℕ} {rest : List ℕ} (h : k.QueueInv)
  (hl : k.runningList = k.running :: next :: rest)

include h hl

theorem requeue_running (hs : k.status k.running = .running) :
    QueueInv { k with runningList := next :: rest ++ [k.running], running := next } := by
  refine h.move rfl rfl rfl rfl rfl ?_ ?_ h.fresh_waits ?_ h.sleep_status h.wait_status
    (fun t ht => ⟨h.exit_status t ht, h.exit_logged t ht⟩)
    (fun x hx => .inl (h.running_not_logged (by rw [hs]; decide) x hx))
  · have hmem := h.boot_mem
    rw [hl] at hmem
    simp only [List.mem_cons] at hmem
    simp only [List.cons_append, List.mem_cons, List.mem_append, List.not_mem_nil, or_false]
    tauto
  · intro t
    unfold occurrences
    simp only [hl, List.count_cons, List.count_append, List.count_nil, List.cons_append]
    omega
  · intro t ht _
    rw [List.mem_append, List.mem_singleton] at ht
    rcases ht with ht | rfl
    · exact h.running_status t (hl ▸ List.mem_cons_of_mem _ ht) (h.ne_running hl ht)
    · rw [hs]
      decide

theorem requeue_sleeping (hboot : 0 ∈ next :: rest) (hs : k.status k.running = .sleeping) :
    QueueInv { k with
      runningList := next :: rest, sleepList := k.sleepList ++ [k.running], running := next } := by
  refine h.move rfl rfl rfl rfl rfl hboot ?_ h.fresh_waits ?_ ?_ h.wait_status
    (fun t ht => ⟨h.exit_status t ht, h.exit_logged t ht⟩)
    (fun x hx => .inl (h.running_not_logged (by rw [hs]; decide) x hx))
  · intro t
    unfold occurrences
    simp only [hl, List.count_cons, List.count_append, List.count_nil]
    omega
  · intro t ht _
    exact h.running_status t (hl ▸ List.mem_cons_of_mem _ ht) (h.ne_running hl ht)
  · intro t ht
    rcases List.mem_append.mp ht with ht | ht
    · exact h.sleep_status t ht
    · rw [List.mem_singleton.mp ht, hs]

theorem requeue_waiting (hboot : 0 ∈ next :: rest) (hs : k.status k.running = .sleeping) {j : ℕ}
    (hj : j < k.waitCnt) :
    QueueInv { k with
      runningList := next :: rest
      waits := Function.update k.waits j (k.waits j ++ [k.running])
      running := next } := by
  refine h.move rfl rfl rfl rfl rfl hboot ?_ ?_ ?_ h.sleep_status ?_
    (fun t ht => ⟨h.exit_status t ht, h.exit_logged t ht⟩)
    (fun x hx => .inl (h.running_not_logged (by rw [hs]; decide) x hx))
  · intro t
    have hsum := sum_waits_update hj (k.waits j ++ [k.running]) t
    unfold occurrences
    simp only [List.count_append, List.count_cons, List.count_nil] at hsum
    simp only [hl, List.count_cons]
    omega
  · intro i hi
    change k.waitCnt ≤ i at hi
    change Function.update k.waits j _ i = []
    rw [Function.update_of_ne (by omega)]
    exact h.fresh_waits i hi
  · intro t ht _
    exact h.running_status t (hl ▸ List.mem_cons_of_mem _ ht) (h.ne_running hl ht)
  · intro i t ht
    change t ∈ Function.update k.waits j _ i at ht
    by_cases hij : i = j
    · subst i
      rw [Function.update_self] at ht
      rcases List.mem_append.mp ht with ht | ht
      · exact h.wait_status j t ht
      · rw [List.mem_singleton.mp ht, hs]
    · rw [Function.update_of_ne hij] at ht
      exact h.wait_status i t ht

theorem requeue_zombie (hboot : 0 ∈ next :: rest) (hs : k.status k.running = .zombie)
    (hlogged : (k.running, (k.tasks k.running).exitCode) ∈ k.exits) :
    QueueInv { k with
      runningList := next :: rest, exitList := k.exitList ++ [k.running], running := next } := by
  refine h.move rfl rfl rfl rfl rfl hboot ?_ h.fresh_waits ?_ h.sleep_status h.wait_status ?_ ?_
  · intro t
    unfold occurrences
    simp only [hl, List.count_cons, List.count_append, List.count_nil]
    omega
  · intro t ht _
    exact h.running_status t (hl ▸ List.mem_cons_of_mem _ ht) (h.ne_running hl ht)
  · intro t ht
    rcases List.mem_append.mp ht with ht | ht
    · exact ⟨h.exit_status t ht, h.exit_logged t ht⟩
    · rw [List.mem_singleton.mp ht]
      exact ⟨hs, hlogged⟩
  · intro x hx
    left
    rcases (h.exits_code x hx).2 with hmem | ⟨heq, _⟩
    · exact List.mem_append_left _ hmem
    · rw [heq]
      exact List.mem_append_right _ (List.mem_singleton_self _)

end Switch

end QueueInv

/-- `wakeUpAllSleeping` in one piece. -/
def wakeAll (k : Kernel) : Kernel :=
  { k with
    tasks := fun t => if t ∈ k.sleepList then { k.tasks t with status := .running } else k.tasks t
    sleepList := []
    runningList := k.runningList ++ k.sleepList.reverse }

theorem wakeSleeping_eq (hl : k.sleepList = l.reverse) :
    k.wakeSleeping l.length = .ok k.wakeAll := by
  induction l generalizing k with
  | nil =>
    rw [List.reverse_nil] at hl
    simp [wakeSleeping, wakeAll, hl]
    cases k
    simp_all
  | cons t l ih =>
    rw [List.reverse_cons] at hl
    simp only [List.length_cons, wakeSleeping, hl, List.getLast?_append, List.getLast?_singleton,
      Option.some_or, Checked.unwrap_some, Checked.ok_bind, List.dropLast_concat]
    rw [ih rfl]
    congr 1
    simp only [wakeAll, addTask, setStatus, hl, List.reverse_append, List.reverse_reverse,
      List.reverse_cons, List.reverse_nil, List.nil_append, List.append_assoc,
      List.mem_append, List.mem_reverse, List.mem_singleton, List.singleton_append, mk.injEq, and_true]
    funext u
    by_cases hu : u = t
    · subst u
      simp
    · simp [hu]

theorem wakeUpAllSleeping_eq (k : Kernel) : k.wakeUpAllSleeping = .ok k.wakeAll := by
  have h := wakeSleeping_eq (k := k) (l := k.sleepList.reverse) (List.reverse_reverse _).symm
  rwa [List.length_reverse] at h

def wakeAllWaiting (k : Kernel) (j : ℕ) : Kernel :=
  { k with
    waits := Function.update k.waits j []
    runningList := k.runningList ++ k.waits j }

theorem wakeWaiting_eq (hl : k.waits j = l) :
    k.wakeWaiting j l.length = .ok (k.wakeAllWaiting j) := by
  induction l generalizing k with
  | nil =>
    have hself : Function.update k.waits j [] = k.waits := by
      rw [← hl, Function.update_eq_self]
    simp [wakeWaiting, wakeAllWaiting, hself, hl]
  | cons t l ih =>
    simp only [List.length_cons, wakeWaiting, hl, List.head?_cons, Checked.unwrap_some,
      Checked.ok_bind, List.tail_cons]
    rw [ih (by simp [addTask])]
    simp [wakeAllWaiting, addTask, hl]

theorem wakeUpWait_eq (k : Kernel) (j : ℕ) : k.wakeUpWait j = .ok (k.wakeAllWaiting j) :=
  wakeWaiting_eq rfl

namespace QueueInv

theorem wakeAll (h : k.QueueInv) : k.wakeAll.QueueInv := by
  have hstatus : ∀ t, t ∉ k.sleepList → k.wakeAll.status t = k.status t := by
    intro t ht
    simp [status, Kernel.wakeAll, ht]
  have hcode : ∀ t, (k.wakeAll.tasks t).exitCode = (k.tasks t).exitCode := by
    intro t
    simp only [Kernel.wakeAll]
    split_ifs <;> rfl
  have htid : ∀ t, (k.wakeAll.tasks t).tid = (k.tasks t).tid := by
    intro t
    simp only [Kernel.wakeAll]
    split_ifs <;> rfl
  have hnot : ∀ t, k.status t ≠ .sleeping → t ∉ k.sleepList :=
    fun t hne hmem => hne (h.sleep_status t hmem)
  constructor
  · obtain ⟨rest, hl⟩ := h.running_eq_cons
    simp [Kernel.wakeAll, hl]
  · exact List.mem_append_left _ h.boot_mem
  · rw [hstatus 0 (hnot 0 (by rw [h.boot_status]; decide))]
    exact h.boot_status
  · intro t
    have honce := h.once t
    unfold occurrences at honce ⊢
    simp only [Kernel.wakeAll, List.count_append, List.count_reverse, List.count_nil] at honce ⊢
    omega
  · exact h.fresh_waits
  · intro t ht hne
    rcases List.mem_append.mp ht with ht | ht
    · rw [hstatus t (h.not_elsewhere ht).1]
      exact h.running_status t ht hne
    · rw [List.mem_reverse] at ht
      simp [status, Kernel.wakeAll, ht]
  · simp [Kernel.wakeAll]
  · intro j t ht
    rw [hstatus t (h.wait_not_sleep ht)]
    exact h.wait_status j t ht
  · intro t ht
    rw [hstatus t (hnot t (by rw [h.exit_status t ht]; decide))]
    exact h.exit_status t ht
  · intro t ht
    rw [hcode]
    exact h.exit_logged t ht
  · intro x hx
    obtain ⟨hc, hor⟩ := h.exits_code x hx
    refine ⟨(hcode x.1).trans hc, hor.imp_right ?_⟩
    rintro ⟨hrun, hz⟩
    refine ⟨hrun, ?_⟩
    rw [hstatus x.1 (hnot x.1 (by rw [hz]; decide))]
    exact hz
  · intro t ht
    rw [htid]
    exact h.tid_lt t ht
  · intro t ht u hu heq
    rw [htid, htid] at heq
    exact h.tid_inj t ht u hu heq

theorem wakeAllWaiting (h : k.QueueInv) {j : ℕ} (hj : j < k.waitCnt) :
    (k.wakeAllWaiting j).QueueInv := by
  refine h.move rfl rfl rfl rfl ?_ ?_ ?_ ?_ ?_ h.sleep_status ?_
    (fun t ht => ⟨h.exit_status t ht, h.exit_logged t ht⟩) (fun x hx => (h.exits_code x hx).2)
  · obtain ⟨rest, hl⟩ := h.running_eq_cons
    simp [Kernel.wakeAllWaiting, hl]
  · exact List.mem_append_left _ h.boot_mem
  · intro t
    have hsum := sum_waits_update hj [] t
    unfold occurrences
    simp only [Kernel.wakeAllWaiting, List.count_append, List.count_nil] at hsum ⊢
    omega
  · intro i hi
    change k.waitCnt ≤ i at hi
    change Function.update k.waits j _ i = []
    rw [Function.update_of_ne (by omega)]
    exact h.fresh_waits i hi
  · intro t ht hne
    rcases List.mem_append.mp ht with ht | ht
    · exact h.running_status t ht hne
    · rw [h.wait_status j t ht]
      decide
  · intro i t ht
    change t ∈ Function.update k.waits j _ i at ht
    by_cases hij : i = j
    · subst i
      rw [Function.update_self] at ht
      cases ht
    · rw [Function.update_of_ne hij] at ht
      exact h.wait_status i t ht

/-- The scheduler returns, keeps the invariant and never picks an exited task. -/
theorem scheduler (h : k.QueueInv) {assign : Option ℕ} (hassign : ∀ j ∈ assign, j < k.waitCnt)
    (hlogged : k.status k.running = .zombie →
      (k.running, (k.tasks k.running).exitCode) ∈ k.exits) :
    ∃ k', k.scheduler assign = .ok k' ∧ k'.QueueInv ∧ k'.status k'.running ≠ .zombie := by
  obtain ⟨rest, hl⟩ := h.running_eq_cons
  have hsleepy : k.status k.running ≠ .running → k.running ≠ 0 := by
    intro hne hzero
    exact hne (hzero ▸ h.boot_status)
  cases rest with
  | nil =>
    have hs : k.status k.running = .running := by
      by_contra hne
      obtain ⟨next, rest, hl', _⟩ := h.exists_next (hsleepy hne)
      rw [hl] at hl'
      cases hl'
    exact ⟨k, scheduler_single assign hl hs, h, by rw [hs]; decide⟩
  | cons next rest =>
    have hboot : k.status k.running ≠ .running → 0 ∈ next :: rest := by
      intro hne
      obtain ⟨next', rest', hl', hmem⟩ := h.exists_next (hsleepy hne)
      rw [hl] at hl'
      cases hl'
      exact hmem
    refine ⟨_, scheduler_switch assign hl, ?_, ?_⟩
    · cases hs : k.status k.running with
      | running =>
        rw [requeue_of_running (k := { k with runningList := next :: rest }) hs]
        exact h.requeue_running hl hs
      | sleeping =>
        cases assign with
        | none =>
          rw [requeue_of_sleeping (k := { k with runningList := next :: rest }) hs]
          exact h.requeue_sleeping hl (hboot (by rw [hs]; decide)) hs
        | some j =>
          rw [requeue_of_waiting (k := { k with runningList := next :: rest }) hs]
          exact h.requeue_waiting hl (hboot (by rw [hs]; decide)) hs (hassign j rfl)
      | zombie =>
        rw [requeue_of_zombie (k := { k with runningList := next :: rest }) hs]
        exact h.requeue_zombie hl (hboot (by rw [hs]; decide)) hs (hlogged hs)
    · have hnext : next ∈ k.runningList := by
        rw [hl]
        exact List.mem_cons_of_mem _ (List.mem_cons_self ..)
      have hz := h.running_status next hnext (h.ne_running hl (List.mem_cons_self ..))
      simpa only [status, requeue_tasks] using hz

end QueueInv

end Kernel

end Zinix
