import Zinix.Fs.FdTable

/-!
# What a task keeps over `execve`

`execve` takes over the parts of a new task: a descriptor table with three terminals and
nothing else, and the working directory of a new task.
-/

namespace Zinix

inductive DirFile where
  | root
  | opened (dfile : ℕ)
  deriving DecidableEq

structure Cwd where
  pwd : String
  pwdDfile : DirFile
  deriving DecidableEq

def Cwd.init : Cwd := ⟨"/", .root⟩

/-- The descriptors of all tasks and their working directories. -/
structure TaskFiles where
  files : Descriptors
  cwd : ℕ → Cwd

namespace TaskFiles

variable (s : TaskFiles) (t : ℕ)

/-- `execve_from_tsk`, with a task that `create_user_task` has made. -/
def execveFromTsk : TaskFiles where
  files := s.files.sysExecve t
  cwd := replaceAt s.cwd t .init

/-- `sys_execve`, when the new task could or could not be made. -/
def sysExecve (created : Bool) : Checked TaskFiles :=
  if created then return s.execveFromTsk t else throw (.explicit "execve")

end TaskFiles

structure Descriptors.KeepsFd (s s' : Descriptors) (t fd : ℕ) : Prop where
  kept : ∀ d, s.slot t fd = some d → (s.dfiles d).cloexec = false → s'.slot t fd = some d
  closed : ∀ d, s.slot t fd = some d → (s.dfiles d).cloexec = true → s'.slot t fd = none
  unopened : s.slot t fd = none → s'.slot t fd = none

structure TaskFiles.ExecveRight (s s' : TaskFiles) (t : ℕ) : Prop where
  files : ∀ fd, s.files.KeepsFd s'.files t fd
  cwd : s'.cwd t = s.cwd t

namespace Descriptors

variable {s : Descriptors} {t fd : ℕ}

theorem opened_foldl_dropOpt (s : Descriptors) (files : List (Option ℕ)) :
    (files.foldl dropOpt s).opened = s.opened := by
  induction files generalizing s with
  | nil => rfl
  | cons file files ih => rw [List.foldl_cons, ih, opened_dropOpt]

theorem getElem?_replaceOpened {files : List (Option ℕ)}
    (h : fd + files.length ≤ (s.opened t).length) (i : ℕ) :
    ((replaceOpened t s fd files).opened t)[i]? =
      if fd ≤ i ∧ i < fd + files.length then files[i - fd]? else (s.opened t)[i]? := by
  induction files generalizing s fd with
  | nil => rw [replaceOpened, if_neg (by simp)]
  | cons file files ih =>
    rw [List.length_cons] at h
    have hset : ((s.cloneOpt file).setOpened t fd file).2.opened t = (s.opened t).set fd file := by
      rcases (s.cloneOpt file).setOpened_cases t fd file with ⟨-, -, htable⟩ | ⟨hout, -, -⟩
      · rw [htable, opened_cloneOpt]
      · rw [opened_cloneOpt] at hout
        omega
    have hrest : ((((s.cloneOpt file).setOpened t fd file).2.dropOpt
        ((s.cloneOpt file).setOpened t fd file).1.join).opened t) = (s.opened t).set fd file := by
      rw [opened_dropOpt, hset]
    rw [replaceOpened]
    dsimp only
    rw [ih (by rw [hrest, List.length_set]; omega), hrest, List.length_cons]
    by_cases hfd : i = fd
    · subst hfd
      rw [if_neg (by omega), if_pos (by omega), List.getElem?_set_self (by omega), Nat.sub_self]
      rfl
    · rw [List.getElem?_set_ne (Ne.symm hfd)]
      by_cases hin : fd + 1 ≤ i ∧ i < fd + 1 + files.length
      · rw [if_pos hin, if_pos (by omega), show i - fd = i - (fd + 1) + 1 by omega,
          List.getElem?_cons_succ]
      · rw [if_neg hin, if_neg (by omega)]

def freshTable (cnt : ℕ) : List (Option ℕ) :=
  [some cnt, some (cnt + 1), some (cnt + 2)] ++ List.replicate (maxOpened - 3) none

theorem length_freshTable (cnt : ℕ) : (freshTable cnt).length = maxOpened := rfl

theorem opened_sysExecve (hlen : (s.opened t).length = maxOpened) :
    (s.sysExecve t).opened t = freshTable s.dfileCnt := by
  have htable : s.newStdFiles.1 = freshTable s.dfileCnt := rfl
  have hopened : s.newStdFiles.2.opened = s.opened := rfl
  unfold sysExecve
  dsimp only
  rw [opened_foldl_dropOpt]
  apply List.ext_getElem?
  intro i
  rw [getElem?_replaceOpened (by rw [htable, hopened, hlen, length_freshTable, Nat.zero_add]),
    htable, hopened, length_freshTable]
  by_cases hi : i < maxOpened
  · rw [if_pos (by omega), Nat.sub_zero]
  · rw [if_neg (by omega), List.getElem?_eq_none (by omega),
      List.getElem?_eq_none (by rw [length_freshTable]; omega)]

theorem slot_sysExecve (hlen : (s.opened t).length = maxOpened) (fd : ℕ) :
    (s.sysExecve t).slot t fd = if fd < 3 then some (s.dfileCnt + fd) else none := by
  rw [slot, opened_sysExecve hlen]
  by_cases hfd : fd < 3
  · rw [if_pos hfd]
    interval_cases fd <;> rfl
  · rw [if_neg hfd, freshTable, List.getElem?_append_right (by simpa using hfd),
      List.getElem?_replicate]
    split_ifs <;> rfl

/-- A descriptor fares as it should if it is not one of the three terminals of a new task
and is not to be kept. -/
theorem keepsFd_sysExecve_iff (hlen : (s.opened t).length = maxOpened)
    (hold : ∀ d, s.slot t fd = some d → d < s.dfileCnt) :
    s.KeepsFd (s.sysExecve t) t fd ↔
      3 ≤ fd ∧ ∀ d, s.slot t fd = some d → (s.dfiles d).cloexec = true := by
  have hslot := slot_sysExecve hlen fd
  constructor
  · intro h
    have hfd : 3 ≤ fd := by
      by_contra hlt
      rw [if_pos (by omega)] at hslot
      cases hd : s.slot t fd with
      | none => simp [h.unopened hd] at hslot
      | some d =>
        cases hc : (s.dfiles d).cloexec with
        | true => simp [h.closed d hd hc] at hslot
        | false =>
          have heq : d = s.dfileCnt + fd := by simpa [h.kept d hd hc] using hslot
          have hlt' := hold d hd
          omega
    refine ⟨hfd, fun d hd => ?_⟩
    rw [if_neg (by omega)] at hslot
    by_contra hc
    have hkept := h.kept d hd (by simpa using hc)
    rw [hslot] at hkept
    cases hkept
  · rintro ⟨hfd, hcloexec⟩
    rw [if_neg (by omega)] at hslot
    refine ⟨fun d hd hc => ?_, fun _ _ _ => hslot, fun _ => hslot⟩
    rw [hcloexec d hd] at hc
    cases hc

end Descriptors

namespace TaskFiles

variable {s s' : TaskFiles} {t : ℕ} {created : Bool}

theorem sysExecve_eq_ok (h : s.sysExecve t created = .ok s') : s' = s.execveFromTsk t := by
  cases created with
  | true => exact (Except.ok.inj h).symm
  | false => cases h

/-- No `execve` leaves a task all that it should keep: descriptors 0, 1 and 2 always
become new files, every other one is closed, and the working directory is the root. -/
theorem execve_keeps_iff (hlen : (s.files.opened t).length = maxOpened)
    (hold : ∀ fd d, s.files.slot t fd = some d → d < s.files.dfileCnt)
    (h : s.sysExecve t created = .ok s') :
    (∀ fd, s.files.KeepsFd s'.files t fd ↔
      3 ≤ fd ∧ ∀ d, s.files.slot t fd = some d → (s.files.dfiles d).cloexec = true) ∧
    (s'.cwd t = s.cwd t ↔ s.cwd t = .init) ∧ ¬s.ExecveRight s' t := by
  have hfiles : ∀ fd, s.files.KeepsFd s'.files t fd ↔
      3 ≤ fd ∧ ∀ d, s.files.slot t fd = some d → (s.files.dfiles d).cloexec = true := by
    intro fd
    rw [sysExecve_eq_ok h]
    exact Descriptors.keepsFd_sysExecve_iff hlen (hold fd)
  refine ⟨hfiles, ?_, fun hright => ?_⟩
  · have hcwd : s'.cwd t = .init := by rw [sysExecve_eq_ok h]; exact replaceAt_self
    rw [hcwd, eq_comm]
  · have hthree := ((hfiles 0).mp (hright.files 0)).1
    omega

/-- A user task that has opened a file, as descriptor 3. -/
def oneFile : TaskFiles where
  files := (Descriptors.boot.createUserTask.openFound 1 (some 0) .O_RDONLY).2
  cwd := fun _ => .init

theorem execve_keeps_iff_oneFile :
    oneFile.sysExecve 1 true = .ok (oneFile.execveFromTsk 1) ∧
      ¬oneFile.files.KeepsFd (oneFile.execveFromTsk 1).files 1 3 ∧
      (oneFile.execveFromTsk 1).cwd 1 = oneFile.cwd 1 := by
  have hold : ∀ fd d, oneFile.files.slot 1 fd = some d → d < oneFile.files.dfileCnt := by
    intro fd d hd
    by_cases hfd : fd < maxOpened
    · have hall : ∀ i < maxOpened, ∀ d ∈ oneFile.files.slot 1 i, d < 4 := by
        decide +kernel
      exact hall fd hfd d hd
    · rw [Descriptors.slot, List.getElem?_eq_none (Nat.le_of_not_lt hfd)] at hd
      cases hd
  have hrun : oneFile.sysExecve 1 true = .ok (oneFile.execveFromTsk 1) := rfl
  obtain ⟨hfiles, hcwd, -⟩ := execve_keeps_iff rfl hold hrun
  refine ⟨hrun, fun hkeeps => ?_, hcwd.mpr rfl⟩
  exact Bool.false_ne_true (((hfiles 3).mp hkeeps).2 3 rfl)

/-- The file is not marked to be closed, and it is closed. -/
theorem oneFile_closed_by_execve :
    oneFile.files.slot 1 3 = some 3 ∧ (oneFile.files.dfiles 3).cloexec = false ∧
      oneFile.sysExecve 1 true = .ok (oneFile.execveFromTsk 1) ∧
      (oneFile.execveFromTsk 1).files.slot 1 3 = none := by
  have hlen : (oneFile.files.opened 1).length = maxOpened := rfl
  refine ⟨rfl, rfl, rfl, ?_⟩
  rw [execveFromTsk, Descriptors.slot_sysExecve hlen, if_neg (Nat.lt_irrefl 3)]

end TaskFiles

end Zinix
