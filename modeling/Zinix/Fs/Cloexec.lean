import Zinix.Fs.FdTable
import Zinix.Fs.PipeEnds

/-!
# The close-on-exec flag

The flag is a field of the open file, so all descriptors of one open file, in whatever
tables they are, show the same flag.
-/

namespace Zinix

namespace Descriptors

variable {s s' : Descriptors} {t fd d : ℕ}

/-- What `F_GETFD` returns. -/
def getFd (s : Descriptors) (t fd : ℕ) : Checked ℤ := Prod.fst <$> s.sysFcntl t fd .getfd 0

/-- What an action may do to the flags. A duplicate has its flag clear. `F_SETFD` and
`F_DUPFD_CLOEXEC` on a descriptor keep the flags of all others that are open. -/
def FlagsRight (s : Descriptors) : FileAction → Prop
  | .dup t oldFd newFd => ∀ fd : ℕ, (s.doDup t oldFd newFd).1 = fd →
      (s.doDup t oldFd newFd).2.getFd t fd = .ok 0
  | .fcntl t fd .dupfd arg => ∀ (newfd : ℕ) s',
      s.sysFcntl t fd .dupfd arg = .ok (newfd, s') → s'.getFd t newfd = .ok 0
  | .fcntl t fd .setfd arg => ∀ ret s', s.sysFcntl t fd .setfd arg = .ok (ret, s') →
      ∀ t' < s.taskCnt, ∀ fd', IsOpen (s.opened t') fd' → (t', fd') ≠ (t, fd) →
        s'.getFd t' fd' = s.getFd t' fd'
  | .fcntl t fd .dupfdCloexec arg => ∀ ret s',
      s.sysFcntl t fd .dupfdCloexec arg = .ok (ret, s') →
      ∀ t' < s.taskCnt, ∀ fd', IsOpen (s.opened t') fd' → (t', fd') ≠ (t, fd) →
        s'.getFd t' fd' = s.getFd t' fd'
  | _ => True

def OnlyAt (s : Descriptors) (d t fd : ℕ) : Prop :=
  ∀ t' < s.taskCnt, ∀ fd', s.slot t' fd' = some d → (t', fd') = (t, fd)

/-- The flag of the open file is what the action makes of it, or nobody else looks at it. -/
def FlagUnshared (s : Descriptors) : FileAction → Prop
  | .dup t oldFd none => ∀ d ∈ s.slot t oldFd, (s.freeSlot t 0).isSome →
      (s.dfiles d).cloexec = false
  | .dup t oldFd (some newFd) => ∀ d ∈ s.slot t oldFd, newFd < (s.opened t).length →
      (s.dfiles d).cloexec = false
  | .fcntl t fd .dupfd arg => ∀ d ∈ s.slot t fd, (s.freeSlot t arg).isSome →
      (s.dfiles d).cloexec = false
  | .fcntl t fd .setfd arg => ∀ d ∈ s.slot t fd,
      (s.dfiles d).cloexec = (arg % 2 == 1) ∨ s.OnlyAt d t fd
  | .fcntl t fd .dupfdCloexec arg => ∀ d ∈ s.slot t fd, (s.freeSlot t arg).isSome →
      (s.dfiles d).cloexec = true ∨ s.OnlyAt d t fd
  | _ => True

section Files

@[simp] theorem dfiles_cloneOpt (s : Descriptors) (file : Option ℕ) :
    (s.cloneOpt file).dfiles = s.dfiles := by
  cases file <;> rfl

@[simp] theorem dfiles_dropArc (s : Descriptors) (d : ℕ) : (s.dropArc d).dfiles = s.dfiles := by
  obtain ⟨strong, pipes, h⟩ := s.dropArc_eq d
  rw [h]

@[simp] theorem dfiles_dropOpt (s : Descriptors) (file : Option ℕ) :
    (s.dropOpt file).dfiles = s.dfiles := by
  cases file with
  | none => rfl
  | some d => exact dfiles_dropArc s d

@[simp] theorem dfiles_setSlot (s : Descriptors) (t fd : ℕ) (file : Option ℕ) :
    (s.setSlot t fd file).dfiles = s.dfiles := rfl

end Files

/-- The flag as the caller of `F_GETFD` sees it. -/
def flagWord (flag : Bool) : ℤ := if flag then 1 else 0

theorem flagWord_inj {b c : Bool} : flagWord b = flagWord c ↔ b = c := by
  cases b <;> cases c <;> decide

theorem getFd_of_slot (h : s.slot t fd = some d) :
    s.getFd t fd = .ok (flagWord (s.dfiles d).cloexec) := by
  simp only [getFd, sysFcntl, getOpened, h, cloneOpt]
  rfl

theorem isOpen_iff_slot : IsOpen (s.opened t) fd ↔ ∃ d, s.slot t fd = some d := by
  simp only [IsOpen, slot_eq_some_iff]

theorem slot_of_opened_eq_set (h : s'.opened t = (s.opened t).set fd (some d))
    (hlt : fd < (s.opened t).length) : s'.slot t fd = some d := by
  rw [slot_eq_some_iff, h]
  exact List.getElem?_set_self hlt

theorem getFd_of_set (h : s'.opened t = (s.opened t).set fd (some d))
    (hlt : fd < (s.opened t).length) (hfiles : s'.dfiles = s.dfiles) :
    s'.getFd t fd = .ok 0 ↔ (s.dfiles d).cloexec = false := by
  rw [getFd_of_slot (slot_of_opened_eq_set h hlt), hfiles, Except.ok.injEq]
  exact flagWord_inj (c := false)

theorem lt_of_freeSlot {start i : ℕ} (h : s.freeSlot t start = some i) :
    i < (s.opened t).length :=
  (mem_freeFds_iff_slot.mp (freeSlot_eq_some h).1).2.1

/-- What a call returns for the result of an allocation. -/
def fdAnswer (r : Option ℕ × Descriptors) : ℤ × Descriptors := (r.1.elim (-1) fun fd => fd, r.2)

/-- A descriptor that an allocation hands out is clear if the open file is. -/
theorem fdAnswer_allocFrom_clear_iff (s : Descriptors) (t d start : ℕ) :
    (∀ (newfd : ℕ) s', fdAnswer ((s.cloneArc d).allocFrom t d start) = (↑newfd, s') →
      s'.getFd t newfd = .ok 0) ↔
      ((s.freeSlot t start).isSome → (s.dfiles d).cloexec = false) := by
  have hfree : (s.cloneArc d).freeSlot t start = s.freeSlot t start := rfl
  rw [allocFrom, hfree]
  cases hslot : s.freeSlot t start with
  | none =>
    refine iff_of_true (fun newfd s' h => ?_) (fun h => absurd h (by decide))
    have hret : (-1 : ℤ) = newfd := congrArg Prod.fst h
    omega
  | some i =>
    have hiff := getFd_of_set (opened_setSlot (s.cloneArc d) t i (some d))
      (lt_of_freeSlot (s := s.cloneArc d) hslot) rfl
    constructor
    · intro h _
      exact hiff.mp (h i _ rfl)
    · intro h newfd s' heq
      obtain ⟨hret, rfl⟩ := Prod.mk.inj heq
      have hi : i = newfd := Int.ofNat.inj hret
      exact hi ▸ hiff.mpr (h rfl)

section Duplicates

variable {oldFd newFd arg : ℕ}

theorem doDup_of_closed (h : s.slot t oldFd = none) (newFd : Option ℕ) :
    s.doDup t oldFd newFd = (-1, s) := by
  simp only [doDup, getOpened, h, cloneOpt]

theorem doDup_none_of_open (h : s.slot t oldFd = some d) :
    s.doDup t oldFd none = fdAnswer ((s.cloneArc d).allocFrom t d 0) := by
  simp only [doDup, getOpened, h, cloneOpt, allocOpened]
  rcases (s.cloneArc d).allocFrom t d 0 with ⟨_ | fd, s'⟩
  · rfl
  · rfl

theorem sysFcntl_of_closed (h : s.slot t fd = none) (cmd : FcntlCmd) (arg : ℕ) :
    s.sysFcntl t fd cmd arg = .ok (-1, s) := by
  simp only [sysFcntl, getOpened, h, cloneOpt]
  rfl

theorem sysFcntl_dupfd_of_open (h : s.slot t fd = some d) (arg : ℕ) :
    s.sysFcntl t fd .dupfd arg = .ok (fdAnswer ((s.cloneArc d).allocFrom t d arg)) := by
  simp only [sysFcntl, getOpened, h, cloneOpt, allocOpenedBiggerThan_eq]
  rcases (s.cloneArc d).allocFrom t d arg with ⟨_ | fd, s'⟩
  · rfl
  · rfl

theorem dup_flags_iff (s : Descriptors) (t oldFd : ℕ) :
    s.FlagsRight (.dup t oldFd none) ↔ s.FlagUnshared (.dup t oldFd none) := by
  simp only [FlagsRight, FlagUnshared]
  cases hslot : s.slot t oldFd with
  | none =>
    rw [doDup_of_closed hslot]
    refine iff_of_true (fun fd hfd => ?_) (fun d hd => by cases hd)
    change (-1 : ℤ) = fd at hfd
    omega
  | some d =>
    simp only [Option.mem_some_iff, forall_eq']
    rw [doDup_none_of_open hslot, ← fdAnswer_allocFrom_clear_iff]
    constructor
    · intro h newfd s' heq
      rw [heq] at h
      exact h newfd rfl
    · intro h newfd hret
      exact h newfd _ (Prod.ext hret rfl)

theorem dupfd_flags_iff (s : Descriptors) (t fd arg : ℕ) :
    s.FlagsRight (.fcntl t fd .dupfd arg) ↔ s.FlagUnshared (.fcntl t fd .dupfd arg) := by
  simp only [FlagsRight, FlagUnshared]
  cases hslot : s.slot t fd with
  | none =>
    rw [sysFcntl_of_closed hslot]
    refine iff_of_true (fun newfd s' h => ?_) (fun d hd => by cases hd)
    have hret : (-1 : ℤ) = newfd := congrArg Prod.fst (Except.ok.inj h)
    omega
  | some d =>
    simp only [Option.mem_some_iff, forall_eq']
    rw [sysFcntl_dupfd_of_open hslot, ← fdAnswer_allocFrom_clear_iff]
    simp only [Except.ok.injEq]

theorem doDup_some_of_open (h : s.slot t oldFd = some d) (hlt : newFd < (s.opened t).length) :
    ∃ s', s.doDup t oldFd (some newFd) = (↑newFd, s') ∧
      s'.opened t = (s.opened t).set newFd (some d) ∧ s'.dfiles = s.dfiles := by
  have hset : (s.cloneOpt (some d)).setOpened t newFd (some d) = _ := if_pos hlt
  unfold doDup getOpened
  rw [h]
  dsimp only
  rw [hset]
  refine ⟨_, rfl, ?_, ?_⟩
  · simp only [opened_dropOpt, opened_setSlot, opened_cloneOpt]
  · simp only [dfiles_dropOpt, dfiles_setSlot, dfiles_cloneOpt]

theorem doDup_some_of_ge (h : s.slot t oldFd = some d) (hge : ¬newFd < (s.opened t).length) :
    (s.doDup t oldFd (some newFd)).1 = -1 := by
  have hset : (s.cloneOpt (some d)).setOpened t newFd (some d) = _ := if_neg hge
  unfold doDup getOpened
  rw [h]
  dsimp only
  rw [hset]

theorem dup3_flags_iff (s : Descriptors) (t oldFd newFd : ℕ) :
    s.FlagsRight (.dup t oldFd (some newFd)) ↔ s.FlagUnshared (.dup t oldFd (some newFd)) := by
  simp only [FlagsRight, FlagUnshared]
  cases hslot : s.slot t oldFd with
  | none =>
    rw [doDup_of_closed hslot]
    refine iff_of_true (fun fd hfd => ?_) (fun d hd => by cases hd)
    change (-1 : ℤ) = fd at hfd
    omega
  | some d =>
    simp only [Option.mem_some_iff, forall_eq']
    by_cases hlt : newFd < (s.opened t).length
    · obtain ⟨s', hdup, htable, hfiles⟩ := doDup_some_of_open hslot hlt
      rw [hdup, ← getFd_of_set htable hlt hfiles]
      constructor
      · intro h _
        exact h newFd rfl
      · intro h fd hret
        have hfd : newFd = fd := Int.ofNat.inj hret
        exact hfd ▸ h hlt
    · refine iff_of_true (fun fd hfd => ?_) (fun h => absurd h hlt)
      rw [doDup_some_of_ge hslot hlt] at hfd
      omega

end Duplicates

section Marks

/-- Between the two states the flag of one open file has been set, and descriptors may
have been opened. -/
structure Marked (s s' : Descriptors) (d : ℕ) (flag : Bool) : Prop where
  slot : ∀ t fd e, s.slot t fd = some e → s'.slot t fd = some e
  dfiles : s'.dfiles = replaceAt s.dfiles d { s.dfiles d with cloexec := flag }

/-- The other descriptors do not notice if the flag was like that or there are none. -/
theorem Marked.kept_iff {flag : Bool} (h : s.Marked s' d flag) (t fd : ℕ) :
    (∀ t' < s.taskCnt, ∀ fd', IsOpen (s.opened t') fd' → (t', fd') ≠ (t, fd) →
      s'.getFd t' fd' = s.getFd t' fd') ↔
      (s.dfiles d).cloexec = flag ∨ s.OnlyAt d t fd := by
  have hflag : ∀ e, (s'.dfiles e).cloexec = if e = d then flag else (s.dfiles e).cloexec := by
    intro e
    rw [h.dfiles]
    by_cases he : e = d
    · rw [he, replaceAt_self, if_pos rfl]
    · rw [replaceAt_of_ne he, if_neg he]
  have hget : ∀ {t' fd' e}, s.slot t' fd' = some e → (s'.getFd t' fd' = s.getFd t' fd' ↔
      (e = d → (s.dfiles d).cloexec = flag)) := by
    intro t' fd' e he
    rw [getFd_of_slot he, getFd_of_slot (h.slot t' fd' e he), Except.ok.injEq, flagWord_inj, hflag]
    split_ifs with hed
    · subst hed
      simp [eq_comm]
    · simp [hed]
  constructor
  · intro hkept
    by_cases hsame : (s.dfiles d).cloexec = flag
    · exact .inl hsame
    · refine .inr fun t' ht' fd' hslot => ?_
      by_contra hne
      exact hsame ((hget hslot).mp (hkept t' ht' fd' (isOpen_iff_slot.mpr ⟨d, hslot⟩) hne) rfl)
  · intro hor t' ht' fd' hopen hne
    obtain ⟨e, he⟩ := isOpen_iff_slot.mp hopen
    refine (hget he).mpr ?_
    rintro rfl
    exact hor.resolve_right fun honly => hne (honly t' ht' fd' he)

theorem sysFcntl_setfd_of_open (h : s.slot t fd = some d) (arg : ℕ) :
    ∃ s', s.sysFcntl t fd .setfd arg = .ok (0, s') ∧ s.Marked s' d (arg % 2 == 1) := by
  simp only [sysFcntl, getOpened, h, cloneOpt]
  refine ⟨_, rfl, ?_, ?_⟩
  · intro t' fd' e he
    rw [slot_eq_some_iff, opened_dropArc]
    exact slot_eq_some_iff.mp he
  · rw [dfiles_dropArc]
    rfl

theorem setfd_flags_iff (s : Descriptors) (t fd arg : ℕ) :
    s.FlagsRight (.fcntl t fd .setfd arg) ↔ s.FlagUnshared (.fcntl t fd .setfd arg) := by
  simp only [FlagsRight, FlagUnshared]
  cases hslot : s.slot t fd with
  | none =>
    rw [sysFcntl_of_closed hslot]
    refine iff_of_true (fun ret s' h => ?_) (fun d hd => by cases hd)
    cases h
    exact fun _ _ _ _ _ => rfl
  | some d =>
    obtain ⟨s', hcall, hmarked⟩ := sysFcntl_setfd_of_open hslot arg
    simp only [Option.mem_some_iff, forall_eq', hcall]
    rw [← hmarked.kept_iff]
    constructor
    · intro h
      exact h 0 s' rfl
    · rintro h ret s'' ⟨⟩
      exact h

/-- An allocation on behalf of `F_DUPFD_CLOEXEC` opens a descriptor and marks the file. -/
theorem sysFcntl_dupfdCloexec_of_free {i arg : ℕ} (h : s.slot t fd = some d)
    (hfree : s.freeSlot t arg = some i) :
    ∃ s', s.sysFcntl t fd .dupfdCloexec arg = .ok (↑i, s') ∧ s.Marked s' d true := by
  have halloc : ((s.cloneOpt (some d)).cloneArc d).allocFrom t d arg =
      (some i, ((s.cloneOpt (some d)).cloneArc d).setSlot t i (some d)) := by
    have hsame : ((s.cloneOpt (some d)).cloneArc d).freeSlot t arg = s.freeSlot t arg := rfl
    rw [allocFrom, hsame, hfree]
  unfold sysFcntl getOpened
  rw [h]
  dsimp only
  rw [allocOpenedBiggerThan_eq, halloc]
  refine ⟨_, rfl, ?_, ?_⟩
  · intro t' fd' e he
    rw [slot_eq_some_iff] at he ⊢
    rw [opened_dropArc, opened_setCloexecTo]
    by_cases ht : t' = t
    · subst ht
      have hne : i ≠ fd' := by
        rintro rfl
        rw [(mem_freeFds.mp (freeSlot_eq_some hfree).1).2] at he
        cases he
      rw [opened_setSlot, List.getElem?_set_ne hne]
      exact he
    · exact (congrArg (·[fd']?) (replaceAt_of_ne ht)).trans he
  · rw [dfiles_dropArc]
    rfl

theorem sysFcntl_dupfdCloexec_of_full {arg : ℕ} (h : s.slot t fd = some d)
    (hfull : s.freeSlot t arg = none) :
    ∃ s', s.sysFcntl t fd .dupfdCloexec arg = .ok (-1, s') ∧ s'.opened = s.opened ∧
      s'.dfiles = s.dfiles := by
  have halloc : ((s.cloneOpt (some d)).cloneArc d).allocFrom t d arg =
      (none, ((s.cloneOpt (some d)).cloneArc d).dropArc d) := by
    have hsame : ((s.cloneOpt (some d)).cloneArc d).freeSlot t arg = s.freeSlot t arg := rfl
    rw [allocFrom, hsame, hfull]
  unfold sysFcntl getOpened
  rw [h]
  dsimp only
  rw [allocOpenedBiggerThan_eq, halloc]
  refine ⟨_, rfl, ?_, ?_⟩
  · rw [opened_dropArc, opened_dropArc]
    rfl
  · rw [dfiles_dropArc, dfiles_dropArc]
    rfl

theorem dupfdCloexec_flags_iff (s : Descriptors) (t fd arg : ℕ) :
    s.FlagsRight (.fcntl t fd .dupfdCloexec arg) ↔
      s.FlagUnshared (.fcntl t fd .dupfdCloexec arg) := by
  simp only [FlagsRight, FlagUnshared]
  cases hslot : s.slot t fd with
  | none =>
    rw [sysFcntl_of_closed hslot]
    refine iff_of_true (fun ret s' h => ?_) (fun d hd => by cases hd)
    cases h
    exact fun _ _ _ _ _ => rfl
  | some d =>
    simp only [Option.mem_some_iff, forall_eq']
    cases hfree : s.freeSlot t arg with
    | none =>
      obtain ⟨s', hcall, hopened, hfiles⟩ := sysFcntl_dupfdCloexec_of_full hslot hfree
      refine iff_of_true ?_ (fun h => absurd h (by decide))
      rw [hcall]
      rintro ret s'' ⟨⟩ t' _ fd' hopen _
      obtain ⟨e, he⟩ := isOpen_iff_slot.mp hopen
      have he' : s'.slot t' fd' = some e := by rw [slot, hopened]; exact he
      rw [getFd_of_slot he, getFd_of_slot he', hfiles]
    | some i =>
      obtain ⟨s', hcall, hmarked⟩ := sysFcntl_dupfdCloexec_of_free hslot hfree
      rw [hcall, ← hmarked.kept_iff]
      constructor
      · intro h _
        exact h i s' rfl
      · rintro h ret s'' ⟨⟩
        exact h rfl

end Marks

/-- An action treats the flags as it should exactly where the open file it acts on is not
shared or has the flag already. -/
theorem flagsRight_iff (s : Descriptors) (a : FileAction) : s.FlagsRight a ↔ s.FlagUnshared a := by
  cases a with
  | dup t oldFd newFd =>
    cases newFd with
    | none => exact s.dup_flags_iff t oldFd
    | some newFd => exact s.dup3_flags_iff t oldFd newFd
  | fcntl t fd cmd arg =>
    cases cmd with
    | dupfd => exact s.dupfd_flags_iff t fd arg
    | setfd => exact s.setfd_flags_iff t fd arg
    | dupfdCloexec => exact s.dupfdCloexec_flags_iff t fd arg
    | getfd => exact Iff.rfl
    | other => exact Iff.rfl
  | _ => exact Iff.rfl

/-- Whatever tables there are and whatever the tasks do with them: the flag is one of the
descriptor in exactly those steps that act on an open file of a single descriptor or leave
its flag as it is. A successful `F_DUPFD_CLOEXEC` also marks the descriptor it copies. -/
theorem flags_per_descriptor_iff (s : Descriptors) (acts : List FileAction) :
    ((∀ x ∈ Trace.steps s (Trace.record next s acts), x.1.FlagsRight x.2) ↔
      ∀ x ∈ Trace.steps s (Trace.record next s acts), x.1.FlagUnshared x.2) ∧
    ∀ x ∈ Trace.steps s (Trace.record next s acts), ∀ t fd arg (newfd : ℕ) s',
      x.1.sysFcntl t fd .dupfdCloexec arg = .ok (↑newfd, s') → s'.getFd t fd = .ok 1 := by
  refine ⟨forall₂_congr fun x _ => x.1.flagsRight_iff x.2, ?_⟩
  intro x _ t fd arg newfd s' hcall
  cases hslot : x.1.slot t fd with
  | none =>
    rw [sysFcntl_of_closed hslot] at hcall
    cases hcall
  | some d =>
    cases hfree : x.1.freeSlot t arg with
    | none =>
      obtain ⟨s'', hfull, -⟩ := sysFcntl_dupfdCloexec_of_full hslot hfree
      rw [hfull] at hcall
      cases hcall
    | some i =>
      obtain ⟨s'', hdone, hmarked⟩ := sysFcntl_dupfdCloexec_of_free hslot hfree
      rw [hdone] at hcall
      obtain ⟨-, rfl⟩ := Prod.mk.inj (Except.ok.inj hcall)
      rw [getFd_of_slot (hmarked.slot t fd d hslot), hmarked.dfiles, replaceAt_self]
      rfl

/-- A user task duplicates its standard input, forks, and sets the flag of the duplicate. -/
def markDuplicate : List FileAction :=
  [.createUserTask, .dup 1 0 none, .fork 1, .fcntl 1 3 .setfd 1]

/-- The flag then shows at the original, at both descriptors of the child and at the next
duplicate, and the child clears it for its parent. -/
theorem not_flagsRight_markDuplicate :
    Trace.IsRun Step boot (Trace.record next boot markDuplicate) ∧
      (let s := Trace.final boot (Trace.record next boot (markDuplicate.take 3))
       s.getFd 1 0 = .ok 0 ∧ s.getFd 2 3 = .ok 0 ∧ ¬s.FlagsRight (.fcntl 1 3 .setfd 1)) ∧
      let s := Trace.final boot (Trace.record next boot markDuplicate)
      s.getFd 1 0 = .ok 1 ∧ s.getFd 2 3 = .ok 1 ∧
        (s.doDup 1 0 none).1 = 4 ∧ (s.doDup 1 0 none).2.getFd 1 4 = .ok 1 ∧
        ¬s.FlagsRight (.dup 1 0 none) ∧ ¬s.FlagsRight (.fcntl 2 0 .setfd 0) := by
  simp only [flagsRight_iff, FlagUnshared]
  refine ⟨isRun_of_ready _ (by decide +kernel), ⟨by decide +kernel, by decide +kernel, ?_⟩,
    by decide +kernel, by decide +kernel, by decide +kernel, by decide +kernel, ?_, ?_⟩
  · intro h
    rcases h 0 (by decide +kernel) with hflag | honly
    · exact absurd hflag (by decide +kernel)
    · exact absurd (honly 1 (by decide +kernel) 0 (by decide +kernel)) (by decide)
  · intro h
    exact absurd (h 0 (by decide +kernel) (by decide +kernel)) (by decide +kernel)
  · intro h
    rcases h 0 (by decide +kernel) with hflag | honly
    · exact absurd hflag (by decide +kernel)
    · exact absurd (honly 1 (by decide +kernel) 0 (by decide +kernel)) (by decide)

end Descriptors

end Zinix
