import Zinix.Fs.Descriptors
import Zinix.Lib.Trace

/-!
# Descriptors and the entries of the table

Every call keeps to the entries it names, and one that fails leaves the table as it was.
Only `sys_pipe` does not say which descriptors it has taken.
-/

namespace Zinix

/-- The calls that change a descriptor table, with the registers they are given. -/
inductive FdCall where
  | openat (dirfd : BitVec 64) (found : Option ℕ) (flags : OpenFlags)
  | dup (oldFd : BitVec 64)
  | dup3 (oldFd newFd : BitVec 64)
  | dupfd (fd arg : BitVec 64)
  | dupfdCloexec (fd arg : BitVec 64)
  | close (fd : BitVec 64)
  | pipe

/-- `AT_FDCWD`. -/
def atFdcwd : ℤ := -100

/-- The value of a call and the words that it stores for the caller. -/
structure FdAnswer where
  ret : ℤ
  words : ℕ × ℕ := (0, 0)

namespace Descriptors

variable (s : Descriptors) (t : ℕ)

def fdCall : FdCall → Checked (FdAnswer × Descriptors)
  | .openat dirfd found flags =>
    let dir := if dirfd.toInt = atFdcwd then none else some dirfd.toNat
    let (ret, s) := s.sysOpenat t dir found flags
    return ({ ret }, s)
  | .dup oldFd =>
    let (ret, s) := s.doDup t oldFd.toNat none
    return ({ ret }, s)
  | .dup3 oldFd newFd =>
    let (ret, s) := s.doDup t oldFd.toNat (some newFd.toNat)
    return ({ ret }, s)
  | .dupfd fd arg => do
    let (ret, s) ← s.sysFcntl t fd.toNat .dupfd arg.toNat
    return ({ ret }, s)
  | .dupfdCloexec fd arg => do
    let (ret, s) ← s.sysFcntl t fd.toNat .dupfdCloexec arg.toNat
    return ({ ret }, s)
  | .close fd =>
    let (ret, s) := s.sysClose t fd.toNat
    return ({ ret }, s)
  | .pipe =>
    let ((ret, words), s) := s.sysPipe t
    return ({ ret, words }, s)

end Descriptors

/-- The free descriptors of a table from `start` on. -/
def freeFds (table : List (Option ℕ)) (start : ℕ) : Set ℕ :=
  {i | start ≤ i ∧ table[i]? = some none}

def SameExcept (fds : Set ℕ) (table table' : List (Option ℕ)) : Prop :=
  ∀ i ∉ fds, table'[i]? = table[i]?

def IsOpen (table : List (Option ℕ)) (fd : ℕ) : Prop := ∃ d, table[fd]? = some (some d)

/-- The smallest free descriptor from `start` on has been opened. -/
def Allocates (table table' : List (Option ℕ)) (start : ℕ) (ret : ℤ) : Prop :=
  ∃ fd : ℕ, ret = fd ∧ IsLeast (freeFds table start) fd ∧ IsOpen table' fd ∧
    SameExcept {fd} table table'

def FdCall.Done (table table' : List (Option ℕ)) (a : FdAnswer) : FdCall → Prop
  | .openat _ _ _ => Allocates table table' 0 a.ret
  | .dup _ => Allocates table table' 0 a.ret
  | .dup3 _ newFd => a.ret = newFd.toInt ∧ IsOpen table' newFd.toNat ∧
      SameExcept {newFd.toNat} table table'
  | .dupfd _ arg => Allocates table table' arg.toNat a.ret
  | .dupfdCloexec _ arg => Allocates table table' arg.toNat a.ret
  | .close fd => IsOpen table fd.toNat ∧ table'[fd.toNat]? = some none ∧
      SameExcept {fd.toNat} table table'
  | .pipe => IsLeast (freeFds table 0) a.words.1 ∧
      IsLeast (freeFds table 0 \ {a.words.1}) a.words.2 ∧
      IsOpen table' a.words.1 ∧ IsOpen table' a.words.2 ∧
      SameExcept {a.words.1, a.words.2} table table'

/-- A call returns, and has done what it should or has failed and left the table alone. -/
def Descriptors.CallRight (t : ℕ) (s : Descriptors) (c : FdCall) : Prop :=
  ∃ a s', s.fdCall t c = .ok (a, s') ∧ (a.ret < 0 → s'.opened t = s.opened t) ∧
    (0 ≤ a.ret → c.Done (s.opened t) (s'.opened t) a)

def Descriptors.GivesPipe (t : ℕ) (s : Descriptors) : FdCall → Prop
  | .pipe => ∃ i j, i ≠ j ∧ i ∈ freeFds (s.opened t) 0 ∧ j ∈ freeFds (s.opened t) 0
  | _ => False

namespace Descriptors

variable {s : Descriptors} {t fd : ℕ}

section Opened

@[simp] theorem opened_cloneArc (s : Descriptors) (d : ℕ) : (s.cloneArc d).opened = s.opened := rfl

/-- A dropped reference touches the counters of the references and of the writers. -/
theorem dropArc_eq (s : Descriptors) (d : ℕ) :
    ∃ strong pipes, s.dropArc d = { s with strong, pipes } := by
  unfold dropArc dropDFile
  dsimp only
  by_cases hlast : replaceAt s.strong d (s.strong d - 1) d = 0
  · rw [if_pos hlast]
    cases (s.dfiles d).cls with
    | classInode _ => exact ⟨_, _, rfl⟩
    | classTerminal _ => exact ⟨_, _, rfl⟩
    | classPipe p =>
      dsimp only
      split_ifs
      · exact ⟨_, _, rfl⟩
      · exact ⟨_, _, rfl⟩
  · rw [if_neg hlast]
    exact ⟨_, _, rfl⟩

@[simp] theorem opened_dropArc (s : Descriptors) (d : ℕ) : (s.dropArc d).opened = s.opened := by
  obtain ⟨strong, pipes, h⟩ := s.dropArc_eq d
  rw [h]

@[simp] theorem opened_dropOpt (s : Descriptors) (file : Option ℕ) :
    (s.dropOpt file).opened = s.opened := by
  cases file with
  | none => rfl
  | some d => exact opened_dropArc s d

@[simp] theorem opened_setSlot (s : Descriptors) (t fd : ℕ) (file : Option ℕ) :
    (s.setSlot t fd file).opened t = (s.opened t).set fd file := replaceAt_self

@[simp] theorem opened_newDFile (s : Descriptors) (f : DFile) :
    (s.newDFile f).2.opened = s.opened := rfl

@[simp] theorem opened_newPipe (s : Descriptors) : s.newPipe.2.opened = s.opened := rfl

@[simp] theorem opened_setCloexecTo (s : Descriptors) (d : ℕ) (flag : Bool) :
    (s.setCloexecTo d flag).opened = s.opened := rfl

end Opened

section Slots

variable {table : List (Option ℕ)} {file start : ℕ}
  {i : ℕ}

theorem mem_freeFds : fd ∈ freeFds table start ↔ start ≤ fd ∧ table[fd]? = some none := Iff.rfl

theorem slot_eq_none_iff : s.slot t fd = none ↔
    (s.opened t).length ≤ fd ∨ (s.opened t)[fd]? = some none := by
  unfold slot
  by_cases hlt : fd < (s.opened t).length
  · rw [List.getElem?_eq_getElem hlt, Option.join_some]
    simp [hlt]
  · rw [List.getElem?_eq_none (Nat.not_lt.mp hlt)]
    simp [Nat.not_lt.mp hlt]

theorem slot_eq_some_iff {d : ℕ} : s.slot t fd = some d ↔ (s.opened t)[fd]? = some (some d) :=
  Option.join_eq_some_iff

theorem mem_freeFds_iff_slot : fd ∈ freeFds (s.opened t) start ↔
    start ≤ fd ∧ fd < (s.opened t).length ∧ s.slot t fd = none := by
  rw [mem_freeFds, slot_eq_none_iff]
  constructor
  · rintro ⟨hle, hnone⟩
    exact ⟨hle, (List.getElem?_eq_some_iff.mp hnone).choose, .inr hnone⟩
  · rintro ⟨hle, hlt, hout | hnone⟩
    · omega
    · exact ⟨hle, hnone⟩

theorem freeSlot_eq_none (h : s.freeSlot t start = none) : freeFds (s.opened t) start = ∅ := by
  rw [freeSlot, List.find?_range'_eq_none] at h
  refine Set.eq_empty_iff_forall_notMem.mpr fun i hi => ?_
  obtain ⟨hle, hlt, hnone⟩ := mem_freeFds_iff_slot.mp hi
  simpa [hnone] using h i hle (by omega)

theorem freeSlot_eq_some (h : s.freeSlot t start = some i) :
    IsLeast (freeFds (s.opened t) start) i := by
  rw [freeSlot, List.find?_range'_eq_some] at h
  obtain ⟨hnone, hmem, hbefore⟩ := h
  rw [List.mem_range'_1] at hmem
  refine ⟨mem_freeFds_iff_slot.mpr ⟨hmem.1, by omega, by simpa using hnone⟩, ?_⟩
  intro j hj
  obtain ⟨hle, -, hfree⟩ := mem_freeFds_iff_slot.mp hj
  by_contra hlt
  simpa [hfree] using hbefore j hle (Nat.not_le.mp hlt)

theorem allocFrom_cases (s : Descriptors) (t file start : ℕ) :
    (∃ i, (s.allocFrom t file start).1 = some i ∧ IsLeast (freeFds (s.opened t) start) i ∧
        (s.allocFrom t file start).2.opened t = (s.opened t).set i (some file)) ∨
      (s.allocFrom t file start).1 = none ∧ freeFds (s.opened t) start = ∅ ∧
        (s.allocFrom t file start).2.opened t = s.opened t := by
  unfold allocFrom
  cases hfree : s.freeSlot t start with
  | none => exact .inr ⟨rfl, freeSlot_eq_none hfree, by rw [opened_dropArc]⟩
  | some i => exact .inl ⟨i, rfl, freeSlot_eq_some hfree, opened_setSlot s t i (some file)⟩

theorem allocOpenedBiggerThan_eq (s : Descriptors) (t file start : ℕ) :
    s.allocOpenedBiggerThan t file start = s.allocFrom t file start := by
  unfold allocOpenedBiggerThan
  split_ifs with hout
  · have hempty : s.freeSlot t start = none := by
      rw [freeSlot, Nat.sub_eq_zero_of_le hout]
      rfl
    rw [allocFrom, hempty]
  · rfl

theorem setOpened_cases (s : Descriptors) (t fd : ℕ) (file : Option ℕ) :
    fd < (s.opened t).length ∧ (s.setOpened t fd file).1 = some (s.slot t fd) ∧
        (s.setOpened t fd file).2.opened t = (s.opened t).set fd file ∨
      (s.opened t).length ≤ fd ∧ (s.setOpened t fd file).1 = none ∧
        (s.setOpened t fd file).2.opened t = s.opened t := by
  unfold setOpened
  split_ifs with hlt
  · refine .inl ⟨hlt, rfl, ?_⟩
    simp only [opened_dropOpt, opened_setSlot, opened_cloneOpt]
  · exact .inr ⟨Nat.not_lt.mp hlt, rfl, by simp only [opened_dropOpt]⟩

theorem allocates_set (h : IsLeast (freeFds table start) i) (file : ℕ) :
    Allocates table (table.set i (some file)) start i := by
  obtain ⟨hlt, -⟩ := List.getElem?_eq_some_iff.mp (mem_freeFds.mp h.1).2
  refine ⟨i, rfl, h, ⟨file, List.getElem?_set_self hlt⟩, ?_⟩
  intro j hj
  exact List.getElem?_set_ne fun heq => hj heq.symm

theorem set_none_self (h : table[fd]? = some none) : table.set fd none = table := by
  obtain ⟨hlt, heq⟩ := List.getElem?_eq_some_iff.mp h
  rw [← heq, List.set_getElem_self]

end Slots

section Calls

variable {file : ℕ}

/-- A call that allocates has failed and left the table alone, or has opened the smallest
free descriptor. -/
def Answers (table table' : List (Option ℕ)) (start : ℕ) (ret : ℤ) : Prop :=
  ret = -1 ∧ table' = table ∨ Allocates table table' start ret

theorem allocFrom_answers {s s' : Descriptors} {start : ℕ} {r : Option ℕ}
    (h : s.allocFrom t file start = (r, s')) :
    Answers (s.opened t) (s'.opened t) start (r.elim (-1) fun fd => fd) := by
  rcases s.allocFrom_cases t file start with ⟨i, hr, hleast, htable⟩ | ⟨hr, -, htable⟩
  · rw [h] at hr htable
    simp only at hr htable
    rw [hr, htable]
    exact .inr (allocates_set hleast file)
  · rw [h] at hr htable
    simp only at hr htable
    rw [hr]
    exact .inl ⟨rfl, htable⟩

theorem openFound_answers (s : Descriptors) (t : ℕ) (found : Option ℕ) (flags : OpenFlags) :
    Answers (s.opened t) ((s.openFound t found flags).2.opened t) 0
      (s.openFound t found flags).1 := by
  unfold openFound
  cases found with
  | none => exact .inl ⟨rfl, rfl⟩
  | some inode =>
    dsimp only
    rcases halloc : (s.newDFile ⟨.classInode inode, flags, false⟩).2.allocOpened t
      (s.newDFile ⟨.classInode inode, flags, false⟩).1 with ⟨r, s'⟩
    have hanswer := allocFrom_answers halloc
    cases r with
    | none => exact hanswer
    | some fd => exact hanswer

theorem sysOpenat_answers (s : Descriptors) (t : ℕ) (dirfd found : Option ℕ) (flags : OpenFlags) :
    Answers (s.opened t) ((s.sysOpenat t dirfd found flags).2.opened t) 0
      (s.sysOpenat t dirfd found flags).1 := by
  unfold sysOpenat getOpened
  cases dirfd with
  | none => exact s.openFound_answers t found flags
  | some fd =>
    dsimp only
    cases s.slot t fd with
    | none => exact .inl ⟨rfl, rfl⟩
    | some dir =>
      have hanswer := (s.cloneOpt (some dir)).openFound_answers t found flags
      simp only [opened_dropArc]
      exact hanswer

theorem doDup_answers (s : Descriptors) (t oldFd : ℕ) :
    Answers (s.opened t) ((s.doDup t oldFd none).2.opened t) 0 (s.doDup t oldFd none).1 := by
  unfold doDup getOpened
  cases s.slot t oldFd with
  | none => exact .inl ⟨rfl, rfl⟩
  | some f =>
    dsimp only
    rcases halloc : (s.cloneOpt (some f)).allocOpened t f with ⟨r, s'⟩
    have hanswer := allocFrom_answers halloc
    cases r with
    | none => exact hanswer
    | some fd => exact hanswer

theorem sysFcntl_dupfd_answers (s : Descriptors) (t fd arg : ℕ) :
    ∃ ret s', s.sysFcntl t fd .dupfd arg = .ok (ret, s') ∧
      Answers (s.opened t) (s'.opened t) arg ret := by
  unfold sysFcntl getOpened
  cases s.slot t fd with
  | none => exact ⟨-1, s, rfl, .inl ⟨rfl, rfl⟩⟩
  | some f =>
    dsimp only
    rw [allocOpenedBiggerThan_eq]
    rcases halloc : (s.cloneOpt (some f)).allocFrom t f arg with ⟨r, s'⟩
    have hanswer := allocFrom_answers halloc
    cases r with
    | none => exact ⟨-1, s', rfl, hanswer⟩
    | some fd => exact ⟨fd, s', rfl, hanswer⟩

theorem sysFcntl_dupfdCloexec_answers (s : Descriptors) (t fd arg : ℕ) :
    ∃ ret s', s.sysFcntl t fd .dupfdCloexec arg = .ok (ret, s') ∧
      Answers (s.opened t) (s'.opened t) arg ret := by
  unfold sysFcntl getOpened
  cases s.slot t fd with
  | none => exact ⟨-1, s, rfl, .inl ⟨rfl, rfl⟩⟩
  | some f =>
    dsimp only
    rw [allocOpenedBiggerThan_eq]
    rcases halloc : ((s.cloneOpt (some f)).cloneArc f).allocFrom t f arg with ⟨r, s'⟩
    have hanswer := allocFrom_answers halloc
    cases r with
    | none => exact ⟨-1, s'.dropArc f, rfl, by rw [opened_dropArc]; exact hanswer⟩
    | some fd =>
      exact ⟨fd, (s'.setCloexecTo f true).dropArc f, rfl, by rw [opened_dropArc]; exact hanswer⟩

theorem doDup_some_cases (s : Descriptors) (t oldFd newFd : ℕ) :
    (s.doDup t oldFd (some newFd)).1 = -1 ∧
        (s.doDup t oldFd (some newFd)).2.opened t = s.opened t ∨
      newFd < (s.opened t).length ∧ (s.doDup t oldFd (some newFd)).1 = newFd ∧
        ∃ f, (s.doDup t oldFd (some newFd)).2.opened t = (s.opened t).set newFd (some f) := by
  unfold doDup getOpened
  cases s.slot t oldFd with
  | none => exact .inl ⟨rfl, rfl⟩
  | some f =>
    dsimp only
    rcases hset : (s.cloneOpt (some f)).setOpened t newFd (some f) with ⟨r, s'⟩
    have hcases := (s.cloneOpt (some f)).setOpened_cases t newFd (some f)
    rw [hset] at hcases
    simp only [opened_cloneOpt] at hcases
    rcases hcases with ⟨hlt, rfl, htable⟩ | ⟨-, rfl, htable⟩
    · exact .inr ⟨hlt, rfl, f, by rw [opened_dropOpt, htable]⟩
    · exact .inl ⟨rfl, htable⟩

theorem sysClose_cases (s : Descriptors) (t fd : ℕ) :
    (s.sysClose t fd).1 = -1 ∧ (s.sysClose t fd).2.opened t = s.opened t ∨
      (s.sysClose t fd).1 = 0 ∧ IsOpen (s.opened t) fd ∧
        (s.sysClose t fd).2.opened t = (s.opened t).set fd none := by
  unfold sysClose clearOpened
  rcases hset : s.setOpened t fd none with ⟨r, s'⟩
  have hcases := s.setOpened_cases t fd none
  rw [hset] at hcases
  simp only at hcases
  rcases hcases with ⟨hlt, rfl, htable⟩ | ⟨-, rfl, htable⟩
  · cases hslot : s.slot t fd with
    | none =>
      refine .inl ⟨rfl, ?_⟩
      rcases slot_eq_none_iff.mp hslot with hout | hnone
      · omega
      · rw [htable, set_none_self hnone]
    | some d =>
      refine .inr ⟨rfl, ⟨d, slot_eq_some_iff.mp hslot⟩, ?_⟩
      simp only [opened_dropArc]
      exact htable
  · exact .inl ⟨rfl, htable⟩

theorem freeFds_set {table : List (Option ℕ)} {i : ℕ} :
    freeFds (table.set i (some file)) 0 = freeFds table 0 \ {i} := by
  ext j
  rw [Set.mem_sdiff, mem_freeFds, mem_freeFds, Set.mem_singleton_iff, List.getElem?_set]
  by_cases hij : i = j
  · subst hij
    rw [if_pos rfl]
    split_ifs
    · simp
    · simp
  · rw [if_neg hij]
    simp [Ne.symm hij]

/-- Both ends of a pipe are opened, or the table stays. Either way the words are the
descriptor of the read end. -/
theorem sysPipe_cases (s : Descriptors) (t : ℕ) :
    (s.sysPipe t).1.1 = -1 ∧ (s.sysPipe t).2.opened t = s.opened t ∧
        (freeFds (s.opened t) 0).Subsingleton ∨
      (s.sysPipe t).1.1 = 0 ∧ ∃ r w read write, (s.sysPipe t).1.2 = (r, r) ∧
        IsLeast (freeFds (s.opened t) 0) r ∧ IsLeast (freeFds (s.opened t) 0 \ {r}) w ∧
        (s.sysPipe t).2.opened t = ((s.opened t).set r (some read)).set w (some write) := by
  unfold sysPipe
  rcases hnew : s.newPipe with ⟨⟨read, write⟩, s₁⟩
  have hopened : s₁.opened = s.opened := by
    have h := opened_newPipe s
    rwa [hnew] at h
  dsimp only
  have hread := s₁.allocFrom_cases t read 0
  rcases halloc : s₁.allocOpened t read with ⟨r, s₂⟩
  rw [allocOpened] at halloc
  rw [halloc, hopened] at hread
  rcases hread with ⟨i, rfl, hleast, htable⟩ | ⟨rfl, hfull, htable⟩
  · dsimp only at htable ⊢
    have hwrite := s₂.allocFrom_cases t write 0
    rcases halloc' : s₂.allocOpened t write with ⟨w, s₃⟩
    rw [allocOpened] at halloc'
    rw [halloc', htable, freeFds_set] at hwrite
    rcases hwrite with ⟨j, rfl, hleast', htable'⟩ | ⟨rfl, hfull, htable'⟩
    · exact .inr ⟨rfl, i, j, read, write, rfl, hleast, hleast', htable'⟩
    · refine .inl ⟨rfl, ?_, ?_⟩
      · dsimp only at htable' ⊢
        rw [opened_dropOpt, clearOpened]
        rcases s₃.setOpened_cases t i none with ⟨-, -, hset⟩ | ⟨hout, -, -⟩
        · rw [hset, htable', List.set_set, set_none_self (mem_freeFds.mp hleast.1).2]
        · obtain ⟨hlt, -⟩ := List.getElem?_eq_some_iff.mp (mem_freeFds.mp hleast.1).2
          rw [htable', List.length_set] at hout
          omega
      · rw [Set.sdiff_eq_empty] at hfull
        exact Set.subsingleton_singleton.anti hfull
  · refine .inl ⟨rfl, ?_, ?_⟩
    · dsimp only at htable ⊢
      rw [opened_dropArc, htable]
    · rw [hfull]
      exact Set.subsingleton_empty

end Calls

section Right

variable {c : FdCall}
  {table : List (Option ℕ)} {i : ℕ}

theorem Answers.right {table' : List (Option ℕ)} {start : ℕ} {ret : ℤ}
    (h : Answers table table' start ret) :
    (ret < 0 → table' = table) ∧ (0 ≤ ret → Allocates table table' start ret) := by
  rcases h with ⟨rfl, htable⟩ | hdone
  · exact ⟨fun _ => htable, fun hpos => absurd hpos (by decide)⟩
  · obtain ⟨fd, rfl, hrest⟩ := hdone
    exact ⟨fun hneg => by omega, fun _ => ⟨fd, rfl, hrest⟩⟩

theorem sameExcept_set {file : Option ℕ} :
    SameExcept {i} table (table.set i file) := by
  intro j hj
  exact List.getElem?_set_ne fun heq => hj heq.symm

theorem isOpen_set {f : ℕ} (hlt : i < table.length) :
    IsOpen (table.set i (some f)) i := ⟨f, List.getElem?_set_self hlt⟩

theorem doDup_some_right (hlen : (s.opened t).length = maxOpened) (oldFd newFd : BitVec 64) :
    s.CallRight t (.dup3 oldFd newFd) := by
  refine ⟨{ ret := (s.doDup t oldFd.toNat (some newFd.toNat)).1 },
    (s.doDup t oldFd.toNat (some newFd.toNat)).2, rfl, ?_⟩
  rcases s.doDup_some_cases t oldFd.toNat newFd.toNat with ⟨hret, htable⟩ | ⟨hlt, hret, f, htable⟩
  · rw [hret]
    exact ⟨fun _ => htable, fun hpos => absurd hpos (by decide)⟩
  · have hint : newFd.toInt = newFd.toNat := BitVec.toInt_eq_toNat_of_lt (by
      rw [hlen, maxOpened] at hlt
      omega)
    have hpos : ¬(newFd.toNat : ℤ) < 0 := by omega
    rw [hret]
    refine ⟨fun hneg => absurd hneg hpos, fun _ => ⟨hint.symm, ?_, ?_⟩⟩
    · rw [htable]
      exact isOpen_set hlt
    · rw [htable]
      exact sameExcept_set

theorem sysClose_right (s : Descriptors) (t : ℕ) (fd : BitVec 64) : s.CallRight t (.close fd) := by
  refine ⟨{ ret := (s.sysClose t fd.toNat).1 }, (s.sysClose t fd.toNat).2, rfl, ?_⟩
  rcases s.sysClose_cases t fd.toNat with ⟨hret, htable⟩ | ⟨hret, hopen, htable⟩
  · rw [hret]
    exact ⟨fun _ => htable, fun hpos => absurd hpos (by decide)⟩
  · refine ⟨fun hneg => absurd hneg (by rw [hret]; decide), fun _ => ⟨hopen, ?_, ?_⟩⟩
    · obtain ⟨d, hd⟩ := hopen
      obtain ⟨hlt, -⟩ := List.getElem?_eq_some_iff.mp hd
      rw [htable]
      exact List.getElem?_set_self hlt
    · rw [htable]
      exact sameExcept_set

theorem sysPipe_right_iff (s : Descriptors) (t : ℕ) :
    s.CallRight t .pipe ↔ ¬s.GivesPipe t .pipe := by
  rcases s.sysPipe_cases t with ⟨hret, htable, hfew⟩ | ⟨hret, r, w, _, _, hwords, hr, hw, -⟩
  · refine iff_of_true ⟨⟨(s.sysPipe t).1.1, (s.sysPipe t).1.2⟩, (s.sysPipe t).2, rfl, ?_⟩ ?_
    · rw [hret]
      exact ⟨fun _ => htable, fun hpos => absurd hpos (show ¬(0 : ℤ) ≤ -1 by decide)⟩
    · rintro ⟨i, j, hne, hi, hj⟩
      exact hne (hfew hi hj)
  · refine iff_of_false ?_ ?_
    · rintro ⟨a, s', hrun, -, hdone⟩
      have ha : (⟨(s.sysPipe t).1.1, (s.sysPipe t).1.2⟩, (s.sysPipe t).2) = (a, s') :=
        Except.ok.inj hrun
      rw [hret, hwords, Prod.mk.injEq] at ha
      obtain ⟨rfl, -⟩ := ha
      exact (hdone le_rfl).2.1.1.2 rfl
    · exact fun hnot => hnot ⟨r, w, fun heq => hw.1.2 heq.symm, hr.1, hw.1.1⟩

/-- Every call is right except a pipe for which there are two free descriptors. -/
theorem callRight_iff (hlen : (s.opened t).length = maxOpened) (c : FdCall) :
    s.CallRight t c ↔ ¬s.GivesPipe t c := by
  cases c with
  | openat dirfd found flags =>
    exact iff_of_true ⟨_, _, rfl, (s.sysOpenat_answers t _ found flags).right⟩ not_false
  | dup oldFd => exact iff_of_true ⟨_, _, rfl, (s.doDup_answers t oldFd.toNat).right⟩ not_false
  | dup3 oldFd newFd => exact iff_of_true (doDup_some_right hlen oldFd newFd) not_false
  | dupfd fd arg =>
    obtain ⟨ret, s', hrun, hanswer⟩ := s.sysFcntl_dupfd_answers t fd.toNat arg.toNat
    refine iff_of_true ⟨{ ret }, s', ?_, hanswer.right⟩ not_false
    rw [fdCall, hrun]
    rfl
  | dupfdCloexec fd arg =>
    obtain ⟨ret, s', hrun, hanswer⟩ := s.sysFcntl_dupfdCloexec_answers t fd.toNat arg.toNat
    refine iff_of_true ⟨{ ret }, s', ?_, hanswer.right⟩ not_false
    rw [fdCall, hrun]
    rfl
  | close fd => exact iff_of_true (s.sysClose_right t fd) not_false
  | pipe => exact s.sysPipe_right_iff t

end Right

section Runs

variable {table table' : List (Option ℕ)}

theorem SameExcept.length_eq {fds : Set ℕ} (h : SameExcept fds table table')
    (hin : ∀ i ∈ fds, i < table.length ∧ i < table'.length) :
    table'.length = table.length := by
  have hiff : ∀ i, i < table'.length ↔ i < table.length := by
    intro i
    by_cases hi : i ∈ fds
    · exact iff_of_true (hin i hi).2 (hin i hi).1
    · rw [← not_le, ← not_le, ← List.getElem?_eq_none_iff, ← List.getElem?_eq_none_iff, h i hi]
  have hle := hiff table.length
  have hge := hiff table'.length
  omega

theorem Answers.length_eq {start : ℕ} {ret : ℤ} (h : Answers table table' start ret) :
    table'.length = table.length := by
  rcases h with ⟨-, rfl⟩ | ⟨fd, -, hleast, ⟨d, hd⟩, hsame⟩
  · rfl
  · refine SameExcept.length_eq hsame ?_
    rintro i rfl
    exact ⟨(List.getElem?_eq_some_iff.mp hleast.1.2).choose,
      (List.getElem?_eq_some_iff.mp hd).choose⟩

theorem fdCall_length {c : FdCall} {a : FdAnswer} {s' : Descriptors}
    (h : s.fdCall t c = .ok (a, s')) : (s'.opened t).length = (s.opened t).length := by
  cases c with
  | openat dirfd found flags =>
    cases h
    exact (s.sysOpenat_answers t _ found flags).length_eq
  | dup oldFd =>
    cases h
    exact (s.doDup_answers t oldFd.toNat).length_eq
  | dup3 oldFd newFd =>
    cases h
    rcases s.doDup_some_cases t oldFd.toNat newFd.toNat with ⟨-, htable⟩ | ⟨-, -, f, htable⟩
    · exact congrArg List.length htable
    · exact (congrArg List.length htable).trans (List.length_set ..)
  | dupfd fd arg =>
    obtain ⟨ret, s'', hrun, hanswer⟩ := s.sysFcntl_dupfd_answers t fd.toNat arg.toNat
    rw [fdCall, hrun] at h
    cases h
    exact hanswer.length_eq
  | dupfdCloexec fd arg =>
    obtain ⟨ret, s'', hrun, hanswer⟩ := s.sysFcntl_dupfdCloexec_answers t fd.toNat arg.toNat
    rw [fdCall, hrun] at h
    cases h
    exact hanswer.length_eq
  | close fd =>
    cases h
    rcases s.sysClose_cases t fd.toNat with ⟨-, htable⟩ | ⟨-, -, htable⟩
    · exact congrArg List.length htable
    · exact (congrArg List.length htable).trans (List.length_set ..)
  | pipe =>
    cases h
    rcases s.sysPipe_cases t with ⟨-, htable, -⟩ | ⟨-, r, w, _, _, -, -, -, htable⟩
    · exact congrArg List.length htable
    · exact (congrArg List.length htable).trans (by rw [List.length_set, List.length_set])

def FdStep (t : ℕ) (s : Descriptors) (c : FdCall) (s' : Descriptors) : Prop :=
  ∃ a, s.fdCall t c = .ok (a, s')

/-- In every sequence of calls the table keeps its length, and the calls are all right exactly
when none of them is a pipe for which there are two free descriptors. -/
theorem fdCalls_right_iff (hlen : (s.opened t).length = maxOpened) {r : List (FdCall × Descriptors)}
    (hrun : Trace.IsRun (FdStep t) s r) :
    (∀ u ∈ Trace.states s r, (u.opened t).length = maxOpened) ∧
      ((∀ x ∈ Trace.steps s r, x.1.CallRight t x.2) ↔
        ∀ x ∈ Trace.steps s r, ¬x.1.GivesPipe t x.2) := by
  have hall : ∀ u ∈ Trace.states s r, (u.opened t).length = maxOpened := by
    refine Trace.invariant (fun u => (u.opened t).length = maxOpened) ?_ hlen hrun
    rintro u c u' hu ⟨a, hcall⟩
    rw [fdCall_length hcall, hu]
  refine ⟨hall, forall₂_congr fun x hx => ?_⟩
  exact callRight_iff (hall x.1 (Trace.step_of_mem_steps hrun hx).1) x.2

def fdNext (t : ℕ) (s : Descriptors) (c : FdCall) : Descriptors :=
  match s.fdCall t c with
  | .ok (_, s') => s'
  | .error _ => s

theorem fdCall_returns (s : Descriptors) (t : ℕ) (c : FdCall) : ∃ r, s.fdCall t c = .ok r := by
  cases c with
  | dupfd fd arg =>
    obtain ⟨ret, s', hrun, -⟩ := s.sysFcntl_dupfd_answers t fd.toNat arg.toNat
    exact ⟨({ ret }, s'), by rw [fdCall, hrun]; rfl⟩
  | dupfdCloexec fd arg =>
    obtain ⟨ret, s', hrun, -⟩ := s.sysFcntl_dupfdCloexec_answers t fd.toNat arg.toNat
    exact ⟨({ ret }, s'), by rw [fdCall, hrun]; rfl⟩
  | _ => exact ⟨_, rfl⟩

theorem fdStep_fdNext (s : Descriptors) (t : ℕ) (c : FdCall) : FdStep t s c (fdNext t s c) := by
  obtain ⟨⟨a, s'⟩, hrun⟩ := s.fdCall_returns t c
  refine ⟨a, ?_⟩
  rw [fdNext, hrun]

/-- A user task opens a file, puts it elsewhere and closes what it does not have. -/
def openAndMove : List FdCall := [.openat (-100) (some 0) .O_RDONLY, .dup3 3 5, .close (-1)]

theorem fdCalls_right_iff_openAndMove :
    Trace.IsRun (FdStep 1) boot.createUserTask
        (Trace.record (fdNext 1) boot.createUserTask openAndMove) ∧
      ∀ x ∈ Trace.steps boot.createUserTask
        (Trace.record (fdNext 1) boot.createUserTask openAndMove), x.1.CallRight 1 x.2 := by
  have hrun : Trace.IsRun (FdStep 1) boot.createUserTask
      (Trace.record (fdNext 1) boot.createUserTask openAndMove) :=
    Trace.isRun_record fun x _ => fdStep_fdNext x.1 1 x.2
  refine ⟨hrun, (fdCalls_right_iff rfl hrun).2.mpr ?_⟩
  simp [Trace.steps, Trace.record, openAndMove, GivesPipe]

/-- A new user task makes a pipe. Its descriptors are 3 and 4, and it is told 3 twice. -/
theorem sysPipe_tells_read_end_twice :
    (boot.createUserTask.sysPipe 1).1 = (0, 3, 3) ∧
      (boot.createUserTask.opened 1)[4]? = some none ∧
      ((boot.createUserTask.sysPipe 1).2.opened 1)[4]? = some (some 4) ∧
      ¬boot.createUserTask.CallRight 1 .pipe := by
  refine ⟨rfl, rfl, rfl, ?_⟩
  rw [sysPipe_right_iff, not_not]
  exact ⟨3, 4, by decide, ⟨Nat.zero_le _, rfl⟩, ⟨Nat.zero_le _, rfl⟩⟩

end Runs

end Descriptors

end Zinix
