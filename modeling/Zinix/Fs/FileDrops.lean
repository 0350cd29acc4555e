import Zinix.Fs.FdTable
import Zinix.Fs.FileCalls

/-!
# Which open files a call drops

An open file without a reference stays without one, so that its inode is given up once and
the handles to an inode stay those of its open files.
-/

namespace Zinix

namespace Descriptors

variable {s s' s'' : Descriptors} {t d : ℕ}

/-- No open file gets a reference again, and those that are new have no inode. -/
structure Keeps (s s' : Descriptors) : Prop where
  dfileCnt : s.dfileCnt ≤ s'.dfileCnt
  cloneInode : ∀ d < s.dfileCnt, (s'.dfiles d).cloneInode = (s.dfiles d).cloneInode
  strong : ∀ d < s.dfileCnt, 0 < s'.strong d → 0 < s.strong d
  fresh : ∀ d, s.dfileCnt ≤ d → d < s'.dfileCnt → (s'.dfiles d).cloneInode = none

theorem Keeps.refl (s : Descriptors) : s.Keeps s :=
  ⟨le_rfl, fun _ _ => rfl, fun _ _ h => h, fun _ hle hlt => absurd hlt (Nat.not_lt.mpr hle)⟩

theorem Keeps.trans (h : s.Keeps s') (h' : s'.Keeps s'') : s.Keeps s'' where
  dfileCnt := h.dfileCnt.trans h'.dfileCnt
  cloneInode := fun d hd => (h'.cloneInode d (hd.trans_le h.dfileCnt)).trans (h.cloneInode d hd)
  strong := fun d hd hpos => h.strong d hd (h'.strong d (hd.trans_le h.dfileCnt) hpos)
  fresh := fun d hle hlt => by
    by_cases hd : d < s'.dfileCnt
    · rw [h'.cloneInode d hd, h.fresh d hle hd]
    · exact h'.fresh d (Nat.not_lt.mp hd) hlt

@[simp] theorem strong_dropArc (s : Descriptors) (d : ℕ) :
    (s.dropArc d).strong = replaceAt s.strong d (s.strong d - 1) := by
  unfold dropArc dropDFile
  dsimp only
  repeat' split
  all_goals rfl

theorem Keeps.of_strong (h : s.Keeps s') (hcnt : s''.dfileCnt = s'.dfileCnt)
    (hdfiles : s''.dfiles = s'.dfiles) (hstrong : ∀ d, 0 < s''.strong d → 0 < s'.strong d) :
    s.Keeps s'' :=
  h.trans ⟨hcnt.ge, fun d _ => by rw [hdfiles], fun d _ => hstrong d,
    fun d hle hlt => absurd hlt (by omega)⟩

theorem Keeps.dropArc (h : s.Keeps s') (d : ℕ) : s.Keeps (s'.dropArc d) := by
  obtain ⟨strong, pipes, heq⟩ := s'.dropArc_eq d
  have hstrong := s'.strong_dropArc d
  rw [heq] at hstrong ⊢
  refine h.of_strong rfl rfl fun e he => ?_
  rw [hstrong, replaceAt_apply] at he
  split_ifs at he with hed
  · rw [hed]
    omega
  · exact he

theorem Keeps.dropOpt (h : s.Keeps s') (file : Option ℕ) : s.Keeps (s'.dropOpt file) := by
  cases file with
  | none => exact h
  | some d => exact h.dropArc d

theorem Keeps.cloneOpt (h : s.Keeps s') {file : Option ℕ} (hfile : ∀ d ∈ file, 0 < s'.strong d) :
    s.Keeps (s'.cloneOpt file) := by
  cases file with
  | none => exact h
  | some d =>
    refine h.of_strong rfl rfl fun e he => ?_
    change 0 < replaceAt s'.strong d (s'.strong d + 1) e at he
    rw [replaceAt_apply] at he
    split_ifs at he with hed
    · rw [hed]
      exact hfile d rfl
    · exact he

theorem Keeps.setSlot (h : s.Keeps s') (t fd : ℕ) (file : Option ℕ) :
    s.Keeps (s'.setSlot t fd file) :=
  h.of_strong rfl rfl fun _ he => he

theorem Keeps.setOpened (h : s.Keeps s') {fd : ℕ} (hslot : ∀ d ∈ s'.slot t fd, 0 < s'.strong d)
    (file : Option ℕ) : s.Keeps (s'.setOpened t fd file).2 := by
  unfold Descriptors.setOpened
  split_ifs
  · exact ((h.cloneOpt hslot).setSlot t fd file).dropOpt _
  · exact h.dropOpt file

theorem keeps_sysClose (hs : s.Sound 0) (t fd : ℕ) : s.Keeps (s.sysClose t fd).2 := by
  have hset := (Keeps.refl s).setOpened (hs.strong_slot t fd) none
  unfold sysClose clearOpened
  rcases hr : s.setOpened t fd none with ⟨r, s'⟩
  rw [hr] at hset
  match r with
  | some (some d) => exact hset.dropArc d
  | some none => exact hset
  | none => exact hset

theorem keeps_doDup (hs : s.Sound 0) (t oldFd : ℕ) (newFd : Option ℕ) :
    s.Keeps (s.doDup t oldFd newFd).2 := by
  have hclone : s.Keeps (s.cloneOpt (s.slot t oldFd)) :=
    (Keeps.refl s).cloneOpt (hs.strong_slot t oldFd)
  unfold doDup getOpened
  cases hslot : s.slot t oldFd with
  | none => exact Keeps.refl s
  | some f =>
    rw [hslot] at hclone
    cases newFd with
    | none =>
      dsimp only
      unfold allocOpened allocFrom
      cases (s.cloneOpt (some f)).freeSlot t 0 with
      | none => exact hclone.dropArc f
      | some i => exact hclone.setSlot t i (some f)
    | some newfd =>
      have hold : ∀ d ∈ (s.cloneOpt (some f)).slot t newfd, 0 < (s.cloneOpt (some f)).strong d := by
        intro d hd
        rw [slot_cloneOpt] at hd
        exact (hs.strong_slot t newfd d hd).trans_le (strong_cloneOpt_le (some f) d)
      have hset := hclone.setOpened hold (some f)
      dsimp only
      rcases hr : (s.cloneOpt (some f)).setOpened t newfd (some f) with ⟨r, s'⟩
      rw [hr] at hset
      cases r with
      | none => exact hset
      | some old => exact hset.dropOpt old

theorem Keeps.newTerminal (h : s.Keeps s') (ttype : TerminalType) (flags : OpenFlags) :
    s.Keeps (s'.newDFile ⟨.classTerminal ttype, flags, false⟩).2 := by
  refine h.trans ⟨Nat.le_succ _, fun d hd => ?_, fun d hd hpos => ?_, fun d hle hlt => ?_⟩
  · show DFile.cloneInode (replaceAt s'.dfiles s'.dfileCnt _ d) = _
    rw [replaceAt_of_ne hd.ne]
  · change 0 < replaceAt s'.strong s'.dfileCnt 1 d at hpos
    rwa [replaceAt_of_ne hd.ne] at hpos
  · have hd : d = s'.dfileCnt := hle.antisymm' (Nat.le_of_lt_succ hlt)
    show DFile.cloneInode (replaceAt s'.dfiles s'.dfileCnt _ d) = none
    rw [hd, replaceAt_self]
    rfl

theorem keeps_createUserTask (s : Descriptors) : s.Keeps s.createUserTask :=
  ((((Keeps.refl s).newTerminal .stdin .O_RDONLY).newTerminal .stdout .O_WRONLY).newTerminal
    .stderr .O_WRONLY).of_strong rfl rfl fun _ h => h

theorem keeps_fork (hs : s.Sound 0) (t : ℕ) : s.Keeps (s.fork t) := by
  have hall : ∀ (opened : List (Option ℕ)) (s' : Descriptors), s.Keeps s' →
      (∀ d, some d ∈ opened → 0 < s'.strong d) →
      s.Keeps (opened.foldl Descriptors.cloneOpt s') := by
    intro opened
    induction opened with
    | nil => exact fun _ h _ => h
    | cons file rest ih =>
      intro s' h hfile
      refine ih _ (h.cloneOpt fun d hd => hfile d (by simp [Option.mem_def.mp hd])) fun d hd => ?_
      exact (hfile d (List.mem_cons_of_mem _ hd)).trans_le (strong_cloneOpt_le file d)
  exact (hall (s.opened t) s (Keeps.refl s) fun d hd => hs.strong_pos_of_mem hd).of_strong rfl rfl
    fun _ h => h

/-- What `sys_openat` does to the open files: there is a new one, with a reference if the
call has found a descriptor for it. -/
structure Opens (i : ℕ) (s : Descriptors) (ret : ℤ) (s' : Descriptors) : Prop where
  dfileCnt : s'.dfileCnt = s.dfileCnt + 1
  cloneInode : ∀ d, (s'.dfiles d).cloneInode =
    if d = s.dfileCnt then some i else (s.dfiles d).cloneInode
  strong : ∀ d, s'.strong d =
    if d = s.dfileCnt then (if ret < 0 then 0 else 1) else s.strong d

theorem cloneInode_newInode (s : Descriptors) (i : ℕ) (flags : OpenFlags) (d : ℕ) :
    ((s.newDFile ⟨.classInode i, flags, false⟩).2.dfiles d).cloneInode =
      if d = s.dfileCnt then some i else (s.dfiles d).cloneInode := by
  show DFile.cloneInode (replaceAt s.dfiles s.dfileCnt _ d) = _
  rw [replaceAt_apply]
  split_ifs <;> rfl

theorem opens_openFound (s : Descriptors) (t i : ℕ) (flags : OpenFlags) :
    Opens i s (s.openFound t (some i) flags).1 (s.openFound t (some i) flags).2 := by
  cases hfree : (s.newDFile ⟨.classInode i, flags, false⟩).2.freeSlot t 0 with
  | none =>
    have heq : s.openFound t (some i) flags =
        (-1, (s.newDFile ⟨.classInode i, flags, false⟩).2.dropArc s.dfileCnt) := by
      simp only [openFound, allocOpened, allocFrom, hfree]
      rfl
    obtain ⟨strong, pipes, hdrop⟩ :=
      (s.newDFile ⟨.classInode i, flags, false⟩).2.dropArc_eq s.dfileCnt
    have hstrong := (s.newDFile ⟨.classInode i, flags, false⟩).2.strong_dropArc s.dfileCnt
    rw [heq]
    refine ⟨by rw [hdrop]; rfl, by rw [hdrop]; exact s.cloneInode_newInode i flags, fun d => ?_⟩
    rw [hstrong]
    by_cases hd : d = s.dfileCnt
    · simp [hd, newDFile]
    · simp [hd, newDFile, replaceAt_of_ne]
  | some fd =>
    have heq : s.openFound t (some i) flags =
        ((fd : ℤ),
          (s.newDFile ⟨.classInode i, flags, false⟩).2.setSlot t fd (some s.dfileCnt)) := by
      simp only [openFound, allocOpened, allocFrom, hfree]
      rfl
    rw [heq]
    refine ⟨rfl, s.cloneInode_newInode i flags, fun d => ?_⟩
    have hret : ¬(fd : ℤ) < 0 := by omega
    simp [setSlot, newDFile, replaceAt_apply, hret]

theorem opens_sysOpenat (hs : s.Sound 0) {dirfd : Option ℕ}
    (hdir : ∀ fd ∈ dirfd, (s.slot t fd).isSome) (i : ℕ) (flags : OpenFlags) :
    Opens i s (s.sysOpenat t dirfd (some i) flags).1 (s.sysOpenat t dirfd (some i) flags).2 := by
  cases dirfd with
  | none => exact s.opens_openFound t i flags
  | some fd =>
    obtain ⟨dir, hslot⟩ := Option.isSome_iff_exists.mp (hdir fd rfl)
    have hlt : dir < s.dfileCnt := hs.old dir (hs.strong_slot t fd dir hslot)
    have heq : s.sysOpenat t (some fd) (some i) flags =
        (((s.cloneArc dir).openFound t (some i) flags).1,
          ((s.cloneArc dir).openFound t (some i) flags).2.dropArc dir) := by
      simp only [sysOpenat, getOpened, hslot]
      rfl
    have hopen := (s.cloneArc dir).opens_openFound t i flags
    obtain ⟨strong, pipes, hdrop⟩ :=
      ((s.cloneArc dir).openFound t (some i) flags).2.dropArc_eq dir
    have hstrong := ((s.cloneArc dir).openFound t (some i) flags).2.strong_dropArc dir
    rw [heq]
    refine ⟨by rw [hdrop]; exact hopen.dfileCnt, by rw [hdrop]; exact hopen.cloneInode,
      fun d => ?_⟩
    -- the reference to the directory that the call takes is given back
    have hnew := hopen.strong d
    rw [hstrong]
    by_cases hd : d = dir
    · subst hd
      rw [if_neg (show d ≠ (s.cloneArc d).dfileCnt from hlt.ne)] at hnew
      rw [replaceAt_self, hnew, if_neg hlt.ne]
      show replaceAt s.strong d (s.strong d + 1) d - 1 = s.strong d
      rw [replaceAt_self, Nat.add_sub_cancel]
    · rw [replaceAt_of_ne hd, hnew]
      show (if d = s.dfileCnt then _ else replaceAt s.strong dir (s.strong dir + 1) d) = _
      rw [replaceAt_of_ne hd]

end Descriptors

namespace FileWorld

variable {s s' : Descriptors} {i : ℕ}

/-- The open files of an inode are those that are left and those that are to be dropped. -/
theorem openers_of_keeps (h : s.Keeps s') (j : ℕ) :
    openers s j = openers s' j + (((List.range s.dfileCnt).filter fun d =>
      decide (0 < s.strong d) && decide (s'.strong d = 0)).filterMap
        fun d => (s'.dfiles d).cloneInode).count j := by
  have hsplit : ∀ ds : List ℕ, (∀ d ∈ ds, d < s.dfileCnt) →
      (ds.countP fun d => decide (0 < s.strong d) && (s.dfiles d).cloneInode == some j) =
        (ds.countP fun d => decide (0 < s'.strong d) && (s'.dfiles d).cloneInode == some j) +
        ((ds.filter fun d => decide (0 < s.strong d) && decide (s'.strong d = 0)).filterMap
          fun d => (s'.dfiles d).cloneInode).count j := by
    intro ds hds
    induction ds with
    | nil => rfl
    | cons d ds ih =>
      have hd : d < s.dfileCnt := hds d (List.mem_cons_self ..)
      have hkeep := h.cloneInode d hd
      have hstrong := h.strong d hd
      rw [List.countP_cons, List.countP_cons, ih fun e he => hds e (List.mem_cons_of_mem _ he),
        List.filter_cons, hkeep]
      by_cases hleft : 0 < s'.strong d
      · simp only [hstrong hleft, hleft, hleft.ne']
        simp [Nat.add_right_comm]
      · by_cases hpos : 0 < s.strong d
        · cases hinode : (s.dfiles d).cloneInode with
          | none => simp [hkeep, hinode, hpos, Nat.eq_zero_of_not_pos hleft]
          | some c =>
            simp [hkeep, hinode, hpos, Nat.eq_zero_of_not_pos hleft, List.count_cons, Nat.add_assoc]
        · simp [hpos, hleft]
  obtain ⟨n, hn⟩ := Nat.exists_eq_add_of_le h.dfileCnt
  have hnew : ((List.range n).map (s.dfileCnt + ·)).countP (fun d =>
      decide (0 < s'.strong d) && (s'.dfiles d).cloneInode == some j) = 0 := by
    refine List.countP_eq_zero.mpr fun d hd => ?_
    obtain ⟨k, hk, rfl⟩ := List.mem_map.mp hd
    have hfresh := h.fresh (s.dfileCnt + k) (Nat.le_add_right ..) (by
      rw [hn]
      exact Nat.add_lt_add_left (List.mem_range.mp hk) _)
    simp [hfresh]
  have hopeners : openers s' j = (List.range s.dfileCnt).countP fun d =>
      decide (0 < s'.strong d) && (s'.dfiles d).cloneInode == some j := by
    rw [openers, hn, List.range_add, List.countP_append, hnew, Nat.add_zero]
  rw [hopeners, openers]
  exact hsplit _ fun d hd => List.mem_range.mp hd

theorem openers_of_opens {ret : ℤ} (h : Descriptors.Opens i s ret s') (j : ℕ) :
    openers s' j = openers s j + if 0 ≤ ret ∧ i = j then 1 else 0 := by
  have hold : (List.range s.dfileCnt).countP (fun d =>
      decide (0 < s'.strong d) && (s'.dfiles d).cloneInode == some j) = openers s j := by
    refine List.countP_congr fun d hd => ?_
    have hne : d ≠ s.dfileCnt := (List.mem_range.mp hd).ne
    rw [h.strong, h.cloneInode, if_neg hne, if_neg hne]
  rw [openers, h.dfileCnt, List.range_succ, List.countP_append, hold, List.countP_singleton,
    h.strong, h.cloneInode, if_pos rfl, if_pos rfl]
  by_cases hret : ret < 0
  · simp [hret, not_le.mpr hret]
  · simp [hret, not_lt.mp hret]

section Calls

variable {disk : Disk} {ident : List String → ℕ} {held : List ℕ} {w w' : FileWorld} {t : ℕ}
  {dirfd : Option ℕ} {path : String}
  {files : Descriptors} {flags : OpenFlags} {ret : ℤ}

/-- A call that has looked a path up holds a handle to the inode that it has found. -/
theorem Consistent.lookedUp (ident : List String → ℕ) (hw : w.Consistent disk [])
    (hi : w.inodes.live i = true) (path : String) :
    ∃ found inodes, w.inodes.getNodeByPath (InodeTable.dentriesOf disk) i path =
        .ok (found, inodes) ∧
      InodeTable.Looked disk w.inodes inodes ∧
      (w.lookedUp ident inodes).Consistent disk found.toList ∧
      found.map inodes.place = disk.lookup (w.inodes.place i) (components path) := by
  obtain ⟨found, inodes, hfound, hlooked, hplace, hhandles⟩ :=
    InodeTable.getNodeByPath_spec hw.inodes hw.agrees hi path
  refine ⟨found, inodes, hfound, hlooked,
    ⟨hlooked.sound, hlooked.agrees, hw.files, fun j => ?_⟩, hplace⟩
  show inodes.handles j = openers w.files j + found.toList.count j
  rw [hhandles, hw.handles]
  cases found with
  | none => simp
  | some c => simp [List.count_singleton]

@[simp] theorem inodes_dropInode (w : FileWorld) (ident : List String → ℕ) (i : ℕ) :
    (w.dropInode ident i).inodes = w.inodes.drop i := rfl

@[simp] theorem files_dropInode (w : FileWorld) (ident : List String → ℕ) (i : ℕ) :
    (w.dropInode ident i).files = w.files := by
  rw [dropInode]
  split_ifs <;> rfl

theorem Consistent.dropInode (hw : w.Consistent disk (i :: held)) :
    (w.dropInode ident i).Consistent disk held := by
  have hhandle : 0 < w.inodes.handles i := by
    rw [hw.handles]
    simp
  refine ⟨hw.inodes.drop hhandle, hw.agrees.drop hw.inodes i, ?_, fun j => ?_⟩
  · rw [files_dropInode]
    exact hw.files
  · rw [files_dropInode]
    show replaceAt w.inodes.handles i (w.inodes.handles i - 1) j = _
    have hcount := hw.handles j
    rw [List.count_cons] at hcount
    rw [replaceAt_apply]
    split_ifs with hji
    · subst hji
      rw [if_pos (beq_self_eq_true j)] at hcount
      omega
    · rw [if_neg (by simpa using Ne.symm hji)] at hcount
      omega

/-- The handles of the open files that a call drops are still held after the call. -/
theorem Consistent.setFiles (hw : w.Consistent disk []) (hkeep : w.files.Keeps files)
    (hfiles : files.Sound 0) :
    ({ w with files := files } : FileWorld).Consistent disk
      (((List.range w.files.dfileCnt).filter fun d =>
        decide (0 < w.files.strong d) && decide (files.strong d = 0)).filterMap
          fun d => (files.dfiles d).cloneInode) :=
  { hw with
    files := hfiles
    handles := fun j => by
      rw [hw.handles, List.count_nil, Nat.add_zero, openers_of_keeps hkeep] }

theorem Consistent.dropFiles (ds : List ℕ)
    (hw : w.Consistent disk (ds.filterMap fun d => (w.files.dfiles d).cloneInode)) :
    (ds.foldl (fun w d => w.dropFile ident d) w).Consistent disk [] := by
  induction ds generalizing w with
  | nil => exact hw
  | cons d ds ih =>
    rw [List.filterMap_cons] at hw
    rw [List.foldl_cons, dropFile]
    cases hinode : (w.files.dfiles d).cloneInode with
    | none =>
      rw [hinode] at hw
      exact ih hw
    | some i =>
      rw [hinode] at hw
      refine ih ?_
      rw [files_dropInode]
      exact hw.dropInode

theorem Consistent.withFiles (hw : w.Consistent disk []) (hkeep : w.files.Keeps files)
    (hfiles : files.Sound 0) :
    (w.withFiles ident files).Consistent disk [] :=
  (hw.setFiles hkeep hfiles).dropFiles _

theorem Consistent.openPath (ident : List String → ℕ) (hw : w.Consistent disk [])
    (t : ℕ) (dirfd : Option ℕ) (path : String) :
    ∃ found w₁, w.openPath disk ident t dirfd path = .ok (found, w₁) ∧
      w₁.Consistent disk found.toList ∧ w₁.files = w.files ∧
      found.map w₁.inodes.place = (w.dirInode t dirfd).bind fun i =>
        disk.lookup (w.inodes.place i) (components path) := by
  cases hi : w.dirInode t dirfd with
  | none => exact ⟨none, w, by rw [FileWorld.openPath, hi]; rfl, hw, rfl, rfl⟩
  | some i =>
    obtain ⟨found, inodes, hfound, -, hcons, hplace⟩ := hw.lookedUp ident (hw.live_dirInode hi) path
    refine ⟨found, w.lookedUp ident inodes, ?_, hcons, rfl, hplace⟩
    rw [FileWorld.openPath, hi]
    simp [hfound]

/-- If the path leads somewhere there is a new open file, which is dropped if there is no
descriptor left for it. -/
theorem sysOpenat_cases (hw : w.Consistent disk [])
    (hret : w.sysOpenat disk ident t dirfd path flags = .ok (ret, w')) :
    ∃ found w₁, w.openPath disk ident t dirfd path = .ok (found, w₁) ∧
      (found = none ∧ w' = w₁ ∨ ∃ i files, found = some i ∧
        (({ w₁ with files := files } : FileWorld).Consistent disk [i] ∧
            w' = ({ w₁ with files := files } : FileWorld).dropInode ident i ∨
          ({ w₁ with files := files } : FileWorld).Consistent disk [] ∧
            w' = { w₁ with files := files, pos := replaceAt w₁.pos w₁.files.dfileCnt 0 })) := by
  obtain ⟨found, w₁, hopen, hcons, hfiles, hplace⟩ := hw.openPath ident t dirfd path
  rw [FileWorld.sysOpenat, hopen] at hret
  refine ⟨found, w₁, hopen, ?_⟩
  cases found with
  | none =>
    cases hret
    exact .inl ⟨rfl, rfl⟩
  | some i =>
    have hdir : ∀ fd ∈ dirfd, (w₁.files.slot t fd).isSome := by
      rintro fd rfl
      rw [hfiles]
      cases hslot : w.files.slot t fd with
      | none =>
        rw [dirInode, hslot] at hplace
        cases hplace
      | some d => rfl
    have hopens := Descriptors.opens_sysOpenat hcons.files hdir i flags
    have hsound := ((hcons.files.start t).sysOpenat dirfd (some i) flags).sound
    rcases hcall : w₁.files.sysOpenat t dirfd (some i) flags with ⟨r, files⟩
    rw [hcall] at hopens hsound
    simp only [Checked.ok_bind, hcall] at hret
    have hset : ∀ held : List ℕ, (∀ j, held.count j + (if 0 ≤ r ∧ i = j then 1 else 0) =
        [i].count j) → ({ w₁ with files := files } : FileWorld).Consistent disk held :=
      fun held hheld =>
        { hcons with
          files := hsound
          handles := fun j => by
            have hcount := hheld j
            rw [hcons.handles, openers_of_opens hopens]
            simp only [Option.toList_some]
            omega }
    refine .inr ⟨i, files, rfl, ?_⟩
    by_cases hneg : r < 0
    · rw [if_pos hneg] at hret
      cases hret
      exact .inl ⟨hset [i] fun j => by rw [if_neg fun h => absurd h.1 (by omega)]; rfl, rfl⟩
    · rw [if_neg hneg] at hret
      cases hret
      exact .inr ⟨hset [] fun j => by simp [not_lt.mp hneg, List.count_singleton], rfl⟩

theorem Consistent.sysOpenat (hw : w.Consistent disk [])
    (hret : w.sysOpenat disk ident t dirfd path flags = .ok (ret, w')) :
    w'.Consistent disk [] := by
  obtain ⟨found, w₁, hopen, hcons, -⟩ := hw.openPath ident t dirfd path
  obtain ⟨found', w₁', hopen', hcase⟩ := sysOpenat_cases hw hret
  rw [hopen] at hopen'
  cases hopen'
  obtain ⟨rfl, rfl⟩ | ⟨i, files, rfl, ⟨hheld, rfl⟩ | ⟨hend, rfl⟩⟩ := hcase
  · exact hcons
  · exact hheld.dropInode
  · exact { hend with }

end Calls

end FileWorld

end Zinix
