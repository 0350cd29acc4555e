import Zinix.Fs.FileDrops

/-!
# Where the calls look for a path

`get_node_by_path` walks the names of a path from the directory that the call is given,
whether the path begins with a slash or not.
-/

namespace Zinix

def isAbsolute (path : String) : Bool := path.toList.head? == some '/'

namespace InodeTable

variable {disk : Disk} {s : InodeTable} {i : ℕ}

/-- The inode that a path leads to from another one, with its place. -/
def reached (disk : Disk) (s : InodeTable) (i : ℕ) (path : String) :
    Checked (Option (ℕ × List String)) := do
  let (found, s) ← s.getNodeByPath (dentriesOf disk) i path
  return found.map fun j => (j, s.place j)

theorem reached_spec (hs : s.Sound) (ha : s.Agrees disk) (hi : s.live i = true)
    (path : String) :
    ∃ r, s.reached disk i path = .ok r ∧
      r.map Prod.snd = disk.lookup (s.place i) (components path) := by
  obtain ⟨found, t, hfound, -, hplace, -⟩ := getNodeByPath_spec hs ha hi path
  refine ⟨found.map fun j => (j, t.place j), by simp [reached, hfound], ?_⟩
  rw [← hplace, Option.map_map]
  rfl

/-- From an inode other than the root a path only leads where it leads from the root if it
leads nowhere from either. -/
theorem reached_eq_root_iff (hs : s.Sound) (ha : s.Agrees disk) (hi : s.live i = true)
    (path : String) :
    s.reached disk i path = s.reached disk 0 path ↔
      i = 0 ∨ disk.lookup (s.place i) (components path) = none ∧
        disk.lookup [] (components path) = none := by
  obtain ⟨r, hr, hplace⟩ := reached_spec hs ha hi path
  obtain ⟨r₀, hr₀, hplace₀⟩ := reached_spec hs ha hs.live_root path
  rw [hs.place_root] at hplace₀
  constructor
  · intro heq
    rw [hr, hr₀, Except.ok.injEq] at heq
    subst heq
    cases r with
    | none => exact .inr ⟨hplace.symm, hplace₀.symm⟩
    | some q =>
      -- one inode has one place, so both walks have begun at the same one
      have hnames := disk.lookup_eq_some hplace.symm
      have hnames₀ := disk.lookup_eq_some hplace₀.symm
      rw [hnames] at hnames₀
      exact .inl ((hs.place_eq_nil_iff hi).mp (List.append_cancel_right hnames₀))
  · rintro (rfl | ⟨hnone, hnone₀⟩)
    · rfl
    · rw [hnone, Option.map_eq_none_iff] at hplace
      rw [hnone₀, Option.map_eq_none_iff] at hplace₀
      rw [hr, hr₀, hplace, hplace₀]

end InodeTable

namespace FileWorld

variable {disk : Disk} {ident : List String → ℕ} {w : FileWorld} {t i : ℕ} {dirfd : Option ℕ}

/-- The inode that both calls find at a path, with its place. -/
def resolved (disk : Disk) (ident : List String → ℕ) (w : FileWorld) (t : ℕ)
    (dirfd : Option ℕ) (path : String) : Checked (Option (ℕ × List String)) := do
  let (found, w) ← w.openPath disk ident t dirfd path
  return found.map fun j => (j, w.inodes.place j)

/-- A path that begins with a slash leads to the inode that is reached from the root, and
another one from the inode of the directory along its names, without empty ones and
dots. -/
structure ResolvesRight (disk : Disk) (ident : List String → ℕ) (w : FileWorld) (t i : ℕ)
    (dirfd : Option ℕ) (path : String) : Prop where
  absolute : isAbsolute path = true →
    w.resolved disk ident t dirfd path = w.inodes.reached disk 0 path
  relative : isAbsolute path = false →
    ∃ r, w.resolved disk ident t dirfd path = .ok r ∧
      r.map Prod.snd = disk.lookup (w.inodes.place i) (components path)

theorem resolved_eq_reached (hi : w.dirInode t dirfd = some i) (path : String) :
    w.resolved disk ident t dirfd path = w.inodes.reached disk i path := by
  rw [resolved, openPath, hi, InodeTable.reached]
  simp only
  cases w.inodes.getNodeByPath (InodeTable.dentriesOf disk) i path with
  | error e => rfl
  | ok r => rfl

/-- Only a path without a slash at its beginning is followed from the right directory, as
long as this is not the root itself or the path leads nowhere. -/
theorem resolvesRight_iff (hw : w.Consistent disk []) (hi : w.dirInode t dirfd = some i)
    (path : String) :
    w.ResolvesRight disk ident t i dirfd path ↔ (isAbsolute path = true →
      i = 0 ∨ disk.lookup (w.inodes.place i) (components path) = none ∧
        disk.lookup [] (components path) = none) := by
  have hlive := hw.live_dirInode hi
  rw [← InodeTable.reached_eq_root_iff hw.inodes hw.agrees hlive, ← resolved_eq_reached hi]
  constructor
  · intro h
    exact h.absolute
  · intro h
    refine ⟨h, fun _ => ?_⟩
    rw [resolved_eq_reached hi]
    exact InodeTable.reached_spec hw.inodes hw.agrees hlive path

def aAndB : Disk := fun place =>
  if place = ["a"] then some .dir else if place = ["b"] then some .file else none

/-- Every entry says that its file has `n` bytes and is from the first of January 1980. -/
def oldFiles (n : ℕ) : FileWorld := boot (fun _ => n) fun _ => ⟨0, 0, 33, 33, 0, 33⟩

def openA : Checked (ℤ × FileWorld) :=
  ((oldFiles 0).createUserTask fun _ => 0).sysOpenat aAndB (fun _ => 0) 1 none "a" .O_RDONLY

/-- From the directory `/c` is found as little as from the root, and `/b` is not found
though it is there. -/
theorem resolvesRight_iff_insideA : ∃ w, openA = .ok (3, w) ∧ w.dirInode 1 (some 3) = some 1 ∧
    w.ResolvesRight aAndB (fun _ => 0) 1 1 (some 3) "/c" ∧
    ¬w.ResolvesRight aAndB (fun _ => 0) 1 1 (some 3) "/b" := by
  have hopen : (openA.map fun r => (r.1, r.2.dirInode 1 (some 3), r.2.inodes.place 1)) =
      .ok (3, some 1, ["a"]) := by
    simp only [openA, sysOpenat, openPath, InodeTable.getNodeByPath_eq, components_eq]
    decide +kernel
  obtain ⟨⟨ret, w⟩, hw, hret⟩ := Checked.map_eq_ok.mp hopen
  simp only [Prod.mk.injEq] at hret
  obtain ⟨rfl, hi, hplace⟩ := hret
  have hcons : w.Consistent aAndB [] :=
    ((consistent_boot aAndB _ _).withFiles (Descriptors.keeps_createUserTask _)
      (Descriptors.sound_boot.start 0).createUserTask.sound).sysOpenat hw
  have hc : components "/c" = ["c"] := by
    rw [components_eq]
    decide +kernel
  have hb : components "/b" = ["b"] := by
    rw [components_eq]
    decide +kernel
  refine ⟨w, hw, hi, (resolvesRight_iff hcons hi "/c").mpr fun _ => .inr ?_, fun h => ?_⟩
  · rw [hplace, hc]
    decide
  · have hno := (resolvesRight_iff hcons hi "/b").mp h (by decide +kernel)
    rw [hplace, hb] at hno
    revert hno
    decide

-- The instance is as large as the type of the result.
set_option synthInstance.maxSize 1000 in
/-- With the directory as descriptor 3, `/b` is looked for in the directory. -/
theorem slashB_not_found_from_a : (do
    let (fd, w) ← openA
    let found ← w.resolved aAndB (fun _ => 0) 1 (some 3) "/b"
    let reached ← w.inodes.reached aAndB 0 "/b"
    return (fd, isAbsolute "/b", found, reached)) =
      (.ok (3, true, none, some (2, ["b"])) : Checked _) := by
  simp only [openA, sysOpenat, resolved, openPath, InodeTable.reached,
    InodeTable.getNodeByPath_eq, components_eq]
  decide +kernel

end FileWorld

end Zinix
