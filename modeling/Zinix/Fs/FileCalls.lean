import Zinix.Fs.FileTime
import Zinix.Fs.Paths
import Zinix.Fs.PipeEnds

/-!
# Calls that take a path

The inode of a regular file knows its length, which may be more than the entry of the
directory says: the entry is written when the file is dropped with its inode. A file to
which bytes have been written then also gets a modification time, which is zero here, as no
clock is given to the file system. The locks, the contents of the files, and the numbers of
inodes and links are left out, and the device does not fail.
-/

namespace Zinix

def DFile.cloneInode (f : DFile) : Option ℕ :=
  match f.cls with
  | .classInode i => some i
  | _ => none

/-- `S_IRWXU | S_IRWXG | S_IRWXO`. -/
def S_IRWX : BitVec 32 := 0o777

def S_IFREG : BitVec 32 := 0o100000

def S_IFDIR : BitVec 32 := 0o040000

structure NewStat extends StatTimes where
  stMode : BitVec 32
  stSize : ℕ
  deriving DecidableEq

/-- The inodes and the open files. A position belongs to an open file, a length and
whether bytes have been written to an inode, and the other length and the times to an
entry of a directory. -/
structure FileWorld where
  inodes : InodeTable
  files : Descriptors
  pos : ℕ → ℕ
  lens : ℕ → ℕ
  dirty : ℕ → Bool
  entryLen : ℕ → ℕ
  entryTimes : ℕ → DirFileEntryData

namespace FileWorld

/-- The inode of the directory that a call is given, with `AT_FDCWD` for none. The working
directory of every task is the root. -/
def dirInode (w : FileWorld) (t : ℕ) : Option ℕ → Option ℕ
  | none => some 0
  | some fd => (w.files.slot t fd).bind fun d => (w.files.dfiles d).cloneInode

-- The disk has an entry at some places, and `..` gives an entry more than one place.
variable (disk : Disk) (ident : List String → ℕ) (w : FileWorld)

/-- An inode that a lookup has made has the length that the entry gives. -/
def lookedUp (inodes : InodeTable) : FileWorld :=
  { w with
    inodes := inodes
    lens := fun j => if j < w.inodes.cnt then w.lens j else w.entryLen (ident (inodes.place j))
    dirty := fun j => if j < w.inodes.cnt then w.dirty j else false }

/-- What both calls begin with: the directory is fetched, and `open_path` follows the path
from its inode. Only inodes that the walk itself has made are dropped by it. -/
def openPath (t : ℕ) (dirfd : Option ℕ) (path : String) : Checked (Option ℕ × FileWorld) :=
  match w.dirInode t dirfd with
  | none => return (none, w)
  | some i => do
    let (found, inodes) ← w.inodes.getNodeByPath (InodeTable.dentriesOf disk) i path
    return (found, w.lookedUp ident inodes)

/-- The entry of a file is written with what the inode knows. -/
def flush (i : ℕ) : FileWorld :=
  let entry := ident (w.inodes.place i)
  { w with
    entryLen := replaceAt w.entryLen entry (w.lens i)
    entryTimes := replaceAt w.entryTimes entry (w.entryTimes entry).stamped }

/-- Give up a handle to an inode. With the last one the file of the inode is dropped, which
writes its entry. -/
def dropInode (i : ℕ) : FileWorld :=
  let w' := if !(w.inodes.drop i).live i && w.dirty i then w.flush ident i else w
  { w' with inodes := w.inodes.drop i }

def dropFile (d : ℕ) : FileWorld :=
  match (w.files.dfiles d).cloneInode with
  | some i => w.dropInode ident i
  | none => w

/-- The open files that a call has taken the last reference from are dropped. -/
def withFiles (files : Descriptors) : FileWorld :=
  ((List.range w.files.dfileCnt).filter fun d =>
    decide (0 < w.files.strong d) && decide (files.strong d = 0)).foldl
      (fun w d => w.dropFile ident d) { w with files := files }

/-- If there is no descriptor left, the new open file is dropped. -/
def sysOpenat (t : ℕ) (dirfd : Option ℕ) (path : String) (flags : OpenFlags) :
    Checked (ℤ × FileWorld) := do
  let (found, w) ← w.openPath disk ident t dirfd path
  match found with
  | none => return (-1, w)
  | some i =>
    let (ret, files) := w.files.sysOpenat t dirfd (some i) flags
    if ret < 0 then
      return (ret, { w with files := files }.dropInode ident i)
    else
      return (ret, { w with files := files, pos := replaceAt w.pos w.files.dfileCnt 0 })

/-- The entry is read from the directory of the parent, which `get_dentry` expects to have
it. -/
def fillStat (i : ℕ) : Checked NewStat :=
  match (w.inodes.nodes i).parent with
  | none => return ⟨⟨1000, 1000, 1000⟩, S_IFDIR ||| S_IRWX, 0⟩
  | some p => do
    Checked.ensure ((w.inodes.nodes p).inodeClass = .dir) (.explicit "bug")
    let name := (w.inodes.nodes i).name
    match InodeTable.dentriesOf disk w.inodes p name with
    | none => throw .unwrapNone
    | some dentry =>
      let stMode := if dentry = .dir then S_IFDIR ||| S_IRWX else S_IFREG ||| S_IRWX
      let entry := ident (w.inodes.place p ++ [name])
      let times ← (w.entryTimes entry).statTimes
      return ⟨times, stMode, w.entryLen entry⟩

def sysNewfstatat (t : ℕ) (fd : Option ℕ) (path : String) :
    Checked ((ℤ × Option NewStat) × FileWorld) := do
  let (found, w) ← w.openPath disk ident t fd path
  match found with
  | none => return ((-2, none), w)
  | some i =>
    let stat ← w.fillStat disk ident i
    return ((0, some stat), w.dropInode ident i)

/-- Bytes have been written through an open file to an inode. `write_off` has moved to the
position before, but not beyond the end. -/
def wrote (d i k : ℕ) : FileWorld :=
  { w with
    pos := replaceAt w.pos d (w.pos d + k)
    lens := replaceAt w.lens i (max (w.lens i) (min (w.pos d) (w.lens i) + k))
    dirty := replaceAt w.dirty i (w.dirty i || decide (0 < k)) }

/-- A file takes some of the bytes that it is given or answers with an error. The bytes
that terminals and pipes take change nothing here. -/
def sysWrite (t fd : ℕ) (taken : Option ℕ) : Checked (ℤ × FileWorld) := do
  Checked.ensure (fd ≠ 0) (.explicit "shutdown")
  match w.files.slot t fd with
  | none => return (-1, w)
  | some d =>
    if (w.files.dfiles d).openFlags.writeable then
      match (w.files.dfiles d).cloneInode with
      | none => return (taken.elim (-1) fun k => k, w)
      | some i => do
        Checked.ensure ((w.inodes.nodes i).inodeClass = .file) (.explicit "can`t write dir")
        match taken with
        | none => return (-1, w)
        | some k => return (k, w.wrote d i k)
    else
      return (-1, w)

def doDup (t oldFd : ℕ) (newFd : Option ℕ) : ℤ × FileWorld :=
  let (ret, files) := w.files.doDup t oldFd newFd
  (ret, w.withFiles ident files)

def sysClose (t fd : ℕ) : ℤ × FileWorld :=
  let (ret, files) := w.files.sysClose t fd
  (ret, w.withFiles ident files)

def createUserTask : FileWorld := w.withFiles ident w.files.createUserTask

def fork (t : ℕ) : FileWorld := w.withFiles ident (w.files.fork t)

end FileWorld

theorem InodeTable.Sound.live_root {s : InodeTable} (hs : s.Sound) : s.live 0 = true := by
  have hcount := hs.counted 0
  rw [live_iff, hcount]
  simp

namespace FileWorld

variable {disk : Disk} {ident : List String → ℕ} {w : FileWorld} {t i : ℕ} {dirfd : Option ℕ}
  {held : List ℕ}

def openers (files : Descriptors) (i : ℕ) : ℕ :=
  (List.range files.dfileCnt).countP fun d =>
    decide (0 < files.strong d) && (files.dfiles d).cloneInode == some i

/-- The inodes and the open files are in order, and the handles to an inode are those of
its open files and those held by the call that runs. -/
structure Consistent (disk : Disk) (held : List ℕ) (w : FileWorld) : Prop where
  inodes : w.inodes.Sound
  agrees : w.inodes.Agrees disk
  files : w.files.Sound 0
  handles : ∀ i, w.inodes.handles i = openers w.files i + held.count i

theorem Consistent.handle_of_slot (hw : w.Consistent disk held) {fd d : ℕ}
    (hd : w.files.slot t fd = some d) (hi : (w.files.dfiles d).cloneInode = some i) :
    0 < w.inodes.handles i := by
  have hpos : 0 < w.files.strong d := hw.files.strong_slot t fd d hd
  have hopen : 0 < openers w.files i :=
    List.countP_pos_iff.mpr ⟨d, List.mem_range.mpr (hw.files.old d hpos), by simp [hpos, hi]⟩
  rw [hw.handles]
  omega

theorem Consistent.live_dirInode (hw : w.Consistent disk held) (hi : w.dirInode t dirfd = some i) :
    w.inodes.live i = true := by
  cases dirfd with
  | none =>
    cases hi
    exact hw.inodes.live_root
  | some fd =>
    obtain ⟨d, hd, hi⟩ := Option.bind_eq_some_iff.mp hi
    exact hw.inodes.live_of_handle (hw.handle_of_slot hd hi)

/-- Nothing is open, and the entries have lengths and times. -/
def boot (entryLen : ℕ → ℕ) (entryTimes : ℕ → DirFileEntryData) : FileWorld where
  inodes := .boot
  files := .boot
  pos := fun _ => 0
  lens := fun _ => 0
  dirty := fun _ => false
  entryLen := entryLen
  entryTimes := entryTimes

theorem consistent_boot (disk : Disk) (entryLen : ℕ → ℕ) (entryTimes : ℕ → DirFileEntryData) :
    (boot entryLen entryTimes).Consistent disk [] where
  inodes := InodeTable.sound_boot
  agrees := InodeTable.agrees_boot disk
  files := Descriptors.sound_boot
  handles := fun i => by simp [openers, boot, InodeTable.boot, Descriptors.boot]

end FileWorld

end Zinix
