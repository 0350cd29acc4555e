import Mathlib.Tactic

/-!
# Page table entries

An entry is a 64-bit word with eight flag bits and a physical page number in three parts of
nine bits.
-/

namespace Zinix

abbrev Frame := Fin (2 ^ 27)

instance neZero_frames : NeZero (2 ^ 27) := ⟨by decide⟩

namespace Frame

def paddr (f : Frame) : ℕ := f.val * 4096

def ofPaddr (paddr : ℕ) : Frame := Fin.ofNat (2 ^ 27) (paddr / 4096)

@[simp] theorem ofPaddr_paddr (f : Frame) : ofPaddr f.paddr = f := by
  apply Fin.ext
  simp [ofPaddr, paddr]

end Frame

namespace PTEFlags

def V : BitVec 8 := 1
def R : BitVec 8 := 2
def W : BitVec 8 := 4
def X : BitVec 8 := 8
def U : BitVec 8 := 16

end PTEFlags

structure PTE where
  flags : BitVec 8
  pnn0 : BitVec 9
  pnn1 : BitVec 9
  pnn2 : BitVec 9
  deriving DecidableEq, Repr

namespace PTE

instance : Inhabited PTE := ⟨⟨0, 0, 0, 0⟩⟩

/-- `Into<usize>`. -/
def toWord (e : PTE) : BitVec 64 :=
  e.flags.setWidth 64 ||| e.pnn0.setWidth 64 <<< 10 ||| e.pnn1.setWidth 64 <<< 19 |||
    e.pnn2.setWidth 64 <<< 28

/-- `From<usize>`. -/
def ofWord (v : BitVec 64) : PTE where
  flags := v.setWidth 8
  pnn0 := (v >>> 10).setWidth 9
  pnn1 := (v >>> 19).setWidth 9
  pnn2 := (v >>> 28).setWidth 9

def setFlags (e : PTE) (mask : BitVec 8) : PTE := { e with flags := e.flags ||| mask }

def clearFlags (e : PTE) (mask : BitVec 8) : PTE := { e with flags := e.flags &&& (mask ^^^ 0xFF) }

def clearAllFlags (e : PTE) : PTE := { e with flags := 0 }

def getBits (e : PTE) (mask : BitVec 8) : Bool := e.flags &&& mask != 0

def valid (e : PTE) : Bool := e.getBits PTEFlags.V

def isLeaf (e : PTE) : Bool :=
  !(e.getBits PTEFlags.R == false && e.getBits PTEFlags.W == false &&
    e.getBits PTEFlags.X == false)

def setPpnByPaddr (e : PTE) (paddr : ℕ) : PTE :=
  let np := paddr >>> 12
  { e with
    pnn0 := BitVec.ofNat 9 np
    pnn1 := BitVec.ofNat 9 (np >>> 9)
    pnn2 := BitVec.ofNat 9 (np >>> 18) }

def getPointPaddr (e : PTE) : ℕ :=
  (e.pnn0.toNat ||| e.pnn1.toNat <<< 9 ||| e.pnn2.toNat <<< 18) <<< 12

def frame (e : PTE) : Frame := Frame.ofPaddr e.getPointPaddr

@[simp] theorem ofWord_toWord (e : PTE) : ofWord e.toWord = e := by
  cases e with
  | mk flags pnn0 pnn1 pnn2 =>
    simp only [ofWord, toWord, mk.injEq]
    refine ⟨?_, ?_, ?_, ?_⟩
    all_goals
      apply BitVec.eq_of_getLsbD_eq
      intro i hi
      interval_cases i <;> simp

theorem getPointPaddr_setPpnByPaddr (e : PTE) (f : Frame) :
    (e.setPpnByPaddr f.paddr).getPointPaddr = f.paddr := by
  have hnp : f.paddr >>> 12 = f.val := by
    rw [Nat.shiftRight_eq_div_pow, Frame.paddr]
    exact Nat.mul_div_cancel _ (by norm_num)
  have hf := f.isLt
  have hlow : f.val % 2 ^ 9 ||| (f.val >>> 9 % 2 ^ 9) <<< 9 = f.val % 2 ^ 18 := by
    rw [Nat.or_comm, ← Nat.shiftLeft_add_eq_or_of_lt (Nat.mod_lt _ (by norm_num)),
      Nat.shiftLeft_eq, Nat.shiftRight_eq_div_pow]
    omega
  have hall : f.val % 2 ^ 18 ||| (f.val >>> 18 % 2 ^ 9) <<< 18 = f.val := by
    rw [Nat.or_comm, ← Nat.shiftLeft_add_eq_or_of_lt (Nat.mod_lt _ (by norm_num)),
      Nat.shiftLeft_eq, Nat.shiftRight_eq_div_pow]
    omega
  simp only [setPpnByPaddr, getPointPaddr, hnp, BitVec.toNat_ofNat, hlow, hall]
  rw [Nat.shiftLeft_eq, Frame.paddr]

@[simp] theorem frame_setPpnByPaddr (e : PTE) (f : Frame) :
    (e.setPpnByPaddr f.paddr).frame = f := by
  rw [frame, getPointPaddr_setPpnByPaddr, Frame.ofPaddr_paddr]

/-- The entry that `map_one_page` builds. -/
def leaf (f : Frame) (flags : BitVec 8) : PTE :=
  ((default : PTE).setPpnByPaddr f.paddr).setFlags flags

@[simp] theorem leaf_frame (f : Frame) (flags : BitVec 8) : (leaf f flags).frame = f :=
  frame_setPpnByPaddr default f

@[simp] theorem leaf_flags (f : Frame) (flags : BitVec 8) : (leaf f flags).flags = flags :=
  BitVec.zero_or

def dir (e : PTE) (f : Frame) : PTE :=
  ((e.setPpnByPaddr f.paddr).clearAllFlags).setFlags PTEFlags.V

@[simp] theorem dir_frame (e : PTE) (f : Frame) : (e.dir f).frame = f := frame_setPpnByPaddr e f

@[simp] theorem dir_valid (e : PTE) (f : Frame) : (e.dir f).valid = true := by
  simp [dir, valid, getBits, setFlags, clearAllFlags, PTEFlags.V]

@[simp] theorem dir_isLeaf (e : PTE) (f : Frame) : (e.dir f).isLeaf = false := by
  simp [dir, isLeaf, getBits, setFlags, clearAllFlags, PTEFlags.V, PTEFlags.R, PTEFlags.W,
    PTEFlags.X]

@[simp] theorem ofWord_zero : ofWord 0#64 = default := rfl

@[simp] theorem default_valid : (default : PTE).valid = false := rfl

@[simp] theorem default_isLeaf : (default : PTE).isLeaf = false := rfl

/-- The entry after `_unmap_one_page`. -/
def unmapped (e : PTE) : PTE := (e.setPpnByPaddr 0).clearFlags PTEFlags.V

@[simp] theorem unmapped_valid (e : PTE) : e.unmapped.valid = false := by
  cases e with
  | mk flags _ _ _ =>
    revert flags
    simp only [unmapped, setPpnByPaddr, clearFlags, valid, getBits, PTEFlags.V]
    decide

/-- The entry after `change_map_flags`. -/
def withFlags (e : PTE) (flags : BitVec 8) : PTE := e.clearAllFlags.setFlags flags

@[simp] theorem withFlags_flags (e : PTE) (flags : BitVec 8) : (e.withFlags flags).flags = flags :=
  BitVec.zero_or

@[simp] theorem withFlags_frame (e : PTE) (flags : BitVec 8) :
    (e.withFlags flags).frame = e.frame := rfl

end PTE

end Zinix
