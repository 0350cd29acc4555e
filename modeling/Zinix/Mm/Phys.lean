import Zinix.Lib.OrdMap
import Zinix.Lib.Program
import Zinix.Mm.Addr
import Zinix.Mm.Pte

/-!
# Physical memory

Memory is a map from frames to pages of 64-bit words, and the kernel reaches the word `i`
of frame `f` through its direct map, so that such an address is the pair of the two. A frame
is live while some `Arc<Page>` denotes it. The allocator may hand out any frame that is not
live. The tables of a page table are the pages in its `private_pgs`, the root first.
-/

namespace Zinix

def phyMemOffset : ℕ := 0xFFFFFFD800000000

abbrev PageData := Fin 512 → BitVec 64

instance neZero_pageWords : NeZero 512 := ⟨by decide⟩

namespace PageData

variable {i j : ℕ}

/-- Byte `off` of a page, in little-endian order. -/
def byte (pg : PageData) (off : ℕ) : BitVec 8 :=
  (pg (Fin.ofNat 512 (off / 8)) >>> (8 * (off % 8))).setWidth 8

def setByte (pg : PageData) (off : ℕ) (b : BitVec 8) : PageData :=
  let i := Fin.ofNat 512 (off / 8)
  replaceAt pg i (pg i &&& ~~~((255 : BitVec 64) <<< (8 * (off % 8))) |||
    b.setWidth 64 <<< (8 * (off % 8)))

def setBytes (pg : PageData) (off : ℕ) : List (BitVec 8) → PageData
  | [] => pg
  | b :: bs => (pg.setByte off b).setBytes (off + 1) bs

theorem byte_putByte (w : BitVec 64) (b : BitVec 8) {r s : ℕ} (hr : r < 8) (hs : s < 8) :
    ((w &&& ~~~((255 : BitVec 64) <<< (8 * r)) ||| b.setWidth 64 <<< (8 * r)) >>>
      (8 * s)).setWidth 8 = if s = r then b else (w >>> (8 * s)).setWidth 8 := by
  have hmask : ∀ i < 64, (255 : BitVec 64).getLsbD i = decide (i < 8) := by decide
  ext i hi
  have hbit : 8 * s + i < 64 := by omega
  have hbit' : 8 * s + i - 8 * r < 64 := by omega
  simp only [BitVec.getElem_setWidth, BitVec.getLsbD_ushiftRight, BitVec.getLsbD_or,
    BitVec.getLsbD_and, BitVec.getLsbD_not, BitVec.getLsbD_shiftLeft, hmask _ hbit',
    BitVec.getLsbD_setWidth]
  by_cases hsr : s = r
  · subst hsr
    have hi' : i < 64 := by omega
    simp [hbit, hi, hi', BitVec.getLsbD_eq_getElem]
  · rw [if_neg hsr]
    simp only [BitVec.getElem_setWidth, BitVec.getLsbD_ushiftRight]
    by_cases hlt : 8 * s + i < 8 * r
    · simp [hlt, hbit]
    · have hout : ¬8 * s + i - 8 * r < 8 := by omega
      have hzero : b.getLsbD (8 * s + i - 8 * r) = false := BitVec.getLsbD_of_ge _ _ (by omega)
      simp [hlt, hbit, hout, hzero]

theorem byte_setByte (pg : PageData) (hi : i < pageSize) (hj : j < pageSize) (b : BitVec 8) :
    (pg.setByte i b).byte j = if j = i then b else pg.byte j := by
  simp only [pageSize] at hi hj
  unfold byte setByte
  by_cases hw : j / 8 = i / 8
  · rw [hw]
    simp only [replaceAt_self]
    rw [byte_putByte _ _ (Nat.mod_lt _ (by decide)) (Nat.mod_lt _ (by decide))]
    by_cases hji : j = i
    · rw [if_pos (by rw [hji]), if_pos hji]
    · rw [if_neg (by omega), if_neg hji]
  · have hne : Fin.ofNat 512 (j / 8) ≠ Fin.ofNat 512 (i / 8) := by
      simp only [ne_eq, Fin.ext_iff, Fin.val_ofNat]
      omega
    simp only [replaceAt_of_ne hne]
    rw [if_neg (by rintro rfl; exact hw rfl)]

theorem byte_setBytes (pg : PageData) {bs : List (BitVec 8)} (hi : i + bs.length ≤ pageSize)
    (hj : j < pageSize) :
    (pg.setBytes i bs).byte j =
      if i ≤ j ∧ j < i + bs.length then bs.getD (j - i) 0 else pg.byte j := by
  induction bs generalizing pg i with
  | nil => rw [setBytes, if_neg (by simp)]
  | cons b bs ih =>
    rw [List.length_cons] at hi
    rw [setBytes, ih _ (by omega), byte_setByte _ (by omega) hj]
    by_cases hji : j = i
    · subst hji
      rw [if_neg (by omega), if_pos rfl, if_pos (by simp), Nat.sub_self, List.getD_cons_zero]
    · rw [if_neg hji, List.length_cons]
      by_cases hin : i + 1 ≤ j ∧ j < i + 1 + bs.length
      · have hnext : j - i = j - (i + 1) + 1 := by omega
        rw [if_pos hin, if_pos (by omega), hnext, List.getD_cons_succ]
      · rw [if_neg hin, if_neg (by omega)]

end PageData

/-- Which frame `alloc_pages(0)` returns next, if any. -/
structure Allocator where
  pick : Finset Frame → Option Frame
  fresh : ∀ live f, pick live = some f → f ∉ live

structure Phys where
  mem : Frame → PageData
  live : Finset Frame
  tables : ℕ → List Frame
  tableCnt : ℕ
  allocator : Allocator

def kernelPagetable : ℕ := 0

namespace Phys

def setPage (p : Phys) (f : Frame) (pg : PageData) : Phys :=
  { p with mem := replaceAt p.mem f pg }

/-- `Drop for Page`. -/
def free (p : Phys) (f : Frame) : Phys := { p with live := p.live.erase f }

/-- `alloc_pages(0)`, also `alloc_one_page`. A page is handed out zeroed. -/
def allocOnePage : Program Phys (Option Frame) := do
  let p ← get
  match p.allocator.pick p.live with
  | none => return none
  | some f =>
    set { (p.setPage f (fun _ => 0)) with live := insert f p.live }
    return some f

/-- `alloc_one_page().unwrap()`. -/
def allocOrPanic : Program Phys Frame := do
  match ← allocOnePage with
  | none => throw .outOfMemory
  | some f => return f

/-- `copy_one_page_data_from`, whose loop copies word by word. -/
def copyOnePageDataFrom (dest src : Frame) : Program Phys Unit :=
  modify fun p => p.setPage dest (p.mem src)

def getUsizeByAddr (addr : Frame × Fin 512) : Program Phys (BitVec 64) := do
  let p ← get
  return p.mem addr.1 addr.2

def setUsizeByAddr (addr : Frame × Fin 512) (val : BitVec 64) : Program Phys Unit :=
  modify fun p => p.setPage addr.1 (replaceAt (p.mem addr.1) addr.2 val)

end Phys

def Allocator.lowFirst : Allocator where
  pick live := ((List.range 256).map (Fin.ofNat (2 ^ 27))).find? fun f => f ∉ live
  fresh := by
    intro live f h
    simpa using List.find?_some h

/-- Memory in which only the kernel has a page table, which maps nothing. -/
def Phys.bare : Phys where
  mem := fun _ _ => 0
  live := {0}
  tables := fun pt => if pt = kernelPagetable then [0] else []
  tableCnt := 1
  allocator := .lowFirst

end Zinix
