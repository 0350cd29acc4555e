import Mathlib.Tactic
import Mathlib.Data.List.GetD

/-!
# Chunks of memory

Chunks of bytes are written into a memory one after the other; those of which each lies
below the one before do not disturb each other. The second part reads words and strings
from a memory of which some bytes can be read.
-/

namespace Zinix

abbrev Byte := BitVec 8

structure Chunk where
  addr : ℕ
  bytes : List Byte
  deriving DecidableEq

namespace Chunk

def stop (b : Chunk) : ℕ := b.addr + b.bytes.length

def Covers (b : Chunk) (a : ℕ) : Prop := b.addr ≤ a ∧ a < b.stop

def write (mem : ℕ → Byte) (b : Chunk) : ℕ → Byte := fun a =>
  if b.addr ≤ a ∧ a < b.stop then b.bytes.getD (a - b.addr) 0 else mem a

def writeAll (mem : ℕ → Byte) (bs : List Chunk) : ℕ → Byte := bs.foldl write mem

/-- Each chunk lies below the one before it, and the first one below `top`. -/
def Stacked : ℕ → List Chunk → Prop
  | _, [] => True
  | top, b :: bs => b.stop ≤ top ∧ Stacked b.addr bs

def bottom : ℕ → List Chunk → ℕ
  | top, [] => top
  | _, b :: bs => bottom b.addr bs

variable {mem : ℕ → Byte} {b c : Chunk} {bs cs : List Chunk} {a top : ℕ} {xs ys : List Byte}

theorem writeAll_nil : writeAll mem [] = mem := rfl

theorem writeAll_cons : writeAll mem (b :: bs) = writeAll (write mem b) bs := rfl

theorem writeAll_append : writeAll mem (bs ++ cs) = writeAll (writeAll mem bs) cs :=
  List.foldl_append

theorem write_apply (mem : ℕ → Byte) (a : ℕ) (xs : List Byte) (i : ℕ) : write mem ⟨a, xs⟩ i =
    if a ≤ i ∧ i < a + xs.length then xs.getD (i - a) 0 else mem i := rfl

theorem write_of_covers (h : b.Covers a) : write mem b a = b.bytes.getD (a - b.addr) 0 := if_pos h

theorem write_of_not_covers (h : ¬b.Covers a) : write mem b a = mem a := if_neg h

theorem writeAll_of_not_covers (h : ∀ b ∈ bs, ¬b.Covers a) : writeAll mem bs a = mem a := by
  induction bs generalizing mem with
  | nil => rfl
  | cons b bs ih =>
    rw [writeAll_cons, ih fun c hc => h c (List.mem_cons_of_mem _ hc),
      write_of_not_covers (h b (List.mem_cons_self ..))]

theorem write_upper_lower (mem : ℕ → Byte) (a : ℕ) (xs ys : List Byte) :
    write (write mem ⟨a + xs.length, ys⟩) ⟨a, xs⟩ = write mem ⟨a, xs ++ ys⟩ := by
  funext i
  rw [write_apply, write_apply, write_apply, List.length_append]
  by_cases hlow : a ≤ i ∧ i < a + xs.length
  · rw [if_pos hlow, if_pos (by omega), List.getD_append _ _ _ _ (by omega)]
  · rw [if_neg hlow]
    by_cases hup : a + xs.length ≤ i ∧ i < a + xs.length + ys.length
    · rw [if_pos hup, if_pos (by omega), List.getD_append_right _ _ _ _ (by omega), Nat.sub_sub]
    · rw [if_neg hup, if_neg (by omega)]

theorem write_lower_upper (mem : ℕ → Byte) (a : ℕ) (xs ys : List Byte) :
    write (write mem ⟨a, xs⟩) ⟨a + xs.length, ys⟩ = write mem ⟨a, xs ++ ys⟩ := by
  funext i
  rw [← write_upper_lower, write_apply, write_apply, write_apply, write_apply]
  by_cases hlow : a ≤ i ∧ i < a + xs.length
  · rw [if_neg (by omega), if_pos hlow, if_pos hlow]
  · rw [if_neg hlow, if_neg hlow]

theorem write_eq_self_iff {xs : List Byte} :
    write mem ⟨a, xs⟩ = mem ↔ ∀ i < xs.length, mem (a + i) = xs.getD i 0 := by
  constructor
  · intro h i hi
    rw [← h, write_apply, if_pos (by omega), Nat.add_sub_cancel_left]
  · intro h
    funext i
    rw [write_apply]
    split_ifs with hcov
    · rw [← h (i - a) (by omega), Nat.add_sub_cancel' hcov.1]
    · rfl

theorem map_range_write {xs : List Byte} {k n : ℕ} (h : k + n ≤ xs.length) :
    (List.range n).map (fun i => write mem ⟨a, xs⟩ (a + k + i)) = (xs.drop k).take n := by
  apply List.ext_getElem
  · rw [List.length_map, List.length_range, List.length_take, List.length_drop]
    omega
  · intro i hi _
    rw [List.length_map, List.length_range] at hi
    rw [List.getElem_map, List.getElem_range, write_apply, if_pos (by omega), List.getElem_take,
      List.getElem_drop, Nat.add_assoc, Nat.add_sub_cancel_left]
    exact List.getD_eq_getElem _ _ (by omega)

section Stacked

theorem stacked_append :
    Stacked top (bs ++ cs) ↔ Stacked top bs ∧ Stacked (bottom top bs) cs := by
  induction bs generalizing top with
  | nil => simp [Stacked, bottom]
  | cons b bs ih => simp only [List.cons_append, Stacked, bottom, ih, and_assoc]

theorem bottom_append : bottom top (bs ++ cs) = bottom (bottom top bs) cs := by
  induction bs generalizing top with
  | nil => rfl
  | cons b bs ih => exact ih

theorem Stacked.bottom_le (h : Stacked top bs) : bottom top bs ≤ top := by
  induction bs generalizing top with
  | nil => exact le_rfl
  | cons b bs ih =>
    obtain ⟨hstop, hrest⟩ := h
    have hle := ih hrest
    rw [stop] at hstop
    rw [bottom]
    omega

theorem Stacked.mono (h : Stacked top bs) {top' : ℕ} (hle : top ≤ top') : Stacked top' bs := by
  cases bs with
  | nil => trivial
  | cons b bs => exact ⟨h.1.trans hle, h.2⟩

theorem Stacked.within (h : Stacked top bs) (hb : b ∈ bs) :
    bottom top bs ≤ b.addr ∧ b.stop ≤ top := by
  induction bs generalizing top with
  | nil => cases hb
  | cons c bs ih =>
    obtain ⟨hstop, hrest⟩ := h
    rcases List.mem_cons.mp hb with rfl | hb
    · exact ⟨hrest.bottom_le, hstop⟩
    · obtain ⟨hlow, hup⟩ := ih hrest hb
      rw [stop] at hstop
      exact ⟨hlow, by omega⟩

theorem Stacked.pairwise (h : Stacked top bs) : bs.Pairwise fun b c => c.stop ≤ b.addr := by
  induction bs generalizing top with
  | nil => exact .nil
  | cons b bs ih => exact .cons (fun c hc => (h.2.within hc).2) (ih h.2)

theorem Stacked.writeAll_of_covers (h : Stacked top bs) (hb : b ∈ bs) (ha : b.Covers a) :
    writeAll mem bs a = b.bytes.getD (a - b.addr) 0 := by
  induction bs generalizing top mem with
  | nil => cases hb
  | cons c bs ih =>
    rw [writeAll_cons]
    rcases List.mem_cons.mp hb with rfl | hb
    · rw [writeAll_of_not_covers, write_of_covers ha]
      intro d hd hcov
      have hle := (h.2.within hd).2
      exact absurd hcov.2 (by have := ha.1; omega)
    · exact ih h.2 hb

end Stacked

end Chunk

section Bytes

/-- The low `n` bytes of a number, the lowest first. -/
def leBytes : ℕ → ℕ → List Byte
  | 0, _ => []
  | n + 1, w => BitVec.ofNat 8 w :: leBytes n (w / 256)

def ofLeBytes : List Byte → ℕ
  | [] => 0
  | b :: bs => b.toNat + 256 * ofLeBytes bs

@[simp] theorem length_leBytes (n w : ℕ) : (leBytes n w).length = n := by
  induction n generalizing w with
  | zero => rfl
  | succ n ih => rw [leBytes, List.length_cons, ih]

theorem ofLeBytes_leBytes (n w : ℕ) : ofLeBytes (leBytes n w) = w % 256 ^ n := by
  induction n generalizing w with
  | zero => rw [pow_zero, Nat.mod_one]; rfl
  | succ n ih =>
    rw [leBytes, ofLeBytes, ih, BitVec.toNat_ofNat, pow_succ' 256 n, Nat.mod_mul]

/-- The bytes of a `usize`. -/
def wordBytes (w : ℕ) : List Byte := leBytes 8 w

@[simp] theorem length_wordBytes (w : ℕ) : (wordBytes w).length = 8 := length_leBytes 8 w

theorem length_flatMap_wordBytes (ws : List ℕ) : (ws.flatMap wordBytes).length = 8 * ws.length := by
  induction ws with
  | nil => rfl
  | cons w ws ih =>
    rw [List.flatMap_cons, List.length_append, ih, length_wordBytes, List.length_cons]
    omega

/-- Words from an address upwards, each written as a chunk of its own. -/
def wordChunks : ℕ → List ℕ → List Chunk
  | _, [] => []
  | a, w :: ws => ⟨a, wordBytes w⟩ :: wordChunks (a + 8) ws

theorem writeAll_wordChunks (mem : ℕ → Byte) (a : ℕ) (ws : List ℕ) :
    Chunk.writeAll mem (wordChunks a ws) = Chunk.write mem ⟨a, ws.flatMap wordBytes⟩ := by
  induction ws generalizing mem a with
  | nil =>
    funext i
    rw [Chunk.write_of_not_covers]
    · rfl
    · rintro ⟨hle, hlt⟩
      exact absurd hle (Nat.not_le.mpr hlt)
  | cons w ws ih =>
    have hlow := Chunk.write_lower_upper mem a (wordBytes w) (ws.flatMap wordBytes)
    rw [length_wordBytes] at hlow
    rw [wordChunks, Chunk.writeAll_cons, ih, List.flatMap_cons, hlow]

end Bytes

section Reading

variable (peek : ℕ → Option Byte)
  {w : ℕ}

def HoldsAt (a : ℕ) (bs : List Byte) : Prop := ∀ i < bs.length, peek (a + i) = bs[i]?

instance (a : ℕ) (bs : List Byte) : Decidable (HoldsAt peek a bs) :=
  inferInstanceAs (Decidable (∀ i < bs.length, _))

def readBytes : ℕ → ℕ → Option (List Byte)
  | _, 0 => some []
  | a, n + 1 => do
    let b ← peek a
    let bs ← readBytes (a + 1) n
    return b :: bs

def readWord (a : ℕ) : Option ℕ := (readBytes peek a 8).map ofLeBytes

/-- The string up to the first zero, if it has less than `n` bytes. -/
def readCStr : ℕ → ℕ → Option (List Byte)
  | 0, _ => none
  | n + 1, a => do
    let b ← peek a
    if b = 0 then return [] else return b :: (← readCStr n (a + 1))

variable {peek} {a : ℕ} {bs cs : List Byte}

theorem holdsAt_append : HoldsAt peek a (bs ++ cs) ↔
    HoldsAt peek a bs ∧ HoldsAt peek (a + bs.length) cs := by
  constructor
  · intro h
    constructor
    · intro i hi
      rw [h i (by rw [List.length_append]; omega), List.getElem?_append_left hi]
    · intro i hi
      rw [Nat.add_assoc, h (bs.length + i) (by rw [List.length_append]; omega),
        List.getElem?_append_right (Nat.le_add_right ..), Nat.add_sub_cancel_left]
  · rintro ⟨hlow, hup⟩ i hi
    rw [List.length_append] at hi
    by_cases hlt : i < bs.length
    · rw [hlow i hlt, List.getElem?_append_left hlt]
    · have hadd : a + i = a + bs.length + (i - bs.length) := by omega
      rw [hadd, hup _ (by omega), List.getElem?_append_right (Nat.le_of_not_lt hlt)]

theorem holdsAt_cons {b : Byte} :
    HoldsAt peek a (b :: bs) ↔ peek a = some b ∧ HoldsAt peek (a + 1) bs := by
  rw [← List.singleton_append, holdsAt_append]
  refine and_congr_left' ⟨fun h => h 0 Nat.zero_lt_one, fun h i hi => ?_⟩
  obtain rfl : i = 0 := by simpa using hi
  exact h

theorem HoldsAt.readBytes (h : HoldsAt peek a bs) : readBytes peek a bs.length = some bs := by
  induction bs generalizing a with
  | nil => rfl
  | cons b bs ih =>
    rw [holdsAt_cons] at h
    rw [List.length_cons, Zinix.readBytes, h.1, ih h.2]
    rfl

theorem HoldsAt.readWord_mod (h : HoldsAt peek a (wordBytes w)) :
    readWord peek a = some (w % 2 ^ 64) := by
  have hread := h.readBytes
  rw [length_wordBytes] at hread
  rw [Zinix.readWord, hread, Option.map_some, wordBytes, ofLeBytes_leBytes]
  norm_num

theorem HoldsAt.readWord (h : HoldsAt peek a (wordBytes w)) (hw : w < 2 ^ 64) :
    readWord peek a = some w := by
  rw [h.readWord_mod, Nat.mod_eq_of_lt hw]

theorem HoldsAt.readCStr (h : HoldsAt peek a (bs ++ [0])) (hbs : 0 ∉ bs) {n : ℕ}
    (hn : bs.length < n) : readCStr peek n a = some bs := by
  induction bs generalizing a n with
  | nil =>
    obtain ⟨n, rfl⟩ := Nat.exists_eq_succ_of_ne_zero (Nat.ne_of_gt hn)
    rw [List.nil_append, holdsAt_cons] at h
    rw [Zinix.readCStr, h.1]
    rfl
  | cons b bs ih =>
    obtain ⟨n, rfl⟩ := Nat.exists_eq_succ_of_ne_zero (Nat.ne_of_gt (Nat.zero_lt_of_lt hn))
    rw [List.cons_append, holdsAt_cons] at h
    have hb : b ≠ 0 := fun hb => hbs (hb ▸ List.mem_cons_self ..)
    have hrest := ih h.2 (fun hin => hbs (List.mem_cons_of_mem _ hin))
      (Nat.lt_of_succ_lt_succ hn)
    rw [Zinix.readCStr, h.1, Option.bind_eq_bind, Option.bind_some, if_neg hb, hrest]
    rfl

theorem HoldsAt.word {ws : List ℕ} (h : HoldsAt peek a (ws.flatMap wordBytes)) {i : ℕ}
    (hi : ws[i]? = some w) : HoldsAt peek (a + 8 * i) (wordBytes w) := by
  induction ws generalizing a i with
  | nil => cases hi
  | cons v ws ih =>
    rw [List.flatMap_cons, holdsAt_append, length_wordBytes] at h
    cases i with
    | zero =>
      cases hi
      exact h.1
    | succ i =>
      have hadd : a + 8 * (i + 1) = a + 8 + 8 * i := by omega
      rw [hadd]
      exact ih h.2 hi

end Reading

end Zinix
