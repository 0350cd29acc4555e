import Zinix.Mm.Pte

/-!
# Entries and their words

In the source the three parts of the page number are 16-bit fields, of which nine bits are
used. Here the entries have these fields.
-/

namespace Zinix

/-- An entry with its fields as wide as they are stored. -/
@[ext] structure RawPTE where
  flags : BitVec 8
  pnn0 : BitVec 16
  pnn1 : BitVec 16
  pnn2 : BitVec 16
  deriving DecidableEq, Repr

namespace RawPTE

variable {i : ℕ} {e : RawPTE} {paddr : BitVec 64}

instance : Inhabited RawPTE := ⟨⟨0, 0, 0, 0⟩⟩

/-- `Into<usize>`. -/
def toWord (e : RawPTE) : BitVec 64 :=
  0#64 ||| e.flags.setWidth 64 ||| e.pnn0.setWidth 64 <<< 10 ||| e.pnn1.setWidth 64 <<< 19 |||
    e.pnn2.setWidth 64 <<< 28

/-- `From<usize>`. -/
def ofWord (v : BitVec 64) : RawPTE where
  flags := v.setWidth 8
  pnn0 := (v >>> 10 &&& 0x1FF#64).setWidth 16
  pnn1 := (v >>> 19 &&& 0x1FF#64).setWidth 16
  pnn2 := (v >>> 28 &&& 0x1FF#64).setWidth 16

def setFlags (e : RawPTE) (flagMask : BitVec 8) : RawPTE := { e with flags := e.flags ||| flagMask }

def clearFlags (e : RawPTE) (flagMask : BitVec 8) : RawPTE :=
  { e with flags := e.flags &&& (flagMask ^^^ 0xFF) }

def clearAllFlags (e : RawPTE) : RawPTE := { e with flags := 0 }

def setPpnByPaddr (e : RawPTE) (paddr : BitVec 64) : RawPTE :=
  let np := paddr >>> 12
  { e with
    pnn0 := (np &&& 0x1FF#64).setWidth 16
    pnn1 := (np >>> 9 &&& 0x1FF#64).setWidth 16
    pnn2 := (np >>> 18 &&& 0x1FF#64).setWidth 16 }

def getPointPaddr (e : RawPTE) : BitVec 64 :=
  (e.pnn0.setWidth 64 ||| e.pnn1.setWidth 64 <<< 9 ||| e.pnn2.setWidth 64 <<< 18) <<< 12

structure Fits (e : RawPTE) : Prop where
  pnn0 : ∀ j, 9 ≤ j → e.pnn0.getLsbD j = false
  pnn1 : ∀ j, 9 ≤ j → e.pnn1.getLsbD j = false
  pnn2 : ∀ j, 9 ≤ j → e.pnn2.getLsbD j = false

/-- The nine bits of a word from bit `k` on. -/
def part (v : BitVec 64) (k : ℕ) : BitVec 16 := (v >>> k &&& 0x1FF#64).setWidth 16

theorem getLsbD_part (v : BitVec 64) (k j : ℕ) :
    (part v k).getLsbD j = (decide (j < 9) && v.getLsbD (k + j)) := by
  have hmask : (0x1FF#64).getLsbD j = decide (j < 9) := by
    have htest := Nat.testBit_two_pow_sub_one 9 j
    rw [BitVec.getLsbD_ofNat]
    by_cases hj : j < 9
    · have hj' : j < 64 := by omega
      simpa [hj, hj'] using htest
    · simpa [hj] using fun _ => htest
  rw [part, BitVec.getLsbD_setWidth, BitVec.getLsbD_and, BitVec.getLsbD_ushiftRight, hmask]
  by_cases hj : j < 9
  · have hj' : j < 16 := by omega
    simp [hj, hj']
  · simp [hj]

theorem getLsbD_shifted (x : BitVec 16) (k : ℕ) (hi : i < 64) :
    (x.setWidth 64 <<< k).getLsbD i = (decide (k ≤ i) && x.getLsbD (i - k)) := by
  have hk : i - k < 64 := by omega
  rw [BitVec.getLsbD_shiftLeft, BitVec.getLsbD_setWidth]
  by_cases hle : k ≤ i
  · simp [hi, hk, hle, Nat.not_lt.mpr hle]
  · simp [hle, Nat.not_le.mp hle]

theorem getLsbD_toWord (e : RawPTE) (hi : i < 64) :
    e.toWord.getLsbD i = (e.flags.getLsbD i || (decide (10 ≤ i) && e.pnn0.getLsbD (i - 10)) ||
      (decide (19 ≤ i) && e.pnn1.getLsbD (i - 19)) ||
      (decide (28 ≤ i) && e.pnn2.getLsbD (i - 28))) := by
  rw [toWord, BitVec.zero_or, BitVec.getLsbD_or, BitVec.getLsbD_or, BitVec.getLsbD_or,
    getLsbD_shifted _ _ hi, getLsbD_shifted _ _ hi, getLsbD_shifted _ _ hi,
    BitVec.getLsbD_setWidth, decide_eq_true hi, Bool.true_and]

theorem getLsbD_getPointPaddr (e : RawPTE) (hi : i < 64) :
    e.getPointPaddr.getLsbD i = (decide (12 ≤ i) && (e.pnn0.getLsbD (i - 12) ||
      (decide (21 ≤ i) && e.pnn1.getLsbD (i - 21)) ||
      (decide (30 ≤ i) && e.pnn2.getLsbD (i - 30)))) := by
  have hi' : i - 12 < 64 := by omega
  rw [getPointPaddr, BitVec.getLsbD_shiftLeft, BitVec.getLsbD_or, BitVec.getLsbD_or,
    getLsbD_shifted _ _ hi', getLsbD_shifted _ _ hi', BitVec.getLsbD_setWidth, Nat.sub_sub,
    Nat.sub_sub]
  grind

theorem flags_above (e : RawPTE) (hi : 8 ≤ i) : e.flags.getLsbD i = false :=
  BitVec.getLsbD_of_ge _ _ hi

theorem part_above (v : BitVec 64) (k : ℕ) {j : ℕ} (hj : 9 ≤ j) : (part v k).getLsbD j = false := by
  rw [getLsbD_part, decide_eq_false (Nat.not_lt.mpr hj), Bool.false_and]

theorem fits_ofWord (v : BitVec 64) : (ofWord v).Fits :=
  ⟨fun _ => part_above v 10, fun _ => part_above v 19, fun _ => part_above v 28⟩

theorem Fits.ofWord_toWord (h : e.Fits) : ofWord e.toWord = e := by
  have hflags : e.toWord.setWidth 8 = e.flags := by
    apply BitVec.eq_of_getLsbD_eq
    intro i hi
    rw [BitVec.getLsbD_setWidth, getLsbD_toWord e (by omega)]
    grind
  have hpnn0 : part e.toWord 10 = e.pnn0 := by
    apply BitVec.eq_of_getLsbD_eq
    intro j hj
    rw [getLsbD_part, getLsbD_toWord e (by omega), e.flags_above (by omega)]
    have := h.pnn0 j
    grind
  have hpnn1 : part e.toWord 19 = e.pnn1 := by
    apply BitVec.eq_of_getLsbD_eq
    intro j hj
    rw [getLsbD_part, getLsbD_toWord e (by omega), e.flags_above (by omega), h.pnn0 _ (by omega)]
    have := h.pnn1 j
    grind
  have hpnn2 : part e.toWord 28 = e.pnn2 := by
    apply BitVec.eq_of_getLsbD_eq
    intro j hj
    rw [getLsbD_part, getLsbD_toWord e (by omega), e.flags_above (by omega), h.pnn0 _ (by omega),
      h.pnn1 _ (by omega)]
    have := h.pnn2 j
    grind
  exact RawPTE.ext hflags hpnn0 hpnn1 hpnn2

def Unused (i : ℕ) : Prop := i = 8 ∨ i = 9 ∨ 37 ≤ i

theorem toWord_ofWord {v : BitVec 64} (hv : ∀ i, Unused i → v.getLsbD i = false) :
    (ofWord v).toWord = v := by
  apply BitVec.eq_of_getLsbD_eq
  intro i hi
  have hflags : (v.setWidth 8).getLsbD i = (decide (i < 8) && v.getLsbD i) :=
    BitVec.getLsbD_setWidth ..
  rw [getLsbD_toWord _ hi]
  change ((v.setWidth 8).getLsbD i || (decide (10 ≤ i) && (part v 10).getLsbD (i - 10)) ||
    (decide (19 ≤ i) && (part v 19).getLsbD (i - 19)) ||
    (decide (28 ≤ i) && (part v 28).getLsbD (i - 28))) = v.getLsbD i
  have := hv i
  rw [hflags, getLsbD_part, getLsbD_part, getLsbD_part]
  grind [Unused]

theorem setPpnByPaddr_eq (e : RawPTE) (paddr : BitVec 64) : e.setPpnByPaddr paddr =
    ⟨e.flags, part paddr 12, part paddr 21, part paddr 30⟩ := by
  simp only [setPpnByPaddr, part, ← BitVec.shiftRight_add]

theorem fits_setPpnByPaddr (e : RawPTE) (paddr : BitVec 64) : (e.setPpnByPaddr paddr).Fits := by
  rw [setPpnByPaddr_eq]
  exact ⟨fun _ => part_above paddr 12, fun _ => part_above paddr 21, fun _ => part_above paddr 30⟩

structure IsPage (paddr : BitVec 64) : Prop where
  lt : paddr.toNat < 2 ^ 39
  aligned : paddr.toNat % 4096 = 0

theorem IsPage.low (h : IsPage paddr) (hi : i < 12) :
    paddr.getLsbD i = false := by
  obtain ⟨k, hk⟩ := Nat.dvd_of_mod_eq_zero h.aligned
  rw [BitVec.getLsbD, hk, show 4096 = 2 ^ 12 from rfl, Nat.testBit_two_pow_mul]
  simp [Nat.not_le.mpr hi]

theorem IsPage.high (h : IsPage paddr) (hi : 39 ≤ i) :
    paddr.getLsbD i = false :=
  Nat.testBit_lt_two_pow (h.lt.trans_le (Nat.pow_le_pow_right two_pos hi))

theorem IsPage.getPointPaddr (h : IsPage paddr) (e : RawPTE) :
    (e.setPpnByPaddr paddr).getPointPaddr = paddr := by
  apply BitVec.eq_of_getLsbD_eq
  intro i hi
  have hlow : i < 12 → _ := h.low
  have hhigh : 39 ≤ i → _ := h.high
  rw [getLsbD_getPointPaddr _ hi, setPpnByPaddr_eq, getLsbD_part, getLsbD_part, getLsbD_part]
  grind

/-- The entry of the architecture: the page number from bit 10 on, and the flags below. -/
def sv39 (paddr : BitVec 64) (flags : BitVec 8) : BitVec 64 :=
  paddr >>> 12 <<< 10 ||| flags.setWidth 64

theorem IsPage.toWord (h : IsPage paddr) :
    (e.setPpnByPaddr paddr).toWord = sv39 paddr e.flags := by
  apply BitVec.eq_of_getLsbD_eq
  intro i hi
  have hhigh : 39 ≤ 2 + i → _ := h.high
  have hflags : 8 ≤ i → e.flags.getLsbD i = false := e.flags_above
  have hsplit : 10 ≤ i → 12 + (i - 10) = 2 + i := by omega
  rw [getLsbD_toWord _ hi, setPpnByPaddr_eq, sv39, BitVec.getLsbD_or, BitVec.getLsbD_shiftLeft,
    BitVec.getLsbD_ushiftRight, BitVec.getLsbD_setWidth, getLsbD_part, getLsbD_part, getLsbD_part]
  grind

def built (paddr : BitVec 64) (flags : BitVec 8) : RawPTE :=
  ((default : RawPTE).setPpnByPaddr paddr).setFlags flags

/-- The conversions of entries to words and back, and the accessors of their two parts. -/
structure EncodesRight : Prop where
  built : ∀ paddr flags, IsPage paddr → ofWord (built paddr flags).toWord = built paddr flags ∧
    (built paddr flags).getPointPaddr = paddr ∧ (built paddr flags).flags = flags ∧
      (built paddr flags).toWord = sv39 paddr flags
  words : ∀ v : BitVec 64, (∀ i, Unused i → v.getLsbD i = false) → (ofWord v).toWord = v
  setFlags : ∀ (e : RawPTE) (m : BitVec 8), (e.setFlags m).getPointPaddr = e.getPointPaddr
  clearFlags : ∀ (e : RawPTE) (m : BitVec 8), (e.clearFlags m).getPointPaddr = e.getPointPaddr
  clearAllFlags : ∀ e : RawPTE, e.clearAllFlags.getPointPaddr = e.getPointPaddr
  setPpnByPaddr : ∀ (e : RawPTE) (paddr : BitVec 64), (e.setPpnByPaddr paddr).flags = e.flags

theorem encodesRight : EncodesRight where
  built := by
    intro paddr flags hpage
    have hset : RawPTE.built paddr flags = RawPTE.setPpnByPaddr ⟨flags, 0, 0, 0⟩ paddr :=
      RawPTE.ext BitVec.zero_or rfl rfl rfl
    rw [hset]
    exact ⟨(fits_setPpnByPaddr ..).ofWord_toWord, hpage.getPointPaddr _, rfl, hpage.toWord⟩
  words := fun _ hv => toWord_ofWord hv
  setFlags := fun _ _ => rfl
  clearFlags := fun _ _ => rfl
  clearAllFlags := fun _ => rfl
  setPpnByPaddr := fun _ _ => rfl

/-- The entry of the other modules, whose parts have nine bits. -/
def narrow (e : RawPTE) : PTE := ⟨e.flags, e.pnn0.setWidth 9, e.pnn1.setWidth 9, e.pnn2.setWidth 9⟩

theorem narrow_ofWord (v : BitVec 64) : (ofWord v).narrow = PTE.ofWord v := by
  have hpart : ∀ k, (part v k).setWidth 9 = (v >>> k).setWidth 9 := by
    intro k
    apply BitVec.eq_of_getLsbD_eq
    intro j hj
    rw [BitVec.getLsbD_setWidth, BitVec.getLsbD_setWidth, getLsbD_part, BitVec.getLsbD_ushiftRight]
    simp [hj]
  simp only [narrow, PTE.ofWord, PTE.mk.injEq]
  exact ⟨rfl, hpart 10, hpart 19, hpart 28⟩

theorem Fits.narrow_toWord (h : e.Fits) : e.narrow.toWord = e.toWord := by
  have hwiden : ∀ x : BitVec 16, (∀ j, 9 ≤ j → x.getLsbD j = false) →
      (x.setWidth 9).setWidth 64 = x.setWidth 64 := by
    intro x hx
    apply BitVec.eq_of_getLsbD_eq
    intro j hj
    have := hx j
    rw [BitVec.getLsbD_setWidth, BitVec.getLsbD_setWidth, BitVec.getLsbD_setWidth]
    grind
  rw [toWord, BitVec.zero_or, PTE.toWord, narrow]
  simp only [hwiden _ h.pnn0, hwiden _ h.pnn1, hwiden _ h.pnn2]

theorem narrow_setPpnByPaddr (e : RawPTE) (paddr : BitVec 64) :
    (e.setPpnByPaddr paddr).narrow = e.narrow.setPpnByPaddr paddr.toNat := by
  have hpart : ∀ k, (part paddr k).setWidth 9 = BitVec.ofNat 9 (paddr.toNat >>> k) := by
    intro k
    apply BitVec.eq_of_getLsbD_eq
    intro j hj
    rw [BitVec.getLsbD_setWidth, getLsbD_part, BitVec.getLsbD_ofNat, Nat.testBit_shiftRight]
    simp [hj, BitVec.getLsbD]
  rw [setPpnByPaddr_eq, narrow, hpart, hpart, hpart]
  simp only [PTE.setPpnByPaddr, narrow, ← Nat.shiftRight_add]

theorem Fits.getPointPaddr_narrow (h : e.Fits) :
    e.narrow.getPointPaddr = e.getPointPaddr.toNat := by
  have hbit : ∀ x : BitVec 16, (∀ j, 9 ≤ j → x.getLsbD j = false) →
      ∀ j, (x.setWidth 9).toNat.testBit j = x.getLsbD j := by
    intro x hx j
    have := hx j
    rw [BitVec.testBit_toNat, BitVec.getLsbD_setWidth]
    grind
  apply Nat.eq_of_testBit_eq
  intro i
  rw [PTE.getPointPaddr, narrow, Nat.testBit_shiftLeft, Nat.testBit_or, Nat.testBit_or,
    Nat.testBit_shiftLeft, Nat.testBit_shiftLeft, hbit _ h.pnn0, hbit _ h.pnn1, hbit _ h.pnn2,
    BitVec.testBit_toNat, Nat.sub_sub, Nat.sub_sub]
  by_cases hi : i < 64
  · rw [getLsbD_getPointPaddr e hi]
    grind
  · rw [BitVec.getLsbD_of_ge _ _ (Nat.not_lt.mp hi), h.pnn0 _ (by omega), h.pnn1 _ (by omega),
      h.pnn2 _ (by omega)]
    simp

end RawPTE

end Zinix
