import Zinix.Lib.DyadicBlocks
import Zinix.Mm.Buddy

/-!
# One free area as a set of block indices

The invariant of a free area relates its list, its counter and its bitmap to a finite set
of block indices.
-/

namespace Zinix

open DyadicBlocks

variable {k : ℕ} {S : Finset ℕ}

/-- The first address of the block with index `k` at order `i`. -/
def blockAddr (start i k : ℕ) : ℕ := start + k * 2 ^ i * pageSize

theorem pageSize_pos : 0 < pageSize := by decide

theorem blockAddr_injective (start i : ℕ) : Function.Injective (blockAddr start i) := by
  intro k m h
  unfold blockAddr at h
  have hpos : 0 < 2 ^ i * pageSize := Nat.mul_pos (by positivity) pageSize_pos
  have hmul : k * (2 ^ i * pageSize) = m * (2 ^ i * pageSize) := by
    rw [← Nat.mul_assoc, ← Nat.mul_assoc]
    omega
  exact Nat.eq_of_mul_eq_mul_right hpos hmul

theorem blockAddr_succ (start i k : ℕ) :
    blockAddr start i (k + 1) = blockAddr start i k + 2 ^ i * pageSize := by
  unfold blockAddr
  ring

/-- A block with an even index and the pair it begins have the same address. -/
theorem blockAddr_pair (start i k : ℕ) :
    blockAddr start (i + 1) k = blockAddr start i (2 * k) := by
  unfold blockAddr
  rw [pow_succ]
  ring

theorem blockAddr_le (start : ℕ) {N i : ℕ} (h : (k + 1) * 2 ^ i ≤ N) :
    blockAddr start i k + 2 ^ i * pageSize ≤ start + N * pageSize := by
  have hmul := Nat.mul_le_mul_right pageSize h
  rw [← blockAddr_succ]
  unfold blockAddr
  omega

/-- The bit kept for the pair `j`: whether exactly one of its halves is in the set. -/
def pairBit (S : Finset ℕ) (j : ℕ) : Bool := xor (decide (2 * j ∈ S)) (decide (2 * j + 1 ∈ S))

theorem pairBit_insert (hk : k ∉ S) (j : ℕ) :
    pairBit (insert k S) j = if j = k / 2 then !pairBit S j else pairBit S j := by
  unfold pairBit
  by_cases hlo : 2 * j = k
  · have hj : j = k / 2 := by omega
    rw [if_pos hj]
    simp [hlo, hk]
  · by_cases hhi : 2 * j + 1 = k
    · have hj : j = k / 2 := by omega
      rw [if_pos hj]
      simp [hlo, hhi, hk]
    · have hj : j ≠ k / 2 := by omega
      rw [if_neg hj]
      simp [hlo, hhi]

theorem pairBit_erase (hk : k ∈ S) (j : ℕ) :
    pairBit (S.erase k) j = if j = k / 2 then !pairBit S j else pairBit S j := by
  have h := pairBit_insert (Finset.notMem_erase k S) j
  rw [Finset.insert_erase hk] at h
  split_ifs at h ⊢ with hj
  · rw [h, Bool.not_not]
  · exact h.symm

/-- The area at order `i` of a range of `N` pages holds the blocks with indices
in `S`. -/
structure AreaInv (start N i : ℕ) (fa : FreeArea) (S : Finset ℕ) : Prop where
  nodup : fa.list.Nodup
  mem_list : ∀ v, v ∈ fa.list ↔ ∃ k ∈ S, v = blockAddr start i k
  freeCnt_eq : fa.freeCnt = fa.list.length
  order_eq : fa.order = i
  start_eq : fa.startVaddr = start
  inside : ∀ k ∈ S, (k + 1) * 2 ^ i ≤ N
  cap_lt : ∀ k, (k + 1) * 2 ^ i ≤ N → k / 2 < fa.bitmap.cap
  bit_eq : ∀ j, fa.bitmap.bit j = pairBit S j

namespace AreaInv

variable {start N i : ℕ} {fa : FreeArea} {S : Finset ℕ}
  {k : ℕ}

theorem list_length (h : AreaInv start N i fa S) : fa.list.length = S.card := by
  have himage : fa.list.toFinset = S.image (blockAddr start i) := by
    ext v
    rw [List.mem_toFinset, h.mem_list, Finset.mem_image]
    constructor
    · rintro ⟨k, hk, rfl⟩
      exact ⟨k, hk, rfl⟩
    · rintro ⟨k, hk, rfl⟩
      exact ⟨k, hk, rfl⟩
  rw [← List.toFinset_card_of_nodup h.nodup, himage,
    Finset.card_image_of_injective _ (blockAddr_injective start i)]

theorem freeCnt_card (h : AreaInv start N i fa S) : fa.freeCnt = S.card :=
  h.freeCnt_eq.trans h.list_length

theorem card_le (h : AreaInv start N i fa S) : S.card * 2 ^ i ≤ N := by
  by_cases hS : S.Nonempty
  · have hsub : S ⊆ Finset.range (S.max' hS + 1) := by
      intro k hk
      have := S.le_max' k hk
      rw [Finset.mem_range]
      omega
    have hcard := Finset.card_le_card hsub
    rw [Finset.card_range] at hcard
    exact (Nat.mul_le_mul_right _ hcard).trans (h.inside _ (S.max'_mem hS))
  · rw [Finset.not_nonempty_iff_eq_empty.mp hS]
    simp

/-- With `k` itself absent, the bit of its pair tells whether the buddy is there. -/
theorem bit_pair (h : AreaInv start N i fa S) (hk : k ∉ S) :
    fa.bitmap.bit (k / 2) = decide (sibling k ∈ S) := by
  rw [h.bit_eq]
  unfold pairBit sibling
  split_ifs with hpar
  · rw [show 2 * (k / 2) = k by omega]
    simp [hk]
  · rw [show 2 * (k / 2) = k - 1 by omega, show k - 1 + 1 = k by omega]
    simp [hk]

theorem getBitmapIndex_eq (h : AreaInv start N i fa S) (hi : i < maxOrder) (k : ℕ) :
    fa.getBitmapIndex (blockAddr start i k) = .ok (some (k / 2)) := by
  have hpow : order2pages i ≠ 0 := (order2pages_pos hi).ne'
  have hpg : (blockAddr start i k - start) / pageSize = k * 2 ^ i := by
    rw [blockAddr, Nat.add_sub_cancel_left, Nat.mul_div_cancel _ pageSize_pos]
  unfold FreeArea.getBitmapIndex
  rw [h.order_eq, h.start_eq]
  simp only [show ¬blockAddr start i k < start by unfold blockAddr; omega, if_false,
    subUsize_ok (show start ≤ blockAddr start i k by unfold blockAddr; omega), Checked.ok_bind,
    hpg, divUsize_ok hpow, remUsize_ok hpow]
  rw [order2pages_of_lt hi]
  simp

theorem getBuddyVaddr_eq (h : AreaInv start N i fa S) (hi : i < maxOrder)
    (hfit : blockAddr start i (sibling k) < wordSize) :
    fa.getBuddyVaddr (blockAddr start i k) = .ok (blockAddr start i (sibling k)) := by
  have hpow := order2pages_of_lt hi
  have hint : order2pages i * pageSize < wordSize := by
    have : order2pages i ≤ 2 ^ 10 := by
      rw [hpow]
      exact Nat.pow_le_pow_right (by omega) (by unfold maxOrder at hi; omega)
    unfold pageSize wordSize
    omega
  have hne : order2pages i * pageSize ≠ 0 :=
    (Nat.mul_pos (order2pages_pos hi) pageSize_pos).ne'
  have hindex : (blockAddr start i k - start) / (order2pages i * pageSize) = k := by
    rw [blockAddr, Nat.add_sub_cancel_left, hpow, Nat.mul_assoc]
    exact Nat.mul_div_cancel _ (Nat.mul_pos (by positivity) pageSize_pos)
  unfold FreeArea.getBuddyVaddr
  rw [h.order_eq, h.start_eq]
  simp only [mulUsize_ok hint, Checked.ok_bind,
    subUsize_ok (show start ≤ blockAddr start i k by unfold blockAddr; omega),
    divUsize_ok hne, hindex]
  unfold sibling at hfit ⊢
  split_ifs with hpar
  · simp only [hpar, if_true, blockAddr_succ] at hfit
    rw [hpow, addUsize_ok hfit, blockAddr_succ]
  · have hprev := blockAddr_succ start i (k - 1)
    rw [show k - 1 + 1 = k by omega] at hprev
    rw [hpow, subUsize_ok (by omega), hprev, Nat.add_sub_cancel]

theorem mem_iff (h : AreaInv start N i fa S) (k : ℕ) : blockAddr start i k ∈ fa.list ↔ k ∈ S := by
  rw [h.mem_list]
  constructor
  · rintro ⟨m, hm, heq⟩
    rwa [blockAddr_injective start i heq]
  · intro hk
    exact ⟨k, hk, rfl⟩

theorem freeCnt_succ_lt (h : AreaInv start N i fa S) (hfit : start + N * pageSize < wordSize) :
    fa.freeCnt + 1 < wordSize := by
  have hcard := h.card_le
  have hpow : 1 ≤ 2 ^ i := Nat.one_le_two_pow
  have hle : S.card ≤ N := by nlinarith
  rw [h.freeCnt_card]
  simp only [pageSize, wordSize] at hfit ⊢
  omega

theorem removeAt_findIdx {list : List ℕ} {v : ℕ} (hv : v ∈ list) :
    FreeArea.removeAt list (list.findIdx (fun area => v == area)) = .ok (v, list.erase v) := by
  have hidx : list.findIdx (fun area => v == area) = list.idxOf v := by
    unfold List.idxOf
    congr 1
    funext area
    exact Bool.beq_comm
  have hlt := List.idxOf_lt_length_of_mem hv
  unfold FreeArea.removeAt
  rw [hidx, List.getElem?_eq_getElem hlt, List.getElem_idxOf, List.eraseIdx_idxOf_eq_erase]

/-- Removing a block keeps the invariant once its pair's bit is turned over. -/
theorem erase (h : AreaInv start N i fa S) (hk : k ∈ S) {fa' : FreeArea} (hnodup : fa'.list.Nodup)
    (hlist : ∀ v, v ∈ fa'.list ↔ v ∈ fa.list ∧ v ≠ blockAddr start i k)
    (hcnt : fa'.freeCnt = fa'.list.length) (horder : fa'.order = fa.order)
    (hstart : fa'.startVaddr = fa.startVaddr) (hcap : fa'.bitmap.cap = fa.bitmap.cap)
    (hbit : ∀ p, fa'.bitmap.bit p =
      if p = k / 2 then !fa.bitmap.bit p else fa.bitmap.bit p) :
    AreaInv start N i fa' (S.erase k) where
  nodup := hnodup
  mem_list := by
    intro v
    rw [hlist, h.mem_list]
    constructor
    · rintro ⟨⟨m, hm, rfl⟩, hne⟩
      exact ⟨m, Finset.mem_erase.mpr ⟨fun heq => hne (by rw [heq]), hm⟩, rfl⟩
    · rintro ⟨m, hm, rfl⟩
      rw [Finset.mem_erase] at hm
      exact ⟨⟨m, hm.2, rfl⟩, fun heq => hm.1 (blockAddr_injective start i heq)⟩
  freeCnt_eq := hcnt
  order_eq := horder.trans h.order_eq
  start_eq := hstart.trans h.start_eq
  inside := fun m hm => h.inside m (Finset.mem_of_mem_erase hm)
  cap_lt := fun m hm => hcap ▸ h.cap_lt m hm
  bit_eq := by
    intro j
    rw [hbit, pairBit_erase hk, h.bit_eq]

theorem lower_blockAddr (start i k : ℕ) :
    (if blockAddr start i (sibling k) < blockAddr start i k then
      blockAddr start i (sibling k) else blockAddr start i k) =
        blockAddr start (i + 1) (k / 2) := by
  have hpos : 0 < 2 ^ i * pageSize := Nat.mul_pos (by positivity) pageSize_pos
  rw [blockAddr_pair]
  unfold sibling
  split_ifs with hpar hlt hlt
  · rw [blockAddr_succ] at hlt
    omega
  · rw [show 2 * (k / 2) = k by omega]
  · rw [show 2 * (k / 2) = k - 1 by omega]
  · have hprev := blockAddr_succ start i (k - 1)
    rw [show k - 1 + 1 = k by omega] at hprev
    omega

theorem insertArea_merge (h : AreaInv start N i fa S) (hfit : start + N * pageSize < wordSize)
    (hk : k ∉ S) (hi : i + 1 < maxOrder) (hin : (k + 1) * 2 ^ i ≤ N) (hs : sibling k ∈ S) :
    ∃ fa', fa.insertArea (blockAddr start i k) =
        .ok (some (blockAddr start (i + 1) (k / 2)), fa') ∧
      AreaInv start N i fa' (S.erase (sibling k)) := by
  have hcnt := h.freeCnt_succ_lt hfit
  have hpos : 1 ≤ fa.freeCnt := by
    rw [h.freeCnt_card]
    exact Finset.card_pos.mpr ⟨_, hs⟩
  have hcap := h.cap_lt k hin
  have hmem := (h.mem_iff (sibling k)).mpr hs
  have hend := blockAddr_le start (h.inside _ hs)
  have hbuddy := h.getBuddyVaddr_eq (by omega) (k := k) (by omega)
  have hset : fa.bitmap.bit (k / 2) = true := by simpa [hs] using h.bit_pair hk
  have hmax : (i == maxOrder - 1) = false := by
    rw [beq_eq_false_iff_ne]
    omega
  obtain ⟨bitmap, hclear, hcap', hbits⟩ := Bitmap.clear_spec
    (show k / 2 < (fa.bitmap.adjustLen (k / 2)).cap by simpa using hcap)
  refine ⟨{ fa with
    list := fa.list.erase (blockAddr start i (sibling k)), bitmap := bitmap,
    freeCnt := fa.freeCnt - 1 }, ?_, ?_⟩
  · unfold FreeArea.insertArea
    simp only [addUsize_ok hcnt, Checked.ok_bind, h.getBitmapIndex_eq (by omega) k,
      Bitmap.get_eq _ _ hcap, hset, h.order_eq, hmax, Bool.not_false, Bool.and_true, if_true,
      hbuddy, removeAt_findIdx hmem, subUsize_ok (show 2 ≤ fa.freeCnt + 1 by omega), hclear,
      Checked.pure_eq, lower_blockAddr]
    rfl
  · apply h.erase hs
    · exact h.nodup.erase _
    · intro v
      rw [h.nodup.mem_erase_iff, and_comm]
    · change fa.freeCnt - 1 = (fa.list.erase _).length
      rw [List.length_erase_of_mem hmem, h.freeCnt_eq]
    · rfl
    · rfl
    · simpa using hcap'
    · intro p
      rw [hbits, sibling_div, Bitmap.adjustLen_bit]
      split_ifs with hp
      · rw [hp, hset, Bool.not_true]
      · rfl

theorem insertArea_add (h : AreaInv start N i fa S) (hfit : start + N * pageSize < wordSize)
    (hk : k ∉ S) (hi : i < maxOrder) (hin : (k + 1) * 2 ^ i ≤ N)
    (hs : ¬(i + 1 < maxOrder ∧ sibling k ∈ S)) :
    ∃ fa', fa.insertArea (blockAddr start i k) = .ok (none, fa') ∧
      AreaInv start N i fa' (insert k S) := by
  have hcap := h.cap_lt k hin
  have hnotin : blockAddr start i k ∉ fa.list := fun hmem => hk ((h.mem_iff k).mp hmem)
  have hbranch : (fa.bitmap.bit (k / 2) && !(i == maxOrder - 1)) = false := by
    rw [h.bit_pair hk]
    by_cases hmax : i = maxOrder - 1
    · simp [hmax]
    · have : sibling k ∉ S := fun hmem => hs ⟨by omega, hmem⟩
      simp [this]
  obtain ⟨bitmap, hturn, hcap', hbits⟩ := Bitmap.turnOver_spec
    (show k / 2 < (fa.bitmap.adjustLen (k / 2)).cap by simpa using hcap)
  refine ⟨{ fa with
    list := fa.list ++ [blockAddr start i k], bitmap := bitmap,
    freeCnt := fa.freeCnt + 1 }, ?_, ?_⟩
  · unfold FreeArea.insertArea
    simp only [addUsize_ok (h.freeCnt_succ_lt hfit), Checked.ok_bind, h.getBitmapIndex_eq hi k,
      Bitmap.get_eq _ _ hcap, h.order_eq, hbranch, Bool.false_eq_true, if_false, hturn,
      Checked.pure_eq]
  · constructor
    · exact List.nodup_append'.mpr ⟨h.nodup, List.nodup_singleton _, by simpa using hnotin⟩
    · intro v
      simp only [List.mem_append, List.mem_singleton, h.mem_list, Finset.mem_insert]
      constructor
      · rintro (⟨m, hm, rfl⟩ | rfl)
        · exact ⟨m, .inr hm, rfl⟩
        · exact ⟨k, .inl rfl, rfl⟩
      · rintro ⟨m, rfl | hm, rfl⟩
        · exact .inr rfl
        · exact .inl ⟨m, hm, rfl⟩
    · change fa.freeCnt + 1 = (fa.list ++ [_]).length
      rw [List.length_append, List.length_singleton, h.freeCnt_eq]
    · exact h.order_eq
    · exact h.start_eq
    · intro m hm
      rcases Finset.mem_insert.mp hm with rfl | hm
      · exact hin
      · exact h.inside m hm
    · intro m hm
      have := h.cap_lt m hm
      rw [Bitmap.adjustLen_cap] at hcap'
      exact hcap' ▸ this
    · intro j
      change bitmap.bit j = _
      rw [hbits, Bitmap.adjustLen_bit, pairBit_insert hk, h.bit_eq]

theorem allocArea_empty (h : AreaInv start N i fa ∅) : fa.allocArea = .ok (none, fa) := by
  have hzero : fa.freeCnt = 0 := by rw [h.freeCnt_card, Finset.card_empty]
  simp [FreeArea.allocArea, hzero]

theorem allocArea_take (h : AreaInv start N i fa S) (hi : i < maxOrder) (hS : S ≠ ∅) :
    ∃ k fa', k ∈ S ∧ fa.allocArea = .ok (some (blockAddr start i k), fa') ∧
      AreaInv start N i fa' (S.erase k) := by
  have hcnt : fa.freeCnt ≠ 0 := by
    rw [h.freeCnt_card]
    exact (Finset.card_pos.mpr (Finset.nonempty_iff_ne_empty.mpr hS)).ne'
  have hne : fa.list ≠ [] := by
    intro hnil
    rw [h.freeCnt_eq, hnil] at hcnt
    exact hcnt rfl
  obtain ⟨k, hk, hlast⟩ := (h.mem_list _).mp (List.getLast_mem hne)
  have hsplit := List.dropLast_append_getLast hne
  have hnodup := h.nodup
  rw [hlast] at hsplit
  rw [← hsplit, List.nodup_append'] at hnodup
  obtain ⟨bitmap, hturn, hcap', hbits⟩ := Bitmap.turnOver_spec (h.cap_lt k (h.inside k hk))
  refine ⟨k, { fa with
    list := fa.list.dropLast, bitmap := bitmap, freeCnt := fa.freeCnt - 1 }, hk, ?_, ?_⟩
  · unfold FreeArea.allocArea
    simp only [hcnt, if_false, subUsize_ok (show 1 ≤ fa.freeCnt by omega), Checked.ok_bind,
      List.getLast?_eq_getLast_of_ne_nil hne, hlast, Checked.unwrap_some,
      h.getBitmapIndex_eq hi k, hturn, Checked.pure_eq]
  · apply h.erase hk
    · exact hnodup.1
    · intro v
      change v ∈ fa.list.dropLast ↔ _
      rw [← hsplit]
      simp only [List.dropLast_concat, List.mem_append, List.mem_singleton]
      constructor
      · intro hv
        exact ⟨.inl hv, fun heq => hnodup.2.2 hv (by simpa using heq)⟩
      · rintro ⟨hv | hv, hne⟩
        · exact hv
        · exact absurd hv hne
    · change fa.freeCnt - 1 = fa.list.dropLast.length
      rw [List.length_dropLast, h.freeCnt_eq]
    · rfl
    · rfl
    · exact hcap'
    · exact hbits

end AreaInv

end Zinix
