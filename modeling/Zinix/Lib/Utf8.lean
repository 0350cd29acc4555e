import Mathlib.Tactic

/-!
# Lossy decoding of UTF-8

Where no character begins, the bytes that could begin one, up to the first that rules it
out, are replaced by U+FFFD.
-/

namespace Zinix.Utf8

def encode (text : List Char) : List UInt8 := text.flatMap String.utf8EncodeChar

/-- The bytes of a character by the first of them, and 0 for a byte that is never first. -/
def width (b : UInt8) : ℕ :=
  if b < 0x80 then 1
  else if 0xC2 ≤ b ∧ b ≤ 0xDF then 2
  else if 0xE0 ≤ b ∧ b ≤ 0xEF then 3
  else if 0xF0 ≤ b ∧ b ≤ 0xF4 then 4
  else 0

def isCont (b : UInt8) : Bool := decide (0x80 ≤ b ∧ b ≤ 0xBF)

/-- The byte can follow the first byte `b` of a character of more than two bytes. -/
def secondOk (b c : UInt8) : Bool :=
  if b = 0xE0 then decide (0xA0 ≤ c ∧ c ≤ 0xBF)
  else if b = 0xED then decide (0x80 ≤ c ∧ c ≤ 0x9F)
  else if b = 0xF0 then decide (0x90 ≤ c ∧ c ≤ 0xBF)
  else if b = 0xF4 then decide (0x80 ≤ c ∧ c ≤ 0x8F)
  else isCont c

/-- The number of bytes that are replaced together where no character begins. -/
def badLength : List UInt8 → ℕ
  | b :: c :: rest =>
    if 3 ≤ width b ∧ secondOk b c = true then
      match rest with
      | d :: _ => if width b = 4 ∧ isCont d = true then 3 else 2
      | [] => 2
    else 1
  | _ => 1

def decodeChar (bytes : List UInt8) : Option Char := bytes.toByteArray.utf8DecodeChar? 0

/-- The text of the bytes after the first `skip` ones. -/
def lossyFrom : ℕ → List UInt8 → List Char
  | _, [] => []
  | skip + 1, _ :: rest => lossyFrom skip rest
  | 0, b :: rest =>
    match decodeChar (b :: rest) with
    | some c => c :: lossyFrom (c.utf8Size - 1) rest
    | none => '\ufffd' :: lossyFrom (badLength (b :: rest) - 1) rest

def lossy (bytes : List UInt8) : List Char := lossyFrom 0 bytes

variable {b : UInt8} {bytes rest : List UInt8} {text : List Char} {c : Char}

@[simp] theorem encode_nil : encode [] = [] := rfl

@[simp] theorem encode_cons (c : Char) (text : List Char) :
    encode (c :: text) = String.utf8EncodeChar c ++ encode text := rfl

@[simp] theorem encode_append (text text' : List Char) :
    encode (text ++ text') = encode text ++ encode text' := List.flatMap_append ..

theorem lossyFrom_eq (skip : ℕ) (bytes : List UInt8) :
    lossyFrom skip bytes = lossy (bytes.drop skip) := by
  induction skip generalizing bytes with
  | zero => rfl
  | succ skip ih =>
    cases bytes with
    | nil => rfl
    | cons b rest => exact ih rest

@[simp] theorem lossy_nil : lossy [] = [] := rfl

theorem lossy_ne_nil (h : bytes ≠ []) : lossy bytes ≠ [] := by
  cases bytes with
  | nil => exact absurd rfl h
  | cons b rest =>
    rw [lossy, lossyFrom]
    split <;> exact List.cons_ne_nil _ _

theorem decodeChar_encodeChar (c : Char) (rest : List UInt8) :
    decodeChar (String.utf8EncodeChar c ++ rest) = some c := by
  rw [decodeChar, List.toByteArray_append]
  exact ByteArray.utf8DecodeChar?_utf8EncodeChar_append

theorem lossy_encodeChar (c : Char) (rest : List UInt8) :
    lossy (String.utf8EncodeChar c ++ rest) = c :: lossy rest := by
  have hlen := String.length_utf8EncodeChar c
  have hpos := Char.utf8Size_pos c
  have hdec := decodeChar_encodeChar c rest
  cases henc : String.utf8EncodeChar c with
  | nil =>
    rw [henc] at hlen
    simp at hlen
    omega
  | cons b tail =>
    rw [henc, List.cons_append] at hdec
    rw [henc, List.length_cons] at hlen
    rw [lossy, List.cons_append, lossyFrom, hdec]
    simp only [lossyFrom_eq]
    rw [← hlen, Nat.add_sub_cancel, List.drop_left]

theorem lossy_encode_append (text : List Char) (rest : List UInt8) :
    lossy (encode text ++ rest) = text ++ lossy rest := by
  induction text with
  | nil => rfl
  | cons c text ih => rw [encode_cons, List.append_assoc, lossy_encodeChar, ih, List.cons_append]

theorem lossy_encode (text : List Char) : lossy (encode text) = text := by
  simpa using lossy_encode_append text []

theorem decodeChar_of_not_first (h : ¬b.IsUTF8FirstByte) : decodeChar (b :: rest) = none := by
  by_contra hne
  have hfirst := ByteArray.isUTF8FirstByte_of_isSome_utf8DecodeChar?
    (Option.isSome_iff_ne_none.mpr hne)
  exact h (by simpa using hfirst)

/-- Such a byte is not one of those after which more may be replaced together with it. -/
theorem width_of_not_first (h : ¬b.IsUTF8FirstByte) : width b = 0 := by
  have hall : ∀ n : Fin 256, ¬(UInt8.ofFin n).IsUTF8FirstByte → width (UInt8.ofFin n) = 0 := by
    simp only [UInt8.IsUTF8FirstByte]
    decide +kernel
  exact hall b.toFin h

theorem badLength_of_not_first (h : ¬b.IsUTF8FirstByte) : badLength (b :: rest) = 1 := by
  cases rest with
  | nil => rfl
  | cons c rest =>
    simp [badLength, width_of_not_first h]

/-- A byte that is never the first of a character is replaced on its own. -/
theorem lossy_of_not_first (h : ¬b.IsUTF8FirstByte) (rest : List UInt8) :
    lossy (b :: rest) = '\ufffd' :: lossy rest := by
  rw [lossy, lossyFrom, decodeChar_of_not_first h]
  simp only [badLength_of_not_first h]
  rfl

theorem lossy_of_none_first {t : List UInt8} (h : ∀ b ∈ t, ¬b.IsUTF8FirstByte)
    (rest : List UInt8) : lossy (t ++ rest) = List.replicate t.length '\ufffd' ++ lossy rest := by
  induction t with
  | nil => rfl
  | cons b t ih =>
    rw [List.cons_append, lossy_of_not_first (h b (List.mem_cons_self ..)),
      ih fun x hx => h x (List.mem_cons_of_mem b hx)]
    rfl

theorem length_encode_cons (c : Char) (text : List Char) :
    (encode (c :: text)).length = c.utf8Size + (encode text).length := by
  rw [encode_cons, List.length_append, String.length_utf8EncodeChar]

/-- The character at an offset in the bytes of a text, and how the offset divides it. -/
theorem exists_split {k : ℕ} (h : k < (encode text).length) :
    ∃ p c q pre suf, text = p ++ c :: q ∧ String.utf8EncodeChar c = pre ++ suf ∧
      (encode p).length + pre.length = k ∧ suf ≠ [] := by
  induction text generalizing k with
  | nil => simp at h
  | cons c text ih =>
    by_cases hk : k < (String.utf8EncodeChar c).length
    · refine ⟨[], c, text, (String.utf8EncodeChar c).take k, (String.utf8EncodeChar c).drop k, rfl,
        (List.take_append_drop ..).symm, ?_, List.drop_eq_nil_iff.not.mpr (by omega)⟩
      rw [encode_nil, List.length_nil, List.length_take]
      omega
    · rw [encode_cons, List.length_append] at h
      obtain ⟨p, d, q, pre, suf, rfl, henc, hlen, hsuf⟩ :=
        ih (k := k - (String.utf8EncodeChar c).length) (by omega)
      refine ⟨c :: p, d, q, pre, suf, rfl, henc, ?_, hsuf⟩
      rw [encode_cons, List.length_append]
      omega

theorem not_first_of_suffix {pre suf : List UInt8} (h : String.utf8EncodeChar c = pre ++ suf)
    (hpre : pre ≠ []) : ∀ b ∈ suf, ¬b.IsUTF8FirstByte := by
  intro b hb hfirst
  obtain ⟨i, hi, rfl⟩ := List.getElem_of_mem hb
  have hlt : pre.length + i < (String.utf8EncodeChar c).length := by
    rw [h, List.length_append]
    omega
  have hget : (String.utf8EncodeChar c)[pre.length + i] = suf[i] := by
    simp [h]
  rw [← hget, UInt8.isUTF8FirstByte_getElem_utf8EncodeChar] at hfirst
  have hpos := List.length_pos_iff.mpr hpre
  omega

/-- Bytes decoded in pieces of `n` bytes, each on its own. -/
def lossyBy (n : ℕ) (bytes : List UInt8) : List Char :=
  if n = 0 ∨ bytes = [] then [] else lossy (bytes.take n) ++ lossyBy n (bytes.drop n)
termination_by bytes.length
decreasing_by
  rename_i h
  have hpos := List.length_pos_iff.mpr (not_or.mp h).2
  rw [List.length_drop]
  omega

/-- No character of the text has its bytes in two pieces. -/
def Unbroken (n : ℕ) (text : List Char) : Prop :=
  ∀ p c q, text = p ++ c :: q → ∀ k,
    n * k ≤ (encode p).length ∨ (encode p).length + c.utf8Size ≤ n * k

section Pieces

variable {n : ℕ}
  {t : List UInt8}

@[simp] theorem lossyBy_nil : lossyBy n [] = [] := by
  rw [lossyBy, if_pos (Or.inr rfl)]

theorem lossyBy_eq (hn : 0 < n) (bytes : List UInt8) :
    lossyBy n bytes = lossy (bytes.take n) ++ lossyBy n (bytes.drop n) := by
  by_cases hb : bytes = []
  · simp [hb]
  · rw [lossyBy, if_neg (by simp [hb, hn.ne'])]

/-- Where the first piece ends in the bytes of a text behind the rest of a character. -/
theorem exists_pieces (ht : t.length ≤ n) (h : n < (t ++ encode text).length) :
    ∃ p c q pre suf, text = p ++ c :: q ∧ String.utf8EncodeChar c = pre ++ suf ∧ suf ≠ [] ∧
      t.length + (encode p).length + pre.length = n ∧
      (t ++ encode text).take n = t ++ (encode p ++ pre) ∧
      (t ++ encode text).drop n = suf ++ encode q := by
  rw [List.length_append] at h
  have hk : n - t.length < (encode text).length := by omega
  obtain ⟨p, c, q, pre, suf, rfl, henc, hlen, hsuf⟩ := exists_split hk
  have hn : n = (t ++ (encode p ++ pre)).length := by
    rw [List.length_append, List.length_append]
    omega
  have hbytes : t ++ encode (p ++ c :: q) = (t ++ (encode p ++ pre)) ++ (suf ++ encode q) := by
    simp [henc]
  refine ⟨p, c, q, pre, suf, rfl, henc, hsuf, by omega, ?_, ?_⟩
  · rw [hbytes, hn, List.take_left]
  · rw [hbytes, hn, List.drop_left]

/-- Decoding in pieces yields at least one character for each character of the text and one for
each byte of the rest of another in front of it. -/
theorem le_length_lossyBy (hn : 0 < n) (ht : ∀ b ∈ t, ¬b.IsUTF8FirstByte) (text : List Char) :
    t.length + text.length ≤ (lossyBy n (t ++ encode text)).length := by
  induction hm : (t ++ encode text).length using Nat.strong_induction_on generalizing t text with
  | h m ih =>
  subst hm
  rw [lossyBy_eq hn, List.length_append]
  by_cases hshort : (t ++ encode text).length ≤ n
  · rw [List.take_of_length_le hshort, lossy_of_none_first ht, lossy_encode]
    simp
  · have hlong := Nat.not_le.mp hshort
    have hless : ((t ++ encode text).drop n).length < (t ++ encode text).length := by
      rw [List.length_drop]
      omega
    by_cases hcut : t.length ≤ n
    · obtain ⟨p, c, q, pre, suf, rfl, henc, -, -, htake, hdrop⟩ := exists_pieces hcut hlong
      rw [hdrop] at hless
      rw [htake, hdrop, lossy_of_none_first ht, lossy_encode_append]
      simp only [List.length_append, List.length_replicate, List.length_cons]
      cases pre with
      | nil =>
        have hrest := ih _ hless (t := []) (by simp) (c :: q) (by simp [henc])
        simp only [List.nil_append, encode_cons, henc, List.length_nil, List.length_cons] at hrest
        omega
      | cons b pre =>
        have hrest := ih _ hless (not_first_of_suffix henc (List.cons_ne_nil b pre)) q rfl
        have hpos := List.length_pos_iff.mpr (lossy_ne_nil (List.cons_ne_nil b pre))
        omega
    · -- the piece lies within the rest of the character
      have hlt : n < t.length := Nat.not_le.mp hcut
      have htake : (t ++ encode text).take n = t.take n ++ [] := by
        rw [List.take_append_of_le_length hlt.le, List.append_nil]
      have hdrop : (t ++ encode text).drop n = t.drop n ++ encode text :=
        List.drop_append_of_le_length hlt.le
      rw [hdrop] at hless
      have hrest := ih _ hless (fun b hb => ht b (List.mem_of_mem_drop hb)) text rfl
      rw [htake, hdrop, lossy_of_none_first fun b hb => ht b (List.mem_of_mem_take hb)]
      simp only [List.length_append, List.length_replicate, List.length_take, lossy_nil,
        List.length_nil, List.length_drop] at hrest ⊢
      omega

theorem unbroken_of_short (h : (encode text).length ≤ n) : Unbroken n text := by
  rintro p c q rfl k
  rw [encode_append, List.length_append, length_encode_cons] at h
  cases k with
  | zero => exact Or.inl (Nat.zero_le _)
  | succ k =>
    right
    rw [Nat.mul_succ]
    omega

theorem unbroken_append {p : List Char} (hp : (encode p).length = n) :
    Unbroken n (p ++ text) ↔ Unbroken n text := by
  constructor
  · rintro h p' c q rfl k
    have hk := h (p ++ p') c q (List.append_assoc ..).symm (k + 1)
    rw [encode_append, List.length_append, hp, Nat.mul_succ] at hk
    omega
  · intro h p' c q heq k
    cases k with
    | zero => exact Or.inl (Nat.zero_le _)
    | succ k =>
      rcases List.append_eq_append_iff.mp heq with ⟨r, rfl, hr⟩ | ⟨r, rfl, hr⟩
      · have hk := h r c q hr k
        rw [encode_append, List.length_append, hp, Nat.mul_succ]
        omega
      · cases r with
        | nil =>
          have hk := h [] c q hr.symm k
          simp only [List.append_nil, encode_nil, List.length_nil] at hp hk
          rw [hp, Nat.mul_succ]
          omega
        | cons d r =>
          obtain ⟨rfl, rfl⟩ := List.cons.inj hr
          rw [encode_append, List.length_append, length_encode_cons] at hp
          rw [Nat.mul_succ]
          omega

/-- Decoding in pieces yields the text exactly if no piece ends within a character. -/
theorem lossyBy_encode_iff (hn : 0 < n) (text : List Char) :
    lossyBy n (encode text) = text ↔ Unbroken n text := by
  induction hm : (encode text).length using Nat.strong_induction_on generalizing text with
  | h m ih =>
  subst hm
  by_cases hshort : (encode text).length ≤ n
  · rw [lossyBy_eq hn, List.take_of_length_le hshort, List.drop_of_length_le hshort, lossy_encode,
      lossyBy_nil, List.append_nil]
    exact iff_of_true rfl (unbroken_of_short hshort)
  · obtain ⟨p, c, q, pre, suf, rfl, henc, hsuf, hlen, htake, hdrop⟩ :=
      exists_pieces (t := []) (Nat.zero_le n) (Nat.not_le.mp hshort)
    simp only [List.nil_append, List.length_nil, Nat.zero_add] at hlen htake hdrop
    have hsize := String.length_utf8EncodeChar c
    rw [henc, List.length_append] at hsize
    rw [lossyBy_eq hn, htake, hdrop, lossy_encode_append]
    cases pre with
    | nil =>
      have hrest : suf ++ encode q = encode (c :: q) := by rw [encode_cons, henc, List.nil_append]
      rw [unbroken_append (by simpa using hlen), hrest, lossy_nil, List.append_nil,
        List.append_cancel_left_eq]
      refine ih _ ?_ (c :: q) rfl
      rw [encode_append, List.length_append]
      simp only [List.length_nil] at hlen
      omega
    | cons b pre =>
      have hpos := List.length_pos_iff.mpr hsuf
      refine iff_of_false (fun heq => ?_) (fun h => ?_)
      · have hmore := le_length_lossyBy hn (not_first_of_suffix henc (List.cons_ne_nil b pre)) q
        have hone := List.length_pos_iff.mpr (lossy_ne_nil (List.cons_ne_nil b pre))
        have hcount := congrArg List.length heq
        simp only [List.length_append, List.length_cons] at hcount
        omega
      · rcases h p c q rfl 1 with hle | hle
        · simp only [List.length_cons] at hlen
          omega
        · simp only [List.length_cons] at hlen hsize
          omega

end Pieces

end Zinix.Utf8
