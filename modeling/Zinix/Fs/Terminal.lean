import Zinix.Fs.DFile
import Zinix.Lib.Utf8

/-!
# Output to the terminal

The terminal decodes what is written to it in pieces of ten bytes and prints each piece on
its own, so a character whose bytes lie in two pieces is not printed.
-/

namespace Zinix

open Utf8

def terminalInterBufLen : ℕ := 10

/-- The calls of `console_putchar` for a text. -/
def printToStdout (text : List Char) : List ℕ := text.map Char.toNat

namespace Terminal

/-- The loop of `write` from index `i` on. -/
def writeLoop (buf : List UInt8) (i : ℕ) : List ℕ :=
  if i < buf.length then
    let realWrite := min terminalInterBufLen (buf.length - i)
    printToStdout (lossy ((buf.drop i).take realWrite)) ++ writeLoop buf (i + realWrite)
  else []
termination_by buf.length - i
decreasing_by
  simp only [terminalInterBufLen]
  omega

/-- The number returned, and what is sent to the console. -/
def write (ttype : TerminalType) (buf : List UInt8) : ℕ × List ℕ :=
  match ttype with
  | .stdout | .stderr => (buf.length, writeLoop buf 0)
  | .stdin => (0, [])

theorem writeLoop_eq (buf : List UInt8) (i : ℕ) :
    writeLoop buf i = printToStdout (lossyBy terminalInterBufLen (buf.drop i)) := by
  fun_induction writeLoop buf i with
  | case1 i hi realWrite ih =>
    have hpos : 0 < terminalInterBufLen := by decide
    have htake : (buf.drop i).take realWrite = (buf.drop i).take terminalInterBufLen := by
      rw [List.take_eq_take_iff, List.length_drop]
      omega
    have hdrop : buf.drop (i + realWrite) = (buf.drop i).drop terminalInterBufLen := by
      rw [List.drop_drop]
      by_cases hle : terminalInterBufLen ≤ buf.length - i
      · rw [show realWrite = terminalInterBufLen from min_eq_left hle]
      · rw [List.drop_of_length_le (by omega), List.drop_of_length_le (by omega)]
    rw [ih, htake, hdrop, lossyBy_eq hpos (buf.drop i), printToStdout, printToStdout,
      printToStdout, List.map_append]
  | case2 i hi =>
    rw [List.drop_of_length_le (Nat.not_lt.mp hi), lossyBy_nil]
    rfl

theorem printToStdout_inj {text text' : List Char} :
    printToStdout text = printToStdout text' ↔ text = text' :=
  (List.map_injective_iff.mpr fun _ _ h => Char.ext (UInt32.toNat_inj.mp h)).eq_iff

/-- For every text, what is written to the terminal as UTF-8 appears as that text, and its
length is returned, if and only if no character has its bytes in two pieces of ten. -/
theorem write_eq_iff {ttype : TerminalType} (h : ttype = .stdout ∨ ttype = .stderr)
    (text : List Char) :
    write ttype (encode text) = ((encode text).length, printToStdout text) ↔ Unbroken 10 text := by
  have hwrite : write ttype (encode text) = ((encode text).length, writeLoop (encode text) 0) := by
    rcases h with rfl | rfl <;> rfl
  rw [hwrite, writeLoop_eq, List.drop_zero, Prod.mk.injEq, printToStdout_inj]
  exact (and_iff_right rfl).trans (lossyBy_encode_iff (by decide) text)

/-- Two pieces, with a character of two bytes at the end of the first one. -/
theorem write_eq_iff_twoPieces :
    Unbroken 10 (List.replicate 8 'a' ++ ['é', 'b']) ∧
      write .stdout (encode (List.replicate 8 'a' ++ ['é', 'b'])) =
        (11, List.replicate 8 97 ++ [0xE9, 98]) := by
  have hloop : writeLoop (encode (List.replicate 8 'a' ++ ['é', 'b'])) 0 =
      List.replicate 8 97 ++ [0xE9, 98] := by
    rw [writeLoop_eq, lossyBy_eq (by decide), lossyBy_eq (by decide), lossyBy]
    decide +kernel
  have hwrite : write .stdout (encode (List.replicate 8 'a' ++ ['é', 'b'])) =
      (11, List.replicate 8 97 ++ [0xE9, 98]) := by
    rw [write, hloop]
    decide
  refine ⟨(write_eq_iff (.inl rfl) _).mp (hwrite.trans ?_), hwrite⟩
  decide

/-- The two bytes of the last character come into different pieces. -/
theorem broken_not_printed :
    encode (List.replicate 9 'a' ++ ['é']) = List.replicate 9 97 ++ [0xC3, 0xA9] ∧
      write .stdout (encode (List.replicate 9 'a' ++ ['é'])) =
        (11, List.replicate 9 97 ++ [0xFFFD, 0xFFFD]) ∧
      printToStdout (List.replicate 9 'a' ++ ['é']) = List.replicate 9 97 ++ [0xE9] := by
  refine ⟨by decide, ?_, by decide⟩
  have hloop : writeLoop (encode (List.replicate 9 'a' ++ ['é'])) 0 =
      List.replicate 9 97 ++ [0xFFFD, 0xFFFD] := by
    rw [writeLoop_eq, lossyBy_eq (by decide), lossyBy_eq (by decide), lossyBy]
    decide +kernel
  rw [write, hloop]
  decide

end Terminal

end Zinix
