/-!
# Decimal numbers in text

Whole numbers are written by `Nat.toDigits` in base ten, without leading zeros. `readDecimal?`
reads them back: it takes one or more digits and nothing else, so no sign, blank or separator is
accepted.
-/

namespace ReliableStream.Text

/-- Reads one or more decimal digits. -/
def readDecimal? (text : List Char) : Option Nat :=
  if text ≠ [] ∧ text.all Char.isDigit then some (Nat.ofDigitChars 10 text 0) else none

/-- **Writing a number and reading it gives the number.** -/
theorem readDecimal?_toDigits (n : Nat) : readDecimal? (Nat.toDigits 10 n) = some n := by
  have digits : (Nat.toDigits 10 n).all Char.isDigit = true :=
    List.all_eq_true.2 fun _ h ↦ Nat.isDigit_of_mem_toDigits (by decide) (by decide) h
  simp [readDecimal?, Nat.toDigits_ne_nil, digits, Nat.ofDigitChars_toDigits]

/-- A character that is no digit does not occur in a number, so numbers can be joined by any such
character and cut apart again. -/
theorem not_mem_toDigits {c : Char} (h : c.isDigit = false) (n : Nat) : c ∉ Nat.toDigits 10 n := by
  intro hc
  have := Nat.isDigit_of_mem_toDigits (by decide) (by decide) hc
  simp_all

end ReliableStream.Text
