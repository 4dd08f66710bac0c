import ReliableStream.Binary64.Basic

/-!
# Reading a double

The accepted texts are an optional sign, then one of

* `inf`, `infinity` or `nan`, in any mixture of cases;
* digits with at most one point among them, at least one digit in all, and an optional exponent:
  the letter `e` or `E`, an optional sign and at least one digit.

The value is the double nearest to the number written.
-/

namespace ReliableStream.Binary64

/-- Splits an optional sign from the front: whether it is a minus, and what follows. -/
def readSign : List Char → Bool × List Char
  | '-' :: rest => (true, rest)
  | '+' :: rest => (false, rest)
  | text => (false, text)

/-- Reads an exponent, which may be absent. -/
def readExponent? : List Char → Option Int
  | [] => some 0
  | c :: rest =>
    let (negative, digits) := readSign rest
    if (c = 'e' ∨ c = 'E') ∧ digits ≠ [] ∧ digits.all Char.isDigit then
      let size : Int := Nat.ofDigitChars 10 digits 0
      some (if negative then -size else size)
    else none

/-- Reads an unsigned decimal number. -/
def readMagnitude? (negative : Bool) (text : List Char) : Option Binary64 := do
  let whole := text.takeWhile Char.isDigit
  let (fraction, rest) := match text.dropWhile Char.isDigit with
    | '.' :: rest => (rest.takeWhile Char.isDigit, rest.dropWhile Char.isDigit)
    | rest => ([], rest)
  if whole = [] ∧ fraction = [] then none
  else
    let exponent ← readExponent? rest
    some (ofDecimal negative (Nat.ofDigitChars 10 (whole ++ fraction) 0)
      (exponent - fraction.length))

/-- Reads a double. -/
def read? (text : List Char) : Option Binary64 :=
  let (negative, body) := readSign text
  match String.ofList (body.map Char.toLower) with
  | "inf" | "infinity" => some (.infinite negative)
  | "nan" => some .nan
  | _ => readMagnitude? negative body

end ReliableStream.Binary64
