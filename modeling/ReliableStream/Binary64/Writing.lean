import ReliableStream.Binary64.Basic

/-!
# Writing a double

Two ways to write a double in decimal:

* `shortest` chooses the fewest digits that read back as the same double and, of those, the
  nearest to it. The doubles that round to a rank are those between its midpoints with both
  neighbours, the midpoints included exactly when the rank is even. A grid of `n` significant
  digits has a point there only if one of the two grid points around the value is there, so `n` is
  tried upwards from one, and seventeen always suffice. What remains to choose is a
  `DecimalStyle`.
* `fixed` writes a given number of decimal places of the exact value, a tie going to the even
  digit.
-/

namespace ReliableStream.Binary64

/-- The number `0.d₁d₂…dₙ × 10 ^ point`, by its digits. -/
structure Digits where
  /-- The significant digits, the last of them not zero unless the number is. -/
  digits : List Char
  /-- Where the point stands, counted from before the first digit. -/
  point : Int

/-- The choices that a decimal text leaves open once its digits are known. -/
structure DecimalStyle where
  /-- Whether a number with its point here is written without an exponent. -/
  plain : Int → Bool
  /-- Whether a whole number keeps a point and a zero. -/
  wholePoint : Bool
  /-- Whether a tie between two shortest digit strings goes to the larger one, and not to the even
  one. -/
  tieUp : Bool

/-! ### The fewest digits -/

/-- Drops the trailing zeros of `value × 10 ^ exponent`, for a positive value. -/
def Digits.ofScaled (value : Nat) (exponent : Int) : Digits :=
  let all := Nat.toDigits 10 value
  ⟨(all.reverse.dropWhile (· = '0')).reverse, all.length + exponent⟩

/-- Where the point of a positive magnitude stands: the number of its whole digits, or minus the
number of zeros between its point and its first digit. -/
def pointOf (units : Nat) : Int :=
  (Nat.toDigits 10 (units * tenTo 400 / unitsPerOne)).length - 400

/-- The multiple of `10 ^ exponent` next to a rank's value that reads back as the rank, if there is
one: the nearer of the two around the value, a tie going as `tieUp` says. -/
def nearestOnGrid? (tieUp : Bool) (rank : Nat) (exponent : Int) : Option Nat :=
  -- All quantities are doubled, so that midpoints are whole, and scaled, so that the grid is.
  let shift := tenTo (-exponent).toNat
  let step := tenTo exponent.toNat * (2 * unitsPerOne)
  let value := 2 * unitsAt rank * shift
  let low := (unitsAt (rank - 1) + unitsAt rank) * shift
  let high := (unitsAt rank + unitsAt (rank + 1)) * shift
  let readsBack (k : Nat) : Bool :=
    if rank % 2 = 0 then low ≤ k * step ∧ k * step ≤ high else low < k * step ∧ k * step < high
  let below := value / step
  let above := below + 1
  let preferAbove : Bool := match compare (2 * value) ((below + above) * step) with
    | .lt => false
    | .gt => true
    | .eq => tieUp || below % 2 = 1
  match readsBack below, readsBack above with
  | true, true => some (if preferAbove then above else below)
  | true, false => some below
  | false, true => some above
  | false, false => none

/-- The fewest digits that read back as a rank. -/
def shortest (tieUp : Bool) (rank : Nat) : Digits :=
  if rank = 0 then ⟨['0'], 1⟩
  else
    let point := pointOf (unitsAt rank)
    let tries := (List.range 17).findSome? fun (n : Nat) ↦
      let exponent : Int := point - (n + 1)
      (nearestOnGrid? tieUp rank exponent).map (Digits.ofScaled · exponent)
    -- Seventeen digits always read back, so the default is never taken.
    tries.getD (.ofScaled (unitsAt rank) 0)

/-! ### Texts -/

/-- Sets digits around a point. -/
def Digits.plainText (d : Digits) (wholePoint : Bool) : List Char :=
  if d.point ≤ 0 then
    '0' :: '.' :: (List.replicate (-d.point).toNat '0' ++ d.digits)
  else if d.digits.length ≤ d.point then
    d.digits ++ List.replicate (d.point.toNat - d.digits.length) '0'
      ++ (if wholePoint then ['.', '0'] else [])
  else d.digits.take d.point.toNat ++ '.' :: d.digits.drop d.point.toNat

/-- Sets one digit before the point, and writes the power of ten that remains. -/
def Digits.scientificText (d : Digits) : List Char :=
  let mantissa := match d.digits with
    | first :: second :: rest => first :: '.' :: second :: rest
    | digits => digits
  let exponent := d.point - 1
  mantissa ++ 'e' :: (if exponent < 0 then ['-'] else []) ++ Nat.toDigits 10 exponent.natAbs

/-- Sets digits as a style says. -/
def Digits.text (d : Digits) (style : DecimalStyle) : List Char :=
  if style.plain d.point then d.plainText style.wholePoint else d.scientificText

/-- Writes a sign before a magnitude, and the numbers that have no digits. -/
def signed (magnitude : Nat → List Char) : Binary64 → String
  | .nan => "NaN"
  | .infinite negative => if negative then "-inf" else "inf"
  | .finite negative rank =>
    String.ofList ((if negative then ['-'] else []) ++ magnitude rank)

/-- The shortest text of a double, in a style. -/
def write (style : DecimalStyle) : Binary64 → String :=
  signed fun rank ↦ (shortest style.tieUp rank).text style

/-- The text of a double with a fixed number of decimal places. -/
def fixed (places : Nat) : Binary64 → String :=
  signed fun rank ↦
    let scaled := roundHalfEven (unitsAt rank * tenTo places) unitsPerOne
    let digits := Nat.toDigits 10 scaled
    let padded := List.replicate (places + 1 - digits.length) '0' ++ digits
    let whole := padded.length - places
    padded.take whole ++ (if places = 0 then [] else '.' :: padded.drop whole)

end ReliableStream.Binary64
