/-!
# Double-precision numbers, exactly

Rates and durations in seconds are binary floating-point numbers of 64 bits. They are data here,
not machine operations: a finite magnitude is its *rank*, its place among the non-negative finite
doubles in ascending order, counted from zero. The rank is also the bit pattern without the sign,
neighbours have neighbouring ranks, and comparing magnitudes is comparing ranks.

`unitsAt` gives the exact value of a rank as a multiple of the smallest positive double, `2 ^
-1074`, and `rankOfRatio` goes back from any fraction to the nearest rank, ties to the even one.
All else is built from these two, in natural numbers.
-/

namespace ReliableStream

/-- How many doubles there are from one power of two to the next: `2 ^ 52`. -/
abbrev Binary64.octave : Nat := 0x10000000000000

/-- How many non-negative finite doubles there are. -/
abbrev Binary64.finiteCount : Nat := 2047 * octave

/-- A double-precision number. -/
inductive Binary64 where
  /-- Not a number. -/
  | nan
  /-- An infinity. -/
  | infinite (negative : Bool)
  /-- A finite number: its sign, and the rank of its magnitude. -/
  | finite (negative : Bool) (rank : Fin Binary64.finiteCount)
  deriving DecidableEq

namespace Binary64

/-- How many of the smallest positive doubles make one: `2 ^ 1074`. -/
abbrev unitsPerOne : Nat := 1 <<< 1074

/-- The magnitude of a rank, as a multiple of the smallest positive double. The doubles are evenly
spaced for two octaves, and the spacing doubles with every octave after that. -/
def unitsAt (rank : Nat) : Nat :=
  if rank < octave then rank else (octave + rank % octave) <<< (rank / octave - 1)

/-! ### Rounding -/

/-- The whole number nearest to `n / d`, a tie going to the even one. -/
def roundHalfEven (n d : Nat) : Nat :=
  let q := n / d
  let r := n % d
  if 2 * r < d then q else if d < 2 * r then q + 1 else q + q % 2

/-- The rank nearest to `n / d`, ties to even. It is `finiteCount` or more when the fraction is too
large to be finite. -/
def rankOfRatio (n d : Nat) : Nat :=
  let units := n * unitsPerOne
  -- The ranks of the octave are `2 ^ scale` units apart.
  let scale := Nat.log2 (units / d) - 52
  scale * octave + roundHalfEven units (d <<< scale)

/-- The double nearest to `n / d`, with the given sign. -/
def ofRatio (negative : Bool) (n d : Nat) : Binary64 :=
  let rank := rankOfRatio n d
  if h : rank < finiteCount then .finite negative ⟨rank, h⟩ else .infinite negative

/-- Zero, without a sign. -/
def zero : Binary64 := .finite false ⟨0, by decide⟩

/-- The double nearest to a whole number. -/
def ofNat (n : Nat) : Binary64 := ofRatio false n 1

/-- A power of ten. -/
def tenTo (exponent : Nat) : Nat := Nat.pow 10 exponent

/-- The double nearest to `digits * 10 ^ exponent`. Beyond four hundred decimal places either way
the answer is infinity or zero, and no power is computed. -/
def ofDecimal (negative : Bool) (digits : Nat) (exponent : Int) : Binary64 :=
  let places : Int := (Nat.toDigits 10 digits).length + exponent
  if digits = 0 ∨ places < -400 then ofRatio negative 0 1
  else if 400 < places then .infinite negative
  else if 0 ≤ exponent then ofRatio negative (digits * tenTo exponent.toNat) 1
  else ofRatio negative digits (tenTo (-exponent).toNat)

/-- The product with a whole number, rounded. -/
def timesNat (k : Nat) : Binary64 → Binary64
  | .finite negative rank => ofRatio negative (unitsAt rank * k) unitsPerOne
  | x => x

/-- The quotient by a whole number, rounded. -/
def divNat (k : Nat) : Binary64 → Binary64
  | .finite negative rank => ofRatio negative (unitsAt rank) (unitsPerOne * k)
  | x => x

/-! ### Comparison and bits -/

/-- The rank of one. -/
abbrev rankOfOne : Nat := 1023 * octave

/-- Zero, of either sign. -/
def isZero : Binary64 → Bool
  | .finite _ rank => rank.val = 0
  | _ => false

/-- Exactly one. -/
def isOne : Binary64 → Bool
  | .finite negative rank => !negative && rank.val = rankOfOne
  | _ => false

/-- Equality of values: the two zeros are equal, and not-a-number differs from everything. -/
def equals (x y : Binary64) : Bool :=
  match x with
  | .nan => false
  | _ => (x.isZero && y.isZero) || decide (x = y)

/-- Whether a number lies in the closed interval from zero to one. -/
def isProbability : Binary64 → Bool
  | .finite negative rank => rank.val = 0 || !negative && rank.val ≤ rankOfOne
  | _ => false

/-- The 64 bits of a number, as one word. -/
def bits : Binary64 → UInt64
  | .nan => 0x7ff8000000000000
  | .infinite negative => signBit negative + UInt64.ofNat finiteCount
  | .finite negative rank => signBit negative + UInt64.ofNat rank
where
  /-- The highest bit holds the sign. -/
  signBit (negative : Bool) : UInt64 := if negative then 0x8000000000000000 else 0

end Binary64

end ReliableStream
