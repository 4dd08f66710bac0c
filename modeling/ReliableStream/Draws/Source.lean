import ReliableStream.Bounded
import ReliableStream.Binary64.Basic

/-!
# Random draws

All chance comes from a source of 64-bit words, `DrawSource`. Nothing here depends on how the
words are made, so what is shown for every source is shown for every sequence of draws.

* `chance` decides an event of given probability;
* `between` picks from a closed interval, `initialSequence` below a fixed bound. Both scale a word
  to the range by taking the high half of the product, and draw again while the low half is above a
  limit, which makes all results equally likely. At most `rejectionLimit` words are rejected in a
  row: the next one is taken as it is, so the result is in range whatever the source does.
-/

namespace ReliableStream

/-- A source of random 64-bit words. -/
class DrawSource (σ : Type) where
  /-- The next word, and the source after it. -/
  next : σ → UInt64 × σ

namespace DrawSource

variable {σ : Type} [DrawSource σ]

/-- How many words may be rejected in a row. -/
def rejectionLimit : Nat := 1000

/-- Decides an event of probability `p`. A certain event takes no draw, any other takes one. -/
def chance (p : Binary64) (source : σ) : Bool × σ :=
  if p.isOne then (true, source)
  else
    let (word, rest) := next source
    (decide (word.toNat < threshold p), rest)
where
  /-- The part of the words below which an event happens. -/
  threshold : Binary64 → Nat
    | .finite _ rank => Binary64.unitsAt rank * wordCount / Binary64.unitsPerOne
    | _ => 0

/-- The high half of `word * range`, for the first word whose low half is at most `zone`, or else
for the word after `tries` rejected ones. -/
def scaled (range zone : Nat) : (tries : Nat) → σ → Nat × σ
  | 0, source =>
    let (word, rest) := next source
    (word.toNat * range / wordCount, rest)
  | tries + 1, source =>
    let (word, rest) := next source
    if word.toNat * range % wordCount ≤ zone then (word.toNat * range / wordCount, rest)
    else scaled range zone tries rest

/-- A number from `low` to `high`, both included. -/
def between (low high : Nat) (source : σ) : Nat × σ :=
  if high - low = maxWord then
    let (word, rest) := next source
    (low + word.toNat, rest)
  else
    let range := high - low + 1
    let (offset, rest) := scaled range (maxWord - (wordCount - range) % range) rejectionLimit source
    (low + offset, rest)

/-- A number below `2 ^ 32 - 1`, where a connection's sequence numbers start. -/
def initialSequence (source : σ) : Nat × σ :=
  scaled maxHalfWord (maxHalfWord * halfWordCount - 1) rejectionLimit source

/-! ### Impossible and certain events -/

/-- An event of probability zero does not happen, whatever is drawn: no draw is below zero. -/
theorem chance_of_isZero {p : Binary64} (h : p.isZero) (source : σ) :
    (chance p source).1 = false := by
  cases p with
  | finite negative rank =>
    have hrank : rank.val = 0 := by simpa [Binary64.isZero] using h
    simp [chance, chance.threshold, Binary64.isOne, Binary64.unitsAt, hrank]
  | _ => simp [Binary64.isZero] at h

/-- A certain event happens, and nothing is drawn, so the draws that follow are as if it had not
been asked for. -/
theorem chance_of_isOne {p : Binary64} (h : p.isOne) (source : σ) :
    chance p source = (true, source) := by
  simp [chance, h]

/-! ### Results are in range -/

/-- A scaled word is below its range, whether a draw was accepted or the tries ran out. -/
theorem scaled_lt {range : Nat} (h : 0 < range) (zone tries : Nat) (source : σ) :
    (scaled range zone tries source).1 < range := by
  have bound (word : UInt64) : word.toNat * range / wordCount < range :=
    Nat.div_lt_of_lt_mul ((Nat.mul_lt_mul_right h).2 word.toNat_lt)
  induction tries generalizing source with
  | zero => exact bound _
  | succ tries ih =>
    rw [scaled]
    dsimp only
    split
    · exact bound _
    · exact ih _

/-- Initial sequence numbers fit in half a word. That leaves room for every stream that a run could
ever send before the largest place is reached. -/
theorem initialSequence_lt (source : σ) : (initialSequence source).1 < maxHalfWord :=
  scaled_lt (by decide) ..

/-- A draw from a range is not below it, even if the range is turned around. -/
theorem le_between (low high : Nat) (source : σ) : low ≤ (between low high source).1 := by
  rw [between]
  split <;> exact Nat.le_add_right ..

theorem between_le {low high : Nat} (h : low ≤ high) (source : σ) :
    (between low high source).1 ≤ high := by
  rw [between]
  split
  · next hfull =>
    have := (next source).1.toNat_lt
    simp only [maxWord] at hfull
    simp only
    omega
  · have := scaled_lt (show 0 < high - low + 1 by omega)
      (maxWord - (wordCount - (high - low + 1)) % (high - low + 1)) rejectionLimit source
    dsimp only
    omega

end DrawSource

end ReliableStream
