import ReliableStream.Bounded
import ReliableStream.Binary64.Basic

/-!
# Simulated time

Instants and durations are natural numbers of nanoseconds that fit in a word; an instant counts
from the start of its run. Seconds are doubles: they are read to the nearest nanosecond, a half
going up, and held within the range of a word.
-/

namespace ReliableStream

namespace Time

/-- One second. -/
abbrev second : Nat := 1000000000

/-- One millisecond. -/
abbrev millisecond : Nat := 1000000

/-- The whole number nearest to a double, a half going up, held within a word. What is not a
positive number gives zero. -/
def nearestWord : Binary64 → Nat
  | .nan | .infinite true | .finite true _ => 0
  | .infinite false => maxWord
  | .finite false rank =>
    min ((2 * Binary64.unitsAt rank + Binary64.unitsPerOne) / (2 * Binary64.unitsPerOne)) maxWord

/-- A number of seconds, to the nearest nanosecond. -/
def ofSeconds (seconds : Binary64) : Nat := nearestWord (seconds.timesNat second)

/-- A time in seconds: the double nearest to the nanoseconds, divided by a billion. -/
def toSeconds (time : Nat) : Binary64 := (Binary64.ofNat time).divNat second

end Time

end ReliableStream
