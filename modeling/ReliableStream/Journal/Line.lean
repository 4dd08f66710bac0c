/-!
# Lines of a journal

A run can keep a journal: lines with a level, a message and pairs of a key and a value. A line is
written as its message, then a comma, the key, an equals sign and the value of each pair. Pairs
come from the inside out: the line's own, then those of whatever the line was noted in.
-/

namespace ReliableStream.Journal

/-- How much a line matters, the least first. -/
inductive Level where
  | trace
  | debug
  | info
  | warn
  deriving DecidableEq

/-- The place of a level, from the least. -/
def Level.rank : Level → Nat
  | .trace => 0
  | .debug => 1
  | .info => 2
  | .warn => 3

/-- A key with its value. -/
structure Pair where
  /-- What the value is. -/
  key : String
  /-- The value. -/
  value : String
  deriving DecidableEq

/-- The text of a pair within a line. -/
def Pair.text (p : Pair) : String := s!",{p.key}={p.value}"

/-- A line. -/
structure Line where
  /-- How much it matters. -/
  level : Level
  /-- What it says. -/
  message : String
  /-- Its pairs, from the inside out. -/
  pairs : List Pair := []
  deriving DecidableEq

namespace Line

/-- A line noted within something that has a pair of its own. -/
def within (line : Line) (pair : Pair) : Line := { line with pairs := line.pairs ++ [pair] }

/-- The text of a line, without its end. -/
def text (line : Line) : String := String.join (line.message :: line.pairs.map Pair.text)

/-- Whether a line matters at least as much as a level. -/
def isAtLeast (level : Level) (line : Line) : Bool := level.rank ≤ line.level.rank

end Line

end ReliableStream.Journal
