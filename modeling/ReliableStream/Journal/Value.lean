/-!
# Values of journal pairs

What a pair of a journal line can say, and how it is written: a text as it is, the truth values by
their names, whole numbers in decimal, nothing as the empty text, and the unit as a pair of
brackets.
-/

namespace ReliableStream.Journal

/-- A value that a pair can have. -/
inductive Value where
  /-- A text. -/
  | text (value : String)
  /-- A truth value. -/
  | bool (value : Bool)
  /-- A whole number. -/
  | int (value : Int)
  /-- A character. -/
  | char (value : Char)
  /-- Nothing. -/
  | none
  /-- The only value of its type. -/
  | unit
  deriving DecidableEq

/-- The text of a value. -/
def Value.render : Value → String
  | .text value => value
  | .bool true => "true"
  | .bool false => "false"
  | .int value => toString value
  | .char value => String.singleton value
  | .none => ""
  | .unit => "()"

end ReliableStream.Journal
