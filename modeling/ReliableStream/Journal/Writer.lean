import ReliableStream.Journal.Line
import ReliableStream.Packet

/-!
# Writing lines where room may end

A writer takes bytes until its room is used up, and from then on refuses every write of at least
one byte. A line is written in pieces, its message, its pairs and its end, each as far as it fits;
a piece that does not fit ends the line, and the next line is tried all the same. What went wrong
depends on the piece: in the message or the end of a line the writer is broken, in a pair the line
is.

A line that is given to a logger has pairs of two kinds, its own and those of the loggers it
passes, and two passes write them (`Writer.log`). Since a pass that was stopped is followed by
nothing, the two are like one (`Writer.log_eq_writeLine`), and what holds of lines holds of them.
-/

namespace ReliableStream.Journal

/-- A writer and what was written to it. -/
structure Writer where
  /-- How many more bytes fit; `none` if any number does. -/
  room : Option Nat := none
  /-- The bytes written so far. -/
  written : Bytes := []
  deriving DecidableEq

/-- What stopped a line. -/
inductive Stop where
  /-- The message or the end of the line did not fit. -/
  | broken
  /-- A pair did not fit. -/
  | pair
  deriving DecidableEq

/-- The name of what stopped a line. -/
def Stop.name : Stop → String
  | .broken => "BrokenPipe"
  | .pair => "Other"

/-- The wording, which is the writer's own in either case. -/
def Stop.message : Stop → String
  | .broken | .pair => "writer full"

/-- A part of a line: its text, and what it means if it does not fit. -/
structure Piece where
  /-- The text. -/
  text : String
  /-- What stopped the line if this did not fit. -/
  stop : Stop

/-- The pieces of pairs, in the order of the pairs. -/
def pairPieces (pairs : List Pair) : List Piece := pairs.map fun p ↦ ⟨p.text, .pair⟩

/-- The pieces of a line. -/
def pieces (message : String) (pairs : List Pair) : List Piece :=
  ⟨message, .broken⟩ :: pairPieces pairs ++ [⟨"\n", .broken⟩]

namespace Writer

/-- Writes bytes as far as they fit, and tells whether all did. -/
def write (bytes : Bytes) (w : Writer) : Bool × Writer :=
  match w.room with
  | none => (true, { w with written := w.written ++ bytes })
  | some room =>
    (bytes.length ≤ room,
      { room := some (room - bytes.length), written := w.written ++ bytes.take room })

/-- Writes pieces until one does not fit, and tells what stopped them. -/
def writePieces : List Piece → Writer → Option Stop × Writer
  | [], w => (none, w)
  | piece :: rest, w =>
    match w.write piece.text.toUTF8.toList with
    | (true, w) => writePieces rest w
    | (false, w) => (some piece.stop, w)

/-- Goes on with a writer, unless something has stopped it. -/
def goOn (next : Writer → Option Stop × Writer) : Option Stop × Writer → Option Stop × Writer
  | (none, w) => next w
  | (some stop, w) => (some stop, w)

/-- Pieces can be written in two parts: the second is tried only if the first one fitted. -/
theorem writePieces_append (first second : List Piece) (w : Writer) :
    w.writePieces (first ++ second) = goOn (writePieces second) (w.writePieces first) := by
  induction first generalizing w with
  | nil => rfl
  | cons piece rest ih =>
    rw [List.cons_append, writePieces, writePieces]
    split
    · exact ih _
    · rfl

/-- Writes a line and its end. -/
def writeLine (message : String) (pairs : List Pair) (w : Writer) : Option Stop × Writer :=
  w.writePieces (pieces message pairs)

/-- Writes what is given to a logger: the message, the pairs that come with it, then those of the
loggers it passes, from the innermost to the root, and the end. Each of the four is tried only if
all before it fitted. -/
def log (message : String) (own : List Pair) (loggers : List (List Pair)) (w : Writer) :
    Option Stop × Writer :=
  w.writePieces [⟨message, .broken⟩]
    |> goOn (writePieces (pairPieces own))
    |> goOn (writePieces (pairPieces loggers.flatten))
    |> goOn (writePieces [⟨"\n", .broken⟩])

/-- **It makes no difference where a pair comes from.** A line is written as if all its pairs were
its own, although two passes write them: each pass ends at the first piece that does not fit, and
so does the line. -/
theorem log_eq_writeLine (message : String) (own : List Pair) (loggers : List (List Pair))
    (w : Writer) : w.log message own loggers = w.writeLine message (own ++ loggers.flatten) := by
  have hpieces : pieces message (own ++ loggers.flatten) =
      (([⟨message, .broken⟩] ++ pairPieces own) ++ pairPieces loggers.flatten) ++
        [⟨"\n", .broken⟩] := by
    simp [pieces, pairPieces]
  rw [writeLine, hpieces, writePieces_append, writePieces_append, writePieces_append]
  rfl

end Writer

end ReliableStream.Journal
