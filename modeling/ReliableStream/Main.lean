import ReliableStream.CommandLine.Session

/-!
# The program

Reads the arguments, measures how long the answer takes, writes the file if there is one, and
prints.
-/

namespace ReliableStream.CommandLine

/-- Seconds with three decimals, from nanoseconds. -/
def elapsedText (nanoseconds : Nat) : String :=
  (Binary64.ofRatio false nanoseconds Time.second).fixed 3

/-- The number of an error of the system, and zero if it is none. -/
def systemError : IO.Error → SystemError
  | .alreadyExists _ n _ | .invalidArgument _ n _ | .permissionDenied _ n _
  | .resourceExhausted _ n _ | .inappropriateType _ n _ | .noSuchThing _ n _ => n.toNat
  | .noFileOrDirectory _ n _ | .interrupted _ n _ => n.toNat
  | .otherError n _ | .resourceBusy n _ | .resourceVanished n _ | .unsupportedOperation n _
  | .hardwareFault n _ | .unsatisfiedConstraints n _ | .illegalOperation n _ | .protocolError n _
  | .timeExpired n _ => n.toNat
  | .unexpectedEof | .userError _ => 0

/-- Writes a file, and answers with the number of the system error if that fails. -/
def writeFile (file : File) : IO (Except SystemError Unit) := do
  try
    IO.FS.writeFile file.path file.text
    pure (.ok ())
  catch error => pure (.error (systemError error))

end ReliableStream.CommandLine

open ReliableStream.CommandLine in
/-- The program. -/
def main (args : List String) : IO UInt32 := do
  let start ← IO.monoNanosNow
  let answer ← IO.lazyPure fun _ ↦ session args
  let stop ← IO.monoNanosNow
  let written ← match answer.file with
    | some file => writeFile file
    | none => pure (.ok ())
  let screen := answer.finish (elapsedText (stop - start)) written
  for line in screen.out do IO.println line
  for line in screen.err do IO.eprintln line
  return UInt32.ofNat screen.code
