import ReliableStream.CommandLine.Options
import ReliableStream.CommandLine.Usage
import ReliableStream.Scenario
import ReliableStream.Text.Quoted
import ReliableStream.Trace.Table

/-!
# What a call answers

A call prints lines to its two outputs and ends with an exit code, and may have a file to write. A
`Session` holds these. The time that the run took is not known here: the line that tells it is a
function of its text. What is printed after the file depends on whether it could be written, which
`Session.finish` is told.
-/

namespace ReliableStream.CommandLine

/-- Lines printed, and the exit code. -/
structure Screen where
  /-- Lines of the standard output. -/
  out : List String := []
  /-- Lines of the standard error output. -/
  err : List String := []
  /-- The exit code. -/
  code : Nat := 0
  deriving DecidableEq

/-- A file to write. -/
structure File where
  /-- Where it is written. -/
  path : String
  /-- What is written. -/
  text : String
  deriving DecidableEq

/-- What a call answers, the elapsed time apart. -/
structure Session where
  /-- What is printed, given the text of the elapsed time. -/
  screen : (elapsed : String) → Screen
  /-- The file to write, if any. -/
  file : Option File := none

/-- Why a file could not be written, as the number of a system error. -/
abbrev SystemError := Nat

/-- The wording of a system error. -/
def systemErrorMessage (error : SystemError) : String :=
  let reason := match error with
    | 1 => "Operation not permitted"
    | 2 => "No such file or directory"
    | 5 => "Input/output error"
    | 6 => "No such device or address"
    | 13 => "Permission denied"
    | 20 => "Not a directory"
    | 21 => "Is a directory"
    | 22 => "Invalid argument"
    | 26 => "Text file busy"
    | 28 => "No space left on device"
    | 30 => "Read-only file system"
    | 36 => "File name too long"
    | 40 => "Too many levels of symbolic links"
    | _ => "Unknown error"
  s!"{reason} (os error {error})"

namespace Session

/-- A session that prints lines and has nothing else to do. -/
def ofScreen (screen : Screen) : Session := { screen := fun _ ↦ screen }

/-- What is printed in all, once it is known whether the file was written. -/
def finish (elapsed : String) (written : Except SystemError Unit) (s : Session) : Screen :=
  let screen := s.screen elapsed
  match s.file, written with
  | none, _ => screen
  | some file, .ok () => { screen with out := screen.out ++ [s!"events written to {file.path}"] }
  | some _, .error error =>
    { screen with err := screen.err ++ [s!"Error: {systemErrorMessage error}"], code := 1 }

end Session

/-! ### Runs -/

/-- A preset with the changes that were asked for. -/
def Options.apply (options : Options) (s : Scenario) : Scenario :=
  { s with
    faults := { s.faults with
      loss := options.loss.getD s.faults.loss
      reorder := options.reorder.getD s.faults.reorder
      duplicate := options.duplicate.getD s.faults.duplicate }
    duration := (options.duration.map Time.ofSeconds).getD s.duration }

/-- A line across the screen. -/
def rule : String := String.ofList (List.replicate 60 '=')

/-- A rate in percent. -/
def percent (rate : Binary64) : String := (rate.timesNat 100).fixed 0

/-- What is printed before a run. -/
def heading (seed : UInt64) (s : Scenario) : List String :=
  [rule,
    s!"Scenario {s.name} (seed {seed.toNat})",
    s!"  - {percent s.faults.loss}% packet loss",
    s!"  - {percent s.faults.reorder}% packet reordering",
    s!"  - {percent s.faults.duplicate}% packet duplication",
    s!"  - {s.message.length} byte message",
    rule]

/-- Whether the message arrived. -/
def verdict (message inbox : Bytes) : String :=
  if inbox = message then s!"SUCCESS: all {message.length} bytes delivered correctly"
  else s!"INCOMPLETE: {inbox.length}/{message.length} bytes"

/-- What is printed after a run. -/
def summary (s : Scenario) (finished : Scenario.Setup ChaCha) (elapsed : String) : List String :=
  let simulation := finished.simulation
  "" :: simulation.network.stats.summary
    ++ simulation.hosts.flatMap (fun host ↦ "" :: host.connection.summary)
    ++ ["", rule, verdict s.message finished.inbox,
      s!"= {(Time.toSeconds simulation.now).fixed 1}s simulated in {elapsed}s, " ++
        s!"{simulation.trace.size} events recorded"]

/-- The lines of a journal that are shown. -/
def shown (verbose : Bool) (s : Scenario) (journal : Array Simulation.Entry) : List String :=
  let level := if verbose then .trace else .info
  ((journal.toList.map s.line).filter (·.isAtLeast level)).map (·.text)

/-- Runs a scenario. -/
def runScenario (options : Options) (s : Scenario) : Session :=
  let heading := heading options.seed s
  match s.setup options.seed with
  | .error failure =>
    .ofScreen { out := heading, err := [s!"Error: {failure.message}"], code := 1 }
  | .ok ready =>
    match ready.run s.duration with
    | .error overflow => .ofScreen { out := heading, err := [overflow.message], code := 101 }
    | .ok finished =>
      { screen := fun elapsed ↦
          { out := heading ++ summary s finished elapsed
            err := shown options.verbose s finished.simulation.journal }
        file := options.events.map fun path ↦
          ⟨path, Trace.table finished.simulation.trace.toList⟩ }

/-- Answers a call. -/
def session (args : List String) : Session :=
  match Request.ofArgs args with
  | .error mistake =>
    .ofScreen {
      err := mistake.message :: if mistake.showsUsage then "" :: usage else []
      code := 1 }
  | .ok .help => .ofScreen { out := help }
  | .ok (.run options) =>
    match Scenario.ofName? options.scenario with
    | none =>
      .ofScreen { err := [s!"Error: unknown scenario {Text.quoted options.scenario}"], code := 1 }
    | some preset => runScenario options (options.apply preset)

end ReliableStream.CommandLine
