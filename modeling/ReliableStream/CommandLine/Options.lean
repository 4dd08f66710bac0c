import ReliableStream.Binary64.Reading
import ReliableStream.Bounded
import ReliableStream.Text.Blank
import ReliableStream.Text.Decimal
import ReliableStream.Text.Distance

/-!
# Options

The arguments of a call are flags, some with a value: in the same argument after an equals sign,
or in the next argument whatever it looks like. No flag is given twice, and there is nothing but
flags. `Request.ofArgs` reads the arguments in three passes, and the first pass that finds
something wrong decides what is reported: whether every flag is known and has the value it needs,
whether the flags are allowed together, and whether the values are numbers, in the order of the
options.
-/

namespace ReliableStream.CommandLine

/-- A flag. -/
inductive Flag where
  | help
  | scenario
  | seed
  | loss
  | reorder
  | duplicate
  | duration
  | events
  | verbose
  deriving DecidableEq

namespace Flag

/-- The name of a flag. -/
def name : Flag → String
  | .help => "--help"
  | .scenario => "--scenario"
  | .seed => "--seed"
  | .loss => "--loss"
  | .reorder => "--reorder"
  | .duplicate => "--duplicate"
  | .duration => "--until"
  | .events => "--events"
  | .verbose => "--verbose"

/-- Every flag. -/
def all : List Flag :=
  [.help, .scenario, .seed, .loss, .reorder, .duplicate, .duration, .events, .verbose]

/-- The flag of a name. -/
def ofName? (name : String) : Option Flag := all.find? (·.name = name)

/-- The flag of a letter. -/
def ofLetter? : Char → Option Flag
  | 'h' => some .help
  | 'v' => some .verbose
  | _ => none

/-- The flag that a misspelt name is taken for: the closest one that is at most two changes away.
Of two that are as close, it is the first. -/
def closest? (name : String) : Option Flag :=
  (List.range 3).findSome? fun changes ↦
    all.find? (Text.editDistance name.toList ·.name.toList = changes)

/-- Whether a flag has a value. -/
def takesValue : Flag → Bool
  | .help | .verbose => false
  | _ => true

end Flag

/-- What is wrong with a call. -/
inductive Mistake where
  /-- There is no such flag. -/
  | unknownFlag (flag : String)
  /-- The flag has no value. -/
  | unexpectedValue (flag : Flag) (value : String)
  /-- The value of the flag is missing. -/
  | missingValue (flag : Flag)
  /-- The arguments do not fit together. -/
  | mismatch
  /-- The value of the flag is not a number of its type. -/
  | notNumber (flag : Flag) (type value : String)
  deriving DecidableEq

/-- The wording of a mistake. -/
def Mistake.message : Mistake → String
  | .unknownFlag flag =>
    match Flag.closest? flag with
    | none => s!"Unknown flag: '{flag}'"
    | some other => s!"Unknown flag: '{flag}'. Did you mean '{other.name}'?"
  | .unexpectedValue flag value =>
    s!"Flag '{flag.name}' cannot have an argument, but found '{value}'."
  | .missingValue flag =>
    s!"Expected argument for flag '{flag.name}' but reached end of arguments."
  | .mismatch => "Invalid arguments."
  | .notNumber flag type value =>
    s!"Could not deserialize '{value}' to {type} for '{flag.name}'."

/-- Whether the forms of a call are shown after a mistake. -/
def Mistake.showsUsage : Mistake → Bool
  | .notNumber .. => false
  | _ => true

/-! ### First pass: flags and their values -/

/-- What an argument looks like. -/
inductive Shape where
  /-- Two dashes alone, after which there are no flags. -/
  | endOfFlags
  /-- A dash before letters that are a flag each. -/
  | letters (letters : List Char)
  /-- The name of a flag, and what follows an equals sign. -/
  | named (name : String) (value : Option String)
  /-- Anything else. -/
  | stray
  deriving DecidableEq

/-- Whether what stands after two dashes names a flag. It has no blanks but in a value, and a value
with blanks is on one line and follows a name. -/
def namesFlag (word : List Char) : Bool :=
  !word.any Text.isBlank ||
    ('=' ∈ (word.takeWhile (!Text.isBlank ·)).drop 1 && '\n' ∉ word)

/-- The shape of an argument. -/
def Shape.ofChars : List Char → Shape
  | ['-', '-'] => .endOfFlags
  | '-' :: '-' :: word =>
    if namesFlag word then
      .named (String.ofList ('-' :: '-' :: word.takeWhile (· ≠ '=')))
        ((word.dropWhile (· ≠ '=')).tail?.map String.ofList)
    else .stray
  | '-' :: letter :: more => if more.any Text.isBlank then .stray else .letters (letter :: more)
  | _ => .stray

/-- An argument, or two that belong together. -/
inductive Argument where
  /-- A flag, with its value if it has one. -/
  | flag (flag : Flag) (value : String)
  /-- Anything else. -/
  | stray
  deriving DecidableEq

/-- Reads the letters of an argument that stands for several flags. -/
def letters (l : List Char) : Except Mistake (List Argument) :=
  l.mapM fun letter ↦
    match Flag.ofLetter? letter with
    | some flag => pure (.flag flag "")
    | none => throw (.unknownFlag (String.ofList ['-', letter]))

/-- Reads the arguments one after the other. -/
def arguments : List String → Except Mistake (List Argument)
  | [] => pure []
  | arg :: rest =>
    match Shape.ofChars arg.toList with
    | .endOfFlags => pure (rest.map fun _ ↦ .stray)
    | .letters l => return (← letters l) ++ (← arguments rest)
    | .stray => return .stray :: (← arguments rest)
    | .named name value? => do
      match Flag.ofName? name, value? with
      | none, _ => throw (.unknownFlag name)
      | some flag, some value =>
        if flag.takesValue then return .flag flag value :: (← arguments rest)
        else throw (.unexpectedValue flag value)
      | some flag, none =>
        if flag.takesValue then
          match rest with
          | [] => throw (.missingValue flag)
          | value :: rest => return .flag flag value :: (← arguments rest)
        else return .flag flag "" :: (← arguments rest)

/-! ### Second pass: flags together -/

/-- The flags with their values, if they are allowed together. -/
def flagsOf (l : List Argument) : Except Mistake (List (Flag × String)) := do
  let flags ← l.mapM fun
    | .flag flag value => pure (flag, value)
    | .stray => throw .mismatch
  if (flags.map (·.1)).Nodup then pure flags else throw .mismatch

/-! ### Third pass: numbers -/

/-- What a run is asked to be. -/
structure Options where
  /-- The preset. -/
  scenario : String
  /-- The seed. -/
  seed : UInt64
  /-- Another loss rate. -/
  loss : Option Binary64
  /-- Another reorder rate. -/
  reorder : Option Binary64
  /-- Another duplication rate. -/
  duplicate : Option Binary64
  /-- Another duration, in seconds. -/
  duration : Option Binary64
  /-- Where to write the trace. -/
  events : Option String
  /-- Whether to show the whole journal. -/
  verbose : Bool
  deriving DecidableEq

/-- Reads a 64-bit word, which may have a plus sign. A blank value is zero. -/
def word? (value : String) : Option UInt64 :=
  let digits := match value.toList with
    | '+' :: rest => rest
    | text => text
  if value.toList.all Text.isBlank then some 0
  else ((Text.readDecimal? digits).filter (· ≤ maxWord)).map UInt64.ofNat

/-- Reads the value of a flag as a double, if the flag is given. -/
def double? (flag : Flag) (flags : List (Flag × String)) : Except Mistake (Option Binary64) :=
  match flags.lookup flag with
  | none => pure none
  | some value =>
    match Binary64.read? value.toList with
    | some x => pure (some x)
    | none => throw (.notNumber flag "f64" value)

/-- Reads the values of flags. -/
def Options.ofFlags (flags : List (Flag × String)) : Except Mistake Options := do
  let seedText := (flags.lookup .seed).getD "0"
  let seed ← match word? seedText with
    | some seed => pure seed
    | none => throw (.notNumber .seed "u64" seedText)
  let loss ← double? .loss flags
  let reorder ← double? .reorder flags
  let duplicate ← double? .duplicate flags
  let duration ← double? .duration flags
  pure {
    scenario := (flags.lookup .scenario).getD "basic"
    seed, loss, reorder, duplicate, duration
    events := flags.lookup .events
    verbose := (flags.lookup .verbose).isSome }

/-! ### Requests -/

/-- What a call asks for. -/
inductive Request where
  /-- The help text. -/
  | help
  /-- A run. -/
  | run (options : Options)
  deriving DecidableEq

/-- Reads the arguments of a call. -/
def Request.ofArgs (args : List String) : Except Mistake Request := do
  let flags ← flagsOf (← arguments args)
  if (flags.lookup .help).isSome then pure .help
  else return .run (← Options.ofFlags flags)

end ReliableStream.CommandLine
