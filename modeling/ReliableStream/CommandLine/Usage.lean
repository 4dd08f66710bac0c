/-!
# How the program is called

The help text, and the part of it that is shown after a call that makes no sense.
-/

namespace ReliableStream.CommandLine

/-- The forms of a call. -/
def usage : List String :=
  ["Usage:",
    "  tcpsim [options]",
    "  tcpsim (-h | --help)"]

/-- The whole help text. -/
def help : List String :=
  ["Reliable transfer over a simulated unreliable network.", ""] ++ usage ++
  ["",
    "Options:",
    "  -h --help           Show this screen.",
    "  --scenario <name>   Preset to run, basic or high_loss [default: basic].",
    "  --seed <n>          Seed for every random choice [default: 0].",
    "  --loss <rate>       Override the packet loss rate.",
    "  --reorder <rate>    Override the reordering rate.",
    "  --duplicate <rate>  Override the duplication rate.",
    "  --until <secs>      Override the run length, in simulated seconds.",
    "  --events <file>     Write the event stream to <file>, as CSV.",
    "  -v --verbose        Also log per-packet details."]

end ReliableStream.CommandLine
