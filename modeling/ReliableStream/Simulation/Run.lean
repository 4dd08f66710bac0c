import ReliableStream.Simulation.Basic

/-!
# Running a simulation

`step` takes one entry of the agenda. `advance` takes a number of them, and stops early at the
end: when the entry that closes the run is taken, or nothing is left. `run` goes on to the end.
The entries of an agenda are counted in a word, so a run that has more steps than there are words
has overflowed.
-/

namespace ReliableStream.Simulation

variable {σ α : Type} [DrawSource σ] [Application α]

/-- A host starts. -/
def startHost (id : Nat) (s : Simulation σ α) : Checked (Simulation σ α) :=
  match s.host? id with
  | none => pure s
  | some host => do
    let r ← Application.start s.now host.application host.connection
    (s.setHost id ⟨r.connection, r.application⟩).carryOut id host.connection.home r.effects

/-- A packet arrives. -/
def arrive (packet : Packet) (s : Simulation σ α) : Checked (Simulation σ α) :=
  match s.network.route packet with
  | (.error failure, network) =>
    pure (({ s with network }.note (.dropped failure packet)).record packet.source
      (.undeliverable packet.destination))
  | (.ok id, network) =>
    let s := { s with network }
    match s.host? id with
    | none => pure s
    | some host => do
      let (connection, reaction) ← host.connection.onPacket s.now packet
      s.react id { host with connection } reaction

/-- An alarm rings. -/
def ring (id : Nat) (watch : Alarm.Watch) (s : Simulation σ α) : Checked (Simulation σ α) :=
  match s.host? id with
  | none => pure s
  | some host => do
    let (connection, reaction) ← host.connection.onAlarm s.now watch
    s.react id { host with connection } reaction

/-- Something happens to an actor. -/
def happen (target : Nat) (happening : Happening) (s : Simulation σ α) :
    Checked (Simulation σ α) :=
  match happening with
  | .start => s.startHost target
  | .arrival packet => s.arrive packet
  | .alarm watch => s.ring target watch

/-- Takes the next entry, and tells whether the run goes on. -/
def step (s : Simulation σ α) : Checked (Bool × Simulation σ α) :=
  match s.agenda.next? with
  | none => pure (false, s)
  | some (entry, agenda) =>
    let s := { s with agenda }
    match entry.action with
    | .close => pure (false, s.note (.ended entry.time))
    | .model happening => do
      let s ← s.happen entry.target happening
      pure (true, s)

/-- Takes a number of steps, fewer if the run ends, and tells whether it goes on. -/
def advance : Nat → Simulation σ α → Checked (Bool × Simulation σ α)
  | 0, s => pure (true, s)
  | n + 1, s => do
    match ← s.step with
    | (false, s) => pure (false, s)
    | (true, s) => advance n s

/-- No run has more steps. -/
abbrev stepLimit : Nat := wordCount

/-- Runs until an instant, or until nothing is left to do. -/
def run (stop : Nat) (s : Simulation σ α) : Checked (Simulation σ α) := do
  let (running, s) ← (s.closeAt stop).advance stepLimit
  if running then .error .sum else pure s

end ReliableStream.Simulation
