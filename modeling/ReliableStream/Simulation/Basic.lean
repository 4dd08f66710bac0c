import ReliableStream.Agenda
import ReliableStream.Application.Basic
import ReliableStream.Draws.ChaCha
import ReliableStream.Network.Basic
import ReliableStream.Simulation.Entry

/-!
# Simulations

A simulation has hosts, each a connection and the application on it, a network between them, and
an agenda. Starts and alarms are entries for a host. Arrivals are entries for the network, which
decides when a packet arrives who receives it. Taking an entry lets a host act, and what it asks
for becomes new entries: `carryOut` puts its events into the trace, hands its packets to the
network, whose deliveries it schedules, and sets its alarms.

Notices go to the application at once, all of a reaction in order; what the application asks for
in answer is carried out afterwards, in the same order.
-/

namespace ReliableStream

/-- What happens in a simulation. -/
inductive Simulation.Happening where
  /-- A host starts. -/
  | start
  /-- A packet arrives. -/
  | arrival (packet : Packet)
  /-- An alarm rings. -/
  | alarm (watch : Alarm.Watch)
  deriving DecidableEq

/-- The text of a happening. -/
def Simulation.Happening.text : Simulation.Happening → String
  | .start => "Start"
  | .arrival packet => s!"Arrive({packet.kind.name})"
  | .alarm _ => "Timeout"

/-- A connection with the application on it. -/
structure Simulation.Host (α : Type) where
  /-- The connection. -/
  connection : Connection
  /-- The application. -/
  application : α

/-- Hosts with applications `α`, on a network with draws from a source `σ`. -/
structure Simulation (σ α : Type) where
  /-- What happens when. -/
  agenda : Agenda Simulation.Happening := {}
  /-- The network between the hosts. -/
  network : Network σ
  /-- The hosts; the first one is actor one. -/
  hosts : List (Simulation.Host α) := []
  /-- What happened so far. -/
  trace : Array Trace.Record := #[]
  /-- Where initial sequence numbers are drawn from. -/
  sequences : σ
  /-- What was noted so far. -/
  journal : Array Simulation.Entry := #[]

namespace Simulation

variable {σ α : Type}

/-- A simulation without hosts, if the faults of its network make sense. -/
def create (faults : Network.Faults) (draws sequences : σ) : Except Failure (Simulation σ α) :=
  (Network.create faults draws).map fun network ↦ { network, sequences }

/-- At the beginning there is nobody, and nothing is to come. A simulation is refused only for its
faults. -/
theorem create_eq_ok {faults : Network.Faults} {draws sequences : σ} {s : Simulation σ α}
    (h : create faults draws sequences = .ok s) :
    ∃ valid, s = { network := { faults, valid, source := draws }, sequences } := by
  obtain ⟨network, hnetwork, rfl⟩ := Failure.exists_of_map_eq_ok h
  rw [Network.create] at hnetwork
  split at hnetwork
  · exact absurd hnetwork (by simp)
  · obtain rfl := Except.ok.inj hnetwork
    exact ⟨_, rfl⟩

/-- A simulation in which all chance comes from a seed. Initial sequence numbers are drawn apart
from the fates of packets, from the stream of the next seed. -/
def ofSeed (faults : Network.Faults) (seed : UInt64) : Except Failure (Simulation ChaCha α) :=
  (create faults (ChaCha.ofSeed seed) (ChaCha.ofSeed (seed + 1))).map fun s ↦
    { s with journal := #[.created seed.toNat] }

/-- What time it is. -/
def now (s : Simulation σ α) : Nat := s.agenda.now

/-- The text of a simulation: its clock, and how much of everything there is. -/
def text (s : Simulation σ α) : String :=
  s!"World \x7b now: {s.now}, hosts: {s.hosts.length}, pending_events: {s.agenda.size}, " ++
    s!"trace: {s.trace.size} \x7d"

/-- A host by its number. -/
def host? (id : Nat) (s : Simulation σ α) : Option (Host α) :=
  match id with
  | 0 => none
  | i + 1 => s.hosts[i]?

/-- Replaces a host. -/
def setHost (id : Nat) (host : Host α) (s : Simulation σ α) : Simulation σ α :=
  { s with hosts := s.hosts.set (id - 1) host }

/-- Notes something. -/
def note (entry : Entry) (s : Simulation σ α) : Simulation σ α :=
  { s with journal := s.journal.push entry }

/-- Puts an event into the trace, and notes it. -/
def record (endpoint : Endpoint) (event : Trace.Event) (s : Simulation σ α) : Simulation σ α :=
  let record : Trace.Record := ⟨s.now, endpoint, event⟩
  { s with trace := s.trace.push record }.note (.traced record)

/-! ### Hosts and the end -/

/-- Adds a host with a given initial sequence number, if its settings are valid. -/
def enter (home : Endpoint) (settings : Connection.Settings) (application : α) (start isn : Nat)
    (s : Simulation σ α) : Except Failure Nat × Simulation σ α :=
  match Connection.create home settings isn with
  | .error failure => (.error failure, s)
  | .ok connection =>
    let id := s.hosts.length + 1
    let hosts := s.hosts ++ [{ connection, application }]
    let s := { s with hosts, network := s.network.register home id }
    let s := (s.note (.noted home connection.creationNote)).record home .registered
    (.ok id, { s with agenda := s.agenda.addAt start id .start })

/-- Adds a host that starts at an instant, and answers with its number. Its initial sequence number
is drawn even if its settings are refused. -/
def addHost [DrawSource σ] (home : Endpoint) (settings : Connection.Settings) (application : α)
    (start : Nat) (s : Simulation σ α) : Except Failure Nat × Simulation σ α :=
  let draw := DrawSource.initialSequence s.sequences
  { s with sequences := draw.2 }.enter home settings application start draw.1

/-- Ends the simulation at an instant. -/
def closeAt (time : Nat) (s : Simulation σ α) : Simulation σ α :=
  { s with agenda := s.agenda.closeAt time }

/-! ### Carrying out -/

/-- Schedules a copy of a packet that will arrive. -/
def schedule (delivery : Network.Delivery) (s : Simulation σ α) : Simulation σ α :=
  { s with agenda := s.agenda.addAt delivery.time networkActor (.arrival delivery.packet) }

/-- Hands a packet to the network, and schedules the copies that will arrive. -/
def sendPacket [DrawSource σ] (home : Endpoint) (packet : Packet) (s : Simulation σ α) :
    Checked (Simulation σ α) := do
  let sent ← s.network.send s.now packet
  let s := sent.traces.foldl (fun s event ↦ s.record home event) { s with network := sent.network }
  pure (sent.deliveries.foldl (fun s delivery ↦ s.schedule delivery) s)

/-- Sets an alarm for a host. -/
def setAlarm (id : Nat) (alarm : Alarm) (s : Simulation σ α) : Simulation σ α :=
  { s with agenda := s.agenda.addAfter alarm.delay id (.alarm alarm.watch) }

/-- Carries out what a host asks for. -/
def carryOut [DrawSource σ] (id : Nat) (home : Endpoint) (effects : Effects)
    (s : Simulation σ α) : Checked (Simulation σ α) := do
  let s := effects.notes.foldl (fun s note ↦ s.note (.noted home note)) s
  let s := effects.traces.foldl (fun s event ↦ s.record home event) s
  let s ← effects.packets.foldlM (fun s packet ↦ s.sendPacket home packet) s
  pure (effects.alarms.foldl (fun s alarm ↦ s.setAlarm id alarm) s)

/-- Tells an application everything its connection has notices of: the host afterwards, and the
effects of each answer. -/
def Host.tell [Application α] (now : Nat) : List Notice → Host α → Checked (Host α × List Effects)
  | [], host => pure (host, [])
  | notice :: rest, host => do
    let r ← Application.onNotice now notice host.application host.connection
    let (host, effects) ← Host.tell now rest ⟨r.connection, r.application⟩
    pure (host, r.effects :: effects)

/-- Carries out the reaction of a host's connection, tells the application, and carries out what it
answers. -/
def react [DrawSource σ] [Application α] (id : Nat) (host : Host α) (reaction : Reaction)
    (s : Simulation σ α) : Checked (Simulation σ α) := do
  let home := host.connection.home
  let s ← s.carryOut id home reaction.toEffects
  -- An application answers with effects alone, so this ends after one round.
  let (host, answers) ← host.tell s.now reaction.notices
  answers.foldlM (fun s effects ↦ s.carryOut id home effects) (s.setHost id host)

end Simulation

end ReliableStream
