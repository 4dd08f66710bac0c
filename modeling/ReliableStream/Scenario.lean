import ReliableStream.Application.Peer
import ReliableStream.Simulation.Run

/-!
# Scenarios

A scenario is one client that sends one message to one server. It is set up as a simulation with
the server as first host and the client as second, and run for its duration. Everything it notes
carries its name.

What is added to a simulation does not depend on where chance comes from (`assemble`). Setting up
takes it from a seed, so what is proved of simulations that are assembled with any source of chance
holds of all that are set up.
-/

namespace ReliableStream

/-- One client that sends one message to one server. -/
structure Scenario where
  /-- What it is called. -/
  name : String
  /-- How the network misbehaves. -/
  faults : Network.Faults
  /-- How both connections behave. -/
  settings : Connection.Settings
  /-- Where the server is. -/
  server : Endpoint
  /-- Where the client is. -/
  client : Endpoint
  /-- When the client starts; the server starts at once. -/
  clientStart : Nat
  /-- What the client sends. -/
  message : Bytes
  /-- How long the run lasts. -/
  duration : Nat
  deriving DecidableEq

/-- A scenario that is set up. -/
structure Scenario.Setup (σ : Type) where
  /-- The simulation. -/
  simulation : Simulation σ Peer
  /-- The number of the server. -/
  server : Nat
  /-- The number of the client. -/
  client : Nat

namespace Scenario

/-! ### Presets -/

/-- A moderately unreliable network, and a message that fits in one segment. -/
def basic : Scenario where
  name := "basic"
  faults := { loss := .ofRatio false 15 100, reorder := .ofRatio false 10 100,
              duplicate := .ofRatio false 5 100 }
  settings := { window := 4, rto := 1500 * Time.millisecond }
  server := ⟨192, 168, 1, 100, 8080⟩
  client := ⟨192, 168, 1, 101, 9000⟩
  clientStart := 2 * Time.second
  message := message.toUTF8.toList
  duration := 20 * Time.second
where
  /-- What the client sends. -/
  message : String :=
    "Hello from TCP client! This message will be delivered reliably " ++
    "despite packet loss, reordering, and duplication. TCP ensures that every byte arrives in " ++
    "the correct order through sequence numbers, acknowledgments, and retransmission."

/-- An extremely unreliable network, and a message that takes several segments. -/
def highLoss : Scenario where
  name := "high_loss"
  faults := { loss := .ofRatio false 40 100, reorder := .ofRatio false 20 100,
              duplicate := .ofRatio false 10 100,
              minDelay := 200 * Time.millisecond, maxDelay := 600 * Time.millisecond }
  settings := { window := 3, rto := Time.second, handshakeTimeout := 10 * Time.second }
  server := ⟨10, 0, 0, 1, 5000⟩
  client := ⟨10, 0, 0, 2, 6000⟩
  clientStart := 2 * Time.second
  message := (List.replicate 5 paragraph.toUTF8.toList).flatten
  duration := 40 * Time.second
where
  /-- What the client sends five times. -/
  paragraph : String :=
    "This is a much longer message that will be split into " ++
    "multiple TCP segments. Despite 40% packet loss - which is extremely high - TCP will " ++
    "successfully deliver every byte through retransmission. You'll see many timeouts and " ++
    "retransmissions, but eventually the complete message arrives in perfect order. "

/-- The preset of a name. -/
def ofName? : String → Option Scenario
  | "basic" => some basic
  | "high_loss" => some highLoss
  | _ => none

/-! ### Setting up and running -/

section

variable {σ : Type} [DrawSource σ]

/-- Adds the server of a scenario to a simulation, and then the client. -/
def assemble (s : Scenario) (simulation : Simulation σ Peer) : Except Failure (Setup σ) := do
  let (server, simulation) := simulation.addHost s.server s.settings (.server []) 0
  let server ← server
  let (client, simulation) :=
    simulation.addHost s.client s.settings (.client s.server s.message) s.clientStart
  let client ← client
  pure { simulation, server, client }

/-- A scenario is assembled if neither host is refused, and each keeps the number it was given. -/
theorem assemble_eq_ok_iff {s : Scenario} {empty : Simulation σ Peer} {setup : Setup σ} :
    s.assemble empty = .ok setup ↔ ∃ mid,
      empty.addHost s.server s.settings (.server []) 0 = (.ok setup.server, mid) ∧
      mid.addHost s.client s.settings (.client s.server s.message) s.clientStart =
        (.ok setup.client, setup.simulation) := by
  constructor
  · intro h
    rcases hserver : empty.addHost s.server s.settings (.server []) 0 with ⟨answer, mid⟩
    rw [assemble, hserver] at h
    obtain ⟨server, rfl, hrest⟩ := Failure.exists_of_bind_eq_ok h
    rcases hclient : mid.addHost s.client s.settings (.client s.server s.message) s.clientStart
      with ⟨answer, last⟩
    rw [hclient] at hrest
    obtain ⟨client, rfl, hdone⟩ := Failure.exists_of_bind_eq_ok hrest
    obtain rfl := Except.ok.inj hdone
    exact ⟨mid, hserver, hclient⟩
  · rintro ⟨mid, hserver, hclient⟩
    rw [assemble, hserver]
    dsimp only [bind, Except.bind]
    rw [hclient]
    rfl

end

/-- Sets a scenario up with all chance from a seed. Nothing runs yet. -/
def setup (seed : UInt64) (s : Scenario) : Except Failure (Setup ChaCha) :=
  Simulation.ofSeed s.faults seed >>= s.assemble

/-- The line of an entry noted in a scenario. -/
def line (s : Scenario) (entry : Simulation.Entry) : Journal.Line :=
  entry.line.within ⟨"scenario", s.name⟩

namespace Setup

variable {σ : Type}

/-- Runs for a duration. -/
def run [DrawSource σ] (duration : Nat) (s : Setup σ) : Checked (Setup σ) := do
  let simulation ← s.simulation.run duration
  pure { s with simulation }

/-- What the server has read. -/
def inbox (s : Setup σ) : Bytes :=
  (s.simulation.host? s.server).elim [] (·.application.inbox)

end Setup

end Scenario

end ReliableStream
