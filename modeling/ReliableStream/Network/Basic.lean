import ReliableStream.Network.Fate
import ReliableStream.Trace.Basic

/-!
# The network

The network knows who is registered at which endpoint, and decides when the copies of a packet
arrive. It keeps no packets: `send` answers with deliveries, and whoever asked schedules them. Who
receives a packet is decided by `route`, when it arrives.
-/

namespace ReliableStream

/-- The actor that stands for the network. Hosts are actors that count from one. -/
abbrev networkActor : Nat := 0

/-- A copy of a packet on its way. -/
structure Network.Delivery where
  /-- When it arrives. -/
  time : Nat
  /-- What arrives. -/
  packet : Packet
  deriving DecidableEq

/-- Running totals of a network. -/
structure Network.Stats where
  /-- Packets sent. -/
  sent : Nat := 0
  /-- Packets lost. -/
  lost : Nat := 0
  /-- Packets delivered twice. -/
  duplicated : Nat := 0
  /-- Copies held back. -/
  reordered : Nat := 0
  /-- Packets that arrived where nobody was. -/
  undeliverable : Nat := 0
  deriving DecidableEq

/-- A network that loses, duplicates and delays packets, by draws from a source `σ`. -/
structure Network (σ : Type) where
  /-- How it misbehaves. -/
  faults : Network.Faults
  /-- It can misbehave so. -/
  valid : faults.Valid
  /-- Who is where. -/
  routes : List (Endpoint × Nat) := []
  /-- Where its draws come from. -/
  source : σ
  /-- Running totals. -/
  stats : Network.Stats := {}

namespace Network

/-- The totals after one more packet, which has a given fate. -/
def Stats.count (fate : Fate) (stats : Stats) : Stats :=
  { stats with
    sent := stats.sent + 1
    lost := stats.lost + if fate = .lost then 1 else 0
    duplicated := stats.duplicated + if fate.copies.length = 2 then 1 else 0
    reordered := stats.reordered + fate.copies.countP (·.extra.isSome) }

/-- What the trace says about a packet with a given fate. -/
def Fate.events (packet : Packet) (fate : Fate) : List Trace.Event :=
  let heldBack := (fate.copies.filter (·.extra.isSome)).map fun _ ↦
    .packetReordered packet.kind packet.seq
  match fate with
  | .lost => [.packetLost packet.kind packet.seq]
  | .single _ => heldBack
  | .double _ _ => .packetDuplicated packet.kind packet.seq :: heldBack

variable {σ : Type}

/-- A network where nobody is registered yet, if its faults make sense. -/
def create (faults : Faults) (source : σ) : Except Failure (Network σ) :=
  match h : faults.fault? with
  | some fault => .error (.misconfigured fault)
  | none => .ok { faults, source, valid := faults.fault?_eq_none_iff.1 h }

/-- Registers an actor at an endpoint, in place of whoever was there. -/
def register (endpoint : Endpoint) (actor : Nat) (n : Network σ) : Network σ :=
  { n with routes := (endpoint, actor) :: n.routes.filter (·.1 ≠ endpoint) }

/-- Who is registered at an endpoint. -/
def actorAt? (endpoint : Endpoint) (n : Network σ) : Option Nat := n.routes.lookup endpoint

/-- Who receives a packet that arrives now. A packet that nobody receives is counted. -/
def route (packet : Packet) (n : Network σ) : Except Failure Nat × Network σ :=
  match n.actorAt? packet.destination with
  | some actor => (.ok actor, n)
  | none =>
    (.error (.unknownDestination packet.destination),
      { n with stats := { n.stats with undeliverable := n.stats.undeliverable + 1 } })

/-- What sending a packet leads to. -/
structure Sent (σ : Type) where
  /-- The copies that will arrive. -/
  deliveries : List Delivery
  /-- What the trace says about it. -/
  traces : List Trace.Event
  /-- The network afterwards. -/
  network : Network σ

/-- Sends a packet at `now`. -/
def send [DrawSource σ] (now : Nat) (packet : Packet) (n : Network σ) : Checked (Sent σ) := do
  let (fate, source) := Fate.draw n.faults n.source
  let deliveries ← fate.copies.mapM fun copy ↦ do
    pure { time := ← copy.arrival now, packet }
  pure { deliveries, traces := fate.events packet,
         network := { n with source, stats := n.stats.count fate } }

/-- Whatever arrives is a copy of the packet that was sent, and nobody moves. No copy arrives before
it was sent, and none after the last instant there is: such a delay is refused. -/
theorem send_eq_ok [DrawSource σ] {now : Nat} {packet : Packet} {n : Network σ} {sent : Sent σ}
    (h : n.send now packet = .ok sent) :
    sent.network.routes = n.routes ∧ ∀ delivery ∈ sent.deliveries, delivery.packet = packet ∧
      now ≤ delivery.time ∧ delivery.time ≤ maxWord := by
  obtain ⟨deliveries, hdeliveries, h⟩ := Checked.bind_eq_ok_iff.1 h
  obtain rfl := Checked.pure_eq_ok_iff.1 h
  refine ⟨rfl, fun delivery hmem ↦ ?_⟩
  obtain ⟨copy, -, hcopy⟩ := Checked.exists_of_mem_mapM hdeliveries hmem
  obtain ⟨time, htime, hpure⟩ := Checked.bind_eq_ok_iff.1 hcopy
  obtain rfl := Checked.pure_eq_ok_iff.1 hpure
  exact ⟨rfl, Transit.arrival_eq_ok htime⟩

/-- No more than two copies arrive. That bounds what a run can set off (see the weights of packets).
-/
theorem length_deliveries_le [DrawSource σ] {now : Nat} {packet : Packet} {n : Network σ}
    {sent : Sent σ} (h : n.send now packet = .ok sent) : sent.deliveries.length ≤ 2 := by
  obtain ⟨deliveries, hdeliveries, h⟩ := Checked.bind_eq_ok_iff.1 h
  obtain rfl := Checked.pure_eq_ok_iff.1 h
  rw [Checked.length_of_mapM hdeliveries]
  exact Fate.length_copies_le _

/-- The totals of a network, line by line. -/
def Stats.summary (stats : Stats) : List String :=
  ["Network statistics:",
    s!"  Packets sent: {stats.sent}",
    s!"  Packets lost: {stats.lost}",
    s!"  Packets duplicated: {stats.duplicated}",
    s!"  Packets reordered: {stats.reordered}",
    s!"  Packets undeliverable: {stats.undeliverable}"]

end Network

end ReliableStream
