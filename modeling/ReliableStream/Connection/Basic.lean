import ReliableStream.Connection.Effects
import ReliableStream.Connection.Settings
import ReliableStream.Reassembly

/-!
# Connections

One end of a reliable byte stream, as a value. The stream it sends starts at its initial sequence
number, of which the handshake takes up one; `sendNext` is the place of the next new byte and
`sendBase` the last place acknowledged. What was sent and not acknowledged is in flight, what the
window has no room for is pending. The stream it receives is put together by `reassembly`, and
waits in `ready` until the application reads it.

Handshakes are numbered by `attempt`, so that alarms of an earlier one can be told from those of
the current one. The peer is kept when a handshake fails, until the next one.
-/

namespace ReliableStream

/-- Running totals of a connection. -/
structure Connection.Stats where
  /-- Bytes sent, each counted once. -/
  bytesSent : Nat := 0
  /-- Bytes handed over for reading. -/
  bytesReceived : Nat := 0
  /-- Segments sent again. -/
  resends : Nat := 0
  deriving DecidableEq

/-- One end of a reliable byte stream. -/
structure Connection where
  /-- Where this end is. -/
  home : Endpoint
  /-- Where the other end is, once known. -/
  peer : Option Endpoint := none
  /-- How the connection behaves. -/
  settings : Connection.Settings
  /-- The settings let the connection make progress. -/
  valid : settings.Valid
  /-- Where it is in its life. -/
  state : Connection.State := .closed
  /-- The initial sequence number. -/
  isn : Nat
  /-- The place of the next new byte. -/
  sendNext : Nat := isn
  /-- The last place that was acknowledged. -/
  sendBase : Nat := isn
  /-- What was sent and is not acknowledged. -/
  inFlight : InFlight := ∅
  /-- What the window has no room for. -/
  pending : List Bytes := []
  /-- What arrived ahead of the stream. -/
  reassembly : Reassembly := {}
  /-- What arrived and was not read. -/
  ready : List Bytes := []
  /-- The number of the current handshake. -/
  attempt : Nat := 0
  /-- Running totals. -/
  stats : Connection.Stats := {}
  deriving DecidableEq

namespace Connection

/-- A closed connection with a given initial sequence number, if its settings are valid. -/
def create (home : Endpoint) (settings : Settings) (isn : Nat) : Except Failure Connection :=
  match h : settings.fault? with
  | some fault => .error (.misconfigured fault)
  | none => .ok { home, settings, isn, valid := settings.fault?_eq_none_iff.1 h }

/-- The note of a connection's creation. -/
def creationNote (c : Connection) : Note := .created c.isn

/-- The place of the first byte of the stream, after the handshake. -/
def firstByte (c : Connection) : Nat := saturatingAdd c.isn 1

/-- The place of the next byte expected from the peer. -/
def edge (c : Connection) : Nat := c.reassembly.edge

/-- Whether every byte handed over for sending was acknowledged. -/
def allAcknowledged (c : Connection) : Bool := c.inFlight.isEmpty && c.pending.isEmpty

/-! ### Packets to the peer -/

/-- A packet without payload to the peer, if there is one. -/
def control (kind : Packet.Kind) (seq ack : Nat) (c : Connection) : List Packet :=
  c.peer.toList.map fun peer ↦
    { source := c.home, destination := peer, kind, seq, ack, window := c.settings.advertised }

/-- An acknowledgement of everything before the edge. -/
def acknowledgement (c : Connection) : List Packet := c.control .ack c.sendNext c.edge

/-- The packet that carries a segment to a peer. -/
def dataPacket (peer : Endpoint) (segment : Segment) (c : Connection) : Packet where
  source := c.home
  destination := peer
  kind := .data
  seq := segment.seq
  ack := c.edge
  window := c.settings.advertised
  payload := segment.payload

/-! ### Summary -/

/-- The summary of a connection, line by line. -/
def summary (c : Connection) : List String :=
  [s!"Connection statistics ({c.home.text}):",
    s!"  State: {c.state.name}",
    s!"  Bytes sent: {c.stats.bytesSent}",
    s!"  Bytes received: {c.stats.bytesReceived}",
    s!"  Packets retransmitted: {c.stats.resends}",
    s!"  Send buffer size: {c.inFlight.size}"]

end Connection

end ReliableStream
