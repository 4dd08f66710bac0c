import ReliableStream.Binary64.Writing
import ReliableStream.Trace.Basic

/-!
# The trace as a table

A trace is written as comma-separated values: a header with the names of the columns, then a row
per record, each on a line of its own. A cell that an event has no value for is empty. No cell
holds a comma, a quote or a line break, so nothing is quoted. A trace without records is the empty
text, without a header.
-/

namespace ReliableStream.Trace

/-- The cells of a record that not every event has. -/
structure Details where
  /-- The kind of packet. -/
  kind : Option Packet.Kind := none
  /-- A sequence number. -/
  seq : Option Nat := none
  /-- An acknowledgement number. -/
  ack : Option Nat := none
  /-- A number of bytes. -/
  len : Option Nat := none
  deriving DecidableEq

/-- What the table says about an event beside its name. -/
def Event.details : Event → Details
  | .segmentSent seq len | .segmentResent seq len _ => { seq, len }
  | .ackReceived ack _ => { ack }
  | .bytesDelivered len => { len }
  | .packetLost kind seq | .packetDuplicated kind seq | .packetReordered kind seq => { kind, seq }
  | .registered | .established _ | .handshakeFailed | .undeliverable _ => {}

/-- Times are written in seconds with the fewest digits that read back, with an exponent below `10 ^
-5` and from `10 ^ 16` on, and with a point in whole numbers. -/
def secondsStyle : Binary64.DecimalStyle := ⟨fun point ↦ -5 < point ∧ point ≤ 16, true, false⟩

/-- The names of the columns. -/
def header : List String := ["time_s", "endpoint", "event", "kind", "seq", "ack", "len"]

/-- The cells of a record, one for each column. -/
def Record.cells (r : Record) : List String :=
  let details := r.event.details
  [(Time.toSeconds r.time).write secondsStyle, r.endpoint.text, r.event.name,
    details.kind.elim "" Packet.Kind.name, details.seq.elim "" toString,
    details.ack.elim "" toString, details.len.elim "" toString]

/-- A line of the table. -/
def line (cells : List String) : String := ",".intercalate cells ++ "\n"

/-- The table of a trace. -/
def table : List Record → String
  | [] => ""
  | records => String.join (line header :: records.map (line ·.cells))

end ReliableStream.Trace
