import ReliableStream.Packet
import ReliableStream.Time

/-!
# What happens in a run

Connections and the network report what happens to them as events. A record adds the instant and
the endpoint concerned: the connection's own, or for what the network does, the sender's.
-/

namespace ReliableStream.Trace

/-- Something that happened. -/
inductive Event where
  /-- An endpoint joined the network. -/
  | registered
  /-- A handshake was completed. -/
  | established (peer : Endpoint)
  /-- A handshake was given up. -/
  | handshakeFailed
  /-- A segment was sent for the first time. -/
  | segmentSent (seq len : Nat)
  /-- A segment was sent again, for the `count`-th time. -/
  | segmentResent (seq len count : Nat)
  /-- An acknowledgement took segments out of flight. -/
  | ackReceived (ack segments : Nat)
  /-- Bytes of the stream were handed over. -/
  | bytesDelivered (len : Nat)
  /-- The network lost a packet. -/
  | packetLost (kind : Packet.Kind) (seq : Nat)
  /-- The network delivers a packet twice. -/
  | packetDuplicated (kind : Packet.Kind) (seq : Nat)
  /-- The network holds a copy back. -/
  | packetReordered (kind : Packet.Kind) (seq : Nat)
  /-- Nobody was registered where a packet arrived. -/
  | undeliverable (destination : Endpoint)
  deriving DecidableEq

/-- The name of an event. -/
def Event.name : Event → String
  | .registered => "registered"
  | .established _ => "established"
  | .handshakeFailed => "handshake_failed"
  | .segmentSent .. => "segment_sent"
  | .segmentResent .. => "segment_retransmitted"
  | .ackReceived .. => "ack_received"
  | .bytesDelivered _ => "bytes_delivered"
  | .packetLost .. => "packet_lost"
  | .packetDuplicated .. => "packet_duplicated"
  | .packetReordered .. => "packet_reordered"
  | .undeliverable _ => "undeliverable"

/-- The text of an event. -/
def Event.text : Event → String
  | .registered => "registered"
  | .established peer => s!"established with {peer.text}"
  | .handshakeFailed => "handshake failed"
  | .segmentSent seq len => s!"sent DATA seq={seq} len={len}"
  | .segmentResent seq len count => s!"TIMEOUT, retransmitted seq={seq} len={len} (#{count})"
  | .ackReceived ack segments => s!"ACK {ack} (acknowledged {segments} segments)"
  | .bytesDelivered len => s!"delivered {len} bytes"
  | .packetLost kind seq => s!"LOST {kind.name} seq={seq}"
  | .packetDuplicated kind seq => s!"DUPLICATING {kind.name} seq={seq}"
  | .packetReordered kind seq => s!"REORDERING {kind.name} seq={seq}"
  | .undeliverable destination => s!"no endpoint for {destination.text}"

/-- Something that happened, with its instant and the endpoint concerned. -/
structure Record where
  /-- When it happened. -/
  time : Nat
  /-- Whom it concerns. -/
  endpoint : Endpoint
  /-- What happened. -/
  event : Event
  deriving DecidableEq

end ReliableStream.Trace
