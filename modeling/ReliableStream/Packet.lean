import ReliableStream.Endpoint

/-!
# Packets

What travels between endpoints: a header with both endpoints and the sequence numbers, and a
payload. A packet has no encoding in bytes, the network moves it whole.
-/

namespace ReliableStream

/-- A run of bytes. -/
abbrev Bytes := List UInt8

/-- What a packet is for. -/
inductive Packet.Kind where
  /-- Opens a connection. -/
  | syn
  /-- Answers an opening. -/
  | synAck
  /-- Acknowledges everything before a sequence number. -/
  | ack
  /-- Carries a segment of the stream. -/
  | data
  /-- Ends a stream; it travels, and is not acted upon. -/
  | fin
  /-- Answers the end of a stream; it travels, and is not acted upon. -/
  | finAck
  deriving DecidableEq

/-- The name of a kind. -/
def Packet.Kind.name : Packet.Kind → String
  | .syn => "SYN"
  | .synAck => "SYN_ACK"
  | .ack => "ACK"
  | .data => "DATA"
  | .fin => "FIN"
  | .finAck => "FIN_ACK"

/-- The window that is advertised unless another one is set. -/
abbrev Packet.defaultWindow : UInt16 := 65535

/-- A packet. -/
structure Packet where
  /-- Where it comes from. -/
  source : Endpoint
  /-- Where it goes. -/
  destination : Endpoint
  /-- What it is for. -/
  kind : Packet.Kind
  /-- The place of its first byte in the sender's stream. -/
  seq : Nat := 0
  /-- The place of the next byte that the sender expects. -/
  ack : Nat := 0
  /-- The window that its sender advertises, which nobody acts upon. -/
  window : UInt16 := Packet.defaultWindow
  /-- The bytes it carries. -/
  payload : Bytes := []
  deriving DecidableEq

/-- The text of a packet. -/
def Packet.text (p : Packet) : String :=
  s!"Packet({p.kind.name}, {p.source.text} -> {p.destination.text}, " ++
    s!"seq={p.seq}, ack={p.ack}, len={p.payload.length})"

end ReliableStream
