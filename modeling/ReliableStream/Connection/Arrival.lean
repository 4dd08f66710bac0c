import ReliableStream.Connection.Handshake
import ReliableStream.Connection.Transfer

/-!
# What reaches a connection

The two ways in: `onPacket` for a packet that arrived, `onAlarm` for an alarm that rang. A closed
connection drops every packet, and one that has a peer drops those of anyone else; a listening one
takes packets from anyone. What is left goes by the kind of packet to the handshake and the
transfer.

The note that a packet was received is made in any case, before what is made of it. Everything that
is proved of connections is proved once for each kind of packet and of alarm, along these cases.
-/

namespace ReliableStream.Connection

/-- Why a packet is dropped unread, if it is. -/
def dropNote? (packet : Packet) (c : Connection) : Option Note :=
  match c.state with
  | .closed => some (.closedTo packet)
  | .listening => none
  | _ => if c.peer = some packet.source then none else some (.notFromPeer packet)

/-- Completes the handshake if the packet does, and goes on if the connection is established then.
-/
def onceEstablished (ack : Nat) (next : Connection → Checked (Connection × Reaction))
    (c : Connection) : Checked (Connection × Reaction) :=
  let (c, completed) := c.completeHandshake ack
  if c.state = .established then do
    let (c, reaction) ← next c
    pure (c, completed ++ reaction)
  else pure (c, completed)

/-- An established connection has no handshake to complete: what arrives is read at once. -/
theorem onceEstablished_of_established {ack : Nat} {c : Connection}
    {next : Connection → Checked (Connection × Reaction)} (h : c.state = .established) :
    c.onceEstablished ack next = next c := by
  rw [onceEstablished, completeHandshake_of_ne (by simp [h])]
  dsimp only
  rw [if_pos h]
  cases next c with
  | error overflow => rfl
  | ok done => exact congrArg Except.ok (Prod.ext rfl (Reaction.empty_append done.2))

/-- Reads a packet that is not dropped. -/
def onAdmitted (now : Nat) (packet : Packet) (c : Connection) : Checked (Connection × Reaction) :=
  match packet.kind with
  | .syn => do
    let (c, effects) ← c.onSyn packet.source packet.seq
    pure (c, effects)
  | .synAck => pure (c.onSynAck packet.seq packet.ack)
  | .ack => c.onceEstablished packet.ack fun c ↦ do
    let (c, effects) ← c.onAck now packet.ack
    pure (c, effects)
  -- Data completes a handshake like an acknowledgement: the peer would not send it otherwise.
  | .data => c.onceEstablished packet.ack (·.onData ⟨packet.seq, packet.payload⟩)
  | .fin | .finAck => pure (c, { notes := [.teardownIgnored packet] })

/-- An established connection handles an acknowledgement and does nothing else with it: neither is
there a handshake to complete, nor can an acknowledgement carry bytes. -/
theorem onAdmitted_ack {now : Nat} {packet : Packet} {c : Connection}
    (hstate : c.state = .established) (hkind : packet.kind = .ack) :
    c.onAdmitted now packet =
      c.onAck now packet.ack >>= fun x ↦ pure (x.1, (x.2 : Reaction)) := by
  rw [onAdmitted, hkind]
  exact onceEstablished_of_established hstate

/-- A packet arrived. -/
def onPacket (now : Nat) (packet : Packet) (c : Connection) : Checked (Connection × Reaction) :=
  match c.dropNote? packet with
  | some note => pure (c, { notes := [.received packet, note] })
  | none => do
    let (c, reaction) ← c.onAdmitted now packet
    pure (c, ({ notes := [.received packet] } : Reaction) ++ reaction)

/-- An alarm rang. -/
def onAlarm (now : Nat) (watch : Alarm.Watch) (c : Connection) :
    Checked (Connection × Reaction) :=
  match watch with
  | .segment seq generation => do
    let (c, effects) ← c.onSegmentAlarm now seq generation
    pure (c, effects)
  | .handshakeRetry attempt => pure (c, c.onRetry attempt)
  | .handshakeDeadline attempt => pure (c.onDeadline attempt)

end ReliableStream.Connection
