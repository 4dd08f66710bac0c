import ReliableStream.Connection.Basic

/-!
# The handshake

An end opens actively with `connect` or waits for an opening with `listen`. The opening, the SYN,
is answered by a SYN-ACK, and that by an ACK; data does as well as the ACK. A handshake packet is
sent again after each retransmission delay, and the handshake is given up at its deadline. The
deadline of a passive end starts when the SYN arrives.
-/

namespace ReliableStream.Connection

/-- Starts a handshake: gives it a number and sets its alarms. -/
def startHandshake (c : Connection) : Checked (Connection × Effects) := do
  let attempt ← addWithin maxHalfWord c.attempt 1
  pure ({ c with attempt },
    { alarms := [⟨c.settings.rto, .handshakeRetry attempt⟩,
        ⟨c.settings.handshakeTimeout, .handshakeDeadline attempt⟩] })

/-- A handshake that starts gets the next number, and two alarms for it. -/
theorem startHandshake_eq_ok {c c' : Connection} {effects : Effects}
    (h : c.startHandshake = .ok (c', effects)) :
    c.attempt + 1 ≤ maxHalfWord ∧ c' = { c with attempt := c.attempt + 1 } ∧
      effects = { alarms := [⟨c.settings.rto, .handshakeRetry (c.attempt + 1)⟩,
        ⟨c.settings.handshakeTimeout, .handshakeDeadline (c.attempt + 1)⟩] } := by
  obtain ⟨attempt, hadd, h⟩ := Checked.bind_eq_ok_iff.1 h
  obtain ⟨hle, rfl⟩ := addWithin_eq_ok_iff.1 hadd
  obtain ⟨rfl, rfl⟩ := Checked.pure_prod_eq_ok h
  exact ⟨hle, rfl, rfl⟩

/-- The opening of a stream. -/
def opening (c : Connection) : List Packet := c.control .syn c.isn 0

/-- The answer to an opening. -/
def openingAnswer (c : Connection) : List Packet := c.control .synAck c.isn c.edge

/-- Completes a handshake. -/
def establish (c : Connection) : Connection × Reaction :=
  ({ c with state := .established },
    { traces := c.peer.toList.map .established
      notes := c.peer.toList.map .established
      notices := [.established] })

/-! ### Opening -/

/-- Opens a connection to a peer. The outcome is told by a notice. -/
def connect (peer : Endpoint) (c : Connection) : Except Failure (Checked (Connection × Effects)) :=
  if c.state = .closed then
    .ok do
      let c := { c with peer := some peer, state := .synSent, sendBase := c.isn,
                        sendNext := c.firstByte }
      let (c, alarms) ← c.startHandshake
      pure (c, { packets := c.opening, notes := [.connecting peer] } ++ alarms)
  else .error (.wrongState c.state)

/-- Waits for an opening from anyone. -/
def listen (c : Connection) : Except Failure (Connection × Effects) :=
  if c.state = .closed then
    .ok ({ c with peer := none, state := .listening }, { notes := [.listening] })
  else .error (.wrongState c.state)

/-! ### Answering -/

/-- An opening arrived. A repeated one is answered again, since the answer may have been lost. -/
def onSyn (source : Endpoint) (seq : Nat) (c : Connection) : Checked (Connection × Effects) :=
  match c.state with
  | .listening => do
    let c := { c with peer := some source, reassembly := { edge := saturatingAdd seq 1 },
                      state := .synReceived, sendBase := c.isn, sendNext := c.firstByte }
    let (c, alarms) ← c.startHandshake
    pure (c, { packets := c.openingAnswer, notes := [.synReceived source seq] } ++ alarms)
  | .synReceived => pure (c, { packets := c.openingAnswer })
  | state => pure (c, { notes := [.synUnexpected state] })

/-- An answer to an opening arrived. It counts if it acknowledges the opening. Once established it
is acknowledged again, since the peer did not see the acknowledgement. -/
def onSynAck (seq ack : Nat) (c : Connection) : Connection × Reaction :=
  match c.state with
  | .synSent =>
    if ack = c.firstByte then
      let c := { c with reassembly := { edge := saturatingAdd seq 1 }, sendBase := ack }
      -- The acknowledgement goes out before the application can send.
      let (c', established) := c.establish
      (c', ({ packets := c.acknowledgement, notes := [.synAckReceived seq ack] } : Effects)
        ++ established)
    else (c, { notes := [.synAckUnexpected .synSent ack] })
  | .established => (c, { packets := c.acknowledgement })
  | state => (c, { notes := [.synAckUnexpected state ack] })

/-- An acknowledgement arrived, on a packet of any kind: an answered opening is completed by one
that acknowledges the answer. -/
def completeHandshake (ack : Nat) (c : Connection) : Connection × Reaction :=
  if c.state = .synReceived then
    if ack = c.firstByte then { c with sendBase := ack }.establish
    else (c, { notes := [.handshakeAckMismatch ack] })
  else (c, {})

/-- Nothing has to be completed but an answered opening: in every other state this does nothing, so
it can stand in front of all that is read. -/
theorem completeHandshake_of_ne {ack : Nat} {c : Connection} (h : c.state ≠ .synReceived) :
    c.completeHandshake ack = (c, {}) := if_neg h

/-- The acknowledgement of the answer completes the handshake, on whatever packet it comes. -/
theorem completeHandshake_of_synReceived {ack : Nat} {c : Connection} (h : c.state = .synReceived)
    (hack : ack = c.firstByte) :
    c.completeHandshake ack = ({ c with sendBase := ack, state := .established },
      { traces := c.peer.toList.map .established, notes := c.peer.toList.map .established
        notices := [.established] }) := by
  rw [completeHandshake, if_pos h, if_pos hack]
  rfl

/-- Completing a handshake never changes the peer, since the opening already named it. -/
theorem peer_completeHandshake (ack : Nat) (c : Connection) :
    (c.completeHandshake ack).1.peer = c.peer := by
  rw [Connection.completeHandshake]
  split
  · split <;> rfl
  · rfl

/-! ### Alarms -/

/-- The alarm of a handshake packet rang: it is sent again. -/
def onRetry (attempt : Nat) (c : Connection) : Effects :=
  if attempt = c.attempt then
    match c.state with
    | .synSent => again c.opening
    | .synReceived => again c.openingAnswer
    | _ => {}
  else {}
where
  /-- Sends packets, and sets the alarm again. -/
  again (packets : List Packet) : Effects :=
    { packets, alarms := [⟨c.settings.rto, .handshakeRetry attempt⟩],
      notes := [.handshakeRetried c.state] }

/-- The deadline of a handshake passed: if it is not done by now, it is given up. -/
def onDeadline (attempt : Nat) (c : Connection) : Connection × Reaction :=
  if attempt = c.attempt ∧ (c.state = .synSent ∨ c.state = .synReceived) then
    ({ c with state := .closed },
      { traces := [.handshakeFailed], notes := [.handshakeFailed c.state],
        notices := [.handshakeFailed .handshakeTimeout] })
  else (c, {})

end ReliableStream.Connection
