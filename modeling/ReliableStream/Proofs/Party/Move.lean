import ReliableStream.Proofs.Party.Basic

/-!
# The moves of a party

Whatever an input makes a party do is a sequence of *moves*: `Move now input p reaction q` says that
`p` may become `q` and react so when it has the input at instant `now`. There is one rule for each
thing that a party can do, with everything that has to hold for it, and `moves_of_perform` is the
inversion of `perform`: nothing else ever happens.

An invariant of parties, under any inputs whatsoever, is shown by one case analysis over the rules;
`Moves.preserves` carries it from single moves to sequences.

Most inputs cause one move. Sending bytes and acknowledgements cause as many moves `send` as the
window has room for, and data or an acknowledgement may first complete a handshake. The chunk at the
front of the line leaves it in the move that sends it, so that between two moves, too, every piece
was sent or is pending.
-/

namespace ReliableStream.Party

/-- What a party may do when it has an input at an instant. -/
inductive Move (now : Nat) : Input → Party → Reaction → Party → Prop
  /-- Nothing, but for notes. -/
  | idle {input : Input} {p : Party} (notes : List Connection.Note) :
    Move now input p { notes } p
  /-- It opens a connection. -/
  | connect {peer : Endpoint} {p : Party} {notes : List Connection.Note}
    (hstate : p.state = .closed) (hattempt : p.attempt + 1 ≤ maxHalfWord) :
    Move now (.connect peer) p
      { packets := [⟨p.home, peer, .syn, p.isn, 0, p.settings.advertised, []⟩]
        alarms := [⟨p.settings.rto, .handshakeRetry (p.attempt + 1)⟩,
          ⟨p.settings.handshakeTimeout, .handshakeDeadline (p.attempt + 1)⟩]
        notes }
      { p with peer := some peer, state := .synSent, sendBase := p.isn, sendNext := p.firstByte,
               attempt := p.attempt + 1 }
  /-- It waits for an opening. -/
  | listen {p : Party} {notes : List Connection.Note} (hstate : p.state = .closed) :
    Move now .listen p { notes } { p with peer := none, state := .listening }
  /-- It answers an opening. -/
  | accept {packet : Packet} {p : Party} {notes : List Connection.Note}
    (hkind : packet.kind = .syn) (hstate : p.state = .listening)
    (hattempt : p.attempt + 1 ≤ maxHalfWord) :
    Move now (.packet packet) p
      { packets := [⟨p.home, packet.source, .synAck, p.isn, saturatingAdd packet.seq 1,
          p.settings.advertised, []⟩]
        alarms := [⟨p.settings.rto, .handshakeRetry (p.attempt + 1)⟩,
          ⟨p.settings.handshakeTimeout, .handshakeDeadline (p.attempt + 1)⟩]
        notes }
      { p with peer := some packet.source, reassembly := { edge := saturatingAdd packet.seq 1 },
               state := .synReceived, sendBase := p.isn, sendNext := p.firstByte,
               attempt := p.attempt + 1 }
  /-- It answers an opening again. -/
  | answer {packet : Packet} {p : Party} {notes : List Connection.Note}
    (hkind : packet.kind = .syn) (hstate : p.state = .synReceived)
    (hpeer : p.peer = some packet.source) :
    Move now (.packet packet) p { packets := p.openingAnswer, notes } p
  /-- Its opening is answered. -/
  | opened {packet : Packet} {p : Party} {notes : List Connection.Note}
    (hkind : packet.kind = .synAck) (hstate : p.state = .synSent)
    (hpeer : p.peer = some packet.source) (hack : packet.ack = p.firstByte) :
    Move now (.packet packet) p
      { packets := [⟨p.home, packet.source, .ack, p.sendNext, saturatingAdd packet.seq 1,
          p.settings.advertised, []⟩]
        traces := [.established packet.source]
        notes
        notices := [.established] }
      { p with reassembly := { edge := saturatingAdd packet.seq 1 }, sendBase := packet.ack,
               state := .established }
  /-- Its answer to an opening is acknowledged. -/
  | complete {packet : Packet} {p : Party} {notes : List Connection.Note}
    (hkind : packet.kind = .ack ∨ packet.kind = .data) (hstate : p.state = .synReceived)
    (hpeer : p.peer = some packet.source) (hack : packet.ack = p.firstByte) :
    Move now (.packet packet) p
      { traces := [.established packet.source], notes, notices := [.established] }
      { p with sendBase := packet.ack, state := .established }
  /-- It acknowledges again what it has got. -/
  | acknowledge {packet : Packet} {p : Party} {notes : List Connection.Note}
    (hkind : packet.kind = .synAck ∨ packet.kind = .data ∧ packet.seq < p.edge)
    (hstate : p.state = .established) (hpeer : p.peer = some packet.source) :
    Move now (.packet packet) p { packets := p.acknowledgement, notes } p
  /-- Segments in flight are acknowledged. -/
  | acknowledged {packet : Packet} {p : Party} (hkind : packet.kind = .ack)
    (hstate : p.state = .established) (hpeer : p.peer = some packet.source)
    (hack : packet.ack ≤ p.sendNext) (hsome : (p.inFlight.acknowledge packet.ack).1 ≠ []) :
    Move now (.packet packet) p
      { traces := [.ackReceived packet.ack (p.inFlight.acknowledge packet.ack).1.length] }
      { p with inFlight := (p.inFlight.acknowledge packet.ack).2, sendBase := packet.ack }
  /-- Data comes that does not continue the stream. -/
  | store {packet : Packet} {p : Party} {notes : List Connection.Note}
    (hkind : packet.kind = .data) (hstate : p.state = .established)
    (hpeer : p.peer = some packet.source) (hseq : p.edge ≤ packet.seq)
    (hdrain : (p.reassembly.add ⟨packet.seq, packet.payload⟩).drain.1 = []) :
    Move now (.packet packet) p
      { packets := [⟨p.home, packet.source, .ack, p.sendNext,
          (p.reassembly.add ⟨packet.seq, packet.payload⟩).drain.2.edge, p.settings.advertised, []⟩]
        notes }
      { p with reassembly := (p.reassembly.add ⟨packet.seq, packet.payload⟩).drain.2 }
  /-- Data comes that continues the stream. -/
  | deliver {packet : Packet} {p : Party} {bytes : Bytes} {notes : List Connection.Note}
    (hkind : packet.kind = .data) (hstate : p.state = .established)
    (hpeer : p.peer = some packet.source) (hseq : p.edge ≤ packet.seq)
    (hdrain : (p.reassembly.add ⟨packet.seq, packet.payload⟩).drain.1 = bytes) (hne : bytes ≠ [])
    (hlen : p.stats.bytesReceived + bytes.length ≤ maxWord) :
    Move now (.packet packet) p
      { packets := [⟨p.home, packet.source, .ack, p.sendNext,
          (p.reassembly.add ⟨packet.seq, packet.payload⟩).drain.2.edge, p.settings.advertised, []⟩]
        traces := [.bytesDelivered bytes.length]
        notes
        notices := [.dataReady bytes.length] }
      { p with reassembly := (p.reassembly.add ⟨packet.seq, packet.payload⟩).drain.2
               ready := p.ready ++ [bytes]
               stats := { p.stats with bytesReceived := p.stats.bytesReceived + bytes.length } }
  /-- It is handed bytes. -/
  | hand {bytes : Bytes} {p : Party} (hstate : p.state = .established) :
    Move now (.send bytes) p {}
      { p with pending := p.pending ++ chunks p.settings.mtu bytes, sends := p.sends ++ [bytes] }
  /-- It sends the chunk at the front of the line. -/
  | send {input : Input} {p : Party} {peer : Endpoint} {chunk : Bytes} {rest : List Bytes}
    (hstate : p.state = .established) (hpeer : p.peer = some peer)
    (hpending : p.pending = chunk :: rest) (hroom : p.inFlight.size < p.settings.window)
    (hnext : p.sendNext + chunk.length ≤ maxWord)
    (hsent : p.stats.bytesSent + chunk.length ≤ maxWord) :
    Move now input p
      { packets := [p.dataPacket peer ⟨p.sendNext, chunk, now, 0⟩]
        alarms := [⟨p.settings.rto, .segment p.sendNext 0⟩]
        traces := [.segmentSent p.sendNext chunk.length] }
      { p with sendNext := p.sendNext + chunk.length
               inFlight := p.inFlight.insert ⟨p.sendNext, chunk, now, 0⟩
               pending := rest
               stats := { p.stats with bytesSent := p.stats.bytesSent + chunk.length } }
  /-- It sends a segment again. -/
  | resend {p : Party} {peer : Endpoint} {segment : Segment} {notes : List Connection.Note}
    (hpeer : p.peer = some peer) (hmem : segment ∈ p.inFlight.toList)
    (hresends : segment.resends + 1 ≤ maxHalfWord) :
    Move now (.alarm (.segment segment.seq segment.resends)) p
      { packets := [p.dataPacket peer ⟨segment.seq, segment.payload, now, segment.resends + 1⟩]
        alarms := [⟨p.settings.rto, .segment segment.seq (segment.resends + 1)⟩]
        traces := [.segmentResent segment.seq segment.payload.length (segment.resends + 1)]
        notes }
      { p with inFlight :=
                 p.inFlight.insert ⟨segment.seq, segment.payload, now, segment.resends + 1⟩
               stats := { p.stats with resends := p.stats.resends + 1 } }
  /-- It sends its opening again. -/
  | retryOpening {p : Party} {notes : List Connection.Note} (hstate : p.state = .synSent) :
    Move now (.alarm (.handshakeRetry p.attempt)) p
      { packets := p.opening, alarms := [⟨p.settings.rto, .handshakeRetry p.attempt⟩], notes } p
  /-- It sends its answer to an opening again. -/
  | retryAnswer {p : Party} {notes : List Connection.Note} (hstate : p.state = .synReceived) :
    Move now (.alarm (.handshakeRetry p.attempt)) p
      { packets := p.openingAnswer, alarms := [⟨p.settings.rto, .handshakeRetry p.attempt⟩], notes }
      p
  /-- It gives a handshake up. -/
  | giveUp {p : Party} {notes : List Connection.Note}
    (hstate : p.state = .synSent ∨ p.state = .synReceived) :
    Move now (.alarm (.handshakeDeadline p.attempt)) p
      { traces := [.handshakeFailed], notes, notices := [.handshakeFailed .handshakeTimeout] }
      { p with state := .closed }
  /-- It reads. -/
  | read {p : Party} {bytes : Bytes} {rest : List Bytes} (hstate : p.state = .established)
    (hready : p.ready = bytes :: rest) :
    Move now .read p {} { p with ready := rest, reads := p.reads ++ [bytes] }

/-- Moves one after the other, with everything they cause. -/
inductive Moves (now : Nat) (input : Input) : Party → Reaction → Party → Prop
  | none (p : Party) : Moves now input p {} p
  | cons {p q t : Party} {r s : Reaction} (first : Move now input p r q)
    (rest : Moves now input q s t) : Moves now input p (r ++ s) t

namespace Moves

variable {now : Nat} {input : Input} {p q t : Party} {r s : Reaction}

theorem single (h : Move now input p r q) : Moves now input p r q := by
  simpa using cons h (none q)

theorem append (h : Moves now input p r q) (h' : Moves now input q s t) :
    Moves now input p (r ++ s) t := by
  induction h with
  | none p => simpa using h'
  | cons first _ ih =>
    rw [Reaction.append_assoc]
    exact cons first (ih h')

/-- What every move keeps is kept by moves one after the other. All invariants of parties are
carried by this lemma. -/
theorem preserves {P : Party → Prop} (hmove : ∀ {p q r}, P p → Move now input p r q → P q)
    (h : Moves now input p r q) (hp : P p) : P q := by
  induction h with
  | none p => exact hp
  | cons first _ ih => exact ih (hmove hp first)

/-- Settings are fixed. -/
theorem settings_eq (h : Moves now input p r q) : q.settings = p.settings :=
  h.preserves (P := fun t ↦ t.settings = p.settings) (fun ht hmove ↦ by cases hmove <;> exact ht)
    rfl

/-- A party stays where it is. -/
theorem home_eq (h : Moves now input p r q) : q.home = p.home :=
  h.preserves (P := fun t ↦ t.home = p.home) (fun ht hmove ↦ by cases hmove <;> exact ht) rfl

end Moves

end ReliableStream.Party
