import ReliableStream.Failure
import ReliableStream.Journal.Line
import ReliableStream.Packet

/-!
# What a connection notes

The journal lines of a connection and of the application on it, as values. The wording, the level
and the pairs of each are in `line`; every line ends with the endpoint of the connection.
-/

namespace ReliableStream.Connection

/-- Something a connection notes in the journal. -/
inductive Note where
  | created (isn : Nat)
  | connecting (peer : Endpoint)
  | listening
  | received (packet : Packet)
  | closedTo (packet : Packet)
  | notFromPeer (packet : Packet)
  | teardownIgnored (packet : Packet)
  | acknowledgesUnsent (ack sendNext : Nat)
  | duplicateAck (ack : Nat)
  | staleData (seq edge : Nat)
  | synReceived (source : Endpoint) (seq : Nat)
  | synUnexpected (state : State)
  | synAckReceived (seq ack : Nat)
  | synAckUnexpected (state : State) (ack : Nat)
  | handshakeAckMismatch (ack : Nat)
  | established (peer : Endpoint)
  | handshakeRetried (state : State)
  | handshakeFailed (state : State)
  | resent (seq count : Nat)
  | callRefused (call : String) (failure : Failure) (state : State)
  | readRefused (failure : Failure)
  deriving DecidableEq

/-- The level of a note. -/
def Note.level : Note → Journal.Level
  | .received _ | .duplicateAck _ => .trace
  | .connecting _ | .listening | .synReceived .. | .synAckReceived .. | .established _ => .info
  | .handshakeFailed _ | .callRefused .. | .readRefused _ => .warn
  | .created _ | .closedTo _ | .notFromPeer _ | .teardownIgnored _ | .acknowledgesUnsent ..
  | .staleData .. | .synUnexpected _ | .synAckUnexpected .. | .handshakeAckMismatch _
  | .handshakeRetried _ | .resent .. => .debug

/-- What a note says. -/
def Note.message : Note → String
  | .created _ => "created"
  | .connecting _ => "starting connection"
  | .listening => "listening"
  | .received _ => "received"
  | .closedTo _ => "closed, dropping"
  | .notFromPeer _ => "not from our peer, dropping"
  | .teardownIgnored _ => "teardown is not supported, ignoring"
  | .acknowledgesUnsent .. => "ACK for data never sent, ignoring"
  | .duplicateAck _ => "duplicate ACK"
  | .staleData .. => "stale DATA, dropping"
  | .synReceived .. => "received SYN"
  | .synUnexpected _ => "unexpected SYN, ignoring"
  | .synAckReceived .. => "received SYN-ACK"
  | .synAckUnexpected .. => "unexpected SYN-ACK, ignoring"
  | .handshakeAckMismatch _ => "handshake ACK does not match"
  | .established _ => "connection ESTABLISHED"
  | .handshakeRetried _ => "handshake timeout, resending"
  | .handshakeFailed _ => "connection FAILED (timeout)"
  | .resent .. => "TIMEOUT, retransmitting"
  | .callRefused call _ _ => s!"{call} failed"
  | .readRefused _ => "receive failed"

/-- The pairs of a note. -/
def Note.pairs : Note → List Journal.Pair
  | .created isn => [⟨"isn", toString isn⟩]
  | .connecting peer => [⟨"remote", peer.text⟩]
  | .listening => []
  | .received packet | .closedTo packet | .notFromPeer packet | .teardownIgnored packet =>
    [⟨"packet", packet.text⟩]
  | .acknowledgesUnsent ack sendNext => [⟨"next_seq", toString sendNext⟩, ⟨"ack", toString ack⟩]
  | .duplicateAck ack | .handshakeAckMismatch ack => [⟨"ack", toString ack⟩]
  | .staleData seq edge => [⟨"expected", toString edge⟩, ⟨"seq", toString seq⟩]
  | .synReceived source seq => [⟨"seq", toString seq⟩, ⟨"from", source.text⟩]
  | .synUnexpected state | .handshakeRetried state | .handshakeFailed state =>
    [⟨"state", state.name⟩]
  | .synAckReceived seq ack => [⟨"ack", toString ack⟩, ⟨"seq", toString seq⟩]
  | .synAckUnexpected state ack => [⟨"ack", toString ack⟩, ⟨"state", state.name⟩]
  | .established peer => [⟨"peer", peer.text⟩]
  | .resent seq count => [⟨"count", toString count⟩, ⟨"seq", toString seq⟩]
  | .callRefused _ failure state => [⟨"state", state.name⟩, ⟨"error", failure.message⟩]
  | .readRefused failure => [⟨"error", failure.message⟩]

/-- The journal line of a note by the connection at `home`. -/
def Note.line (home : Endpoint) (note : Note) : Journal.Line :=
  Journal.Line.within ⟨note.level, note.message, note.pairs⟩ ⟨"endpoint", home.text⟩

end ReliableStream.Connection
