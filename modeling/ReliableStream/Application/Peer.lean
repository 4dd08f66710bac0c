import ReliableStream.Application.Basic

/-!
# Clients and servers

A client connects to a server and sends one message when the connection is established. A server
listens, and appends everything it can read to its inbox. A refused call leaves the connection as
it is and is noted.
-/

namespace ReliableStream

/-- One of the two ends of a transfer. -/
inductive Peer where
  /-- Connects to a server and sends it a message. -/
  | client (address : Endpoint) (message : Bytes)
  /-- Waits for a client and keeps what it reads. -/
  | server (inbox : Bytes)
  deriving DecidableEq

namespace Peer

/-- What a server has read; a client reads nothing. -/
def inbox : Peer → Bytes
  | .client .. => []
  | .server inbox => inbox

/-- The effects of a refused call. -/
def refused (call : String) (failure : Failure) (c : Connection) : Effects :=
  { notes := [.callRefused call failure c.state] }

/-- Asks a connection for something that may be refused. -/
def ask (peer : Peer) (call : String) (c : Connection)
    (answer : Except Failure (Checked (Connection × Effects))) : Checked (Response Peer) :=
  match answer with
  | .error failure => pure ⟨peer, c, refused call failure c⟩
  | .ok done => do
    let (c, effects) ← done
    pure ⟨peer, c, effects⟩

instance : Application Peer where
  start _ peer c := match peer with
    | .client address _ => peer.ask "connect" c (c.connect address)
    | .server _ => peer.ask "listen" c (c.listen.map pure)
  onNotice now notice peer c := match peer, notice with
    | .client _ message, .established => peer.ask "send" c (c.send now message)
    | .server inbox, .dataReady _ =>
      match c.readAll with
      | .error failure => pure ⟨peer, c, { notes := [.readRefused failure] }⟩
      | .ok (parts, c) => pure ⟨.server (inbox ++ parts.flatten), c, {}⟩
    | _, _ => pure ⟨peer, c, {}⟩

end Peer

end ReliableStream
