import ReliableStream.Application.Basic

/-!
# Scripted applications

A script has a list of actions for its start and for each kind of notice, and performs them in
order. What it gets back, bytes read and calls refused, it keeps in the order seen.
-/

namespace ReliableStream

/-- Something a script does. -/
inductive Script.Action where
  /-- Opens a connection. -/
  | connect (peer : Endpoint)
  /-- Waits for an opening. -/
  | listen
  /-- Sends bytes. -/
  | send (bytes : Bytes)
  /-- Reads once. -/
  | read
  /-- Reads until nothing is left, and sends back what it read. -/
  | echo
  deriving DecidableEq

/-- Something a script got back. -/
inductive Script.Seen where
  /-- Bytes that were read. -/
  | bytes (bytes : Bytes)
  /-- There was nothing to read. -/
  | nothing
  /-- A call was refused. -/
  | refused (failure : Failure)
  deriving DecidableEq

/-- An application that performs lists of actions. -/
structure Script where
  /-- What it does when it starts. -/
  onStart : List Script.Action := []
  /-- What it does when the connection is established. -/
  onEstablished : List Script.Action := []
  /-- What it does when the handshake failed. -/
  onFailed : List Script.Action := []
  /-- What it does when bytes can be read. -/
  onData : List Script.Action := []
  /-- What it got back so far. -/
  seen : List Script.Seen := []
  deriving DecidableEq

namespace Script

/-- Keeps something that a script got back. -/
def see (seen : Seen) (s : Script) : Script := { s with seen := s.seen ++ [seen] }

/-- Takes over the outcome of a call that may be refused. -/
def take (s : Script) (c : Connection)
    (answer : Except Failure (Checked (Connection × Effects))) : Checked (Response Script) :=
  match answer with
  | .error failure => pure ⟨s.see (.refused failure), c, {}⟩
  | .ok done => do
    let (c, effects) ← done
    pure ⟨s, c, effects⟩

/-- Does one thing after another, with the effects of both. -/
def andThen (r : Response Script) (next : Script → Connection → Checked (Response Script)) :
    Checked (Response Script) := do
  let after ← next r.application r.connection
  pure { after with effects := r.effects ++ after.effects }

/-- Performs an action. -/
def perform (now : Nat) (action : Action) (s : Script) (c : Connection) :
    Checked (Response Script) :=
  match action with
  | .connect peer => s.take c (c.connect peer)
  | .listen => s.take c (c.listen.map pure)
  | .send bytes => s.take c (c.send now bytes)
  | .read =>
    match c.read with
    | .error failure => pure ⟨s.see (.refused failure), c, {}⟩
    | .ok (none, c) => pure ⟨s.see .nothing, c, {}⟩
    | .ok (some bytes, c) => pure ⟨s.see (.bytes bytes), c, {}⟩
  | .echo =>
    match c.readAll with
    | .error failure => pure ⟨s.see (.refused failure), c, {}⟩
    | .ok (parts, c) =>
      parts.foldlM (fun r bytes ↦ andThen r (echo bytes)) ⟨s, c, {}⟩
where
  /-- Sends back bytes that were read. -/
  echo (bytes : Bytes) (s : Script) (c : Connection) : Checked (Response Script) :=
    (s.see (.bytes bytes)).take c (c.send now bytes)

/-- Performs a list of actions. -/
def performAll (now : Nat) (actions : List Action) (s : Script) (c : Connection) :
    Checked (Response Script) :=
  actions.foldlM (fun r action ↦ andThen r (perform now action)) ⟨s, c, {}⟩

instance : Application Script where
  start now s c := s.performAll now s.onStart c
  onNotice now notice s c := match notice with
    | .established => s.performAll now s.onEstablished c
    | .handshakeFailed _ => s.performAll now s.onFailed c
    | .dataReady _ => s.performAll now s.onData c

end Script

end ReliableStream
