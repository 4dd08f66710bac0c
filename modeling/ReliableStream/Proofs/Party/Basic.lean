import ReliableStream.Connection.Arrival
import ReliableStream.Proofs.Layout

/-!
# Parties

A party is a connection together with what was done with it: the bytes of every call to `send` that
was accepted, and what the calls to `read` gave. `perform` gives it one input, a call by its owner,
a packet that arrives or an alarm that rings, and keeps this history.

Whatever is sent is cut when it is handed over. `pieces` are the parts in the order in which they
are sent, and `script` has each at its place in the stream; what is in flight, what is pending and
what the other side has got are parts of it.

The history is there for the sake of statements. No function of a connection looks at it, so
whatever is shown of parties is shown of connections, and a party can be formed of any connection by
saying that it was handed nothing.
-/

namespace ReliableStream

/-- What can be asked of a connection, or reach it. -/
inductive Input where
  /-- Open a connection to a peer. -/
  | connect (peer : Endpoint)
  /-- Wait for an opening. -/
  | listen
  /-- Send bytes. -/
  | send (bytes : Bytes)
  /-- Read once. -/
  | read
  /-- A packet arrives. -/
  | packet (packet : Packet)
  /-- An alarm rings. -/
  | alarm (watch : Alarm.Watch)
  deriving DecidableEq

/-- A connection, and what it was handed and gave so far. -/
structure Party extends Connection where
  /-- The bytes of each call to `send` that was accepted. -/
  sends : List Bytes := []
  /-- The bytes that each call to `read` gave. -/
  reads : List Bytes := []
  deriving DecidableEq

namespace Party

/-- A party at the beginning of its life. -/
def create (home : Endpoint) (settings : Connection.Settings) (valid : settings.Valid)
    (isn : Nat) : Party where
  home := home
  settings := settings
  valid := valid
  isn := isn

/-- Valid settings give the connection of a new party. -/
theorem toConnection_create (home : Endpoint) (settings : Connection.Settings)
    (valid : settings.Valid) (isn : Nat) :
    Connection.create home settings isn = .ok (create home settings valid isn).toConnection := by
  have hnone : settings.fault? = none := settings.fault?_eq_none_iff.2 valid
  rw [Connection.create]
  split
  · next fault hfault => exact absurd (hnone.symm.trans hfault) (by simp)
  · rfl

/-- A connection that is created is that of a new party. -/
theorem exists_of_create {home : Endpoint} {settings : Connection.Settings} {isn : Nat}
    {c : Connection} (h : Connection.create home settings isn = .ok c) :
    ∃ valid, c = (create home settings valid isn).toConnection := by
  rw [Connection.create] at h
  split at h
  · exact absurd h (by simp)
  · next hnone => exact ⟨settings.fault?_eq_none_iff.1 hnone, (Except.ok.inj h).symm⟩

/-! ### Inputs -/

/-- Takes over the answer to a call. A refused call changes nothing; one that is accepted hands over
`bytes`. -/
def call (bytes : List Bytes) (answer : Except Failure (Checked (Connection × Effects)))
    (p : Party) : Checked (Party × Reaction) :=
  match answer with
  | .error _ => pure (p, {})
  | .ok done => do
    let (c, effects) ← done
    pure ({ p with toConnection := c, sends := p.sends ++ bytes }, effects)

/-- Takes over what reading gives. -/
def keep (answer : Except Failure (Option Bytes × Connection)) (p : Party) : Party :=
  match answer with
  | .error _ => p
  | .ok (bytes?, c) => { p with toConnection := c, reads := p.reads ++ bytes?.toList }

/-- Takes over the connection after something reached it. -/
def move (outcome : Checked (Connection × Reaction)) (p : Party) : Checked (Party × Reaction) := do
  let (c, reaction) ← outcome
  pure ({ p with toConnection := c }, reaction)

/-- Gives a party an input. -/
def perform (now : Nat) (input : Input) (p : Party) : Checked (Party × Reaction) :=
  match input with
  | .connect peer => p.call [] (p.toConnection.connect peer)
  | .listen => p.call [] (p.toConnection.listen.map pure)
  | .send bytes => p.call [bytes] (p.toConnection.send now bytes)
  | .read => pure (p.keep p.toConnection.read, {})
  | .packet packet => p.move (p.toConnection.onPacket now packet)
  | .alarm watch => p.move (p.toConnection.onAlarm now watch)

/-- Gives a party inputs one after the other, each at an instant: what becomes of the party, and
the packets that it sends. -/
def performAll : List (Nat × Input) → Party → Checked (Party × List Packet)
  | [], p => pure (p, [])
  | (now, input) :: rest, p => do
    let (p, reaction) ← p.perform now input
    let (p, packets) ← p.performAll rest
    pure (p, reaction.packets ++ packets)

/-- The first input is done with, and then the others by the party that it left. -/
theorem performAll_cons {now : Nat} {input : Input} {rest : List (Nat × Input)} {p q t : Party}
    {r : Reaction} {packets : List Packet} (hfirst : p.perform now input = .ok (q, r))
    (hrest : q.performAll rest = .ok (t, packets)) :
    p.performAll ((now, input) :: rest) = .ok (t, r.packets ++ packets) :=
  Checked.bind_eq_ok_iff.2 ⟨_, hfirst, Checked.bind_eq_ok_iff.2 ⟨_, hrest, rfl⟩⟩

/-- The first input is done with, and then the others are. -/
theorem exists_of_performAll_cons {x : Nat × Input} {rest : List (Nat × Input)} {p t : Party}
    {packets : List Packet} (h : p.performAll (x :: rest) = .ok (t, packets)) :
    ∃ q r more, p.perform x.1 x.2 = .ok (q, r) ∧ q.performAll rest = .ok (t, more) ∧
      packets = r.packets ++ more := by
  obtain ⟨⟨q, r⟩, hfirst, hothers⟩ := Checked.bind_eq_ok_iff.1 h
  obtain ⟨⟨t', more⟩, hrest, hpure⟩ := Checked.bind_eq_ok_iff.1 hothers
  obtain ⟨rfl, rfl⟩ := Checked.pure_prod_eq_ok hpure
  exact ⟨q, r, more, hfirst, hrest, rfl⟩

/-! ### The two streams of a party -/

/-- Everything it was handed for sending. -/
def stream (p : Party) : Bytes := p.sends.flatten

/-- Everything that came from its peer: what was read, and what can be read. -/
def heard (p : Party) : Bytes := p.reads.flatten ++ p.ready.flatten

/-- The pieces into which its stream is cut. -/
def pieces (p : Party) : List Bytes := p.sends.flatMap (chunks p.settings.mtu)

/-- The place where the first `n` pieces of its stream stop. -/
def cutAt (p : Party) (n : Nat) : Nat := cut p.firstByte p.pieces n

/-- The pieces of its stream with their places. -/
def script (p : Party) : List Chunk := layOut p.firstByte p.pieces

@[simp] theorem length_script (p : Party) : p.script.length = p.pieces.length := length_layOut

theorem flatten_pieces (p : Party) : p.pieces.flatten = p.stream := by
  unfold pieces stream
  induction p.sends with
  | nil => rfl
  | cons bytes rest ih =>
    rw [List.flatMap_cons, List.flatten_append, flatten_chunks, ih, List.flatten_cons]

/-- No piece is empty, and none is longer than a segment may be. -/
theorem length_of_mem_pieces {p : Party} {piece : Bytes} (h : piece ∈ p.pieces) :
    0 < piece.length ∧ piece.length ≤ p.settings.mtu := by
  obtain ⟨bytes, -, hmem⟩ := List.mem_flatMap.1 h
  exact length_of_mem_chunks p.valid.mtu_pos hmem

theorem ne_nil_of_mem_pieces (p : Party) : ∀ piece ∈ p.pieces, piece ≠ [] := fun _ h ↦
  List.length_pos_iff.1 (length_of_mem_pieces h).1

/-- What becomes ready for reading was heard last. -/
theorem heard_ready (p : Party) (reassembly : Reassembly) (bytes : Bytes)
    (stats : Connection.Stats) :
    ({ p with reassembly, ready := p.ready ++ [bytes], stats } : Party).heard =
      p.heard ++ bytes := by
  simp [heard]

/-- Reading changes nothing of what was heard. -/
theorem heard_read {p : Party} {bytes : Bytes} {rest : List Bytes} (h : p.ready = bytes :: rest) :
    ({ p with ready := rest, reads := p.reads ++ [bytes] } : Party).heard = p.heard := by
  simp [heard, h]

/-! ### Being established -/

/-- The party is established with a peer. -/
def AttachedTo (peer : Endpoint) (p : Party) : Prop :=
  p.state = .established ∧ p.peer = some peer

end Party

end ReliableStream
