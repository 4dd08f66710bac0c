import ReliableStream.Connection.Basic
import ReliableStream.Connection.Chunks

/-!
# The transfer of bytes

Bytes to send are cut into chunks of at most `mtu` and wait in line. `pump` sends from the front
of the line while fewer segments than the window allows are in flight; it runs when bytes are
added and when an acknowledgement makes room. Acknowledgements are cumulative. Arriving data is
stored, whatever continues the stream is made ready for reading, and the new edge is acknowledged
in any case, since the last acknowledgement may have been lost.

Only two things move the sending side: `pump`, which sends from the line, and an acknowledgement,
which makes room for it. What sending leaves as it was is said once (`Continues`) and carried from
one chunk to the whole line (`continues_sendChunks`) and so to the pump. What an acknowledgement can
do is said in two cases (`onAck_cases`): nothing, or making room.
-/

namespace ReliableStream.Connection

/-! ### Sending -/

/-- Sends a chunk for the first time. -/
def sendChunk (now : Nat) (peer : Endpoint) (chunk : Bytes) (c : Connection) :
    Checked (Connection × Effects) := do
  let sendNext ← addWithin maxWord c.sendNext chunk.length
  let bytesSent ← addWithin maxWord c.stats.bytesSent chunk.length
  let segment : Segment := { seq := c.sendNext, payload := chunk, sentAt := now }
  pure ({ c with sendNext, inFlight := c.inFlight.insert segment,
                 stats := { c.stats with bytesSent } },
    { packets := [c.dataPacket peer segment], alarms := [segment.alarm c.settings.rto],
      traces := [.segmentSent segment.seq chunk.length] })

/-- A chunk that is sent takes its place in the stream, and its alarm is set. Sending fails only if
the stream or the count of its bytes would not fit in a word. -/
theorem sendChunk_eq_ok {now : Nat} {peer : Endpoint} {chunk : Bytes} {c c' : Connection}
    {effects : Effects} (h : c.sendChunk now peer chunk = .ok (c', effects)) :
    c.sendNext + chunk.length ≤ maxWord ∧ c.stats.bytesSent + chunk.length ≤ maxWord ∧
      c' = { c with
        sendNext := c.sendNext + chunk.length
        inFlight := c.inFlight.insert ⟨c.sendNext, chunk, now, 0⟩
        stats := { c.stats with bytesSent := c.stats.bytesSent + chunk.length } } ∧
      effects = { packets := [c.dataPacket peer ⟨c.sendNext, chunk, now, 0⟩]
                  alarms := [⟨c.settings.rto, .segment c.sendNext 0⟩]
                  traces := [.segmentSent c.sendNext chunk.length] } := by
  obtain ⟨next, hnext, h⟩ := Checked.bind_eq_ok_iff.1 h
  obtain ⟨sent, hsent, h⟩ := Checked.bind_eq_ok_iff.1 h
  obtain ⟨hle, rfl⟩ := addWithin_eq_ok_iff.1 hnext
  obtain ⟨hle', rfl⟩ := addWithin_eq_ok_iff.1 hsent
  obtain ⟨rfl, rfl⟩ := Checked.pure_prod_eq_ok h
  exact ⟨hle, hle', rfl, rfl⟩

/-- What sending leaves of a connection. -/
structure Continues (c c' : Connection) : Prop where
  /-- It stays in its state. -/
  state_eq : c'.state = c.state
  /-- It keeps its peer. -/
  peer_eq : c'.peer = c.peer
  /-- The next new byte does not go back. -/
  next_le : c.sendNext ≤ c'.sendNext
  /-- Nothing gets in flight but new bytes. -/
  mem : ∀ s ∈ c'.inFlight.toList, s ∈ c.inFlight.toList ∨ c.sendNext ≤ s.seq
  /-- Where a segment in flight starts there is one. -/
  keeps : ∀ s ∈ c.inFlight.toList, ∃ t ∈ c'.inFlight.toList, t.seq = s.seq

theorem Continues.queue (c : Connection) (pending : List Bytes) :
    c.Continues { c with pending } where
  state_eq := rfl
  peer_eq := rfl
  next_le := Nat.le_refl _
  mem _ := .inl
  keeps s hs := ⟨s, hs, rfl⟩

/-- Sending and then sending more is sending: the new bytes of the first part are old ones to the
second. -/
theorem Continues.trans {c c' c'' : Connection} (h : c.Continues c') (h' : c'.Continues c'') :
    c.Continues c'' where
  state_eq := h'.state_eq.trans h.state_eq
  peer_eq := h'.peer_eq.trans h.peer_eq
  next_le := Nat.le_trans h.next_le h'.next_le
  mem s hs := (h'.mem s hs).elim (h.mem s) fun hnew ↦ .inr (Nat.le_trans h.next_le hnew)
  keeps s hs := by
    obtain ⟨t, ht, hseq⟩ := h.keeps s hs
    obtain ⟨u, hu, hseq'⟩ := h'.keeps t ht
    exact ⟨u, hu, hseq'.trans hseq⟩

/-- A chunk goes behind all that was sent, so nothing that was in flight is touched. -/
theorem continues_sendChunk {now : Nat} {peer : Endpoint} {chunk : Bytes} {c c' : Connection}
    {effects : Effects} (h : c.sendChunk now peer chunk = .ok (c', effects)) :
    c.Continues c' := by
  obtain ⟨-, -, rfl, -⟩ := sendChunk_eq_ok h
  refine ⟨rfl, rfl, Nat.le_add_right .., fun s hs ↦ ?_, fun s hs ↦ ?_⟩
  · rcases (Ascending.mem_place c.inFlight.ordered).1 hs with rfl | ⟨hmem, -⟩
    · exact .inr (Nat.le_refl _)
    · exact .inl hmem
  · by_cases hseq : s.seq = c.sendNext
    · exact ⟨_, (Ascending.mem_place c.inFlight.ordered).2 (.inl rfl), hseq.symm⟩
    · exact ⟨s, (Ascending.mem_place c.inFlight.ordered).2 (.inr ⟨hs, hseq⟩), rfl⟩

/-- A chunk that has a place in the stream can be sent. -/
theorem exists_sendChunk_eq_ok (now : Nat) (peer : Endpoint) {chunk : Bytes} {c : Connection}
    (hnext : c.sendNext + chunk.length ≤ maxWord)
    (hsent : c.stats.bytesSent + chunk.length ≤ maxWord) :
    ∃ c' effects, c.sendChunk now peer chunk = .ok (c', effects) := by
  rw [sendChunk, addWithin_eq_ok_iff.2 ⟨hnext, rfl⟩, addWithin_eq_ok_iff.2 ⟨hsent, rfl⟩]
  exact ⟨_, _, rfl⟩

/-- Sends chunks while the window has room; those left are pending. -/
def sendChunks (now : Nat) (peer : Endpoint) :
    List Bytes → Connection → Checked (Connection × Effects)
  | [], c => pure ({ c with pending := [] }, {})
  | chunk :: rest, c =>
    if c.inFlight.size < c.settings.window then do
      let (c, sent) ← c.sendChunk now peer chunk
      let (c, more) ← sendChunks now peer rest c
      pure (c, sent ++ more)
    else pure ({ c with pending := chunk :: rest }, {})

/-- So do any number of chunks, by induction along the line. -/
theorem continues_sendChunks {now : Nat} {peer : Endpoint} {line : List Bytes}
    {c c' : Connection} {effects : Effects}
    (h : sendChunks now peer line c = .ok (c', effects)) : c.Continues c' := by
  induction line generalizing c effects with
  | nil =>
    obtain ⟨rfl, -⟩ := Checked.pure_prod_eq_ok h
    exact .queue c []
  | cons chunk rest ih =>
    rw [sendChunks] at h
    split at h
    · obtain ⟨⟨c₁, sent⟩, hfirst, hrest⟩ := Checked.bind_eq_ok_iff.1 h
      obtain ⟨⟨c₂, more⟩, hmore, hpure⟩ := Checked.bind_eq_ok_iff.1 hrest
      obtain ⟨rfl, rfl⟩ := Checked.pure_prod_eq_ok hpure
      exact (continues_sendChunk hfirst).trans (ih hmore)
    · obtain ⟨rfl, -⟩ := Checked.pure_prod_eq_ok h
      exact .queue c _

/-- Chunks that all have a place in the stream can be sent. -/
theorem exists_sendChunks_eq_ok {now : Nat} {peer : Endpoint} {line : List Bytes} {c : Connection}
    (hnext : c.sendNext + line.flatten.length ≤ maxWord)
    (hsent : c.stats.bytesSent + line.flatten.length ≤ maxWord) :
    ∃ c' effects, sendChunks now peer line c = .ok (c', effects) := by
  induction line generalizing c with
  | nil => exact ⟨_, _, rfl⟩
  | cons chunk rest ih =>
    rw [List.flatten_cons, List.length_append] at hnext hsent
    rw [sendChunks]
    split
    · obtain ⟨c₁, sent, hfirst⟩ := exists_sendChunk_eq_ok now peer
        (show c.sendNext + chunk.length ≤ maxWord by omega)
        (show c.stats.bytesSent + chunk.length ≤ maxWord by omega)
      obtain ⟨-, -, rfl, -⟩ := sendChunk_eq_ok hfirst
      obtain ⟨c₂, more, hmore⟩ := ih (c := { c with
        sendNext := c.sendNext + chunk.length
        inFlight := c.inFlight.insert ⟨c.sendNext, chunk, now, 0⟩
        stats := { c.stats with bytesSent := c.stats.bytesSent + chunk.length } })
        (show c.sendNext + chunk.length + rest.flatten.length ≤ maxWord by omega)
        (show c.stats.bytesSent + chunk.length + rest.flatten.length ≤ maxWord by omega)
      exact ⟨c₂, sent ++ more,
        Checked.bind_eq_ok_iff.2 ⟨_, hfirst, Checked.bind_eq_ok_iff.2 ⟨_, hmore, rfl⟩⟩⟩
    · exact ⟨_, _, rfl⟩

/-- Sending stops when nothing is in line or the window is full: it never stops for another reason.
-/
theorem sendChunks_full {now : Nat} {peer : Endpoint} {line : List Bytes} {c c' : Connection}
    {effects : Effects} (h : sendChunks now peer line c = .ok (c', effects)) :
    c'.pending = [] ∨ c'.settings.window ≤ c'.inFlight.size := by
  induction line generalizing c effects with
  | nil =>
    obtain ⟨rfl, rfl⟩ := Checked.pure_prod_eq_ok h
    exact .inl rfl
  | cons chunk rest ih =>
    rw [sendChunks] at h
    split at h
    · obtain ⟨⟨c₁, sent⟩, -, hrest⟩ := Checked.bind_eq_ok_iff.1 h
      obtain ⟨⟨c₂, more⟩, hmore, hpure⟩ := Checked.bind_eq_ok_iff.1 hrest
      obtain ⟨rfl, rfl⟩ := Checked.pure_prod_eq_ok hpure
      exact ih hmore
    · next hroom =>
      obtain ⟨rfl, rfl⟩ := Checked.pure_prod_eq_ok h
      exact .inr (Nat.le_of_not_lt hroom)

/-- Sends pending chunks while the window has room. -/
def pump (now : Nat) (c : Connection) : Checked (Connection × Effects) :=
  match c.peer with
  | some peer => sendChunks now peer c.pending c
  | none => pure (c, {})

/-- The pump leaves what sending leaves. Without a peer it does nothing at all. -/
theorem continues_pump {now : Nat} {c c' : Connection} {effects : Effects}
    (h : c.pump now = .ok (c', effects)) : c.Continues c' := by
  rw [pump] at h
  split at h
  · exact continues_sendChunks h
  · obtain ⟨rfl, -⟩ := Checked.pure_prod_eq_ok h
    exact .queue c c.pending

/-- Hands bytes over for delivery. As many as the window allows are sent at once. -/
def send (now : Nat) (bytes : Bytes) (c : Connection) :
    Except Failure (Checked (Connection × Effects)) :=
  if c.state = .established then
    .ok ({ c with pending := c.pending ++ chunks c.settings.mtu bytes }.pump now)
  else .error .notEstablished

/-- A cumulative acknowledgement arrived. One that takes nothing out of flight changes nothing. -/
def onAck (now : Nat) (ack : Nat) (c : Connection) : Checked (Connection × Effects) :=
  if c.sendNext < ack then pure (c, { notes := [.acknowledgesUnsent ack c.sendNext] })
  else match c.inFlight.acknowledge ack with
    | ([], _) => pure (c, { notes := [.duplicateAck ack] })
    | (acknowledged, inFlight) => do
      let (c, sent) ← { c with inFlight, sendBase := ack }.pump now
      pure (c, { traces := [.ackReceived ack acknowledged.length] } ++ sent)

/-- An acknowledgement that takes nothing out of flight changes nothing, whether it is of old bytes
or of unsent ones. -/
theorem onAck_of_forall_le {now ack : Nat} {c : Connection}
    (h : ∀ s ∈ c.inFlight.toList, ack ≤ s.seq) :
    ∃ notes, c.onAck now ack = .ok (c, { notes }) := by
  have hnone : (c.inFlight.acknowledge ack).1 = [] :=
    congrArg Prod.fst (InFlight.acknowledge_of_forall_le h)
  rw [onAck]
  split
  · exact ⟨_, rfl⟩
  · split
    · exact ⟨_, rfl⟩
    · next hsome hacknowledge =>
      rw [hacknowledge] at hnone
      exact absurd hnone hsome

/-- An acknowledgement changes nothing, as it is of nothing that is in flight or of something that
was not sent; or it makes room, and the pump uses it.

Every fact about acknowledgements is read off these two cases. -/
theorem onAck_cases (now ack : Nat) (c : Connection) :
    (∃ notes, c.onAck now ack = .ok (c, { notes })) ∧
        (ack ≤ c.sendNext → ∀ s ∈ c.inFlight.toList, ack ≤ s.seq) ∨
      ack ≤ c.sendNext ∧ (c.inFlight.acknowledge ack).1 ≠ [] ∧
        c.onAck now ack =
          { c with inFlight := (c.inFlight.acknowledge ack).2, sendBase := ack }.pump now >>=
            fun x ↦ pure (x.1, ({ traces :=
              [.ackReceived ack (c.inFlight.acknowledge ack).1.length] } : Effects) ++ x.2) := by
  by_cases hunsent : c.sendNext < ack
  · exact .inl ⟨⟨_, if_pos hunsent⟩, fun hle ↦ absurd hunsent (Nat.not_lt.2 hle)⟩
  by_cases hall : ∀ s ∈ c.inFlight.toList, ack ≤ s.seq
  · exact .inl ⟨onAck_of_forall_le hall, fun _ ↦ hall⟩
  obtain ⟨s, hs, hlt⟩ : ∃ s ∈ c.inFlight.toList, s.seq < ack := by simpa using hall
  have hsome : (c.inFlight.acknowledge ack).1 ≠ [] :=
    List.ne_nil_of_mem (InFlight.mem_acknowledge_fst.2 ⟨hs, hlt⟩)
  refine .inr ⟨Nat.le_of_not_lt hunsent, hsome, ?_⟩
  rw [onAck, if_neg hunsent]
  split
  · next hnone => exact absurd (by rw [hnone]) hsome
  · next hacknowledge => rw [hacknowledge]

/-- The same, read backwards from a result: the connection is as it was, or the pump ran. -/
theorem onAck_eq_ok {now ack : Nat} {c c' : Connection} {effects : Effects}
    (h : c.onAck now ack = .ok (c', effects)) :
    c' = c ∧ (∃ notes, effects = { notes }) ∧
        (ack ≤ c.sendNext → ∀ s ∈ c.inFlight.toList, ack ≤ s.seq) ∨
      ack ≤ c.sendNext ∧ (c.inFlight.acknowledge ack).1 ≠ [] ∧ ∃ sent,
        { c with inFlight := (c.inFlight.acknowledge ack).2, sendBase := ack }.pump now =
          .ok (c', sent) ∧
        effects = ({ traces :=
          [.ackReceived ack (c.inFlight.acknowledge ack).1.length] } : Effects) ++ sent := by
  rcases onAck_cases now ack c with ⟨⟨notes, hok⟩, hall⟩ | ⟨hle, hsome, hok⟩
  · obtain ⟨rfl, rfl⟩ := Prod.mk.inj (Except.ok.inj (hok.symm.trans h))
    exact .inl ⟨rfl, ⟨notes, rfl⟩, hall⟩
  · obtain ⟨⟨c₁, sent⟩, hpump, hpure⟩ := Checked.bind_eq_ok_iff.1 (hok.symm.trans h)
    obtain ⟨rfl, rfl⟩ := Checked.pure_prod_eq_ok hpure
    exact .inr ⟨hle, hsome, sent, hpump, rfl⟩

/-- An acknowledgement changes neither the state nor the peer, in either case. -/
theorem state_peer_of_onAck {now ack : Nat} {c c' : Connection} {effects : Effects}
    (h : c.onAck now ack = .ok (c', effects)) : c'.state = c.state ∧ c'.peer = c.peer := by
  rcases onAck_eq_ok h with ⟨rfl, -⟩ | ⟨-, -, sent, hpump, -⟩
  · exact ⟨rfl, rfl⟩
  · exact ⟨(continues_pump hpump).state_eq, (continues_pump hpump).peer_eq⟩

/-- What an acknowledgement leaves in flight starts after it: what was in flight before it is taken
out, and what the pump sends is new. -/
theorem ack_le_seq_of_onAck {now ack : Nat} {c c' : Connection} {effects : Effects}
    (hle : ack ≤ c.sendNext) (h : c.onAck now ack = .ok (c', effects)) :
    ∀ s ∈ c'.inFlight.toList, ack ≤ s.seq := by
  rcases onAck_eq_ok h with ⟨rfl, -, hall⟩ | ⟨-, -, sent, hpump, -⟩
  · exact hall hle
  · -- What is sent from the line starts after everything that was sent before.
    intro s hs
    rcases (continues_pump hpump).mem s hs with hold | hnew
    · exact (InFlight.mem_acknowledge_snd.1 hold).2
    · exact Nat.le_trans hle hnew

/-- The alarm of a segment rang: if it is still in flight since then, it is sent again. -/
def onSegmentAlarm (now : Nat) (seq generation : Nat) (c : Connection) :
    Checked (Connection × Effects) :=
  match c.peer with
  | none => pure (c, {})
  | some peer => do
    match ← c.inFlight.resend? seq generation now with
    | none => pure (c, {})
    | some (segment, inFlight) =>
      pure ({ c with inFlight, stats := { c.stats with resends := c.stats.resends + 1 } },
        { packets := [c.dataPacket peer segment], alarms := [segment.alarm c.settings.rto],
          traces := [.segmentResent segment.seq segment.payload.length segment.resends],
          notes := [.resent segment.seq segment.resends] })

/-! ### Receiving -/

/-- Makes the bytes that continue the stream ready for reading. -/
def deliver (c : Connection) : Checked (Connection × Reaction) :=
  match c.reassembly.drain with
  | ([], reassembly) => pure ({ c with reassembly }, {})
  | (bytes, reassembly) => do
    let bytesReceived ← addWithin maxWord c.stats.bytesReceived bytes.length
    pure ({ c with reassembly, ready := c.ready ++ [bytes],
                   stats := { c.stats with bytesReceived } },
      { traces := [.bytesDelivered bytes.length], notices := [.dataReady bytes.length] })

/-- What continues the stream is taken out of what waits, and nothing is sent for it: the
acknowledgement is a matter of its own. -/
theorem deliver_eq_ok {c c' : Connection} {r : Reaction} (h : c.deliver = .ok (c', r)) :
    c'.reassembly = c.reassembly.drain.2 ∧ c'.state = c.state ∧ c'.peer = c.peer ∧
      r.packets = [] := by
  rw [deliver] at h
  split at h
  · next hdrain =>
    obtain ⟨rfl, rfl⟩ := Checked.pure_prod_eq_ok h
    exact ⟨by rw [hdrain], rfl, rfl, rfl⟩
  · next hdrain =>
    obtain ⟨received, -, hpure⟩ := Checked.bind_eq_ok_iff.1 h
    obtain ⟨rfl, rfl⟩ := Checked.pure_prod_eq_ok hpure
    exact ⟨by rw [hdrain], rfl, rfl, rfl⟩

/-- Nothing is made ready for reading if nothing continues the stream. -/
theorem deliver_of_drain_eq_nil {c : Connection} (h : c.reassembly.drain.1 = []) :
    c.deliver = .ok ({ c with reassembly := c.reassembly.drain.2 }, {}) := by
  rw [deliver]
  split
  · next hdrain => rw [hdrain]; rfl
  · next hsome hdrain => exact absurd (by rw [hdrain] at h; exact h) hsome

/-- Bytes are made ready for reading if their number can be counted. There is no other reason to
fail. -/
theorem exists_deliver_eq_ok {c : Connection}
    (h : c.stats.bytesReceived + c.reassembly.drain.1.length ≤ maxWord) :
    ∃ c' r, c.deliver = .ok (c', r) := by
  rw [deliver]
  split
  · exact ⟨_, _, rfl⟩
  · next hdrain =>
    rw [hdrain] at h
    rw [addWithin_eq_ok_iff.2 ⟨h, rfl⟩]
    exact ⟨_, _, rfl⟩

/-- Stores a chunk of the stream, unless it is stale. -/
def store (chunk : Chunk) (c : Connection) : Checked (Connection × Reaction) :=
  if c.reassembly.isStale chunk.seq then pure (c, { notes := [.staleData chunk.seq c.edge] })
  else { c with reassembly := c.reassembly.add chunk }.deliver

/-- Data arrived. -/
def onData (chunk : Chunk) (c : Connection) : Checked (Connection × Reaction) := do
  let (c, stored) ← c.store chunk
  pure (c, stored ++ ({ packets := c.acknowledgement } : Reaction))

/-- Data that is read is stored unless it is stale, and acknowledged in any case. -/
theorem onData_eq_ok {c c' : Connection} {chunk : Chunk} {r : Reaction}
    (h : c.onData chunk = .ok (c', r)) :
    c'.state = c.state ∧ c'.peer = c.peer ∧ r.packets = c'.acknowledgement ∧
      c'.reassembly = if c.reassembly.isStale chunk.seq then c.reassembly
        else (c.reassembly.add chunk).drain.2 := by
  obtain ⟨⟨c₁, stored⟩, hstore, hpure⟩ := Checked.bind_eq_ok_iff.1 h
  obtain ⟨rfl, rfl⟩ := Checked.pure_prod_eq_ok hpure
  rw [store] at hstore
  split at hstore
  · next hstale =>
    obtain ⟨rfl, rfl⟩ := Checked.pure_prod_eq_ok hstore
    exact ⟨rfl, rfl, rfl, (if_pos hstale).symm⟩
  · next hfresh =>
    obtain ⟨hreassembly, hstate, hpeer, hpackets⟩ := deliver_eq_ok hstore
    rw [Reaction.packets_append, hpackets, if_neg hfresh]
    exact ⟨hstate, hpeer, rfl, hreassembly⟩

/-- Data is read if what it makes ready for reading can be counted. -/
theorem exists_onData_eq_ok {c : Connection} {chunk : Chunk}
    (h : c.reassembly.edge ≤ chunk.seq →
      c.stats.bytesReceived + (c.reassembly.add chunk).drain.1.length ≤ maxWord) :
    ∃ c' r, c.onData chunk = .ok (c', r) := by
  suffices hstore : ∃ c' r, c.store chunk = .ok (c', r) by
    obtain ⟨c', r, hok⟩ := hstore
    exact ⟨c', _, Checked.bind_eq_ok_iff.2 ⟨_, hok, rfl⟩⟩
  rw [store]
  split
  · exact ⟨_, _, rfl⟩
  · next hfresh =>
    have hedge : c.reassembly.edge ≤ chunk.seq := by simpa [Reassembly.isStale] using hfresh
    exact exists_deliver_eq_ok (c := { c with reassembly := c.reassembly.add chunk }) (h hedge)

/-- Data by which nothing continues the stream is read, and nothing is told. -/
theorem onData_of_drain_eq_nil {c : Connection} {chunk : Chunk}
    (h : (c.reassembly.add chunk).drain.1 = []) :
    ∃ c' r, c.onData chunk = .ok (c', r) ∧ c'.ready = c.ready ∧ r.notices = [] := by
  suffices hstore : ∃ c' r, c.store chunk = .ok (c', r) ∧ c'.ready = c.ready ∧ r.notices = [] by
    obtain ⟨c', r, hok, hready, hnotices⟩ := hstore
    exact ⟨c', _, Checked.bind_eq_ok_iff.2 ⟨_, hok, rfl⟩, hready, by simp [hnotices]⟩
  rw [store]
  split
  · exact ⟨_, _, rfl, rfl, rfl⟩
  · exact ⟨_, _, deliver_of_drain_eq_nil (c := { c with reassembly := c.reassembly.add chunk }) h,
      rfl, rfl⟩

/-- Reads the next bytes of the stream, as many as became ready at once. -/
def read (c : Connection) : Except Failure (Option Bytes × Connection) :=
  if c.state = .established then .ok (c.ready.head?, { c with ready := c.ready.tail })
  else .error .notEstablished

/-- Reads until nothing is left. -/
def readAll (c : Connection) : Except Failure (List Bytes × Connection) :=
  if c.state = .established then .ok (c.ready, { c with ready := [] })
  else .error .notEstablished

end ReliableStream.Connection
