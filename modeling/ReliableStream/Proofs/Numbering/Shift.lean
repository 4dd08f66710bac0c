import ReliableStream.Proofs.Party.Basic

/-!
# Counting from further ahead

What becomes of everything that carries sequence numbers when both streams are counted from further
ahead: `shift own other` adds `own` to each number of the stream that an end sends and `other` to
each number of the stream that it receives, and changes nothing else. Two numbers are no places of
a stream, and stay zero: the acknowledgement on an opening, which is sent before anything is known
of the other stream, and the edge of an end that was never told where the other stream starts.

Numbers are only ever compared with numbers of the same stream, and what is added to them is a
length. So whatever the buffers do commutes with `shift`: of segments in flight
(`InFlight.acknowledge_shift`, `InFlight.resend?_shift`) and of what waits to be put together
(`Reassembly.drain_shift`), the latter as long as no chunk stops beyond the last word.

The lists that ascend come first, since both buffers are such lists, and moving all keys by the same
amount keeps the order. A chunk that stops beyond the last word would have its end held there, here
or further ahead, and then the two would differ: this is the only place where the size of a word
matters.
-/

namespace ReliableStream

/-! ### Ascending lists -/

namespace Ascending

variable {α : Type} {key : α → Nat} {f : α → α} {k : Nat}

/-- The elements with all keys moved ahead by the same amount. -/
def ahead (f : α → α) (k : Nat) (hf : ∀ x, key (f x) = key x + k) (s : Ascending key) :
    Ascending key :=
  ⟨s.toList.map f, s.ordered.map f fun x y h ↦ by rw [hf, hf]; exact Nat.add_lt_add_right h k⟩

variable (hf : ∀ x, key (f x) = key x + k)

include hf

theorem place_map (x : α) (l : List α) : place key (f x) (l.map f) = (place key x l).map f := by
  induction l with
  | nil => rfl
  | cons y rest ih =>
    simp only [List.map_cons, place, hf, Nat.add_lt_add_iff_right, Nat.add_right_cancel_iff, ih]
    split
    · rfl
    · split <;> rfl

@[simp] theorem toList_ahead (s : Ascending key) : (s.ahead f k hf).toList = s.toList.map f := rfl

@[simp] theorem size_ahead (s : Ascending key) : (s.ahead f k hf).size = s.size := List.length_map f

theorem insert_ahead (x : α) (s : Ascending key) :
    (s.ahead f k hf).insert (f x) = (s.insert x).ahead f k hf :=
  ext (place_map hf x s.toList)

theorem find?_ahead (n : Nat) (s : Ascending key) :
    (s.ahead f k hf).find? (n + k) = (s.find? n).map f := by
  rw [find?, toList_ahead, List.find?_map, find?]
  congr 2
  funext x
  simp [hf]

end Ascending

/-! ### Buffers -/

/-- The segment at its place further ahead. -/
def Segment.shift (k : Nat) (s : Segment) : Segment := { s with seq := s.seq + k }

theorem Segment.seq_shift (k : Nat) (s : Segment) : (s.shift k).seq = s.seq + k := rfl

/-- The chunk at its place further ahead. -/
def Chunk.shift (k : Nat) (chunk : Chunk) : Chunk := { chunk with seq := chunk.seq + k }

theorem Chunk.seq_shift (k : Nat) (chunk : Chunk) : (chunk.shift k).seq = chunk.seq + k := rfl

namespace InFlight

/-- The segments in flight at their places further ahead. -/
def shift (k : Nat) (f : InFlight) : InFlight := f.ahead (Segment.shift k) k (Segment.seq_shift k)

@[simp] theorem size_shift (k : Nat) (f : InFlight) : (f.shift k).size = f.size :=
  Ascending.size_ahead (Segment.seq_shift k) f

theorem insert_shift (k : Nat) (s : Segment) (f : InFlight) :
    (f.shift k).insert (s.shift k) = shift k (f.insert s) :=
  Ascending.insert_ahead (Segment.seq_shift k) s f

theorem acknowledge_shift (k ack : Nat) (f : InFlight) :
    (f.shift k).acknowledge (ack + k) =
      ((f.acknowledge ack).1.map (Segment.shift k), (f.acknowledge ack).2.shift k) := by
  refine Prod.ext ?_ (Ascending.ext ?_)
  · show (f.toList.map (Segment.shift k)).filter _ = (f.toList.filter _).map _
    rw [List.filter_map]
    simp [Function.comp_def, Segment.shift]
  · show (f.toList.map (Segment.shift k)).filter _ = (f.toList.filter _).map _
    rw [List.filter_map]
    simp [Function.comp_def, Segment.shift]

/-- An alarm is heard by the same segment, and counts the same. -/
theorem resend?_shift (k seq generation now : Nat) (f : InFlight) :
    (f.shift k).resend? (seq + k) generation now =
      (f.resend? seq generation now).map (Option.map fun x ↦ (x.1.shift k, x.2.shift k)) := by
  have hfind : (f.shift k).find? (seq + k) = (f.find? seq).map (Segment.shift k) :=
    Ascending.find?_ahead (Segment.seq_shift k) seq f
  rw [resend?, hfind, resend?]
  cases f.find? seq with
  | none => rfl
  | some segment =>
    dsimp only [Option.map_some]
    rw [show (segment.shift k).resends = segment.resends from rfl]
    split
    · cases addWithin maxHalfWord segment.resends 1 with
      | error e => rfl
      | ok resends =>
        have hinsert := insert_shift k { segment with sentAt := now, resends } f
        exact congrArg (fun g ↦ Except.ok (some (_, g))) hinsert
    · rfl

end InFlight

namespace Reassembly

/-- The reassembly of a stream that is counted from further ahead. An edge of zero is none. -/
def shift (k : Nat) (r : Reassembly) : Reassembly where
  edge := if r.edge = 0 then 0 else r.edge + k
  waiting := r.waiting.ahead (Chunk.shift k) k (Chunk.seq_shift k)

variable {k : Nat} {r : Reassembly}

theorem edge_shift (h : r.edge ≠ 0) : (r.shift k).edge = r.edge + k := if_neg h

/-- The place after an opening is never zero, so a stream that was opened has an edge. -/
theorem saturatingAdd_one_ne_zero (seq : Nat) : saturatingAdd seq 1 ≠ 0 :=
  Nat.ne_of_gt (Nat.lt_min.2 ⟨Nat.succ_pos seq, by decide⟩)

/-- A stream that begins after an opening. -/
theorem shift_begin {seq : Nat} (h : seq + 1 + k ≤ maxWord) :
    shift k { edge := saturatingAdd seq 1 } = { edge := saturatingAdd (seq + k) 1 } := by
  rw [shift, if_neg (saturatingAdd_one_ne_zero seq), saturatingAdd_of_le (by omega),
    saturatingAdd_of_le (by omega), Nat.add_right_comm]
  rfl

theorem isStale_shift (h : r.edge ≠ 0) (seq : Nat) :
    (r.shift k).isStale (seq + k) = r.isStale seq := by
  rw [isStale, edge_shift h, isStale]
  simp

theorem add_shift (h : r.edge ≠ 0) (chunk : Chunk) :
    (r.shift k).add (chunk.shift k) = (r.add chunk).shift k := by
  rw [add, show (chunk.shift k).seq = chunk.seq + k from rfl, isStale_shift h, add]
  split
  · rfl
  · exact congrArg (Reassembly.mk _) (Ascending.insert_ahead (Chunk.seq_shift k) chunk r.waiting)

/-- Draining from further ahead gives the same bytes, if no edge is held at the last word. -/
theorem drainFrom_shift {edge : Nat} {chunks : List Chunk}
    (hfits : ∀ chunk ∈ chunks, chunk.seq + chunk.bytes.length + k ≤ maxWord) :
    drainFrom (edge + k) (chunks.map (Chunk.shift k)) =
      ⟨(drainFrom edge chunks).bytes, (drainFrom edge chunks).edge + k,
        (drainFrom edge chunks).rest.map (Chunk.shift k)⟩ := by
  induction chunks generalizing edge with
  | nil => rfl
  | cons chunk rest ih =>
    have hrest : ∀ chunk ∈ rest, chunk.seq + chunk.bytes.length + k ≤ maxWord := fun chunk h ↦
      hfits chunk (List.mem_cons_of_mem _ h)
    have hchunk := hfits chunk (List.mem_cons_self ..)
    rw [List.map_cons, drainFrom, drainFrom]
    simp only [Chunk.seq_shift, show (chunk.shift k).bytes = chunk.bytes from rfl,
      Nat.add_lt_add_iff_right, Nat.add_right_cancel_iff]
    split
    · rw [ih hrest]
      rfl
    · split
      · next hseq =>
        split
        · rfl
        -- Both edges stop before the last word, so neither is held there.
        · have hnext : saturatingAdd (edge + k) chunk.bytes.length =
              saturatingAdd edge chunk.bytes.length + k := by
            rw [saturatingAdd_of_le (by omega), saturatingAdd_of_le (by omega)]
            omega
          rw [hnext, ih hrest]
      · rfl

theorem drain_shift (hedge : r.edge ≠ 0) (hle : r.edge ≤ maxWord)
    (hfits : ∀ chunk ∈ r.waiting.toList, chunk.seq + chunk.bytes.length + k ≤ maxWord) :
    (r.shift k).drain = (r.drain.1, r.drain.2.shift k) := by
  have hdrain : drainFrom (r.shift k).edge (r.shift k).waiting.toList = _ :=
    (edge_shift hedge).symm ▸ drainFrom_shift hfits
  have hedge' : (drainFrom r.edge r.waiting.toList).edge ≠ 0 := by
    have := le_drainFrom_edge hle r.waiting.toList
    omega
  refine Prod.ext (congrArg Drained.bytes hdrain :) ?_
  show Reassembly.mk _ _ = Reassembly.mk _ _
  congr 1
  · exact (congrArg Drained.edge hdrain :).trans (if_neg hedge').symm
  · exact Ascending.ext (congrArg Drained.rest hdrain :)

end Reassembly

/-! ### Packets and alarms -/

/-- The packet as its sender sends it when its own stream is counted from `own` places further ahead
and the other one from `other`. -/
def Packet.shift (own other : Nat) (p : Packet) : Packet :=
  { p with seq := p.seq + own, ack := if p.kind = .syn then p.ack else p.ack + other }

/-- What an alarm watches, counted from further ahead. -/
def Alarm.Watch.shift (own : Nat) : Alarm.Watch → Alarm.Watch
  | .segment seq generation => .segment (seq + own) generation
  | .handshakeRetry attempt => .handshakeRetry attempt
  | .handshakeDeadline attempt => .handshakeDeadline attempt

/-- The alarm, counted from further ahead. -/
def Alarm.shift (own : Nat) (alarm : Alarm) : Alarm :=
  { alarm with watch := alarm.watch.shift own }

/-- The input of an end. A packet that arrives was sent by the other one. -/
def Input.shift (own other : Nat) : Input → Input
  | .packet p => .packet (p.shift other own)
  | .alarm watch => .alarm (watch.shift own)
  | .connect peer => .connect peer
  | .listen => .listen
  | .send bytes => .send bytes
  | .read => .read

/-! ### What a connection asks for -/

/-- The event. What the network tells of a packet concerns its sender. -/
def Trace.Event.shift (own : Nat) : Trace.Event → Trace.Event
  | .segmentSent seq len => .segmentSent (seq + own) len
  | .segmentResent seq len count => .segmentResent (seq + own) len count
  | .ackReceived ack segments => .ackReceived (ack + own) segments
  | .packetLost kind seq => .packetLost kind (seq + own)
  | .packetDuplicated kind seq => .packetDuplicated kind (seq + own)
  | .packetReordered kind seq => .packetReordered kind (seq + own)
  | .registered => .registered
  | .established peer => .established peer
  | .handshakeFailed => .handshakeFailed
  | .bytesDelivered len => .bytesDelivered len
  | .undeliverable destination => .undeliverable destination

/-- The note. Packets that are noted have arrived, so their sender is the other end. -/
def Connection.Note.shift (own other : Nat) : Connection.Note → Connection.Note
  | .created isn => .created (isn + own)
  | .received packet => .received (packet.shift other own)
  | .closedTo packet => .closedTo (packet.shift other own)
  | .notFromPeer packet => .notFromPeer (packet.shift other own)
  | .teardownIgnored packet => .teardownIgnored (packet.shift other own)
  | .acknowledgesUnsent ack sendNext => .acknowledgesUnsent (ack + own) (sendNext + own)
  | .duplicateAck ack => .duplicateAck (ack + own)
  | .staleData seq edge => .staleData (seq + other) (edge + other)
  | .synReceived source seq => .synReceived source (seq + other)
  | .synAckReceived seq ack => .synAckReceived (seq + other) (ack + own)
  | .synAckUnexpected state ack => .synAckUnexpected state (ack + own)
  | .handshakeAckMismatch ack => .handshakeAckMismatch (ack + own)
  | .resent seq count => .resent (seq + own) count
  | .connecting peer => .connecting peer
  | .listening => .listening
  | .synUnexpected state => .synUnexpected state
  | .established peer => .established peer
  | .handshakeRetried state => .handshakeRetried state
  | .handshakeFailed state => .handshakeFailed state
  | .callRefused call failure state => .callRefused call failure state
  | .readRefused failure => .readRefused failure

/-- What there is to do. -/
def Effects.shift (own other : Nat) (e : Effects) : Effects where
  packets := e.packets.map (Packet.shift own other)
  alarms := e.alarms.map (Alarm.shift own)
  traces := e.traces.map (Trace.Event.shift own)
  notes := e.notes.map (Connection.Note.shift own other)

/-- What there is to do, and what concerns the application. -/
def Reaction.shift (own other : Nat) (r : Reaction) : Reaction :=
  { r with toEffects := r.toEffects.shift own other }

theorem Effects.shift_append (own other : Nat) (e f : Effects) :
    (e ++ f).shift own other = e.shift own other ++ f.shift own other := by
  show Effects.mk _ _ _ _ = Effects.mk _ _ _ _
  congr 1 <;> exact List.map_append

theorem Reaction.shift_append (own other : Nat) (r s : Reaction) :
    (r ++ s).shift own other = r.shift own other ++ s.shift own other :=
  congrArg (Reaction.mk · _) (Effects.shift_append own other r.toEffects s.toEffects)

/-! ### Ends -/

/-- The connection, with both streams counted from further ahead. -/
def Connection.shift (own other : Nat) (c : Connection) : Connection :=
  { c with
    isn := c.isn + own
    sendNext := c.sendNext + own
    sendBase := c.sendBase + own
    inFlight := c.inFlight.shift own
    reassembly := c.reassembly.shift other }

/-- The party, with both streams counted from further ahead. -/
def Party.shift (own other : Nat) (p : Party) : Party :=
  { p with toConnection := p.toConnection.shift own other }

end ReliableStream
