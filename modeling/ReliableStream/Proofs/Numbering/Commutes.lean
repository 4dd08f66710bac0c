import ReliableStream.Proofs.Numbering.Shift

/-!
# A party does not know where its streams start

Whatever an input makes a party do, it does the same when both streams are counted from further
ahead (`Party.perform_shift`). There is one lemma for each function of a connection, in the form
`f (c.shift ..) = f c >>= carry ..`: the shifted connection does what the connection does, with the
outcome shifted, and there is an outcome as long as the next byte of the shifted stream has a place.

What has to hold for it is `Connection.Fits`. No number is held at the last word, and an end that
has been opened knows where the other stream starts. The second part matters: an edge of zero stays
zero, so that a packet that acknowledges up to it, or data that is compared with it, would tell.

An overflow is part of what is compared. The shifted connection may have no room for a byte for
which there is room here, and then it has no outcome, which `carry` says of the outcome here. Since
no operation lets the next byte go back, `bind_carry` makes one equation out of two operations in
sequence, and all longer functions are put together with it.
-/

namespace ReliableStream

/-- A packet that tells no number beyond the last word, if its sender counts from further ahead. -/
structure Packet.Fits (ahead : Nat) (packet : Packet) : Prop where
  /-- The stream that an opening begins has a first byte. -/
  opening : packet.kind = .syn ∨ packet.kind = .synAck → packet.seq + 1 + ahead ≤ maxWord
  /-- The place where data stops is a word. -/
  data : packet.kind = .data → packet.seq + packet.payload.length + ahead ≤ maxWord

namespace Connection

variable {β γ : Type} {own other now : Nat} {c : Connection}

/-- The outcome of an operation, counted from further ahead, if the next byte has a place there. -/
def carry (own other : Nat) (f : β → β) (x : Connection × β) : Checked (Connection × β) :=
  if x.1.sendNext + own ≤ maxWord then .ok (x.1.shift own other, f x.2) else .error .sum

theorem carry_of_le {f : β → β} {x : β} (h : c.sendNext + own ≤ maxWord) :
    carry own other f (c, x) = .ok (c.shift own other, f x) := if_pos h

theorem carry_of_lt {f : β → β} {x : β} (h : maxWord < c.sendNext + own) :
    carry own other f (c, x) = .error .sum := if_neg (Nat.not_le.2 h)

/-- An operation that has an outcome. -/
theorem pure_carry {f : β → β} {c' : Connection} {x x' : β} (h : c.sendNext + own ≤ maxWord)
    (hc : c' = c.shift own other) (hx : x' = f x) :
    (pure (c', x') : Checked (Connection × β)) = pure (c, x) >>= carry own other f := by
  rw [hc, hx]
  exact (carry_of_le h).symm

/-- Operations one after the other. The second one never goes back behind the first one, so that
there is no outcome once there is no place for the next byte. -/
theorem bind_carry {f : β → β} {g : γ → γ} {first first' : Checked (Connection × β)}
    {next next' : Connection × β → Checked (Connection × γ)}
    (hfirst : first' = first >>= carry own other f)
    (hnext : ∀ c x, first = .ok (c, x) → c.sendNext + own ≤ maxWord →
      next' (c.shift own other, f x) = next (c, x) >>= carry own other g)
    (hlt : ∀ c x, first = .ok (c, x) → maxWord < c.sendNext + own →
      next (c, x) >>= carry own other g = .error .sum) :
    first' >>= next' = first >>= next >>= carry own other g := by
  rw [hfirst]
  cases first with
  | error e => rfl
  | ok x =>
    obtain ⟨c, x⟩ := x
    rcases Nat.lt_or_ge maxWord (c.sendNext + own) with h | h
    · exact (congrArg (· >>= next') (carry_of_lt h)).trans (hlt c x rfl h).symm
    · exact (congrArg (· >>= next') (carry_of_le h)).trans (hnext c x rfl h)

/-- An operation whose effects are taken for a reaction. -/
theorem bind_carry_effects {first first' : Checked (Connection × Effects)}
    (hfirst : first' = first >>= carry own other (Effects.shift own other)) :
    (first' >>= fun x ↦ pure (x.1, (x.2 : Reaction))) =
      (first >>= fun x ↦ pure (x.1, (x.2 : Reaction))) >>=
        carry own other (Reaction.shift own other) :=
  bind_carry hfirst (fun _ _ _ h ↦ pure_carry h rfl rfl) fun _ _ _ h ↦ carry_of_lt h

/-! ### Numbers and packets of a connection -/

@[simp] theorem state_shift : (c.shift own other).state = c.state := rfl

@[simp] theorem peer_shift : (c.shift own other).peer = c.peer := rfl

@[simp] theorem stats_shift : (c.shift own other).stats = c.stats := rfl

theorem sendNext_shift : (c.shift own other).sendNext = c.sendNext + own := rfl

theorem inFlight_shift : (c.shift own other).inFlight = c.inFlight.shift own := rfl

theorem reassembly_shift : (c.shift own other).reassembly = c.reassembly.shift other := rfl

/-- The first byte is further ahead, unless it would be held at the last word. -/
theorem firstByte_shift (h : c.isn + 1 + own ≤ maxWord) :
    (c.shift own other).firstByte = c.firstByte + own := by
  show saturatingAdd (c.isn + own) 1 = saturatingAdd c.isn 1 + own
  rw [saturatingAdd_of_le (by omega), saturatingAdd_of_le (by omega)]
  omega

theorem edge_shift (h : c.edge ≠ 0) : (c.shift own other).edge = c.edge + other :=
  Reassembly.edge_shift h

/-- A packet without data is the same further ahead, with the acknowledgement of an opening left as
it is. -/
theorem control_shift {kind : Packet.Kind} {seq ack ack' : Nat}
    (hack : ack' = if kind = .syn then ack else ack + other) :
    (c.shift own other).control kind (seq + own) ack' =
      (c.control kind seq ack).map (Packet.shift own other) := by
  rw [hack]
  show List.map _ c.peer.toList = (c.peer.toList.map _).map _
  rw [List.map_map]
  rfl

theorem opening_shift : (c.shift own other).opening = c.opening.map (Packet.shift own other) :=
  control_shift rfl

theorem openingAnswer_shift (h : c.edge ≠ 0) :
    (c.shift own other).openingAnswer = c.openingAnswer.map (Packet.shift own other) :=
  control_shift (edge_shift h)

theorem acknowledgement_shift (h : c.edge ≠ 0) :
    (c.shift own other).acknowledgement = c.acknowledgement.map (Packet.shift own other) :=
  control_shift (edge_shift h)

theorem dataPacket_shift (h : c.edge ≠ 0) (peer : Endpoint) (segment : Segment) :
    (c.shift own other).dataPacket peer (segment.shift own) =
      (c.dataPacket peer segment).shift own other := by
  rw [dataPacket, edge_shift h]
  rfl

/-! ### The handshake -/

theorem startHandshake_shift (h : c.sendNext + own ≤ maxWord) :
    (c.shift own other).startHandshake =
      c.startHandshake >>= carry own other (Effects.shift own other) := by
  rw [startHandshake, startHandshake]
  show (addWithin maxHalfWord c.attempt 1 >>= _) = (addWithin maxHalfWord c.attempt 1 >>= _) >>= _
  cases addWithin maxHalfWord c.attempt 1 with
  | error e => rfl
  | ok attempt => exact pure_carry (c := { c with attempt }) h rfl rfl

/-- The first byte has a place. -/
theorem firstByte_add_le (h : c.isn + 1 + own ≤ maxWord) : c.firstByte + own ≤ maxWord := by
  rw [firstByte, saturatingAdd_of_le (by omega)]
  exact h

theorem connect_shift (h : c.isn + 1 + own ≤ maxWord) (peer : Endpoint) :
    (c.shift own other).connect peer =
      (c.connect peer).map (· >>= carry own other (Effects.shift own other)) := by
  rw [connect, connect]
  show (if c.state = .closed then _ else _) = _
  split
  · refine congrArg Except.ok ?_
    rw [firstByte_shift h]
    have hstart := @startHandshake_shift own other
      { c with peer := some peer, state := .synSent, sendBase := c.isn, sendNext := c.firstByte }
      (firstByte_add_le h)
    refine bind_carry hstart (fun c x _ h ↦ ?_) fun _ _ _ h ↦ carry_of_lt h
    refine pure_carry h rfl ?_
    rw [Effects.shift_append, opening_shift]
    rfl
  · rfl

theorem listen_shift (h : c.sendNext + own ≤ maxWord) :
    ((c.shift own other).listen.map pure : Except Failure (Checked (Connection × Effects))) =
      (c.listen.map pure).map (· >>= carry own other (Effects.shift own other)) := by
  rw [listen, listen]
  show Except.map pure (if c.state = .closed then _ else _) = _
  split
  · exact congrArg Except.ok
      (pure_carry (c := { c with peer := none, state := .listening }) h rfl rfl)
  · rfl

theorem establish_shift :
    (c.shift own other).establish =
      (c.establish.1.shift own other, c.establish.2.shift own other) := by
  have htraces : (c.peer.toList.map .established).map (Trace.Event.shift own) =
      c.peer.toList.map .established := List.map_map
  have hnotes : (c.peer.toList.map .established).map (Note.shift own other) =
      c.peer.toList.map .established := List.map_map
  exact Prod.ext rfl (Reaction.ext rfl rfl htraces.symm hnotes.symm rfl)

/-- An opening tells where the other stream starts. Its number plus one is the edge, and is not held
at the last word. -/
theorem onSyn_shift {source : Endpoint} {seq : Nat} (hisn : c.isn + 1 + own ≤ maxWord)
    (hnext : c.sendNext + own ≤ maxWord) (hseq : seq + 1 + other ≤ maxWord)
    (hmet : c.state = .synReceived → c.edge ≠ 0) :
    (c.shift own other).onSyn source (seq + other) =
      c.onSyn source seq >>= carry own other (Effects.shift own other) := by
  rw [onSyn, onSyn, state_shift]
  cases hstate : c.state with
  | listening =>
    dsimp only
    rw [firstByte_shift hisn, ← Reassembly.shift_begin hseq]
    have hstart := @startHandshake_shift own other
      { c with peer := some source, reassembly := { edge := saturatingAdd seq 1 },
               state := .synReceived, sendBase := c.isn, sendNext := c.firstByte }
      (firstByte_add_le hisn)
    refine bind_carry hstart (fun c' x hx h ↦ ?_) fun _ _ _ h ↦ carry_of_lt h
    obtain ⟨-, rfl, -⟩ := startHandshake_eq_ok hx
    refine pure_carry h rfl ?_
    rw [Effects.shift_append, openingAnswer_shift]
    · rfl
    · exact Reassembly.saturatingAdd_one_ne_zero seq
  | synReceived => exact pure_carry hnext rfl (by rw [openingAnswer_shift (hmet hstate)]; rfl)
  | closed | synSent | established => exact pure_carry hnext rfl rfl

/-- So does an answer. Its acknowledgement is compared with the first byte of the own stream, and
both are further ahead. -/
theorem onSynAck_shift {seq ack : Nat} (hisn : c.isn + 1 + own ≤ maxWord)
    (hseq : seq + 1 + other ≤ maxWord) (hmet : c.state = .established → c.edge ≠ 0) :
    (c.shift own other).onSynAck (seq + other) (ack + own) =
      ((c.onSynAck seq ack).1.shift own other, (c.onSynAck seq ack).2.shift own other) := by
  rw [onSynAck, onSynAck, state_shift]
  cases hstate : c.state with
  | synSent =>
    dsimp only
    rw [firstByte_shift hisn, ← Reassembly.shift_begin hseq]
    simp only [Nat.add_right_cancel_iff]
    split
    · let opened : Connection :=
        { c with reassembly := { edge := saturatingAdd seq 1 }, sendBase := ack }
      have hack : (opened.shift own other).acknowledgement = _ :=
        acknowledgement_shift (Reassembly.saturatingAdd_one_ne_zero seq)
      have hestablish : (opened.shift own other).establish = _ := establish_shift
      refine Prod.ext (congrArg Prod.fst hestablish :) ?_
      rw [Reaction.shift_append]
      refine congrArg₂ (· ++ · : Reaction → Reaction → Reaction) ?_ (congrArg Prod.snd hestablish :)
      exact congrArg (fun packets ↦ Reaction.mk (Effects.mk packets [] [] _) []) hack
    · rfl
  | established => exact Prod.ext rfl (by rw [acknowledgement_shift (hmet hstate)]; rfl)
  | closed | listening | synReceived => rfl

/-- Completing a handshake compares an acknowledgement with the first byte of the own stream. -/
theorem completeHandshake_shift {ack : Nat} (hisn : c.isn + 1 + own ≤ maxWord) :
    (c.shift own other).completeHandshake (ack + own) =
      ((c.completeHandshake ack).1.shift own other,
        (c.completeHandshake ack).2.shift own other) := by
  rw [completeHandshake, completeHandshake, firstByte_shift hisn, state_shift]
  split
  · simp only [Nat.add_right_cancel_iff]
    split
    · exact @establish_shift own other { c with sendBase := ack }
    · rfl
  · rfl

theorem onRetry_shift {attempt : Nat} (hmet : c.state = .synReceived → c.edge ≠ 0) :
    (c.shift own other).onRetry attempt = (c.onRetry attempt).shift own other := by
  rw [onRetry, onRetry]
  show (if attempt = c.attempt then _ else _) = _
  split
  · rw [state_shift]
    cases hstate : c.state with
    | synSent => rw [opening_shift]; rfl
    | synReceived => rw [openingAnswer_shift (hmet hstate)]; rfl
    | closed | listening | established => rfl
  · rfl

/-- A handshake fails by the number of its attempt, which is no place. -/
theorem onDeadline_shift (attempt : Nat) :
    (c.shift own other).onDeadline attempt =
      ((c.onDeadline attempt).1.shift own other, (c.onDeadline attempt).2.shift own other) := by
  rw [onDeadline, onDeadline]
  show (if attempt = c.attempt ∧ (c.state = .synSent ∨ c.state = .synReceived) then _ else _) = _
  split <;> rfl

/-! ### Sending -/

/-- A chunk is sent as it is here, if it has a place further ahead. If it has none there, it may
have one here, and the outcome is carried to an overflow. -/
theorem sendChunk_shift (hedge : c.edge ≠ 0) (peer : Endpoint) (chunk : Bytes) :
    (c.shift own other).sendChunk now peer chunk =
      c.sendChunk now peer chunk >>= carry own other (Effects.shift own other) := by
  -- The chunk has a place further ahead, or it has none there.
  by_cases hfits : c.sendNext + chunk.length + own ≤ maxWord
  · have hshifted : addWithin maxWord (c.shift own other).sendNext chunk.length =
        .ok (c.sendNext + chunk.length + own) :=
      addWithin_eq_ok_iff.2 ⟨by rw [sendNext_shift]; omega, by rw [sendNext_shift]; omega⟩
    have hnext : addWithin maxWord c.sendNext chunk.length = .ok (c.sendNext + chunk.length) :=
      addWithin_eq_ok_iff.2 ⟨by omega, rfl⟩
    rw [sendChunk, sendChunk, hshifted, hnext, stats_shift]
    cases addWithin maxWord c.stats.bytesSent chunk.length with
    | error e => rfl
    | ok bytesSent =>
      let segment : Segment := { seq := c.sendNext, payload := chunk, sentAt := now }
      refine pure_carry (c := { c with
        sendNext := c.sendNext + chunk.length, inFlight := c.inFlight.insert segment,
        stats := { c.stats with bytesSent } }) hfits ?_ ?_
      · simp only [shift, ← InFlight.insert_shift]
        rfl
      · show Effects.mk [_] _ _ _ = Effects.mk [_] _ _ _
        exact congrArg (Effects.mk [·] _ _ _) (dataPacket_shift hedge peer segment)
  · have hshifted : addWithin maxWord (c.shift own other).sendNext chunk.length = .error .sum :=
      if_neg (by rw [sendNext_shift]; omega)
    rw [sendChunk, hshifted]
    cases hsend : c.sendChunk now peer chunk with
    | error e => cases e; rfl
    | ok x =>
      obtain ⟨-, -, hc, -⟩ := sendChunk_eq_ok hsend
      refine (carry_of_lt ?_).symm
      rw [hc]
      exact Nat.lt_of_not_le hfits

/-- Chunks are sent one after the other, as many as there is room for. An overflow at one of them is
an overflow of all. -/
theorem sendChunks_shift {peer : Endpoint} {line : List Bytes} (hnext : c.sendNext + own ≤ maxWord)
    (hedge : c.edge ≠ 0) :
    sendChunks now peer line (c.shift own other) =
      sendChunks now peer line c >>= carry own other (Effects.shift own other) := by
  induction line generalizing c with
  | nil => exact pure_carry (c := { c with pending := [] }) hnext rfl rfl
  | cons chunk rest ih =>
    rw [sendChunks, sendChunks]
    rw [inFlight_shift, InFlight.size_shift]
    show (if c.inFlight.size < c.settings.window then _ else _) = _
    split
    · refine bind_carry (sendChunk_shift hedge peer chunk) (fun c₁ sent hsent h ↦ ?_)
        fun c₁ sent hsent h ↦ ?_
      · obtain ⟨-, -, rfl, -⟩ := sendChunk_eq_ok hsent
        refine bind_carry (ih h hedge) (fun c₂ more _ h ↦ ?_) fun _ _ _ h ↦ carry_of_lt h
        exact pure_carry h rfl (Effects.shift_append ..).symm
      · -- There is no place for the chunk, and so none for those after it.
        dsimp only
        cases hmore : sendChunks now peer rest c₁ with
        | error e => rfl
        | ok x => exact carry_of_lt (Nat.lt_of_lt_of_le h (Nat.add_le_add_right
            (continues_sendChunks hmore).next_le own))
    · exact pure_carry (c := { c with pending := chunk :: rest }) hnext rfl rfl

theorem pump_shift (hnext : c.sendNext + own ≤ maxWord) (hedge : c.edge ≠ 0) :
    (c.shift own other).pump now = c.pump now >>= carry own other (Effects.shift own other) := by
  rw [pump, pump, peer_shift]
  cases c.peer with
  | none => exact pure_carry hnext rfl rfl
  | some peer => exact sendChunks_shift hnext hedge

/-- Bytes are cut into the same chunks, since cutting does not ask where they stand. -/
theorem send_shift {bytes : Bytes} (hnext : c.sendNext + own ≤ maxWord)
    (hmet : c.state = .established → c.edge ≠ 0) :
    (c.shift own other).send now bytes =
      (c.send now bytes).map (· >>= carry own other (Effects.shift own other)) := by
  rw [send, send, state_shift]
  split
  · next hstate =>
    exact congrArg Except.ok (pump_shift
      (c := { c with pending := c.pending ++ chunks c.settings.mtu bytes }) hnext (hmet hstate))
  · rfl

/-- An acknowledgement is compared with the next byte and with what is in flight, all of the own
stream. -/
theorem onAck_shift {ack : Nat} (hnext : c.sendNext + own ≤ maxWord) (hedge : c.edge ≠ 0) :
    (c.shift own other).onAck now (ack + own) =
      c.onAck now ack >>= carry own other (Effects.shift own other) := by
  rw [onAck, onAck, sendNext_shift, inFlight_shift, InFlight.acknowledge_shift]
  simp only [Nat.add_lt_add_iff_right]
  split
  · exact pure_carry hnext rfl rfl
  · obtain ⟨acknowledged, inFlight⟩ := c.inFlight.acknowledge ack
    cases acknowledged with
    | nil => exact pure_carry hnext rfl rfl
    | cons first more =>
      have hpump := @pump_shift own other now { c with inFlight, sendBase := ack } hnext hedge
      refine bind_carry hpump (fun c' sent _ h ↦ ?_) fun _ _ _ h ↦ carry_of_lt h
      refine pure_carry h rfl ?_
      rw [Effects.shift_append, List.length_map]
      rfl

/-- The alarm of a segment finds it further ahead. Only if one is in flight does its packet tell an
edge. -/
theorem onSegmentAlarm_shift {seq generation : Nat} (hnext : c.sendNext + own ≤ maxWord)
    (hmet : c.inFlight.toList ≠ [] → c.edge ≠ 0) :
    (c.shift own other).onSegmentAlarm now (seq + own) generation =
      c.onSegmentAlarm now seq generation >>= carry own other (Effects.shift own other) := by
  rw [onSegmentAlarm, onSegmentAlarm, peer_shift]
  cases c.peer with
  | none => exact pure_carry hnext rfl rfl
  | some peer =>
    dsimp only
    rw [inFlight_shift, InFlight.resend?_shift]
    cases hresend : c.inFlight.resend? seq generation now with
    | error e => rfl
    | ok resent =>
      cases resent with
      | none => exact pure_carry hnext rfl rfl
      | some x =>
        obtain ⟨segment, inFlight⟩ := x
        -- A segment is in flight, so the peer has been heard of and there is an edge to tell.
        obtain ⟨t, hmem, -⟩ := InFlight.resend?_eq_some hresend
        have hedge := hmet (List.ne_nil_of_mem hmem)
        refine pure_carry (c := { c with
          peer := some peer, inFlight
          stats := { c.stats with resends := c.stats.resends + 1 } }) hnext rfl ?_
        rw [dataPacket_shift hedge]
        rfl

/-! ### Receiving -/

/-- What is made ready for reading are the same bytes, provided that no edge is held at the last
word. -/
theorem deliver_shift (hnext : c.sendNext + own ≤ maxWord) (hedge : c.edge ≠ 0)
    (hle : c.edge ≤ maxWord)
    (hfits : ∀ chunk ∈ c.reassembly.waiting.toList,
      chunk.seq + chunk.bytes.length + other ≤ maxWord) :
    (c.shift own other).deliver = c.deliver >>= carry own other (Reaction.shift own other) := by
  rw [deliver, deliver, reassembly_shift, Reassembly.drain_shift hedge hle hfits]
  obtain ⟨bytes, reassembly⟩ := c.reassembly.drain
  cases bytes with
  | nil => exact pure_carry (c := { c with reassembly }) hnext rfl rfl
  | cons byte rest =>
    dsimp only
    rw [stats_shift]
    cases addWithin maxWord c.stats.bytesReceived (byte :: rest).length with
    | error e => rfl
    | ok bytesReceived =>
      exact pure_carry (c := { c with
        reassembly, ready := c.ready ++ [byte :: rest],
        stats := { c.stats with bytesReceived } }) hnext rfl rfl

/-- A chunk is stored where it belongs, and what it completes is the same. -/
theorem store_shift {chunk : Chunk} (hnext : c.sendNext + own ≤ maxWord) (hedge : c.edge ≠ 0)
    (hle : c.edge ≤ maxWord)
    (hfits : ∀ chunk ∈ c.reassembly.waiting.toList,
      chunk.seq + chunk.bytes.length + other ≤ maxWord)
    (hchunk : chunk.seq + chunk.bytes.length + other ≤ maxWord) :
    (c.shift own other).store (chunk.shift other) =
      c.store chunk >>= carry own other (Reaction.shift own other) := by
  rw [store, store, reassembly_shift, Chunk.seq_shift, Reassembly.isStale_shift hedge,
    Reassembly.add_shift hedge]
  split
  · refine pure_carry hnext rfl ?_
    rw [edge_shift hedge]
    rfl
  · have hadd : (c.reassembly.add chunk).edge = c.edge := Reassembly.edge_add chunk c.reassembly
    have hdeliver := @deliver_shift own other { c with reassembly := c.reassembly.add chunk }
      hnext (by rwa [edge, hadd]) (by rwa [edge, hadd]) fun x hx ↦
        (Reassembly.mem_waiting_add hx).elim (fun hnew ↦ hnew.1 ▸ hchunk) (hfits x)
    exact hdeliver

/-- Storing a chunk never moves the edge back. -/
theorem edge_le_of_store {chunk : Chunk} {c' : Connection} {r : Reaction} (hle : c.edge ≤ maxWord)
    (h : c.store chunk = .ok (c', r)) : c.edge ≤ c'.edge := by
  rw [store] at h
  split at h
  · obtain ⟨rfl, -⟩ := Checked.pure_prod_eq_ok h
    exact Nat.le_refl _
  · have hdrain := (deliver_eq_ok h).1
    have hadd : (c.reassembly.add chunk).edge = c.edge := Reassembly.edge_add chunk c.reassembly
    show c.edge ≤ c'.reassembly.edge
    rw [hdrain, ← hadd]
    exact Reassembly.le_drain_edge (hadd ▸ hle)

/-- Data is compared with the edge, and stored or told to be stale. -/
theorem onData_shift {chunk : Chunk} (hnext : c.sendNext + own ≤ maxWord) (hedge : c.edge ≠ 0)
    (hle : c.edge ≤ maxWord)
    (hfits : ∀ chunk ∈ c.reassembly.waiting.toList,
      chunk.seq + chunk.bytes.length + other ≤ maxWord)
    (hchunk : chunk.seq + chunk.bytes.length + other ≤ maxWord) :
    (c.shift own other).onData (chunk.shift other) =
      c.onData chunk >>= carry own other (Reaction.shift own other) := by
  refine bind_carry (store_shift hnext hedge hle hfits hchunk) (fun c' stored hstored h ↦ ?_)
    fun _ _ _ h ↦ carry_of_lt h
  refine pure_carry h rfl ?_
  rw [acknowledgement_shift, Reaction.shift_append]
  · rfl
  · have hstep := edge_le_of_store hle hstored
    omega

theorem read_shift :
    (c.shift own other).read = c.read.map fun x ↦ (x.1, x.2.shift own other) := by
  rw [read, read, state_shift]
  split <;> rfl

/-! ### What reaches a connection -/

/-- What has to hold of a connection so that it does the same further ahead. -/
structure Fits (own other : Nat) (c : Connection) : Prop where
  /-- The first byte has a place there. -/
  isn_le : c.isn + 1 + own ≤ maxWord
  /-- So has the next byte. -/
  next_le : c.sendNext + own ≤ maxWord
  /-- Edges are words. -/
  edge_le : c.edge ≤ maxWord
  /-- An end that has heard of its peer knows where the other stream starts. -/
  met : c.state = .synReceived ∨ c.state = .established → c.edge ≠ 0
  /-- The chunks that wait there stop at places that are words. -/
  waiting : c.state = .synReceived ∨ c.state = .established →
    ∀ chunk ∈ c.reassembly.waiting.toList, chunk.seq + chunk.bytes.length + other ≤ maxWord
  /-- Nothing is in flight before the handshake is done. -/
  flying : c.inFlight.toList ≠ [] → c.state = .established

theorem Fits.completeHandshake (h : c.Fits own other) (ack : Nat) :
    (c.completeHandshake ack).1.Fits own other := by
  rw [Connection.completeHandshake]
  split
  · next hstate =>
    split
    · exact { h with
        met := fun _ ↦ h.met (.inl hstate), waiting := fun _ ↦ h.waiting (.inl hstate)
        flying := fun _ ↦ rfl }
    · exact h
  · exact h

/-- What is done once a connection is established is the same further ahead, if that holds of what
is done then. -/
theorem onceEstablished_shift {ack : Nat}
    {next next' : Connection → Checked (Connection × Reaction)} (h : c.Fits own other)
    (hnext : ∀ c : Connection, c.Fits own other → c.state = .established →
      next' (c.shift own other) = next c >>= carry own other (Reaction.shift own other)) :
    (c.shift own other).onceEstablished (ack + own) next' =
      c.onceEstablished ack next >>= carry own other (Reaction.shift own other) := by
  have hfits := h.completeHandshake ack
  rw [onceEstablished, onceEstablished, completeHandshake_shift h.isn_le]
  dsimp only
  rw [state_shift]
  split
  · next hstate =>
    refine bind_carry (hnext _ hfits hstate) (fun c' r _ h ↦ ?_) fun _ _ _ h ↦ carry_of_lt h
    exact pure_carry h rfl (Reaction.shift_append ..).symm
  · exact pure_carry hfits.next_le rfl rfl

theorem sendNext_onSynAck (seq ack : Nat) : (c.onSynAck seq ack).1.sendNext = c.sendNext := by
  rw [onSynAck]
  split
  · split <;> rfl
  · rfl
  · rfl

/-- **A packet from the peer makes a connection do the same further ahead.** There is one case for
each kind of packet. An opening is the only one whose acknowledgement is no place. -/
theorem onAdmitted_shift {packet : Packet} (h : c.Fits own other) (hpacket : packet.Fits other) :
    (c.shift own other).onAdmitted now (packet.shift other own) =
      c.onAdmitted now packet >>= carry own other (Reaction.shift own other) := by
  -- The packet comes from the other end, so its own stream is the one that this end receives.
  have hack : packet.kind ≠ .syn → (packet.shift other own).ack = packet.ack + own := fun hne ↦
    if_neg hne
  rw [onAdmitted, onAdmitted, show (packet.shift other own).kind = packet.kind from rfl]
  cases hkind : packet.kind with
  | syn =>
    have hsyn := @onSyn_shift own other c packet.source packet.seq h.isn_le h.next_le
      (hpacket.opening (.inl hkind)) fun hstate ↦ h.met (.inl hstate)
    exact bind_carry_effects hsyn
  | synAck =>
    have hsynAck := @onSynAck_shift own other c packet.seq packet.ack h.isn_le
      (hpacket.opening (.inr hkind)) fun hstate ↦ h.met (.inr hstate)
    dsimp only
    rw [hack (by simp [hkind]), show (packet.shift other own).seq = packet.seq + other from rfl,
      hsynAck]
    exact pure_carry ((sendNext_onSynAck packet.seq packet.ack).symm ▸ h.next_le) rfl rfl
  | ack =>
    dsimp only
    rw [hack (by simp [hkind])]
    exact onceEstablished_shift h fun c hc hstate ↦
      bind_carry_effects (onAck_shift hc.next_le (hc.met (.inr hstate)))
  | data =>
    dsimp only
    rw [hack (by simp [hkind])]
    exact onceEstablished_shift h fun c hc hstate ↦
      @onData_shift own other c ⟨packet.seq, packet.payload⟩ hc.next_le (hc.met (.inr hstate))
        hc.edge_le (hc.waiting (.inr hstate)) (hpacket.data hkind)
  | fin | finAck => exact pure_carry h.next_le rfl rfl

theorem dropNote?_shift (packet : Packet) :
    (c.shift own other).dropNote? (packet.shift other own) =
      (c.dropNote? packet).map (Note.shift own other) := by
  rw [dropNote?, dropNote?, state_shift, peer_shift]
  cases c.state with
  | closed | listening => rfl
  | synSent | synReceived | established =>
    show (if c.peer = some packet.source then _ else _) = Option.map _ (ite _ _ _)
    split <;> rfl

theorem onPacket_shift {packet : Packet} (h : c.Fits own other) (hpacket : packet.Fits other) :
    (c.shift own other).onPacket now (packet.shift other own) =
      c.onPacket now packet >>= carry own other (Reaction.shift own other) := by
  rw [onPacket, onPacket, dropNote?_shift]
  cases c.dropNote? packet with
  | some note => exact pure_carry h.next_le rfl rfl
  | none =>
    refine bind_carry (onAdmitted_shift h hpacket) (fun c' r _ h ↦ ?_) fun _ _ _ h ↦ carry_of_lt h
    exact pure_carry h rfl (Reaction.shift_append own other { notes := [.received packet] } r).symm

theorem sendNext_onDeadline (attempt : Nat) :
    (c.onDeadline attempt).1.sendNext = c.sendNext := by
  rw [onDeadline]
  split <;> rfl

/-- An alarm makes a connection do the same further ahead. -/
theorem onAlarm_shift {watch : Alarm.Watch} (h : c.Fits own other) :
    (c.shift own other).onAlarm now (watch.shift own) =
      c.onAlarm now watch >>= carry own other (Reaction.shift own other) := by
  cases watch with
  | segment seq generation =>
    have halarm := @onSegmentAlarm_shift own other now c seq generation h.next_le fun hne ↦
      h.met (.inr (h.flying hne))
    exact bind_carry_effects halarm
  | handshakeRetry attempt =>
    refine pure_carry h.next_le rfl ?_
    rw [onRetry_shift fun hstate ↦ h.met (.inl hstate)]
    rfl
  | handshakeDeadline attempt =>
    show pure ((c.shift own other).onDeadline attempt) = _
    rw [onDeadline_shift]
    exact pure_carry ((sendNext_onDeadline attempt).symm ▸ h.next_le) rfl rfl

end Connection

namespace Party

variable {own other now : Nat} {p : Party}

/-- What becomes of a party, counted from further ahead, if the next byte has a place there. -/
def carry (own other : Nat) (x : Party × Reaction) : Checked (Party × Reaction) :=
  if x.1.sendNext + own ≤ maxWord then .ok (x.1.shift own other, x.2.shift own other)
  else .error .sum

/-- There is an outcome if the next byte has a place, and it is the shifted one. -/
theorem carry_eq_ok_iff {x y : Party × Reaction} :
    carry own other x = .ok y ↔
      x.1.sendNext + own ≤ maxWord ∧ (x.1.shift own other, x.2.shift own other) = y := by
  rw [carry]
  split
  · next h => simp [h]
  · next h => simp [h]

/-- The answer to a call is taken over as it is here. -/
theorem call_shift {bytes : List Bytes} (hnext : p.sendNext + own ≤ maxWord)
    (answer : Except Failure (Checked (Connection × Effects))) :
    (p.shift own other).call bytes
        (answer.map (· >>= Connection.carry own other (Effects.shift own other))) =
      p.call bytes answer >>= carry own other := by
  cases answer with
  | error failure => exact (if_pos hnext).symm
  | ok done =>
    cases done with
    | error e => rfl
    | ok x =>
      show (Connection.carry own other _ x >>= _) = carry own other _
      rw [Connection.carry, carry]
      split <;> rfl

theorem keep_shift (answer : Except Failure (Option Bytes × Connection)) :
    (p.shift own other).keep (answer.map fun x ↦ (x.1, x.2.shift own other)) =
      (p.keep answer).shift own other := by
  cases answer <;> rfl

theorem move_shift (outcome : Checked (Connection × Reaction)) :
    (p.shift own other).move
        (outcome >>= Connection.carry own other (Reaction.shift own other)) =
      p.move outcome >>= carry own other := by
  cases outcome with
  | error e => rfl
  | ok x =>
    show (Connection.carry own other _ x >>= _) = carry own other _
    rw [Connection.carry, carry]
    split <;> rfl

/-- **A party does not know where its streams start.** Counted from further ahead it does the same
with every input, as long as the next byte has a place there. -/
theorem perform_shift {input : Input} (h : p.toConnection.Fits own other)
    (hinput : ∀ packet, input = .packet packet → packet.Fits other) :
    (p.shift own other).perform now (input.shift own other) =
      p.perform now input >>= carry own other := by
  cases input with
  | connect peer =>
    show (p.shift own other).call [] ((p.toConnection.shift own other).connect peer) = _
    rw [Connection.connect_shift h.isn_le]
    exact call_shift h.next_le _
  | listen =>
    show (p.shift own other).call [] ((p.toConnection.shift own other).listen.map pure) = _
    rw [Connection.listen_shift h.next_le]
    exact call_shift h.next_le _
  | send bytes =>
    show (p.shift own other).call [bytes] ((p.toConnection.shift own other).send now bytes) = _
    rw [Connection.send_shift h.next_le fun hstate ↦ h.met (.inr hstate)]
    exact call_shift h.next_le _
  | read =>
    have hread : (p.keep p.toConnection.read).sendNext = p.sendNext := by
      rw [Connection.read]
      split <;> rfl
    show (pure ((p.shift own other).keep (p.toConnection.shift own other).read, {}) :
      Checked (Party × Reaction)) = _
    rw [Connection.read_shift, keep_shift]
    -- Reading moves no number, so there is room for it.
    exact (if_pos (hread.symm ▸ h.next_le)).symm
  | packet packet =>
    show (p.shift own other).move ((p.toConnection.shift own other).onPacket now _) = _
    rw [Connection.onPacket_shift h (hinput packet rfl)]
    exact move_shift _
  | alarm watch =>
    show (p.shift own other).move ((p.toConnection.shift own other).onAlarm now _) = _
    rw [Connection.onAlarm_shift h]
    exact move_shift _

end Party

end ReliableStream
