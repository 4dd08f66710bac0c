import ReliableStream.Proofs.Party.Move

/-!
# Nothing but moves

The inversion of `perform`: whatever an input makes a party do is a sequence of moves
(`moves_of_perform`). Each function of a connection has its own lemma here, which follows the
branches of the function; the lemmas of the functions that call it use that one, and only
`moves_of_perform` is used elsewhere.

The other direction is not shown, nor needed: a move that no input leads to does no harm, as the
moves are only used to carry invariants. So a change to one function is a change to one lemma here,
and to `Move` only if the function does something that no move is.
-/

namespace ReliableStream.Party

variable {now : Nat} {input : Input} {p q : Party} {r : Reaction}

/-- What a party sends from its line, chunk after chunk. Each chunk is a move of its own. -/
theorem moves_of_sendChunks {peer : Endpoint} {line : List Bytes} {c : Connection}
    {effects : Effects} (hstate : p.state = .established) (hpeer : p.peer = some peer)
    (h : Connection.sendChunks now peer line p.toConnection = .ok (c, effects)) :
    Moves now input { p with pending := line } effects { p with toConnection := c } := by
  induction line generalizing p effects with
  | nil =>
    simp only [Connection.sendChunks, Checked.pure_eq_ok_iff, Prod.mk.injEq] at h
    obtain ⟨rfl, rfl⟩ := h
    exact .none _
  | cons chunk rest ih =>
    rw [Connection.sendChunks] at h
    split at h
    · next hroom =>
      obtain ⟨⟨c₁, sent⟩, hsend, hrest⟩ := Checked.bind_eq_ok_iff.1 h
      obtain ⟨⟨c₂, more⟩, hmore, hpure⟩ := Checked.bind_eq_ok_iff.1 hrest
      obtain ⟨rfl, rfl⟩ := Checked.pure_prod_eq_ok hpure
      obtain ⟨hnext, hsent, rfl, rfl⟩ := Connection.sendChunk_eq_ok hsend
      have hfirst : Move now input { p with pending := chunk :: rest } _ _ :=
        .send hstate hpeer rfl hroom hnext hsent
      have hrest := ih (p := { p with
        sendNext := p.sendNext + chunk.length
        inFlight := p.inFlight.insert ⟨p.sendNext, chunk, now, 0⟩
        stats := { p.stats with bytesSent := p.stats.bytesSent + chunk.length } })
        hstate hpeer hmore
      exact .cons hfirst hrest
    · obtain ⟨rfl, rfl⟩ := Checked.pure_prod_eq_ok h
      exact .none _

theorem moves_of_pump {c : Connection} {effects : Effects} (hstate : p.state = .established)
    (h : p.pump now = .ok (c, effects)) :
    Moves now input p effects { p with toConnection := c } := by
  rw [Connection.pump] at h
  split at h
  · next peer hpeer => exact moves_of_sendChunks hstate hpeer h
  · obtain ⟨rfl, rfl⟩ := Checked.pure_prod_eq_ok h
    exact .none _

/-- Bytes are handed over, and then sent as far as there is room. -/
theorem moves_of_send {bytes : Bytes} {c : Connection} {effects : Effects}
    (h : p.toConnection.send now bytes = .ok (.ok (c, effects))) :
    Moves now (.send bytes) p effects
      { p with toConnection := c, sends := p.sends ++ [bytes] } := by
  rw [Connection.send] at h
  split at h
  · next hstate =>
    have hpump := Except.ok.inj h
    have hrest : Moves now (.send bytes) { p with
        pending := p.pending ++ chunks p.settings.mtu bytes, sends := p.sends ++ [bytes] } _ _ :=
      moves_of_pump hstate hpump
    simpa using Moves.cons (.hand hstate) hrest
  · simp at h

/-- An acknowledgement takes segments out of flight, and what is pending is sent into the room. -/
theorem moves_of_onAck {packet : Packet} {c : Connection} {effects : Effects}
    (hkind : packet.kind = .ack) (hstate : p.state = .established)
    (hpeer : p.peer = some packet.source) (h : p.onAck now packet.ack = .ok (c, effects)) :
    Moves now (.packet packet) p effects { p with toConnection := c } := by
  rcases Connection.onAck_eq_ok h with ⟨rfl, ⟨notes, rfl⟩, -⟩ | ⟨hle, hsome, sent, hpump, rfl⟩
  · exact .single (.idle notes)
  · exact .cons (.acknowledged hkind hstate hpeer hle hsome)
      (moves_of_pump (p := { p with
        inFlight := (p.inFlight.acknowledge packet.ack).2, sendBase := packet.ack }) hstate hpump)

/-- The alarm of a segment sends it again, or does nothing. -/
theorem moves_of_onSegmentAlarm {seq generation : Nat} {c : Connection} {effects : Effects}
    (h : p.onSegmentAlarm now seq generation = .ok (c, effects)) :
    Moves now (.alarm (.segment seq generation)) p effects { p with toConnection := c } := by
  rw [Connection.onSegmentAlarm] at h
  split at h
  · obtain ⟨rfl, rfl⟩ := Checked.pure_prod_eq_ok h
    exact .none _
  · next peer hpeer =>
    obtain ⟨resent, hresend, hrest⟩ := Checked.bind_eq_ok_iff.1 h
    split at hrest
    · obtain ⟨rfl, rfl⟩ := Checked.pure_prod_eq_ok hrest
      exact .none _
    · obtain ⟨segment, hmem, rfl, rfl, hle, rfl, rfl⟩ := InFlight.resend?_eq_some hresend
      obtain ⟨rfl, rfl⟩ := Checked.pure_prod_eq_ok hrest
      exact .single (.resend hpeer hmem hle)

theorem acknowledgement_eq {p : Party} {peer : Endpoint} (hpeer : p.peer = some peer) :
    p.acknowledgement = [⟨p.home, peer, .ack, p.sendNext, p.edge, p.settings.advertised, []⟩] := by
  simp [Connection.acknowledgement, Connection.control, hpeer]

/-- Data is stale and acknowledged once more, or is stored, and what it completes is made ready for
reading. -/
theorem moves_of_onData {packet : Packet} {c : Connection} {r : Reaction}
    (hkind : packet.kind = .data) (hstate : p.state = .established)
    (hpeer : p.peer = some packet.source)
    (h : p.onData ⟨packet.seq, packet.payload⟩ = .ok (c, r)) :
    Moves now (.packet packet) p r { p with toConnection := c } := by
  obtain ⟨⟨c', stored⟩, hstore, hpure⟩ := Checked.bind_eq_ok_iff.1 h
  obtain ⟨rfl, rfl⟩ := Checked.pure_prod_eq_ok hpure
  rw [Connection.store] at hstore
  split at hstore
  · next hstale =>
    obtain ⟨rfl, rfl⟩ := Checked.pure_prod_eq_ok hstore
    exact .single (.acknowledge (.inr ⟨hkind, of_decide_eq_true hstale⟩) hstate hpeer)
  · next hfresh =>
    have hseq : p.edge ≤ packet.seq := by
      simpa [Reassembly.isStale, Connection.edge] using hfresh
    rw [Connection.deliver] at hstore
    split at hstore
    · next reassembly hdrain =>
      obtain ⟨rfl, rfl⟩ := Checked.pure_prod_eq_ok hstore
      have hmove := @Move.store now packet p [] hkind hstate hpeer hseq (by rw [hdrain])
      simp only [hdrain] at hmove
      refine .single ?_
      convert hmove using 1
      ext1 <;> simp [Connection.acknowledgement, Connection.control, hpeer, Connection.edge]
    · next bytes reassembly hne hdrain =>
      obtain ⟨received, hadd, hdeliver⟩ := Checked.bind_eq_ok_iff.1 hstore
      obtain ⟨hlen, rfl⟩ := addWithin_eq_ok_iff.1 hadd
      obtain ⟨rfl, rfl⟩ := Checked.pure_prod_eq_ok hdeliver
      have hmove := @Move.deliver now packet p bytes [] hkind hstate hpeer hseq (by rw [hdrain]) hne
        hlen
      simp only [hdrain] at hmove
      refine .single ?_
      convert hmove using 1
      ext1 <;> simp [Connection.acknowledgement, Connection.control, hpeer, Connection.edge]

/-- An opening is answered by a party that listens, or answered once more. -/
theorem moves_of_onSyn {packet : Packet} {c : Connection} {effects : Effects}
    (hkind : packet.kind = .syn)
    (hadmitted : p.state = .listening ∨ p.peer = some packet.source)
    (h : p.onSyn packet.source packet.seq = .ok (c, effects)) :
    Moves now (.packet packet) p effects { p with toConnection := c } := by
  rw [Connection.onSyn] at h
  split at h
  · next hstate =>
    obtain ⟨⟨c', alarms⟩, hstart, hpure⟩ := Checked.bind_eq_ok_iff.1 h
    obtain ⟨rfl, rfl⟩ := Checked.pure_prod_eq_ok hpure
    obtain ⟨hattempt, rfl, rfl⟩ := Connection.startHandshake_eq_ok hstart
    exact .single (.accept hkind hstate hattempt)
  · next hstate =>
    obtain ⟨rfl, rfl⟩ := Checked.pure_prod_eq_ok h
    have hpeer : p.peer = some packet.source := hadmitted.resolve_left (by simp [hstate])
    exact .single (.answer hkind hstate hpeer)
  · obtain ⟨rfl, rfl⟩ := Checked.pure_prod_eq_ok h
    exact .single (.idle _)

/-- An answer establishes the party that asked, or is acknowledged once more. -/
theorem moves_onSynAck {packet : Packet} (hkind : packet.kind = .synAck)
    (hadmitted : p.state = .listening ∨ p.peer = some packet.source) :
    Moves now (.packet packet) p (p.onSynAck packet.seq packet.ack).2
      { p with toConnection := (p.onSynAck packet.seq packet.ack).1 } := by
  rw [Connection.onSynAck]
  split
  · next hstate =>
    have hpeer : p.peer = some packet.source := hadmitted.resolve_left (by simp [hstate])
    split
    · next hack =>
      have hmove := @Move.opened now packet p
        [.synAckReceived packet.seq packet.ack, .established packet.source] hkind hstate hpeer hack
      refine .single ?_
      convert hmove using 1
      · ext1 <;> simp [Connection.establish, Connection.acknowledgement, Connection.control, hpeer,
          Connection.edge]
      · rfl
    · exact .single (.idle _)
  · next hstate =>
    have hpeer : p.peer = some packet.source := hadmitted.resolve_left (by simp [hstate])
    exact .single (.acknowledge (.inl hkind) hstate hpeer)
  · exact .single (.idle _)

/-- An acknowledgement or data may complete the handshake of the party that answered. -/
theorem moves_completeHandshake {packet : Packet} (hkind : packet.kind = .ack ∨ packet.kind = .data)
    (hadmitted : p.state = .listening ∨ p.peer = some packet.source) :
    Moves now (.packet packet) p (p.completeHandshake packet.ack).2
      { p with toConnection := (p.completeHandshake packet.ack).1 } := by
  rw [Connection.completeHandshake]
  split
  · next hstate =>
    have hpeer : p.peer = some packet.source := hadmitted.resolve_left (by simp [hstate])
    split
    · next hack =>
      have hmove := @Move.complete now packet p [.established packet.source] hkind hstate hpeer hack
      refine .single ?_
      convert hmove using 1
      · ext1 <;> simp [Connection.establish, hpeer]
      · rfl
    · exact .single (.idle _)
  · exact .none _

/-- Completing the handshake comes first, and then what the packet says. -/
theorem moves_of_onceEstablished {packet : Packet} {c : Connection} {r : Reaction}
    {next : Connection → Checked (Connection × Reaction)}
    (hkind : packet.kind = .ack ∨ packet.kind = .data)
    (hadmitted : p.state = .listening ∨ p.peer = some packet.source)
    (hnext : ∀ {t : Party} {c : Connection} {r : Reaction}, t.state = .established →
      t.peer = some packet.source → next t.toConnection = .ok (c, r) →
      Moves now (.packet packet) t r { t with toConnection := c })
    (h : p.onceEstablished packet.ack next = .ok (c, r)) :
    Moves now (.packet packet) p r { p with toConnection := c } := by
  have hcomplete : Moves now (.packet packet) p _ _ := moves_completeHandshake hkind hadmitted
  rw [Connection.onceEstablished] at h
  dsimp only at h
  split at h
  · next hstate =>
    obtain ⟨⟨c', reaction⟩, hrun, hpure⟩ := Checked.bind_eq_ok_iff.1 h
    obtain ⟨rfl, rfl⟩ := Checked.pure_prod_eq_ok hpure
    have hpeer : (p.completeHandshake packet.ack).1.peer = some packet.source := by
      rw [Connection.peer_completeHandshake]
      refine hadmitted.resolve_left fun hlistening ↦ ?_
      rw [Connection.completeHandshake, if_neg (by simp [hlistening]), hlistening] at hstate
      exact absurd hstate (by simp)
    exact hcomplete.append (hnext (t := { p with
      toConnection := (p.completeHandshake packet.ack).1 }) hstate hpeer hrun)
  · obtain ⟨rfl, rfl⟩ := Checked.pure_prod_eq_ok h
    exact hcomplete

/-- A packet that is taken in makes moves by its kind. -/
theorem moves_of_onAdmitted {packet : Packet} {c : Connection} {r : Reaction}
    (hadmitted : p.state = .listening ∨ p.peer = some packet.source)
    (h : p.onAdmitted now packet = .ok (c, r)) :
    Moves now (.packet packet) p r { p with toConnection := c } := by
  rw [Connection.onAdmitted] at h
  split at h
  · next hkind =>
    obtain ⟨⟨c', effects⟩, hsyn, hpure⟩ := Checked.bind_eq_ok_iff.1 h
    obtain ⟨rfl, rfl⟩ := Checked.pure_prod_eq_ok hpure
    exact moves_of_onSyn hkind hadmitted hsyn
  · next hkind =>
    have hmoves : Moves now (.packet packet) p _ _ := moves_onSynAck hkind hadmitted
    rw [Checked.pure_eq_ok_iff] at h
    rwa [h] at hmoves
  · next hkind =>
    refine moves_of_onceEstablished (.inl hkind) hadmitted (fun hstate hpeer hrun ↦ ?_) h
    obtain ⟨⟨c', effects⟩, hack, hpure⟩ := Checked.bind_eq_ok_iff.1 hrun
    obtain ⟨rfl, rfl⟩ := Checked.pure_prod_eq_ok hpure
    exact moves_of_onAck hkind hstate hpeer hack
  · next hkind =>
    exact moves_of_onceEstablished (.inr hkind) hadmitted (moves_of_onData hkind) h
  all_goals
    obtain ⟨rfl, rfl⟩ := Checked.pure_prod_eq_ok h
    exact .single (.idle _)

/-- A packet that is read comes from the peer, or to a party that waits for anyone. -/
theorem admitted_of_dropNote? {packet : Packet} (h : p.dropNote? packet = none) :
    p.state = .listening ∨ p.peer = some packet.source := by
  rw [Connection.dropNote?] at h
  split at h
  · simp at h
  · next hstate => exact .inl hstate
  · exact .inr (by simpa using h)

theorem moves_of_onPacket {packet : Packet} {c : Connection} {r : Reaction}
    (h : p.onPacket now packet = .ok (c, r)) :
    Moves now (.packet packet) p r { p with toConnection := c } := by
  rw [Connection.onPacket] at h
  split at h
  · obtain ⟨rfl, rfl⟩ := Checked.pure_prod_eq_ok h
    exact .single (.idle _)
  · next hdrop =>
    obtain ⟨⟨c', reaction⟩, hread, hpure⟩ := Checked.bind_eq_ok_iff.1 h
    obtain ⟨rfl, rfl⟩ := Checked.pure_prod_eq_ok hpure
    exact .cons (.idle _) (moves_of_onAdmitted (admitted_of_dropNote? hdrop) hread)

theorem moves_onRetry (attempt : Nat) :
    Moves now (.alarm (.handshakeRetry attempt)) p (p.onRetry attempt : Effects) p := by
  rw [Connection.onRetry]
  split
  · next hattempt =>
    subst hattempt
    split
    · next hstate => exact .single (.retryOpening hstate)
    · next hstate => exact .single (.retryAnswer hstate)
    · exact .none _
  · exact .none _

theorem moves_onDeadline (attempt : Nat) :
    Moves now (.alarm (.handshakeDeadline attempt)) p (p.onDeadline attempt).2
      { p with toConnection := (p.onDeadline attempt).1 } := by
  rw [Connection.onDeadline]
  split
  · next hcurrent =>
    obtain ⟨rfl, hstate⟩ := hcurrent
    exact .single (.giveUp hstate)
  · exact .none _

theorem moves_of_onAlarm {watch : Alarm.Watch} {c : Connection} {r : Reaction}
    (h : p.onAlarm now watch = .ok (c, r)) :
    Moves now (.alarm watch) p r { p with toConnection := c } := by
  unfold Connection.onAlarm at h
  split at h
  · obtain ⟨⟨c', effects⟩, halarm, hpure⟩ := Checked.bind_eq_ok_iff.1 h
    obtain ⟨rfl, rfl⟩ := Checked.pure_prod_eq_ok hpure
    exact moves_of_onSegmentAlarm halarm
  · next attempt =>
    obtain ⟨rfl, rfl⟩ := Checked.pure_prod_eq_ok h
    exact moves_onRetry attempt
  · next attempt =>
    have hmoves : Moves now (.alarm (.handshakeDeadline attempt)) p _ _ := moves_onDeadline attempt
    rw [Checked.pure_eq_ok_iff] at h
    rwa [h] at hmoves

theorem moves_of_connect {peer : Endpoint} {c : Connection} {effects : Effects}
    (h : p.toConnection.connect peer = .ok (.ok (c, effects))) :
    Moves now (.connect peer) p effects { p with toConnection := c } := by
  rw [Connection.connect] at h
  split at h
  · next hstate =>
    obtain ⟨⟨c', alarms⟩, hstart, hpure⟩ := Checked.bind_eq_ok_iff.1 (Except.ok.inj h)
    obtain ⟨rfl, rfl⟩ := Checked.pure_prod_eq_ok hpure
    obtain ⟨hattempt, rfl, rfl⟩ := Connection.startHandshake_eq_ok hstart
    exact .single (.connect hstate hattempt)
  · simp at h

theorem moves_of_listen {c : Connection} {effects : Effects}
    (h : (p.toConnection.listen.map pure : Except Failure (Checked (Connection × Effects))) =
      .ok (.ok (c, effects))) :
    Moves now .listen p effects { p with toConnection := c } := by
  obtain ⟨done, hlisten, hdone⟩ := Failure.exists_of_map_eq_ok h
  obtain rfl := Checked.pure_eq_ok_iff.1 hdone
  rw [Connection.listen] at hlisten
  split at hlisten
  · next hstate =>
    obtain ⟨rfl, rfl⟩ := Prod.mk.inj (Except.ok.inj hlisten)
    exact .single (.listen hstate)
  · exact absurd hlisten (by simp)

/-- A call to read takes what is ready, and keeps account of it. -/
theorem moves_keep_read : Moves now .read p {} (p.keep p.toConnection.read) := by
  rw [Connection.read]
  split
  · next hstate =>
    cases hready : p.ready with
    | nil =>
      have hp : { p with ready := [], reads := p.reads ++ [] } = p := by
        rw [List.append_nil, ← hready]
      simp only [keep, List.head?_nil, List.tail_nil, Option.toList_none]
      rw [hp]
      exact .none _
    | cons bytes rest => exact .single (.read hstate hready)
  · exact .none _

/-- A call that is answered by moves makes its moves, and a refused one none. -/
theorem moves_of_call {bytes : List Bytes}
    {answer : Except Failure (Checked (Connection × Effects))}
    (hanswer : ∀ {c : Connection} {effects : Effects}, answer = .ok (.ok (c, effects)) →
      Moves now input p effects { p with toConnection := c, sends := p.sends ++ bytes })
    (h : p.call bytes answer = .ok (q, r)) : Moves now input p r q := by
  unfold call at h
  split at h
  · obtain ⟨rfl, rfl⟩ := Checked.pure_prod_eq_ok h
    exact .none _
  · obtain ⟨⟨c, effects⟩, hdone, hpure⟩ := Checked.bind_eq_ok_iff.1 h
    obtain ⟨rfl, rfl⟩ := Checked.pure_prod_eq_ok hpure
    exact hanswer (by rw [hdone])

theorem moves_of_move {outcome : Checked (Connection × Reaction)}
    (houtcome : ∀ {c : Connection} {r : Reaction}, outcome = .ok (c, r) →
      Moves now input p r { p with toConnection := c })
    (h : p.move outcome = .ok (q, r)) : Moves now input p r q := by
  obtain ⟨⟨c, reaction⟩, hdone, hpure⟩ := Checked.bind_eq_ok_iff.1 h
  obtain ⟨rfl, rfl⟩ := Checked.pure_prod_eq_ok hpure
  exact houtcome hdone

/-- **Nothing but moves.** Whatever an input makes a party do is a sequence of moves. Every
invariant of parties is proved of single moves and gets its runs from here. -/
theorem moves_of_perform (h : p.perform now input = .ok (q, r)) : Moves now input p r q := by
  cases input with
  | connect peer =>
    refine moves_of_call (fun hanswer ↦ ?_) h
    simpa using moves_of_connect hanswer
  | listen =>
    refine moves_of_call (fun hanswer ↦ ?_) h
    simpa using moves_of_listen hanswer
  | send bytes => exact moves_of_call moves_of_send h
  | read =>
    simp only [perform, Checked.pure_eq_ok_iff, Prod.mk.injEq] at h
    obtain ⟨rfl, rfl⟩ := h
    exact moves_keep_read
  | packet packet => exact moves_of_move moves_of_onPacket h
  | alarm watch => exact moves_of_move moves_of_onAlarm h

/-- What every move keeps is kept by inputs one after the other, whatever they are and whenever they
come. -/
theorem preserves_of_performAll {P : Party → Prop}
    (hmove : ∀ {now input p q r}, P p → Move now input p r q → P q) {inputs : List (Nat × Input)}
    {packets : List Packet} (hall : p.performAll inputs = .ok (q, packets)) (hp : P p) : P q := by
  induction inputs generalizing p packets with
  | nil =>
    obtain ⟨rfl, -⟩ := Checked.pure_prod_eq_ok hall
    exact hp
  | cons x rest ih =>
    obtain ⟨t, r, more, hfirst, hrest, -⟩ := exists_of_performAll_cons hall
    exact ih hrest ((moves_of_perform hfirst).preserves hmove hp)

end ReliableStream.Party
