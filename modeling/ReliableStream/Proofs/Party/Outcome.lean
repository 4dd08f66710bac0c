import ReliableStream.Proofs.Party.Knows
import ReliableStream.Proofs.Party.Proceeds

/-!
# What comes of an input

The moves say what a party may do. Here it is said what has become of it once it has done with an
input that it was waiting for: the two calls that open a connection, the packets of a handshake, an
acknowledgement, and data. Each statement starts from the outcome of `perform`, or of a whole turn,
so nothing is asked of the counters.

In contrast to `exists_perform_alarm` and its like these statements are used where there is an
outcome already, as in a step of a simulation that was taken.
-/

namespace ReliableStream.Party

variable {now : Nat} {packet : Packet} {p q peer : Party} {r : Reaction}

/-! ### Opening -/

theorem listening_of_perform (hstate : p.state = .closed)
    (h : p.perform now .listen = .ok (q, r)) : q.state = .listening ∧ r.notices = [] := by
  rw [perform, Connection.listen, if_pos hstate] at h
  obtain ⟨⟨c, effects⟩, hdone, hpure⟩ := Checked.bind_eq_ok_iff.1 h
  obtain ⟨rfl, rfl⟩ := Checked.pure_prod_eq_ok hpure
  obtain ⟨rfl, rfl⟩ := Checked.pure_prod_eq_ok hdone
  exact ⟨rfl, rfl⟩

/-- The opening is sent. -/
theorem synSent_of_perform {home : Endpoint} (hstate : p.state = .closed)
    (h : p.perform now (.connect home) = .ok (q, r)) :
    q.state = .synSent ∧ q.peer = some home ∧ r.notices = [] ∧
      ∃ opening ∈ r.packets, opening.kind = .syn := by
  rw [perform, Connection.connect, if_pos hstate] at h
  obtain ⟨⟨c, effects⟩, hdone, hpure⟩ := Checked.bind_eq_ok_iff.1 h
  obtain ⟨rfl, rfl⟩ := Checked.pure_prod_eq_ok hpure
  obtain ⟨⟨c', alarms⟩, hstart, hpure'⟩ := Checked.bind_eq_ok_iff.1 hdone
  obtain ⟨rfl, rfl⟩ := Checked.pure_prod_eq_ok hpure'
  obtain ⟨-, rfl, rfl⟩ := Connection.startHandshake_eq_ok hstart
  exact ⟨rfl, rfl, rfl, _, List.mem_append_left _ (List.mem_singleton.2 rfl), rfl⟩

/-! ### Reading a packet -/

/-- A packet is read by a party that waits for anyone, and by one that has its sender as peer. -/
theorem dropNote?_eq_none (hstate : p.state ≠ .closed)
    (hpeer : p.state = .listening ∨ p.peer = some packet.source) : p.dropNote? packet = none := by
  rw [Connection.dropNote?]
  split
  · next hclosed => exact absurd hclosed hstate
  · rfl
  · next hlistening => rw [if_pos (hpeer.resolve_left hlistening)]

/-- A packet that is dropped changes nothing. -/
theorem perform_of_dropNote? {note : Connection.Note} (hdrop : p.dropNote? packet = some note) :
    p.perform now (.packet packet) = .ok (p, { notes := [.received packet, note] }) := by
  rw [perform, Connection.onPacket, hdrop]
  rfl

theorem exists_onAdmitted_eq (hdrop : p.dropNote? packet = none)
    (h : p.perform now (.packet packet) = .ok (q, r)) :
    ∃ c r', p.onAdmitted now packet = .ok (c, r') ∧ q = { p with toConnection := c } ∧
      r.packets = r'.packets ∧ r.notices = r'.notices := by
  obtain ⟨⟨c, reaction⟩, hpacket, hpure⟩ := Checked.bind_eq_ok_iff.1 h
  obtain ⟨rfl, rfl⟩ := Checked.pure_prod_eq_ok hpure
  rw [Connection.onPacket, hdrop] at hpacket
  obtain ⟨⟨c', read⟩, hadmitted, hpure'⟩ := Checked.bind_eq_ok_iff.1 hpacket
  obtain ⟨rfl, rfl⟩ := Checked.pure_prod_eq_ok hpure'
  exact ⟨_, read, hadmitted, rfl, rfl, rfl⟩

/-! ### The packets of a handshake -/

/-- What becomes of a party that is opened. -/
theorem accepted_of_perform (hstate : p.state = .listening) (hkind : packet.kind = .syn)
    (h : p.perform now (.packet packet) = .ok (q, r)) :
    q = { p with peer := some packet.source, reassembly := { edge := saturatingAdd packet.seq 1 },
                 state := .synReceived, sendBase := p.isn, sendNext := p.firstByte,
                 attempt := p.attempt + 1 } ∧
      r.packets = [⟨p.home, packet.source, .synAck, p.isn, saturatingAdd packet.seq 1,
        p.settings.advertised, []⟩] ∧ r.notices = [] := by
  obtain ⟨c, r', hadmitted, rfl, hpackets, hnotices⟩ :=
    exists_onAdmitted_eq (dropNote?_eq_none (by simp [hstate]) (.inl hstate)) h
  rw [Connection.onAdmitted, hkind] at hadmitted
  obtain ⟨⟨c', effects⟩, hsyn, hpure⟩ := Checked.bind_eq_ok_iff.1 hadmitted
  obtain ⟨rfl, rfl⟩ := Checked.pure_prod_eq_ok hpure
  rw [Connection.onSyn, hstate] at hsyn
  obtain ⟨⟨c'', alarms⟩, hstart, hpure'⟩ := Checked.bind_eq_ok_iff.1 hsyn
  obtain ⟨rfl, rfl⟩ := Checked.pure_prod_eq_ok hpure'
  obtain ⟨-, rfl, rfl⟩ := Connection.startHandshake_eq_ok hstart
  exact ⟨rfl, hpackets, hnotices⟩

/-- An opening is answered. -/
theorem synReceived_of_perform (hstate : p.state = .listening) (hkind : packet.kind = .syn)
    (h : p.perform now (.packet packet) = .ok (q, r)) :
    q.state = .synReceived ∧ q.peer = some packet.source ∧ r.notices = [] ∧
      ∃ answer ∈ r.packets, answer.kind = .synAck ∧ answer.ack = saturatingAdd packet.seq 1 := by
  obtain ⟨rfl, hpackets, hnotices⟩ := accepted_of_perform hstate hkind h
  refine ⟨rfl, rfl, hnotices, ?_⟩
  rw [hpackets]
  exact ⟨_, List.mem_singleton.2 rfl, rfl, rfl⟩

/-- What becomes of a party whose opening is answered. -/
theorem opened_of_perform (hstate : p.state = .synSent) (hpeer : p.peer = some packet.source)
    (hkind : packet.kind = .synAck) (hack : packet.ack = p.firstByte)
    (h : p.perform now (.packet packet) = .ok (q, r)) :
    q = { p with reassembly := { edge := saturatingAdd packet.seq 1 }, sendBase := packet.ack,
                 state := .established } ∧
      r.packets = [⟨p.home, packet.source, .ack, p.sendNext, saturatingAdd packet.seq 1,
        p.settings.advertised, []⟩] := by
  obtain ⟨c, r', hadmitted, rfl, hpackets, -⟩ :=
    exists_onAdmitted_eq (dropNote?_eq_none (by simp [hstate]) (.inr hpeer)) h
  rw [Connection.onAdmitted, hkind] at hadmitted
  dsimp only at hadmitted
  rw [Connection.onSynAck, hstate] at hadmitted
  dsimp only at hadmitted
  rw [if_pos hack] at hadmitted
  obtain ⟨rfl, rfl⟩ := Checked.pure_prod_eq_ok hadmitted
  refine ⟨rfl, ?_⟩
  rw [hpackets]
  simp [Connection.establish, Connection.acknowledgement, Connection.control, hpeer,
    Connection.edge]

/-- The answer to an opening is acknowledged, and the party is established. -/
theorem established_of_perform_synAck (hstate : p.state = .synSent)
    (hpeer : p.peer = some packet.source) (hkind : packet.kind = .synAck)
    (hack : packet.ack = p.firstByte) (h : p.perform now (.packet packet) = .ok (q, r)) :
    q.state = .established ∧ (∃ answer ∈ r.packets, answer.kind = .ack) ∧
      ∀ answer ∈ r.packets, answer.ack = q.edge := by
  obtain ⟨rfl, hpackets⟩ := opened_of_perform hstate hpeer hkind hack h
  rw [hpackets]
  refine ⟨rfl, ⟨_, List.mem_singleton.2 rfl, rfl⟩, fun answer hmem ↦ ?_⟩
  obtain rfl := List.mem_singleton.1 hmem
  rfl

/-- The turn in which a party is established by the answer to its opening. What is in flight then
was sent in this turn, and whatever is sent acknowledges the opening of the peer. -/
theorem Turn.established_of_synAck (h : p.Turn now (.packet packet) r q) (hp : p.Sound)
    (hstate : p.state = .synSent) (hpeer : p.peer = some packet.source)
    (hkind : packet.kind = .synAck) (hack : packet.ack = p.firstByte) :
    q.state = .established ∧ (∃ answer ∈ r.packets, answer.kind = .ack) ∧
      (∀ x ∈ q.inFlight.toList, p.sendNext ≤ x.seq ∧ x.sentAt = now ∧
        ∃ data ∈ r.packets, data.kind = .data ∧ data.seq = x.seq) ∧
      ∀ answer ∈ r.packets, answer.kind = .ack ∨ answer.kind = .data → q.edge ≤ answer.ack := by
  have hproceeds := h.proceeds hp (by simp)
  cases h with
  | @mk mid _ first answers perform calls =>
    obtain ⟨hmid, ⟨reply, hreply, hreplies⟩, hacks⟩ :=
      established_of_perform_synAck hstate hpeer hkind hack perform
    obtain ⟨hreassembly, hq⟩ := calls.reassembly_eq
    refine ⟨hq.trans hmid, ⟨reply, List.mem_append_left _ hreply, hreplies⟩, fun x hx ↦ ?_, ?_⟩
    · rcases hproceeds.segments x hx with hold | ⟨hnext, hsent, -, hdata⟩
      · rw [(hp.blank (by simp [hstate])).inFlight_eq] at hold
        exact absurd hold List.not_mem_nil
      · exact ⟨hnext, hsent, hdata⟩
    · intro answer hanswer hkinds
      rw [Connection.edge, hreassembly]
      rcases List.mem_append.1 hanswer with hfirst | hrest
      · exact Nat.le_of_eq (hacks answer hfirst).symm
      · have hmoves := moves_of_perform perform
        exact (calls.proceeds (hp.moves hmoves)).edge_le_ack hmid answer hrest hkinds

/-- The handshake of a party is done, or the packet completes it. -/
theorem exists_completeHandshake (hp : p.Sound) (hknows : p.Knows peer)
    (hkind : packet.kind = .ack ∨ packet.kind = .data) (hsome : p.peer = some packet.source)
    (hstate : p.state = .established ∨ p.state = .synReceived ∧ packet.ack = p.firstByte) :
    ∃ (t : Party) (completed : Reaction),
      p.completeHandshake packet.ack = (t.toConnection, completed) ∧ t.Sound ∧ t.Knows peer ∧
        t.state = .established ∧ t.peer = p.peer ∧ t.reassembly = p.reassembly ∧
        t.sendNext = p.sendNext ∧ completed.packets = [] := by
  rcases hstate with hstate | ⟨hstate, hack⟩
  · have hcomplete : p.completeHandshake packet.ack = (p.toConnection, {}) :=
      Connection.completeHandshake_of_ne (by simp [hstate])
    exact ⟨p, {}, hcomplete, hp, hknows, hstate, rfl, rfl, rfl, rfl⟩
  · have hcomplete := Connection.completeHandshake_of_synReceived hstate hack
    have hmove := @Move.complete 0 packet p [] hkind hstate hsome hack
    obtain ⟨hedge, hnext⟩ := hknows.answering hstate
    exact ⟨{ p with sendBase := packet.ack, state := .established }, _, hcomplete, hp.move hmove,
      Knows.begin (hp.blank (by simp [hstate])) hedge (hp.waiting hstate) hnext rfl rfl
        (Nat.le_of_eq hack), rfl, rfl, rfl, rfl, rfl⟩

/-! ### Acknowledgements -/

/-- An acknowledgement that the party was waiting for. If the handshake is not done, it is done
then. -/
theorem established_of_perform_ack (hp : p.Sound) (hknows : p.Knows peer)
    (hkind : packet.kind = .ack) (hsome : p.peer = some packet.source)
    (hstate : p.state = .established ∨ p.state = .synReceived ∧ packet.ack = p.firstByte)
    (hack : packet.ack ≤ p.sendNext) (h : p.perform now (.packet packet) = .ok (q, r)) :
    q.state = .established ∧ ∀ x ∈ q.inFlight.toList, packet.ack ≤ x.seq := by
  have hclosed : p.state ≠ .closed := by rcases hstate with hs | ⟨hs, -⟩ <;> simp [hs]
  obtain ⟨c, r', hadmitted, rfl, -, -⟩ :=
    exists_onAdmitted_eq (dropNote?_eq_none hclosed (.inr hsome)) h
  obtain ⟨t, completed, hcomplete, -, -, ht, -, -, hnext, -⟩ :=
    exists_completeHandshake hp hknows (.inl hkind) hsome hstate
  rw [Connection.onAdmitted, hkind] at hadmitted
  dsimp only [Connection.onceEstablished] at hadmitted
  rw [hcomplete, if_pos ht] at hadmitted
  obtain ⟨⟨c₁, r₁⟩, hread, hpure⟩ := Checked.bind_eq_ok_iff.1 hadmitted
  obtain ⟨⟨c₂, effects⟩, honAck, hpure'⟩ := Checked.bind_eq_ok_iff.1 hread
  obtain ⟨rfl, -⟩ := Checked.pure_prod_eq_ok hpure
  obtain ⟨rfl, -⟩ := Checked.pure_prod_eq_ok hpure'
  exact ⟨(Connection.state_peer_of_onAck honAck).1.trans ht,
    Connection.ack_le_seq_of_onAck (hnext ▸ hack) honAck⟩

/-! ### Data -/

/-- An established party has stored a piece of the stream of its peer, and acknowledges it. Nothing
that it had is lost. -/
theorem has_of_onData (hpeer : peer.Sound) (hknows : p.Knows peer)
    (hstate : p.state = .established) (hvouches : peer.Vouches packet)
    (hkind : packet.kind = .data) {c : Connection}
    (h : p.onData ⟨packet.seq, packet.payload⟩ = .ok (c, r)) :
    c.state = p.state ∧ c.peer = p.peer ∧ r.packets = c.acknowledgement ∧
      ∀ seq, seq = packet.seq ∨ p.reassembly.Has seq → c.reassembly.Has seq := by
  obtain ⟨hstate', hpeer', hpackets, hreassembly⟩ := Connection.onData_eq_ok h
  refine ⟨hstate', hpeer', hpackets, fun seq hseq ↦ ?_⟩
  rw [hreassembly]
  split
  · next hstale =>
    exact hseq.elim (fun heq ↦ .inl (heq ▸ of_decide_eq_true hstale)) id
  · next hfresh =>
    have hedge : p.reassembly.edge ≤ packet.seq := by
      simpa [Reassembly.isStale] using hfresh
    obtain ⟨-, acked, sent, hsends⟩ := hpeer.sends (hvouches.transfer (.inr hkind)).1.1
    obtain ⟨hscript, hnext⟩ := hvouches.data hkind
    obtain ⟨i, hfollows⟩ := hknows.follows hstate
    obtain ⟨j, -, -, hhas⟩ := hfollows.receive hsends hscript hedge hnext
    exact hhas seq hseq

/-- Data from the peer is stored and acknowledged. If the handshake is not done, it is done then. -/
theorem has_of_perform_data (hp : p.Sound) (hpeer : peer.Sound) (hknows : p.Knows peer)
    (hvouches : peer.Vouches packet) (hkind : packet.kind = .data)
    (hsome : p.peer = some packet.source)
    (hstate : p.state = .established ∨ p.state = .synReceived ∧ packet.ack = p.firstByte)
    (h : p.perform now (.packet packet) = .ok (q, r)) :
    q.state = .established ∧ q.peer = p.peer ∧
      r.packets = [⟨p.home, packet.source, .ack, q.sendNext, q.edge, q.settings.advertised, []⟩] ∧
      ∀ seq, seq = packet.seq ∨ p.reassembly.Has seq → q.reassembly.Has seq := by
  have hclosed : p.state ≠ .closed := by rcases hstate with hs | ⟨hs, -⟩ <;> simp [hs]
  have hlater := (moves_of_perform h).later hp
  obtain ⟨c, r', hadmitted, rfl, hpackets, -⟩ :=
    exists_onAdmitted_eq (dropNote?_eq_none hclosed (.inr hsome)) h
  obtain ⟨t, completed, hcomplete, -, htknows, htstate, htpeer, hreassembly, -, hnone⟩ :=
    exists_completeHandshake hp hknows (.inr hkind) hsome hstate
  rw [Connection.onAdmitted, hkind] at hadmitted
  dsimp only [Connection.onceEstablished] at hadmitted
  rw [hcomplete, if_pos htstate] at hadmitted
  obtain ⟨⟨c', r''⟩, hdata, hpure⟩ := Checked.bind_eq_ok_iff.1 hadmitted
  obtain ⟨rfl, rfl⟩ := Checked.pure_prod_eq_ok hpure
  obtain ⟨hstate', hpeer', hpackets', hhas⟩ := has_of_onData hpeer htknows htstate hvouches hkind
    hdata
  refine ⟨hstate'.trans htstate, hpeer'.trans htpeer, ?_, ?_⟩
  · have hcpeer : c'.peer = some packet.source := (hpeer'.trans htpeer).trans hsome
    rw [hpackets, Reaction.packets_append, hnone, hpackets', List.nil_append,
      acknowledgement_eq (p := { p with toConnection := c' }) hcpeer, ← hlater.home_eq]
  · rw [hreassembly] at hhas
    exact hhas

end ReliableStream.Party
