import ReliableStream.Proofs.Scenario.Runs

/-!
# Transfers in time

Once the client is established it sends its message, over a network that loses nothing and delays
every copy by at most `latest`. `sc.Transfer limit s v c` is what holds then of the server `v` and
the client `c`: each segment in flight has arrived or will within `latest` of its sending, and if
the server has moved its edge past it then an acknowledgement that says so will arrive within twice
that time. So no segment is in flight for longer than a round trip (`Transfer.time_le`), although
the acknowledgement of a segment need not be caused by this segment: what matters is the first piece
that the server has not got, which was sent no later than those that come after it.

The rest follows. Alarms ring later than that, and so for nothing (`Transfer.quiet`). And a window
that is full makes room within a round trip, so a piece is sent in the round that its number says
(`Transfer.time_le_roundStart`).

An alarm set near the last instant there is would ring too early, since its instant is held there.
`limit` is an instant from which on nothing is said of alarms.
-/

namespace ReliableStream.Scenario

open Party Simulation

variable {σ : Type} {sc : Scenario} {limit : Nat} {s s' : Simulation σ Peer} {v c p q : Party}
  {e : Agenda.Entry Happening} {agenda : Agenda Happening} {packet : Packet} {input : Input}
  {r : Reaction}

/-- What is set at an instant rings after more than a round trip, or not before the limit. -/
def Outlasts (sc : Scenario) (limit start due : Nat) : Prop :=
  start + 2 * sc.faults.latest < due ∨ limit ≤ due

theorem Outlasts.mono {start start' due : Nat} (h : sc.Outlasts limit start' due)
    (hle : start ≤ start') : sc.Outlasts limit start due :=
  h.imp_left fun hlt ↦ by omega

/-- When the segments of a round are sent, at the latest: the handshake takes a round trip, and so
does each round. -/
def roundStart (sc : Scenario) (n : Nat) : Nat := sc.clientStart + 2 * sc.faults.latest * (1 + n)

theorem roundStart_succ (n : Nat) :
    sc.roundStart (n + 1) = sc.roundStart n + 2 * sc.faults.latest := by
  rw [roundStart, roundStart, ← Nat.add_assoc 1 n 1, Nat.mul_add_one, Nat.add_assoc]

theorem roundStart_le_roundStart {m n : Nat} (h : m ≤ n) : sc.roundStart m ≤ sc.roundStart n :=
  Nat.add_le_add_left (Nat.mul_le_mul_left _ (Nat.add_le_add_left h 1)) _

/-! ### A host acts -/

/-- A party has its turn when an entry is taken, what it sends arrives in time, and the alarms that
it asks for do not ring too early. -/
structure ActsInTime (sc : Scenario) (limit : Nat) (s s' : Simulation σ Peer)
    (e : Agenda.Entry Happening) (input : Input) (p : Party) (r : Reaction) (q : Party) : Prop where
  /-- It has its turn. -/
  turn : p.Turn e.time input r q
  /-- All else is still to come. -/
  passes : Passes e s s'
  /-- What it sends arrives in time. -/
  due : ∀ {packet : Packet} {P : Packet → Prop}, packet ∈ r.packets → P packet →
    s'.Due (e.time + sc.faults.latest) P
  /-- No packets are under way but those there were and those it sends. -/
  underway : ∀ packet ∈ s'.underway, packet ∈ s.underway ∨ packet ∈ r.packets
  /-- Its alarms do not ring too early. -/
  alarms : ∀ id, ∀ x ∈ s'.alarmsOf id, x ∈ s.alarmsOf id ∨ sc.Outlasts limit e.time x.1

/-- Alarms that do not ring too early are joined by others that do not. -/
theorem ActsInTime.outlasts (h : sc.ActsInTime limit s s' e input p r q) {id start : Nat}
    (hstart : start ≤ s.now) (hold : ∀ x ∈ s.alarmsOf id, sc.Outlasts limit start x.1) :
    ∀ x ∈ s'.alarmsOf id, sc.Outlasts limit start x.1 := fun x hx ↦
  (h.alarms id x hx).elim (hold x) fun hnew ↦
    hnew.mono (Nat.le_trans hstart h.passes.now_le)

/-! ### What holds of a transfer -/

/-- The packet is data of the client. -/
def IsData (sc : Scenario) (seq : Nat) (packet : Packet) : Prop :=
  packet.source = sc.client ∧ packet.kind = .data ∧ packet.seq = seq

/-- The packet is an acknowledgement of the server, of more than what comes before a place. -/
def IsAck (sc : Scenario) (seq : Nat) (packet : Packet) : Prop :=
  packet.source = sc.server ∧ packet.kind = .ack ∧ seq < packet.ack

/-- A segment in flight is on time. -/
structure Timed (sc : Scenario) (limit : Nat) (s : Simulation σ Peer) (v c : Party)
    (x : Segment) : Prop where
  /-- It was sent. -/
  sentAt_le : x.sentAt ≤ s.now
  /-- Its alarm does not ring too early. -/
  outlasts : sc.Outlasts limit x.sentAt (saturatingAdd x.sentAt sc.settings.rto)
  /-- It has arrived or is due. -/
  data : v.reassembly.Has x.seq ∨ s.Due (x.sentAt + sc.faults.latest) (sc.IsData x.seq)
  /-- If all up to it has arrived then its acknowledgement is due. -/
  acknowledgement : x.seq < v.edge → s.Due (x.sentAt + 2 * sc.faults.latest) (sc.IsAck x.seq)
  /-- It was sent in the round of its number. -/
  round : ∀ n ≤ c.pieces.length, x.seq = c.cutAt n →
    x.sentAt ≤ sc.roundStart (n / sc.settings.window)

/-- A segment that was sent just now is on time: its alarm was set with it, its packet is due, and
the server has not got it. -/
theorem timed_of_new (hacts : sc.ActsInTime limit s s' e input c r q) (hruns : sc.Runs s [v, c])
    (hruns' : sc.Runs s' [v, q]) {x : Segment} (hx : x ∈ q.inFlight.toList)
    (hnew : c.sendNext ≤ x.seq) (hsent : x.sentAt = e.time)
    (hdata : ∃ packet ∈ r.packets, packet.kind = .data ∧ packet.seq = x.seq)
    (hedge : v.edge ≤ x.seq)
    (hround : ∀ n ≤ q.pieces.length, x.seq = q.cutAt n →
      e.time ≤ sc.roundStart (n / sc.settings.window)) : sc.Timed limit s' v q x where
  sentAt_le := Nat.le_of_eq (hsent.trans hacts.passes.now_eq.symm)
  outlasts := by
    obtain ⟨_, -, -, hplays⟩ := hruns.exists_client
    obtain ⟨_, -, -, hplays'⟩ := hruns'.exists_client
    have hmem : (saturatingAdd x.sentAt sc.settings.rto, Alarm.Watch.segment x.seq x.resends) ∈
        (s'.alarmsOf 2).filter (·.2.ofSegment x.seq) := by
      rw [hplays'.watched.segment x hx, hruns'.settings_eq q (by simp)]
      exact List.mem_singleton_self _
    -- Before it was sent no alarm watched it.
    rcases hacts.alarms 2 _ (List.mem_filter.1 hmem).1 with hold | houtlasts
    · exact absurd (hplays.watched.sent hold).2 (Nat.not_lt.2 hnew)
    · rw [hsent] at houtlasts ⊢
      exact houtlasts
  data := by
    obtain ⟨packet, hpacket, hkind, hseq⟩ := hdata
    have hsource := hacts.turn.source_eq hruns.sound_client packet hpacket
    rw [hsent]
    exact .inr (hacts.due hpacket ⟨hsource.trans hruns.home_eq.2, hkind, hseq⟩)
  acknowledgement hgot := absurd hgot (Nat.not_lt.2 hedge)
  round n hn hcut := hsent ▸ hround n hn hcut

/-- The client transfers its message, and all is on time. -/
structure Transfer (sc : Scenario) (limit : Nat) (s : Simulation σ Peer) (v c : Party) :
    Prop where
  /-- The client is established. -/
  established : c.state = .established
  /-- They have each other as peers. -/
  peers : v.peer = some sc.client ∧ c.peer = some sc.server
  /-- The server is established, or will be when its answer is acknowledged. -/
  completing : v.state = .established ∨ v.state = .synReceived ∧ ∃ start ≤ s.now,
    (∀ x ∈ s.alarmsOf 1, sc.Outlasts limit start x.1) ∧
      s.Due (start + 2 * sc.faults.latest) fun packet ↦
        packet.source = sc.client ∧ packet.kind = .ack
  /-- What the client acknowledges is the answer to its opening. -/
  acks : ∀ packet ∈ s.underway, packet.source = sc.client →
    packet.kind = .ack ∨ packet.kind = .data → packet.ack = v.firstByte
  /-- Every segment in flight is on time. -/
  timed : ∀ x ∈ c.inFlight.toList, sc.Timed limit s v c x
  /-- They were sent in the order of the stream. -/
  sorted : ∀ x ∈ c.inFlight.toList, ∀ y ∈ c.inFlight.toList, x.seq ≤ y.seq → x.sentAt ≤ y.sentAt

namespace Transfer

variable (h : sc.Transfer limit s v c) (hruns : sc.Runs s [v, c])
include h

theorem server_state : v.state = .synReceived ∨ v.state = .established :=
  h.completing.elim .inr fun hs ↦ .inl hs.1

/-- Nothing happens, and what is due is still due. -/
theorem rest (hrests : Rests s s') : sc.Transfer limit s' v c :=
  { h with
    completing := h.completing.imp_right fun ⟨hs, start, hstart, houtlasts, hack⟩ ↦
      ⟨hs, start, Nat.le_trans hstart hrests.now_le,
        fun x hx ↦ houtlasts x (hrests.alarms_sub 1 x hx), hack.rests hrests⟩
    acks := fun packet hpacket ↦ h.acks packet (hrests.underway_sub packet hpacket)
    timed := fun x hx ↦
      { h.timed x hx with
        sentAt_le := Nat.le_trans (h.timed x hx).sentAt_le hrests.now_le
        data := (h.timed x hx).data.imp_right (·.rests hrests)
        acknowledgement := fun hgot ↦ ((h.timed x hx).acknowledgement hgot).rests hrests } }

include hruns

/-- The server has got the first pieces of the stream, and no others are acknowledged. -/
theorem exists_follows : ∃ heard i acked sent, Follows v.reassembly heard c i ∧
    c.Sends acked sent ∧ acked ≤ i := by
  obtain ⟨heard, i, hfollows⟩ :=
    (hruns.knows_server h.peers.1).exists_follows hruns.sound_server h.server_state
  obtain ⟨-, acked, sent, hsends⟩ := hruns.sound_client.sends h.established
  refine ⟨heard, i, acked, sent, hfollows, hsends, hsends.acked_le_of_base_le ?_⟩
  rcases (hruns.knows_client h.peers.2).acked h.established with hfirst | ⟨-, hedge⟩
  · exact Nat.le_trans hfirst (start_le_cut i)
  · exact Nat.le_trans hedge (Nat.le_of_eq hfollows.edge_eq)

theorem edge_le_sendNext : v.edge ≤ c.sendNext := by
  obtain ⟨_, i, _, _, hfollows, -, -⟩ := h.exists_follows hruns
  exact Nat.le_trans (Nat.le_of_eq hfollows.edge_eq) hfollows.edge_le

/-- **No segment is in flight for longer than a round trip.** If the server has not moved its edge
past it then it was sent just now. -/
theorem time_le (hpasses : Passes e s s') {x : Segment} (hx : x ∈ c.inFlight.toList) :
    e.time ≤ x.sentAt + 2 * sc.faults.latest ∧
      (v.edge ≤ x.seq → e.time ≤ x.sentAt + sc.faults.latest) := by
  have hfresh : v.edge ≤ x.seq → e.time ≤ x.sentAt + sc.faults.latest := by
    intro hedge
    -- The first piece that the server has not got is in flight, and is due.
    obtain ⟨_, i, acked, sent, hfollows, hsends, hacked⟩ := h.exists_follows hruns
    have hlt : c.cutAt i < c.sendNext :=
      calc c.cutAt i = v.edge := hfollows.edge_eq.symm
        _ ≤ x.seq := hedge
        _ < c.sendNext := hsends.seq_lt_next hx
    obtain ⟨y, hy, hseq⟩ := hsends.exists_mem_of_lt hacked (hsends.lt_sent_of_cutAt_lt hlt)
    have hsent : y.sentAt ≤ x.sentAt := by
      refine h.sorted y hy x hx ?_
      rw [hseq, ← hfollows.edge_eq]
      exact hedge
    rcases (h.timed y hy).data with hhas | hdue
    · exact absurd rfl (hfollows.ne_of_has (hseq ▸ hhas))
    · have hle := hdue.time_le hpasses
      omega
  refine ⟨?_, hfresh⟩
  rcases Nat.lt_or_ge x.seq v.edge with hgot | hedge
  · exact ((h.timed x hx).acknowledgement hgot).time_le hpasses
  · have hle := hfresh hedge
    omega

/-- **A piece that has to wait for its window to have room is sent in its round.** The window moves
when the first piece of it is acknowledged, and that takes a round trip from its own sending. -/
theorem time_le_roundStart (hpasses : Passes e s s') {n : Nat} (hnew : c.sendNext ≤ c.cutAt n)
    (hn : n < c.pieces.length) : e.time ≤ sc.roundStart (n / sc.settings.window) := by
  obtain ⟨_, _, acked, sent, -, hsends, -⟩ := h.exists_follows hruns
  have hwindow : 0 < c.settings.window := c.valid.window_pos
  have hsent : sent ≤ n :=
    c.le_of_cutAt_le_cutAt hsends.sent_le (Nat.le_trans (Nat.le_of_eq hsends.next_eq.symm) hnew)
  -- Something is pending, so the window is full; the first segment in it leaves in time.
  have hfull : c.settings.window ≤ c.inFlight.size := by
    refine (hruns.pumped c (by simp)).resolve_left fun hnil ↦ ?_
    rw [hsends.pending_eq, List.drop_eq_nil_iff] at hnil
    omega
  rw [hsends.size_eq] at hfull
  obtain ⟨x, hx, hseq⟩ := hsends.exists_mem_of_lt (Nat.le_refl acked) (by omega)
  have hle := (h.time_le hruns hpasses hx).1
  have hround := (h.timed x hx).round acked (Nat.le_trans hsends.acked_le hsends.sent_le) hseq
  rw [hruns.settings_eq c (by simp)] at hfull hwindow
  calc e.time ≤ x.sentAt + 2 * sc.faults.latest := hle
    _ ≤ sc.roundStart (acked / sc.settings.window) + 2 * sc.faults.latest := by omega
    _ = sc.roundStart (acked / sc.settings.window + 1) := (roundStart_succ _).symm
    _ ≤ sc.roundStart (n / sc.settings.window) := by
      refine roundStart_le_roundStart ?_
      rw [← Nat.add_div_right acked hwindow]
      exact Nat.div_le_div_right (by omega)

/-- After the last round nothing is in flight, since every piece was sent in its round, or before,
and acknowledged a round trip later. -/
theorem inFlight_eq_nil (hpasses : Passes e s s') (hlate : sc.roundStart sc.rounds < e.time) :
    c.inFlight.toList = [] := by
  refine List.eq_nil_iff_forall_not_mem.2 fun x hx ↦ Nat.not_le.2 hlate ?_
  obtain ⟨-, acked, sent, hsends⟩ := hruns.sound_client.sends h.established
  obtain ⟨n, hn, -, heq⟩ := hsends.exists_number (hsends.chunk_mem hx) (hsends.seq_lt_next hx)
  have hwindow : 0 < sc.settings.window := hruns.settings_eq c (by simp) ▸ c.valid.window_pos
  have hsegments := (hruns.length_pieces_client h.established).2
  calc e.time ≤ x.sentAt + 2 * sc.faults.latest := (h.time_le hruns hpasses hx).1
    _ ≤ sc.roundStart (n / sc.settings.window) + 2 * sc.faults.latest :=
      Nat.add_le_add_right
        ((h.timed x hx).round n (Nat.le_of_lt hn) (congrArg Chunk.seq heq)) _
    _ = sc.roundStart (n / sc.settings.window + 1) := (roundStart_succ _).symm
    _ ≤ sc.roundStart sc.rounds := by
      refine roundStart_le_roundStart ?_
      rw [← Nat.add_div_right n hwindow, rounds]
      exact Nat.div_le_div_right (by omega)

/-- **An alarm that rings is not heeded.** The server has nothing in flight, and its handshake is
done or about to be. The client is established, and the alarm of a segment that is still in flight
rings after more than a round trip. -/
theorem quiet (hnext : s.agenda.next? = some (e, agenda)) {watch : Alarm.Watch}
    (haction : e.action = .model (.alarm watch)) (htime : e.time < limit) :
    { s with agenda }.Quiet e.target watch := by
  obtain ⟨halarms, host, hhost⟩ := hruns.sound.exists_host?_of_alarm hnext haction
  have halarm : (e.time, watch) ∈ s.alarmsOf e.target := halarms ▸ List.mem_cons_self ..
  obtain ⟨i, hid, hi⟩ := host?_eq_some hhost
  obtain ⟨p, hp, hplays⟩ := hruns.sound.exists_party hi
  rw [hid] at halarm
  refine ⟨host, hhost, ?_⟩
  rcases Runs.eq_or_eq_of_getElem? hp with ⟨rfl, rfl⟩ | ⟨rfl, rfl⟩
  · rcases h.completing with hstate | ⟨-, start, -, houtlasts, hdue⟩
    · -- The server has nothing in flight.
      refine Connection.onAlarm_of_established (hplays.connection_eq ▸ hstate) fun x hx ↦ ?_
      rw [hplays.connection_eq, hruns.inFlight_server] at hx
      exact absurd hx List.not_mem_nil
    · have hle := hdue.time_le (passes_next hnext)
      rcases houtlasts _ halarm with hlt | hlt <;> dsimp only at hlt <;> omega
  · refine Connection.onAlarm_of_established (hplays.connection_eq ▸ h.established) fun x hx ↦ ?_
    rintro rfl
    -- The alarm of a segment in flight is the one that was set when the segment was sent.
    rw [hplays.connection_eq] at hx
    have hone := hplays.watched.segment x hx
    have hmem : (e.time, Alarm.Watch.segment x.seq x.resends) ∈
        (s.alarmsOf 2).filter (·.2.ofSegment x.seq) :=
      List.mem_filter.2 ⟨halarm, by simp [Alarm.Watch.ofSegment]⟩
    rw [hone, hruns.settings_eq p (by simp)] at hmem
    have heq : e.time = saturatingAdd x.sentAt sc.settings.rto :=
      (Prod.mk.inj (List.mem_singleton.1 hmem)).1
    have hle := (h.time_le hruns (passes_next hnext) hx).1
    rcases (h.timed x hx).outlasts with hlt | hlt <;> omega

/-! ### Packets to the server -/

/-- What becomes of the server when a packet comes from the client: it ignores the packet, or is
established and has got what came. If it has got more of the stream then it says so. -/
theorem server_gets {now : Nat} (hturn : v.Turn now (.packet packet) r q)
    (hpacket : packet ∈ s.underway) (hdestination : packet.destination = sc.server) :
    q = v ∧ v.state = .synReceived ∧ packet.kind ≠ .ack ∧ packet.kind ≠ .data ∨
      q.state = .established ∧ (∀ seq, v.reassembly.Has seq → q.reassembly.Has seq) ∧
        (packet.kind = .data → q.reassembly.Has packet.seq) ∧
        (q.edge = v.edge ∨ ∃ answer ∈ r.packets, answer.kind = .ack ∧ answer.ack = q.edge) := by
  obtain ⟨hsource, hvouches⟩ :=
    hruns.vouches_client (hruns.not_self.1 h.peers.1) hpacket hdestination
  have hv := hruns.sound_server
  have hknows := hruns.knows_server h.peers.1
  have hsome : v.peer = some packet.source := h.peers.1.trans (congrArg some hsource.symm)
  have hstate (hkind : packet.kind = .ack ∨ packet.kind = .data) :
      v.state = .established ∨ v.state = .synReceived ∧ packet.ack = v.firstByte :=
    h.completing.imp_right fun hs ↦ ⟨hs.1, h.acks packet hpacket hsource hkind⟩
  by_cases hdata : packet.kind = .data
  · -- The piece is stored, and what has been got is acknowledged.
    refine .inr ?_
    cases hturn with
    | mk perform calls =>
      obtain ⟨hmid, -, hanswer, hhas⟩ := has_of_perform_data hv hruns.sound_client hknows
        hvouches hdata hsome (hstate (.inr hdata)) perform
      obtain ⟨hreassembly, hq⟩ := calls.reassembly_eq
      rw [Connection.edge, hreassembly]
      refine ⟨hq.trans hmid, fun seq hseq ↦ hhas seq (.inr hseq), fun _ ↦ hhas _ (.inl rfl),
        .inr ⟨_, List.mem_append_left _ (hanswer ▸ List.mem_singleton_self _), rfl, rfl⟩⟩
  -- The packet has no data. It may still complete the handshake.
  by_cases hquiet : v.state = .synReceived ∧ packet.kind ≠ .ack
  · refine .inl ⟨Ignores.eq_of_turn ?_ hturn, hquiet.1, hquiet.2, hdata⟩
    rw [Ignores, hquiet.1]
    exact ⟨hquiet.2, hdata⟩
  · -- What has been got stays as it is, and the server is established by now.
    refine .inr ?_
    obtain ⟨hreassembly, -⟩ := hturn.reassembly_eq hdata h.server_state
    rw [Connection.edge, hreassembly]
    refine ⟨?_, fun _ hseq ↦ hseq, fun hkind ↦ absurd hkind hdata, .inl rfl⟩
    rcases h.completing with hs | ⟨hs, -⟩
    · exact ((hturn.later hv).attached ⟨hs, h.peers.1⟩).1
    · have hack : packet.kind = .ack := by
        by_contra hack
        exact hquiet ⟨hs, hack⟩
      cases hturn with
      | mk perform calls =>
        have hfirst := h.acks packet hpacket hsource (.inl hack)
        have hmid := established_of_perform_ack hv hknows hack hsome (hstate (.inl hack))
          (Nat.le_of_eq (hfirst.trans (hv.opening (.inr hs)).1.symm)) perform
        exact calls.reassembly_eq.2.trans hmid.1

/-- What is in flight then is on time. If the edge moves past a segment now, an acknowledgement that
says so is sent now. -/
theorem server_timed (hacts : sc.ActsInTime limit s s' e (.packet packet) v r q)
    (haction : e.action = .model (.arrival packet)) (hpacket : packet ∈ s.underway)
    (hdestination : packet.destination = sc.server) {x : Segment} (hx : x ∈ c.inFlight.toList) :
    sc.Timed limit s' q c x := by
  have hx' := h.timed x hx
  have hpasses := hacts.passes
  have hgets := h.server_gets hruns hacts.turn hpacket hdestination
  refine
    { hx' with
      sentAt_le := Nat.le_trans hx'.sentAt_le hpasses.now_le_now
      data := ?data
      acknowledgement := fun hgot ↦ ?acknowledgement }
  case data =>
    rcases hx'.data with hold | hcomes
    · exact .inl (hgets.elim (fun hs ↦ hs.1 ▸ hold) fun hs ↦ hs.2.1 _ hold)
    · by_cases hit : sc.IsData x.seq packet
      · rcases hgets with ⟨-, -, -, hdata⟩ | ⟨-, -, hnow, -⟩
        · exact absurd hit.2.1 hdata
        · exact .inl (hit.2.2 ▸ hnow hit.2.1)
      · exact .inr (hcomes.arrival hpasses haction hit)
  case acknowledgement =>
    by_cases hold : x.seq < v.edge
    · obtain ⟨hsource, -⟩ := hruns.vouches_client (hruns.not_self.1 h.peers.1) hpacket hdestination
      exact (hx'.acknowledgement hold).arrival hpasses haction fun hP ↦
        hruns.server_ne_client (hP.1.symm.trans hsource)
    · -- The edge has moved past the segment now, and the server says so.
      have hnew : ∃ answer ∈ r.packets, answer.kind = .ack ∧ answer.ack = q.edge := by
        rcases hgets with ⟨rfl, -⟩ | ⟨-, -, -, hedge | hanswer⟩
        · exact absurd hgot hold
        · exact absurd (hedge ▸ hgot) hold
        · exact hanswer
      obtain ⟨answer, hanswer, hkind, hack⟩ := hnew
      have hfrom := (hacts.turn.source_eq hruns.sound_server answer hanswer).trans hruns.home_eq.1
      have hle := (h.time_le hruns hpasses hx).2 (Nat.le_of_not_lt hold)
      have hcomes : s'.Due (e.time + sc.faults.latest) (sc.IsAck x.seq) :=
        hacts.due hanswer ⟨hfrom, hkind, hack.symm ▸ hgot⟩
      exact hcomes.mono (by omega)

/-- A packet comes to the server. -/
theorem server_acts (hacts : sc.ActsInTime limit s s' e (.packet packet) v r q)
    (haction : e.action = .model (.arrival packet)) (hpacket : packet ∈ s.underway)
    (hdestination : packet.destination = sc.server) : sc.Transfer limit s' q c := by
  have hv := hruns.sound_server
  obtain ⟨_, _, -, -, hplays⟩ := hruns.exists_server
  have hpasses := hacts.passes
  refine
    { established := h.established
      peers := ⟨hacts.turn.peer_eq (hplays.waits.once rfl) h.peers.1, h.peers.2⟩
      completing := ?_
      acks := fun answer hanswer hclient hkind ↦ ?_
      timed := fun x hx ↦ h.server_timed hruns hacts haction hpacket hdestination hx
      sorted := h.sorted }
  · rcases h.server_gets hruns hacts.turn hpacket hdestination with
      ⟨rfl, -, hack, -⟩ | ⟨hstate, -⟩
    · refine h.completing.imp_right fun ⟨hs, start, hstart, houtlasts, hcompletes⟩ ↦ ?_
      exact ⟨hs, start, Nat.le_trans hstart hpasses.now_le_now,
        hacts.outlasts hstart houtlasts,
        hcompletes.arrival hpasses haction fun hP ↦ hack hP.2⟩
    · exact .inl hstate
  · rw [(hacts.turn.later hv).firstByte_eq]
    rcases hacts.underway answer hanswer with hold | hnew
    · exact h.acks answer hold hclient hkind
    · -- What the server sends does not come from the client.
      have hfrom := (hacts.turn.source_eq hv answer hnew).trans hruns.home_eq.1
      exact absurd (hfrom.symm.trans hclient) hruns.server_ne_client

/-! ### Packets to the client -/

/-- An acknowledgement that comes to the client leaves nothing in flight that it acknowledges. -/
theorem client_gets {now : Nat} (hturn : c.Turn now (.packet packet) r q)
    (hpacket : packet ∈ s.underway) (hdestination : packet.destination = sc.client)
    (hack : packet.kind = .ack) : ∀ x ∈ q.inFlight.toList, packet.ack ≤ x.seq := by
  obtain ⟨hsource, hvouches⟩ :=
    hruns.vouches_server (hruns.not_self.2 h.peers.2) hpacket hdestination
  have hc := hruns.sound_client
  have hknows := hruns.knows_client h.peers.2
  have hle : packet.ack ≤ c.sendNext :=
    Nat.le_trans (hvouches.transfer (.inl hack)).2 (h.edge_le_sendNext hruns)
  cases hturn with
  | mk perform calls =>
    have hmoves := moves_of_perform perform
    obtain ⟨-, hleft⟩ := established_of_perform_ack hc hknows hack
      (h.peers.2.trans (congrArg some hsource.symm)) (.inl h.established) hle perform
    intro x hx
    rcases (calls.proceeds (hc.moves hmoves)).segments x hx with hold | ⟨hnew, -⟩
    · exact hleft x hold
    · exact Nat.le_trans hle (Nat.le_trans (hmoves.later hc).next_le hnew)

/-- What is in flight then is on time, whether it was before or is sent now. -/
theorem client_timed (hacts : sc.ActsInTime limit s s' e (.packet packet) c r q)
    (hruns' : sc.Runs s' [v, q]) (haction : e.action = .model (.arrival packet))
    (hpacket : packet ∈ s.underway) (hdestination : packet.destination = sc.client)
    (hstate : q.state = .established) {x : Segment} (hx : x ∈ q.inFlight.toList) :
    sc.Timed limit s' v q x := by
  obtain ⟨hsource, -⟩ := hruns.vouches_server (hruns.not_self.2 h.peers.2) hpacket hdestination
  have hproceeds := hacts.turn.proceeds hruns.sound_client (by simp)
  have hpasses := hacts.passes
  -- The stream of the client is its message, before and after.
  have hpieces : q.pieces = c.pieces := by
    rw [pieces, pieces, hruns'.sends_client hstate, hruns.sends_client h.established,
      hproceeds.later.settings_eq]
  have hcut {n : Nat} (hn : n ≤ q.pieces.length) : q.cutAt n = c.cutAt n :=
    hproceeds.later.cutAt_eq (hpieces ▸ hn)
  -- A segment that was in flight is not one that the packet acknowledges.
  rcases hproceeds.segments x hx with hold | ⟨hnew, hsent, -, hdata⟩
  · have hx' := h.timed x hold
    have hgets := fun hack ↦ h.client_gets hruns hacts.turn hpacket hdestination hack x hx
    exact
      { sentAt_le := Nat.le_trans hx'.sentAt_le hpasses.now_le_now
        outlasts := hx'.outlasts
        data := hx'.data.imp_right fun hdue ↦ hdue.arrival hpasses haction fun hP ↦
          hruns.server_ne_client (hsource.symm.trans hP.1)
        acknowledgement := fun hgot ↦
          (hx'.acknowledgement hgot).arrival hpasses haction fun hP ↦
            absurd hP.2.2 (Nat.not_lt.2 (hgets hP.2.1))
        round := fun n hn heq ↦ hx'.round n (hpieces ▸ hn) (heq.trans (hcut hn)) }
  · obtain ⟨-, acked, sent, hsends⟩ := hruns'.sound_client.sends hstate
    refine timed_of_new hacts hruns hruns' hx hnew hsent hdata
      (Nat.le_trans (h.edge_le_sendNext hruns) hnew) fun n hn heq ↦ ?_
    have hlt : n < sent := hsends.lt_sent_of_cutAt_lt (heq ▸ hsends.seq_lt_next hx)
    rw [heq, hcut hn] at hnew
    exact h.time_le_roundStart hruns hpasses hnew
      (Nat.lt_of_lt_of_le hlt (hpieces ▸ hsends.sent_le))

/-- A packet comes to the client. -/
theorem client_acts (hacts : sc.ActsInTime limit s s' e (.packet packet) c r q)
    (hruns' : sc.Runs s' [v, q]) (haction : e.action = .model (.arrival packet))
    (hpacket : packet ∈ s.underway) (hdestination : packet.destination = sc.client) :
    sc.Transfer limit s' v q := by
  obtain ⟨hsource, -⟩ := hruns.vouches_server (hruns.not_self.2 h.peers.2) hpacket hdestination
  have hc := hruns.sound_client
  obtain ⟨_, -, -, hplays⟩ := hruns.exists_client
  have hproceeds := hacts.turn.proceeds hc (by simp)
  have hvouches := hacts.turn.vouches hc
  have hpasses := hacts.passes
  have hstate : q.state = .established := (hproceeds.later.attached ⟨h.established, h.peers.2⟩).1
  have hpeer : q.peer = some sc.server := hacts.turn.peer_eq (hplays.waits.once rfl) h.peers.2
  obtain ⟨-, acked, sent, hsends⟩ := hc.sends h.established
  refine
    { established := hstate
      peers := ⟨h.peers.1, hpeer⟩
      completing := h.completing.imp_right fun ⟨hs, start, hstart, houtlasts, hcompletes⟩ ↦
        ⟨hs, start, Nat.le_trans hstart hpasses.now_le_now, hacts.outlasts hstart houtlasts,
          hcompletes.arrival hpasses haction fun hP ↦
            hruns.server_ne_client (hsource.symm.trans hP.1)⟩
      acks := fun answer hanswer hclient hkind ↦ ?_
      timed := fun x hx ↦ h.client_timed hruns hacts hruns' haction hpacket hdestination hstate hx
      sorted := hproceeds.sorted hsends
        (fun x hx ↦ Nat.le_trans (h.timed x hx).sentAt_le hpasses.now_le) h.sorted }
  rcases hacts.underway answer hanswer with hold | hnew
  · exact h.acks answer hold hclient hkind
  -- What is acknowledged is the edge before and after, which is the same: the client gets no data.
  · have hfrom := hproceeds.edge_le_ack h.established answer hnew hkind
    have hto := ((hvouches answer hnew).transfer hkind).2
    rw [hruns.edge_client h.established h.peers.2] at hfrom
    rw [hruns'.edge_client hstate hpeer] at hto
    exact Nat.le_antisymm hto hfrom

end Transfer

end ReliableStream.Scenario
