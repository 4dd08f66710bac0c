import ReliableStream.Proofs.Party.Answer

/-!
# One end in a round of sending again

What is lost is recovered in three steps: every segment in flight is sent again, the peer gets all
of them, and the sender gets all its acknowledgements. Each step is a number of inputs of one and
the same end, in any order; here is what comes out of each of them.

Every proof is an induction on the inputs, with one of the statements on what a party surely does
for the first input, and carries along what is needed of the party for the next one.

What has to be carried along differs from step to step. The sender that sends again changes nothing
but its counts. The peer that gets data stays established, and each of its answers tells its edge at
that moment. And the sender that gets the answers is as far as the highest of them says.
-/

namespace ReliableStream.Party

variable {p peer : Party} {acked sent : Nat}

/-! ### Sending again -/

/-- The alarms of segments, in order, at given instants. -/
def alarms (ringing : List (Nat × Segment)) : List (Nat × Input) :=
  ringing.map fun (now, s) ↦ (now, .alarm (.segment s.seq s.resends))

/-- Packets that arrive, in order, at given instants. -/
def arrivals (packets : List (Nat × Packet)) : List (Nat × Input) :=
  packets.map fun (now, packet) ↦ (now, .packet packet)

/-- Segments in flight are sent again when their alarms ring, in any order. Each alarm changes one
of them only, so that the others are still of the generation that their alarms are for. -/
theorem exists_performAll_alarms {ringing : List (Nat × Segment)} {home : Endpoint}
    (hpeer : p.peer = some home) (hnodup : (ringing.map (·.2.seq)).Nodup)
    (hmem : ∀ x ∈ ringing, x.2 ∈ p.inFlight.toList ∧ x.2.resends + 1 ≤ maxHalfWord) :
    ∃ (inFlight : InFlight) (stats : Connection.Stats),
      p.performAll (alarms ringing) = .ok ({ p with inFlight, stats }, ringing.map fun x ↦
        ⟨p.home, home, .data, x.2.seq, p.edge, p.settings.advertised, x.2.payload⟩) ∧
      ∀ {acked sent}, p.Sends acked sent →
        ({ p with inFlight, stats } : Party).Sends acked sent := by
  induction ringing generalizing p with
  | nil => exact ⟨p.inFlight, p.stats, rfl, fun hsends ↦ hsends⟩
  | cons x rest ih =>
    obtain ⟨now, segment⟩ := x
    obtain ⟨hfirst, hrest⟩ := List.nodup_cons.1 hnodup
    obtain ⟨hsegment, hresends⟩ := hmem _ (List.mem_cons_self ..)
    obtain ⟨r, hperform, hpackets⟩ := exists_perform_alarm now hsegment hpeer hresends
    -- The other segments are in flight as they were.
    have hmem' : ∀ x ∈ rest, x.2 ∈ (p.inFlight.insert
        ⟨segment.seq, segment.payload, now, segment.resends + 1⟩).toList ∧
        x.2.resends + 1 ≤ maxHalfWord := by
      intro x hx
      obtain ⟨hold, hresends'⟩ := hmem x (List.mem_cons_of_mem _ hx)
      refine ⟨(Ascending.mem_place p.inFlight.ordered).2 (.inr ⟨hold, fun heq ↦ hfirst ?_⟩),
        hresends'⟩
      exact List.mem_map.2 ⟨x, hx, heq⟩
    obtain ⟨inFlight, stats, hall, hsends⟩ := ih (p := { p with
      inFlight := p.inFlight.insert ⟨segment.seq, segment.payload, now, segment.resends + 1⟩
      stats := { p.stats with resends := p.stats.resends + 1 } }) hpeer hrest hmem'
    refine ⟨inFlight, stats, ?_, fun hp ↦ hsends (hp.resend hsegment
      ⟨segment.seq, segment.payload, now, segment.resends + 1⟩ rfl _)⟩
    have hboth := performAll_cons hperform hall
    rw [hpackets] at hboth
    exact hboth

/-! ### Receiving -/

/-- What a party answers when it has got data from its peer. -/
structure Acknowledges (p peer : Party) (packet : Packet) : Prop where
  /-- It is an acknowledgement. -/
  kind_eq : packet.kind = .ack
  /-- It comes from the party. -/
  source_eq : packet.source = p.home
  /-- It goes to the peer. -/
  destination_eq : packet.destination = peer.home
  /-- It acknowledges whole pieces of the stream of the peer, and such that were sent. -/
  ack_eq : ∃ i ≤ peer.pieces.length, packet.ack = peer.cutAt i ∧ peer.cutAt i ≤ peer.sendNext

/-- A party with data of its peer for it, that it can take: one packet, and an answer to it. -/
theorem exists_perform_data_acknowledges (now : Nat) {packet : Packet} (hp : p.Sound)
    (hpeer : peer.Sound) (hknows : p.Knows peer) (hsome : p.peer = some peer.home)
    (hstate : p.state = .established ∨ p.state = .synReceived ∧ peer.edge = p.firstByte)
    (hfit : peer.stream.length ≤ maxWord) (hvouches : peer.Vouches packet)
    (hkind : packet.kind = .data) (hack : packet.ack = peer.edge)
    (hdestination : packet.destination = p.home) :
    ∃ q r answer, p.perform now (.packet packet) = .ok (q, r) ∧ q.Sound ∧ p.Later q ∧
      q.Knows peer ∧ q.peer = some peer.home ∧ q.state = .established ∧
      (∀ seq, seq = packet.seq ∨ p.reassembly.Has seq → q.reassembly.Has seq) ∧
      r.packets = [answer] ∧ p.Acknowledges peer answer ∧ answer.ack = q.edge := by
  have hsource : p.peer = some packet.source := by rw [hvouches.source_eq, hsome]
  obtain ⟨q, r, hperform, hqstate, hqpeer, hanswer, hhas⟩ := exists_perform_data now hp
    hpeer hknows hvouches hkind hsource (hstate.imp_right fun ⟨hs, he⟩ ↦ ⟨hs, hack.trans he⟩) hfit
  have hmoves := moves_of_perform hperform
  have hqpeer' : q.peer = some peer.home := hqpeer.trans hsome
  have hqknows : q.Knows peer := by
    refine Knows.moves hmoves hp hpeer (fun packet' heq _ ↦ ?_) (fun _ ↦ hknows) hqpeer'
    obtain rfl := Input.packet.inj heq
    exact ⟨hvouches, hdestination⟩
  -- What it acknowledges is a cut of the stream of the peer, since it follows that stream.
  obtain ⟨i, hfollows⟩ := hqknows.follows hqstate
  exact ⟨q, r, _, hperform, hp.moves hmoves, hmoves.later hp, hqknows, hqpeer', hqstate, hhas,
    hanswer,
    { kind_eq := rfl
      source_eq := rfl
      destination_eq := hvouches.source_eq
      ack_eq := ⟨i, hfollows.le_length, hfollows.edge_eq, hfollows.edge_le⟩ }, rfl⟩

/-- Data from the peer is got, in any order, and acknowledged each time. The induction is on the
packets: whatever the first one leads to is later, sound and established, and so can take the
others. -/
theorem exists_performAll_data {packets : List (Nat × Packet)} (hp : p.Sound) (hpeer : peer.Sound)
    (hknows : p.Knows peer) (hsome : p.peer = some peer.home)
    (hstate : p.state = .established ∨ p.state = .synReceived ∧ peer.edge = p.firstByte)
    (hfit : peer.stream.length ≤ maxWord)
    (hpackets : ∀ x ∈ packets, peer.Vouches x.2 ∧ x.2.kind = .data ∧ x.2.ack = peer.edge ∧
      x.2.destination = p.home) :
    ∃ q answers, p.performAll (arrivals packets) = .ok (q, answers) ∧ q.Sound ∧ p.Later q ∧
      q.Knows peer ∧ (packets ≠ [] ∨ p.state = .established → q.state = .established) ∧
      (∀ seq, (∃ x ∈ packets, x.2.seq = seq) ∨ p.reassembly.Has seq → q.reassembly.Has seq) ∧
      (∀ answer ∈ answers, p.Acknowledges peer answer) ∧
      (packets ≠ [] → ∃ answer ∈ answers, answer.ack = q.edge) := by
  induction packets generalizing p with
  | nil =>
    refine ⟨p, [], rfl, hp, .refl p, hknows, fun h ↦ h.resolve_left (absurd rfl), fun seq h ↦ ?_,
      fun _ h ↦ absurd h List.not_mem_nil, absurd rfl⟩
    refine h.resolve_left fun ⟨x, hx, _⟩ ↦ absurd hx List.not_mem_nil
  | cons x rest ih =>
    obtain ⟨now, packet⟩ := x
    obtain ⟨hvouches, hkind, hack, hdestination⟩ := hpackets _ (List.mem_cons_self ..)
    obtain ⟨q, r, answer, hperform, hq, hlater, hqknows, hqsome, hqstate, hhas, hpacket, hfirst,
      hedge⟩ := exists_perform_data_acknowledges now hp hpeer hknows hsome hstate hfit hvouches
        hkind hack hdestination
    have hpackets' : ∀ x ∈ rest, peer.Vouches x.2 ∧ x.2.kind = .data ∧ x.2.ack = peer.edge ∧
        x.2.destination = q.home := by
      rw [hlater.home_eq]
      exact fun x hx ↦ hpackets x (List.mem_cons_of_mem _ hx)
    obtain ⟨t, answers, hall, ht, hlater', htknows, hestablished, hhas', hanswers, hlast⟩ :=
      ih hq hqknows hqsome (.inl hqstate) hpackets'
    have hboth := performAll_cons hperform hall
    rw [hpacket] at hboth
    refine ⟨t, _, hboth, ht, hlater.trans hlater' fun hs ↦ (hp.sends hs).1, htknows,
      fun _ ↦ hestablished (.inr hqstate), fun seq hseq ↦ hhas' seq ?_, fun answer hmem ↦ ?_,
      fun _ ↦ ?_⟩
    · -- What the first packet brought is still there after the others.
      rcases hseq with ⟨x, hx, rfl⟩ | hold
      · rcases List.mem_cons.1 hx with rfl | hx
        · exact .inr (hhas _ (.inl rfl))
        · exact .inl ⟨x, hx, rfl⟩
      · exact .inr (hhas seq (.inr hold))
    · rcases List.mem_cons.1 hmem with rfl | hmem
      · exact hfirst
      · exact { hanswers answer hmem with
          source_eq := (hanswers answer hmem).source_eq.trans hlater.home_eq }
    · -- The last acknowledgement tells the edge, and it may be that of the first packet.
      by_cases hrest : rest = []
      · subst hrest
        obtain ⟨rfl, rfl⟩ := Checked.pure_prod_eq_ok hall
        exact ⟨answer, List.mem_cons_self .., hedge⟩
      · obtain ⟨last, hmem, hedge'⟩ := hlast hrest
        exact ⟨last, List.mem_cons_of_mem _ hmem, hedge'⟩

/-! ### Getting the acknowledgements -/

/-- Only the alarm of a segment makes a party send it again: what is sent for the first time was not
sent again before. -/
theorem Move.resends_eq_zero {now : Nat} {input : Input} {p q : Party} {r : Reaction}
    (hmove : Move now input p r q) (hinput : ∀ watch, input ≠ .alarm watch) {e : Nat}
    (h : ∀ s ∈ p.inFlight.toList, e ≤ s.seq → s.resends = 0) :
    ∀ s ∈ q.inFlight.toList, e ≤ s.seq → s.resends = 0 := by
  intro s hs hseq
  cases hmove with
  | idle | connect | listen | accept | answer | opened | complete | acknowledge | store | deliver |
    hand | retryOpening | retryAnswer | giveUp | read => exact h s hs hseq
  | acknowledged => exact h s (InFlight.mem_acknowledge_snd.1 hs).1 hseq
  | send =>
    rcases Ascending.mem_of_mem_place hs with rfl | hold
    · rfl
    · exact h s hold hseq
  | resend => exact absurd rfl (hinput _)

/-- Acknowledgements of whole pieces are got, in any order: every piece that one of them
acknowledges is out of flight then, and pending ones take the room. An acknowledgement that comes
after a higher one changes nothing. -/
theorem exists_performAll_acks {packets : List (Nat × Packet)} {home : Endpoint} (hp : p.Sound)
    (hsends : p.Sends acked sent) (hstate : p.state = .established) (hsome : p.peer = some home)
    (hfit : p.firstByte + p.stream.length ≤ maxWord)
    (hpackets : ∀ x ∈ packets, x.2.kind = .ack ∧ x.2.source = home ∧
      ∃ i ≤ sent, x.2.ack = p.cutAt i)
    {e : Nat} (hfresh : ∀ s ∈ p.inFlight.toList, e ≤ s.seq → s.resends = 0) :
    ∃ q more acked' sent', p.performAll (arrivals packets) = .ok (q, more) ∧ p.Later q ∧
      q.sends = p.sends ∧ q.Sends acked' sent' ∧ acked ≤ acked' ∧
      (∀ x ∈ packets, x.2.ack ≤ p.cutAt acked') ∧
      (acked' = acked ∧ q.sendBase = p.sendBase ∨ acked < acked' ∧ q.sendBase = p.cutAt acked') ∧
      ∀ s ∈ q.inFlight.toList, e ≤ s.seq → s.resends = 0 := by
  induction packets generalizing p acked sent with
  | nil =>
    exact ⟨p, [], acked, sent, rfl, .refl p, rfl, hsends, Nat.le_refl _,
      fun _ h ↦ absurd h List.not_mem_nil, .inl ⟨rfl, rfl⟩, hfresh⟩
  | cons x rest ih =>
    obtain ⟨now, packet⟩ := x
    obtain ⟨hkind, hsource, i, hi, hack⟩ := hpackets _ (List.mem_cons_self ..)
    have hpeer : p.peer = some packet.source := by rw [hsource, hsome]
    obtain ⟨q, r, hperform, hqsends, ⟨mid, hle, hmid⟩, hbase⟩ :=
      exists_perform_ack now hsends hstate hkind hpeer hi hack hfit
    have hmoves := moves_of_perform hperform
    have hlater := hmoves.later hp
    have hattached := hlater.attached ⟨hstate, hsome⟩
    -- Nothing is handed over by an acknowledgement, so the others still are at cuts.
    have hcut := hlater.cutAt_eq_of_sends_eq hqsends
    have hfit' : q.firstByte + q.stream.length ≤ maxWord := by
      rw [hlater.firstByte_eq, stream, hqsends]
      exact hfit
    have hpackets' : ∀ x ∈ rest, x.2.kind = .ack ∧ x.2.source = home ∧
        ∃ i ≤ mid, x.2.ack = q.cutAt i := by
      intro x hx
      obtain ⟨hkind', hsource', i', hi', hack'⟩ := hpackets x (List.mem_cons_of_mem _ hx)
      exact ⟨hkind', hsource', i', Nat.le_trans hi' hle, hack'.trans (hcut i').symm⟩
    have hfresh' : ∀ s ∈ q.inFlight.toList, e ≤ s.seq → s.resends = 0 :=
      hmoves.preserves (P := fun t ↦ ∀ s ∈ t.inFlight.toList, e ≤ s.seq → s.resends = 0)
        (fun ht hmove ↦ hmove.resends_eq_zero (by simp) ht) hfresh
    obtain ⟨t, more, acked', sent', hall, hlater', htsends, ht, hle', hacks, hbase', hfresh''⟩ :=
      ih (hp.moves hmoves) hmid hattached.1 hattached.2 hfit' hpackets' hfresh'
    refine ⟨t, _, acked', sent', performAll_cons hperform hall,
      hlater.trans hlater' fun hs ↦ (hp.sends hs).1, htsends.trans hqsends, ht, by omega,
      fun x hx ↦ ?_, ?_, hfresh''⟩
    · rcases List.mem_cons.1 hx with rfl | hx
      · show packet.ack ≤ p.cutAt acked'
        rw [hack]
        exact p.cutAt_le_cutAt (by omega)
      · rw [← hcut]
        exact hacks x hx
    · -- The last acknowledgement that took something out of flight set the base.
      rw [hcut] at hbase'
      rcases hbase' with ⟨heq, hbase'⟩ | ⟨hlt, hbase'⟩
      · rcases hbase with ⟨hle'', hbase⟩ | ⟨hlt, hbase⟩
        · exact .inl ⟨by omega, hbase'.trans hbase⟩
        · obtain rfl : acked' = i := by omega
          exact .inr ⟨hlt, hbase'.trans hbase⟩
      · exact .inr ⟨by omega, hbase'⟩

end ReliableStream.Party
