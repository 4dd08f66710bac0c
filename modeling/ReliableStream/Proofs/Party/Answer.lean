import ReliableStream.Proofs.Party.Outcome
import ReliableStream.Proofs.Party.Pump

/-!
# What a party surely does

The moves say what a party may do. Here it is said what it does: that an input has an outcome, no
counter being at its end, and which. There is one statement for each of the three inputs by which a
lost segment is recovered: the alarm of the segment rings (`exists_perform_alarm`), the data arrives
at the peer (`exists_perform_data`), and the acknowledgement arrives back (`exists_perform_ack`).

Each statement has the conditions under which no counter overflows, and tells the whole reaction
that matters for recovery: which packets are sent, and how far the party is afterwards.
-/

namespace ReliableStream.Party

variable {now : Nat} {p peer : Party} {acked sent : Nat}

/-! ### Reading a packet -/

/-- What a packet makes of a party that takes it: what its connection makes of it, with nothing
dropped. -/
theorem exists_perform_packet {packet : Packet} {c : Connection} {r : Reaction}
    (hstate : p.state = .synReceived ∨ p.state = .established)
    (hpeer : p.peer = some packet.source) (h : p.onAdmitted now packet = .ok (c, r)) :
    ∃ r', p.perform now (.packet packet) = .ok ({ p with toConnection := c }, r') ∧
      r'.packets = r.packets := by
  have hdrop : p.dropNote? packet = none :=
    dropNote?_eq_none (by rcases hstate with hs | hs <;> simp [hs]) (.inr hpeer)
  refine ⟨({ notes := [.received packet] } : Reaction) ++ r, ?_, rfl⟩
  refine Checked.bind_eq_ok_iff.2 ⟨(c, ({ notes := [.received packet] } : Reaction) ++ r), ?_, rfl⟩
  rw [Connection.onPacket, hdrop]
  exact Checked.bind_eq_ok_iff.2 ⟨(c, r), h, rfl⟩

/-! ### The alarm of a segment -/

/-- A segment in flight is sent again when its alarm rings, if the number of times can still be
counted. -/
theorem exists_perform_alarm (now : Nat) {segment : Segment} {home : Endpoint}
    (hmem : segment ∈ p.inFlight.toList) (hpeer : p.peer = some home)
    (hresends : segment.resends + 1 ≤ maxHalfWord) :
    ∃ r, p.perform now (.alarm (.segment segment.seq segment.resends)) = .ok
        ({ p with
          inFlight := p.inFlight.insert ⟨segment.seq, segment.payload, now, segment.resends + 1⟩
          stats := { p.stats with resends := p.stats.resends + 1 } }, r) ∧
      r.packets = [p.dataPacket home ⟨segment.seq, segment.payload, now, segment.resends + 1⟩] := by
  have halarm : p.onSegmentAlarm now segment.seq segment.resends = .ok
      ({ p.toConnection with
          inFlight := p.inFlight.insert ⟨segment.seq, segment.payload, now, segment.resends + 1⟩
          stats := { p.stats with resends := p.stats.resends + 1 } },
        { packets := [p.dataPacket home ⟨segment.seq, segment.payload, now, segment.resends + 1⟩]
          alarms := [⟨p.settings.rto, .segment segment.seq (segment.resends + 1)⟩]
          traces := [.segmentResent segment.seq segment.payload.length (segment.resends + 1)]
          notes := [.resent segment.seq (segment.resends + 1)] }) := by
    rw [Connection.onSegmentAlarm]
    split
    · next hnone => exact absurd (hpeer.symm.trans hnone) (by simp)
    · next peer hsome =>
      obtain rfl : home = peer := Option.some.inj (hpeer.symm.trans hsome)
      exact Checked.bind_eq_ok_iff.2 ⟨_, InFlight.resend?_of_mem hmem hresends, rfl⟩
  exact ⟨_, Checked.bind_eq_ok_iff.2 ⟨_, Checked.bind_eq_ok_iff.2 ⟨_, halarm, rfl⟩, rfl⟩, rfl⟩

/-! ### An acknowledgement -/

/-- An acknowledgement at a cut takes the pieces before it out of flight. The room that they leave
is used for pending ones, so the count of pieces sent rises with the count of those acknowledged. -/
theorem exists_onAck_eq_ok (now : Nat) (hsends : p.Sends acked sent) {ack i : Nat} (hi : i ≤ sent)
    (hack : ack = p.cutAt i) (hfit : p.firstByte + p.stream.length ≤ maxWord) :
    ∃ c effects, p.onAck now ack = .ok (c, effects) ∧
      (∃ sent', sent ≤ sent' ∧ ({ p with toConnection := c } : Party).Sends (max acked i) sent') ∧
      (i ≤ acked ∧ c.sendBase = p.sendBase ∨ acked < i ∧ c.sendBase = p.cutAt i) := by
  have hnumber : i ≤ p.pieces.length := Nat.le_trans hi hsends.sent_le
  have hle : ack ≤ p.sendNext := by
    rw [hack, hsends.next_eq]
    exact p.cutAt_le_cutAt hi
  rcases Connection.onAck_cases now ack p.toConnection with ⟨⟨notes, hok⟩, hall⟩ | ⟨-, hne, hok⟩
  · -- Nothing in flight starts before the acknowledgement.
    have hacked : i ≤ acked := by
      by_contra hlt
      obtain ⟨s, hs, hseq⟩ := hsends.exists_mem_of_lt (Nat.le_refl acked) (by omega)
      have hcut : p.cutAt i ≤ p.cutAt acked := hack ▸ hseq ▸ hall hle s hs
      exact hlt (p.le_of_cutAt_le_cutAt hnumber hcut)
    refine ⟨p.toConnection, _, hok, ⟨sent, Nat.le_refl _, ?_⟩, .inl ⟨hacked, rfl⟩⟩
    rw [Nat.max_eq_left hacked]
    exact hsends
  · obtain ⟨acked', hlt, hsends'⟩ := hsends.acknowledged hle hne
    -- The acknowledgement is at the cut before the first piece that stays in flight.
    have hacked' : acked' = i := by
      refine Nat.le_antisymm ?_ ?_
      · by_contra hgt
        have hlast : p.cutAt i < ack := hsends'.lt_base i (Nat.lt_of_not_le hgt)
        rw [hack] at hlast
        exact Nat.lt_irrefl _ hlast
      · refine p.le_of_cutAt_le_cutAt hnumber ?_
        rw [← hack]
        exact hsends'.base_le
    subst hacked'
    obtain ⟨c, effects, hpump⟩ := hsends'.exists_pump_eq_ok now hfit
    obtain ⟨sent', hle', hsends'', -, -, hbase⟩ := hsends'.pump hpump
    refine ⟨c, _, hok.trans (Checked.bind_eq_ok_iff.2 ⟨_, hpump, rfl⟩), ⟨sent', hle', ?_⟩,
      .inr ⟨hlt, ?_⟩⟩
    · rw [Nat.max_eq_right (Nat.le_of_lt hlt)]
      exact hsends''
    · exact hbase.trans hack

/-- A party that is established gets such an acknowledgement from its peer, whatever the order of
earlier ones. -/
theorem exists_perform_ack (now : Nat) (hsends : p.Sends acked sent)
    (hstate : p.state = .established) {packet : Packet} (hkind : packet.kind = .ack)
    (hpeer : p.peer = some packet.source) {i : Nat} (hi : i ≤ sent) (hack : packet.ack = p.cutAt i)
    (hfit : p.firstByte + p.stream.length ≤ maxWord) :
    ∃ q r, p.perform now (.packet packet) = .ok (q, r) ∧ q.sends = p.sends ∧
      (∃ sent', sent ≤ sent' ∧ q.Sends (max acked i) sent') ∧
      (i ≤ acked ∧ q.sendBase = p.sendBase ∨ acked < i ∧ q.sendBase = p.cutAt i) := by
  obtain ⟨c, effects, honAck, hsent, hbase⟩ := exists_onAck_eq_ok now hsends hi hack hfit
  have hadmitted : p.onAdmitted now packet = .ok (c, (effects : Reaction)) := by
    rw [Connection.onAdmitted_ack hstate hkind]
    exact Checked.bind_eq_ok_iff.2 ⟨_, honAck, rfl⟩
  obtain ⟨r, hperform, -⟩ := exists_perform_packet (.inr hstate) hpeer hadmitted
  exact ⟨_, r, hperform, rfl, hsent, hbase⟩

/-! ### Data -/

/-- An established party can store a piece of the stream of its peer, since all that it has got fits
in that stream. -/
theorem exists_onData_eq_ok (hp : p.Sound) (hpeer : peer.Sound) (hknows : p.Knows peer)
    (hstate : p.state = .established) {packet : Packet} (hvouches : peer.Vouches packet)
    (hkind : packet.kind = .data) (hfit : peer.stream.length ≤ maxWord) :
    ∃ c r, p.onData ⟨packet.seq, packet.payload⟩ = .ok (c, r) := by
  refine Connection.exists_onData_eq_ok fun hedge ↦ ?_
  obtain ⟨-, acked, sent, hsends⟩ := hpeer.sends (hvouches.transfer (.inr hkind)).1.1
  obtain ⟨hscript, hnext⟩ := hvouches.data hkind
  obtain ⟨i, hfollows⟩ := hknows.follows hstate
  obtain ⟨j, -, hfollows', -⟩ := hfollows.receive hsends hscript hedge hnext
  have hheard := congrArg List.length hfollows'.heard_eq
  rw [List.length_append, ← hp.received_eq] at hheard
  have hlength := peer.length_flatten_take_le j
  omega

/-- Data from the peer is stored and acknowledged. If the handshake is not done, it is done then. -/
theorem exists_perform_data (now : Nat) (hp : p.Sound) (hpeer : peer.Sound) (hknows : p.Knows peer)
    {packet : Packet} (hvouches : peer.Vouches packet) (hkind : packet.kind = .data)
    (hsome : p.peer = some packet.source)
    (hstate : p.state = .established ∨ p.state = .synReceived ∧ packet.ack = p.firstByte)
    (hfit : peer.stream.length ≤ maxWord) :
    ∃ q r, p.perform now (.packet packet) = .ok (q, r) ∧ q.state = .established ∧
      q.peer = p.peer ∧
      r.packets = [⟨p.home, packet.source, .ack, q.sendNext, q.edge, q.settings.advertised, []⟩] ∧
      ∀ seq, seq = packet.seq ∨ p.reassembly.Has seq → q.reassembly.Has seq := by
  obtain ⟨t, completed, hcomplete, ht, htknows, htstate, -⟩ :=
    exists_completeHandshake hp hknows (.inr hkind) hsome hstate
  obtain ⟨c, r, hdata⟩ := exists_onData_eq_ok ht hpeer htknows htstate hvouches hkind hfit
  have hadmitted : p.onAdmitted now packet = .ok (c, completed ++ r) := by
    rw [Connection.onAdmitted, hkind]
    dsimp only [Connection.onceEstablished]
    rw [hcomplete, if_pos htstate]
    exact Checked.bind_eq_ok_iff.2 ⟨_, hdata, rfl⟩
  have hhandshake : p.state = .synReceived ∨ p.state = .established :=
    hstate.symm.imp_left And.left
  obtain ⟨r', hperform, -⟩ := exists_perform_packet hhandshake hsome hadmitted
  exact ⟨_, r', hperform,
    has_of_perform_data hp hpeer hknows hvouches hkind hsome hstate hperform⟩

end ReliableStream.Party
