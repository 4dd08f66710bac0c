import ReliableStream.Proofs.Party.Follows
import ReliableStream.Proofs.Party.Paced

/-!
# What is counted stays within its word

A connection counts with additions that may overflow: the next place of its stream, the bytes sent
and received, how often a segment was sent again, and the handshakes. `c.Contained` says why they do
not. No more bytes are received than there are before the edge, what waits stops at a place that is
a word, and a segment was sent again no more often than there were retransmission intervals so far.

All of it is kept by every move (`Turn.contained`), provided that data that arrives stops at a word.
And a contained connection reads every packet and hears every alarm (`exists_onPacket_eq_ok`,
`exists_onAlarm_eq_ok`), if all it was handed has a place and it is not too late.

The count of retransmissions is bounded by the time, which is why moves are asked when their alarm
rings (`RingsOnTime`): the alarm of a generation is set a whole interval after that of the one
before.
-/

namespace ReliableStream

/-- The data of a packet stops at a place that is a word. -/
def Packet.StopsInTime (packet : Packet) : Prop :=
  packet.kind = .data → packet.seq + packet.payload.length ≤ maxWord

namespace Reassembly

variable {r : Reassembly} {edge : Nat} {chunks : List Chunk}

/-- Draining moves the edge by as many bytes as it gives, as long as no place is held at the last
word. -/
theorem edge_drainFrom (hchunks : ∀ chunk ∈ chunks, chunk.seq + chunk.bytes.length ≤ maxWord) :
    (drainFrom edge chunks).edge = edge + (drainFrom edge chunks).bytes.length :=
  drainFrom_induction (motive := fun bytes after ↦ after = edge + bytes.length) rfl
    fun bytes chunk hmem _ hafter ↦ by
      rw [saturatingAdd_of_le (hchunks chunk hmem), hafter, List.length_append, Nat.add_assoc]

theorem edge_drain (h : ∀ chunk ∈ r.waiting.toList, chunk.seq + chunk.bytes.length ≤ maxWord) :
    r.drain.2.edge = r.edge + r.drain.1.length := edge_drainFrom h

/-- What stops in time does so together with what waited before. -/
theorem stops_add {chunk : Chunk}
    (h : ∀ x ∈ r.waiting.toList, x.seq + x.bytes.length ≤ maxWord)
    (hchunk : chunk.seq + chunk.bytes.length ≤ maxWord) :
    ∀ x ∈ (r.add chunk).waiting.toList, x.seq + x.bytes.length ≤ maxWord := by
  intro x hmem
  rcases mem_waiting_add hmem with ⟨rfl, -⟩ | hold
  · exact hchunk
  · exact h x hold

/-- What is left after draining was there before. -/
theorem stops_drain (h : ∀ x ∈ r.waiting.toList, x.seq + x.bytes.length ≤ maxWord) :
    ∀ x ∈ r.drain.2.waiting.toList, x.seq + x.bytes.length ≤ maxWord :=
  fun x hmem ↦ h x (mem_waiting_drain hmem)

end Reassembly

/-- What a connection counts is accounted for by the stream and by the time. -/
structure Connection.Contained (c : Connection) : Prop where
  /-- No more bytes are received than there are before the edge. -/
  received_le : c.stats.bytesReceived ≤ c.edge
  /-- What waits stops at a place that is a word. -/
  waiting_le : ∀ chunk ∈ c.reassembly.waiting.toList, chunk.seq + chunk.bytes.length ≤ maxWord
  /-- A segment was sent again once in each interval, at most. -/
  resends_le : ∀ s ∈ c.inFlight.toList, s.resends * c.settings.rto ≤ s.sentAt

namespace Party

variable {now : Nat} {input : Input} {p q : Party} {r : Reaction} {packet : Packet}

theorem contained_create {home : Endpoint} {settings : Connection.Settings}
    {valid : settings.Valid} {isn : Nat} : (create home settings valid isn).Contained where
  received_le := Nat.zero_le _
  waiting_le _ h := absurd h List.not_mem_nil
  resends_le _ h := absurd h List.not_mem_nil

/-- What a sound party answers for stops in time: each packet is a piece of its stream, which has a
place to its end. -/
theorem Sound.stopsInTime (h : p.Sound) (hvouches : p.Vouches packet) : packet.StopsInTime := by
  intro hkind
  obtain ⟨hscript, hnext⟩ := hvouches.data hkind
  have hstop := h.stop_le_sendNext hscript hnext
  obtain ⟨-, acked, sent, hsends⟩ := h.sends (hvouches.transfer (.inr hkind)).1.1
  exact Nat.le_trans hstop hsends.next_le

/-- The bytes that data continues the stream by can be counted, because they are no more than the
edge says. -/
theorem received_add_le (h : p.Contained) (hkind : packet.kind = .data)
    (hpacket : packet.StopsInTime) :
    p.stats.bytesReceived + (p.reassembly.add ⟨packet.seq, packet.payload⟩).drain.1.length ≤
      (p.reassembly.add ⟨packet.seq, packet.payload⟩).drain.2.edge := by
  rw [Reassembly.edge_drain (Reassembly.stops_add h.waiting_le (hpacket hkind)),
    Reassembly.edge_add]
  exact Nat.add_le_add_right h.received_le _

/-- **Every move keeps the counts accounted for.** Most moves leave one of the counts alone. Data
adds what it moves the edge by, and sending again counts an interval that has passed. -/
theorem Move.contained (h : p.Contained) (hp : p.Sound) (hrings : p.RingsOnTime now input)
    (hpacket : ∀ packet, input = .packet packet → packet.StopsInTime)
    (hmove : Move now input p r q) : q.Contained := by
  -- Nothing was received before the handshake.
  have hblank (hne : p.state ≠ .established) (edge : Nat) : p.stats.bytesReceived ≤ edge := by
    rw [(hp.blank hne).bytesReceived_eq]
    exact Nat.zero_le _
  cases hmove with
  | idle | connect | listen | answer | complete | acknowledge | hand | retryOpening |
    retryAnswer | giveUp | read => exact { h with }
  | accept _ hstate | opened _ hstate =>
    exact
      { received_le := hblank (by simp [hstate]) _
        waiting_le := fun _ hmem ↦ absurd hmem List.not_mem_nil
        resends_le := h.resends_le }
  | acknowledged =>
    exact { h with resends_le := fun s hs ↦ h.resends_le s (InFlight.mem_acknowledge_snd.1 hs).1 }
  | store hkind _ _ _ hdrain | deliver hkind _ _ _ hdrain =>
    have hreceived := received_add_le h hkind (hpacket _ rfl)
    rw [hdrain] at hreceived
    exact
      { received_le := hreceived
        waiting_le :=
          Reassembly.stops_drain (Reassembly.stops_add h.waiting_le (hpacket _ rfl hkind))
        resends_le := h.resends_le }
  | send =>
    refine { h with resends_le := fun s hs ↦ ?_ }
    rcases Ascending.mem_of_mem_place hs with rfl | hold
    · exact Nat.le_trans (Nat.le_of_eq (Nat.zero_mul _)) (Nat.zero_le _)
    · exact h.resends_le s hold
  | @resend _ _ segment _ _ hmem =>
    refine { h with resends_le := fun s hs ↦ ?_ }
    rcases Ascending.mem_of_mem_place hs with rfl | hold
    · have hlast := h.resends_le segment hmem
      show (segment.resends + 1) * p.settings.rto ≤ now
      rw [hrings.due segment hmem rfl, Nat.succ_mul]
      exact Nat.add_le_add_right hlast _
    · exact h.resends_le s hold

theorem Moves.contained (h : p.Contained) (hp : p.Sound) (hrings : p.RingsOnTime now input)
    (hpacket : ∀ packet, input = .packet packet → packet.StopsInTime)
    (hmoves : Moves now input p r q) : q.Contained := by
  induction hmoves with
  | none => exact h
  | cons first _ ih =>
    exact ih (first.contained h hp hrings hpacket) (hp.move first) (hrings.move first)

theorem Calls.contained (h : p.Contained) (hp : p.Sound) (hcalls : Calls now p r q) :
    q.Contained := by
  induction hcalls with
  | none => exact h
  | cons hinput first _ ih =>
    have hmoves := moves_of_perform first
    obtain ⟨halarm, hpacket⟩ := Input.ne_of_transfers hinput
    exact ih (hmoves.contained h hp (ringsOnTime_of_ne halarm)
      fun packet heq ↦ absurd heq (hpacket packet)) (hp.moves hmoves)

theorem Turn.contained (h : p.Contained) (hp : p.Sound) (hrings : p.RingsOnTime now input)
    (hpacket : ∀ packet, input = .packet packet → packet.StopsInTime)
    (hturn : p.Turn now input r q) : q.Contained := by
  cases hturn with
  | mk perform calls =>
    have hmoves := moves_of_perform perform
    exact calls.contained (hmoves.contained h hp hrings hpacket) (hp.moves hmoves)

/-! ### What arrives has an outcome -/

/-- An acknowledgement is read, if every byte handed over has a place in the stream. What it makes
room for is sent, and takes the next places. -/
theorem Sends.exists_onAck_eq_ok {acked sent : Nat} (h : p.Sends acked sent) (now ack : Nat)
    (hfit : p.firstByte + p.stream.length ≤ maxWord) :
    ∃ c effects, p.onAck now ack = .ok (c, effects) := by
  rcases Connection.onAck_cases now ack p.toConnection with ⟨⟨_, hok⟩, -⟩ | ⟨hle, hsome, hok⟩
  · exact ⟨_, _, hok⟩
  · obtain ⟨_, -, hsends⟩ := h.acknowledged hle hsome
    obtain ⟨c, effects, hpump⟩ := hsends.exists_pump_eq_ok now hfit
    exact ⟨c, _, hok.trans (Checked.bind_eq_ok_iff.2 ⟨_, hpump, rfl⟩)⟩

/-- Data is read, if it stops in time. -/
theorem exists_onData_of_contained (h : p.Contained) (hp : p.Sound) (hkind : packet.kind = .data)
    (hpacket : packet.StopsInTime) :
    ∃ c r, p.onData ⟨packet.seq, packet.payload⟩ = .ok (c, r) := by
  refine Connection.exists_onData_eq_ok fun _ ↦ ?_
  have hedge : (p.reassembly.add ⟨packet.seq, packet.payload⟩).drain.2.edge ≤ maxWord :=
    Reassembly.drain_edge_le (by rw [Reassembly.edge_add]; exact hp.edge_le)
  exact Nat.le_trans (received_add_le h hkind hpacket) hedge

/-- A packet that may complete a handshake is read if what comes next is. -/
theorem exists_onceEstablished_eq_ok {next : Connection → Checked (Connection × Reaction)}
    (h : p.Contained) (hp : p.Sound) (hkind : packet.kind = .ack ∨ packet.kind = .data)
    (hdrop : p.dropNote? packet = none)
    (hnext : ∀ t : Party, t.Contained → t.Sound → t.state = .established → t.isn = p.isn →
      t.stream = p.stream → ∃ c r, next t.toConnection = .ok (c, r)) :
    ∃ c r, p.onceEstablished packet.ack next = .ok (c, r) := by
  have hmoves : Moves 0 (.packet packet) p _ _ :=
    moves_completeHandshake hkind (admitted_of_dropNote? hdrop)
  dsimp only [Connection.onceEstablished]
  split
  · next hstate =>
    have hfields : (p.completeHandshake packet.ack).1.Contained ∧
        (p.completeHandshake packet.ack).1.isn = p.isn := by
      rw [Connection.completeHandshake]
      split
      · split
        · exact ⟨{ h with }, rfl⟩
        · exact ⟨h, rfl⟩
      · exact ⟨h, rfl⟩
    obtain ⟨c, r, hok⟩ := hnext { p with toConnection := (p.completeHandshake packet.ack).1 }
      hfields.1 (hp.moves hmoves) hstate hfields.2 rfl
    exact ⟨c, _, Checked.bind_eq_ok_iff.2 ⟨_, hok, rfl⟩⟩
  · exact ⟨_, _, rfl⟩

/-- A handshake that is the first one can be started. -/
theorem exists_startHandshake_eq_ok {c : Connection} (h : c.attempt = 0) :
    ∃ c' effects, c.startHandshake = .ok (c', effects) := by
  rw [Connection.startHandshake, h]
  exact ⟨_, _, rfl⟩

/-- An opening is read by a party whose first handshake is to come. It counts a handshake only if it
is waited for. -/
theorem exists_onSyn_eq_ok (h : p.WaitsFirst) (source : Endpoint) (seq : Nat) :
    ∃ c effects, p.onSyn source seq = .ok (c, effects) := by
  rw [Connection.onSyn]
  split
  · next hstate =>
    obtain ⟨c, effects, hok⟩ := exists_startHandshake_eq_ok (c := { p.toConnection with
      peer := some source, reassembly := { edge := saturatingAdd seq 1 }, state := .synReceived,
      sendBase := p.isn, sendNext := p.firstByte }) (h hstate).1
    exact ⟨c, _, Checked.bind_eq_ok_iff.2 ⟨_, hok, rfl⟩⟩
  · exact ⟨_, _, rfl⟩
  · exact ⟨_, _, rfl⟩

/-- Every packet that is not dropped is read, whatever its kind. -/
theorem exists_onAdmitted_eq_ok (h : p.Contained) (hp : p.Sound) (hwaits : p.WaitsFirst)
    (hdrop : p.dropNote? packet = none) (hpacket : packet.StopsInTime)
    (hfit : p.firstByte + p.stream.length ≤ maxWord) (now : Nat) :
    ∃ c r, p.onAdmitted now packet = .ok (c, r) := by
  rw [Connection.onAdmitted]
  split
  · obtain ⟨c, effects, hok⟩ := exists_onSyn_eq_ok hwaits packet.source packet.seq
    exact ⟨c, _, Checked.bind_eq_ok_iff.2 ⟨_, hok, rfl⟩⟩
  · exact ⟨_, _, rfl⟩
  · next hkind =>
    refine exists_onceEstablished_eq_ok h hp (.inl hkind) hdrop
      fun t _ ht hstate hisn hstream ↦ ?_
    obtain ⟨-, acked, sent, hsends⟩ := ht.sends hstate
    have hfit' : t.firstByte + t.stream.length ≤ maxWord := by
      rw [Connection.firstByte, hisn, hstream]
      exact hfit
    obtain ⟨c, effects, hok⟩ := hsends.exists_onAck_eq_ok now packet.ack hfit'
    exact ⟨c, _, Checked.bind_eq_ok_iff.2 ⟨_, hok, rfl⟩⟩
  · next hkind =>
    exact exists_onceEstablished_eq_ok h hp (.inr hkind) hdrop fun t ht ht' _ _ _ ↦
      exists_onData_of_contained ht ht' hkind hpacket
  · exact ⟨_, _, rfl⟩
  · exact ⟨_, _, rfl⟩

/-- Every packet is read. -/
theorem exists_onPacket_eq_ok (h : p.Contained) (hp : p.Sound) (hwaits : p.WaitsFirst)
    (hpacket : packet.StopsInTime) (hfit : p.firstByte + p.stream.length ≤ maxWord) (now : Nat) :
    ∃ c r, p.onPacket now packet = .ok (c, r) := by
  rw [Connection.onPacket]
  split
  · exact ⟨_, _, rfl⟩
  · next hdrop =>
    obtain ⟨c, r, hok⟩ := exists_onAdmitted_eq_ok h hp hwaits hdrop hpacket hfit now
    exact ⟨c, _, Checked.bind_eq_ok_iff.2 ⟨_, hok, rfl⟩⟩

/-- Every alarm is heard, if a segment in flight that it is for can be sent once more. -/
theorem exists_onAlarm_eq_ok (now : Nat) {watch : Alarm.Watch}
    (hresends : ∀ s ∈ p.inFlight.toList, watch = .segment s.seq s.resends →
      s.resends + 1 ≤ maxHalfWord) : ∃ c r, p.onAlarm now watch = .ok (c, r) := by
  cases watch with
  | handshakeRetry | handshakeDeadline => exact ⟨_, _, rfl⟩
  | segment seq generation =>
    suffices halarm : ∃ c effects, p.onSegmentAlarm now seq generation = .ok (c, effects) by
      obtain ⟨c, effects, hok⟩ := halarm
      exact ⟨c, _, Checked.bind_eq_ok_iff.2 ⟨_, hok, rfl⟩⟩
    rw [Connection.onSegmentAlarm]
    split
    · exact ⟨_, _, rfl⟩
    · suffices hresend : ∃ resent, p.inFlight.resend? seq generation now = .ok resent by
        obtain ⟨resent, hok⟩ := hresend
        rw [hok]
        cases resent <;> exact ⟨_, _, rfl⟩
      rw [InFlight.resend?]
      split
      · exact ⟨_, rfl⟩
      · next s hfind =>
        obtain ⟨hmem, rfl⟩ := Ascending.find?_eq_some_iff.1 hfind
        split
        · next hgeneration =>
          have hle := hresends s hmem (by rw [hgeneration])
          rw [addWithin_eq_ok_iff.2 ⟨hle, rfl⟩]
          exact ⟨_, rfl⟩
        · exact ⟨_, rfl⟩

end Party

end ReliableStream
