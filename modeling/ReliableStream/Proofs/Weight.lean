import Mathlib.Algebra.BigOperators.Group.List.Basic
import Mathlib.Algebra.Ring.Nat
import ReliableStream.Proofs.Party.Inversion

/-!
# How much can follow at one instant

If packets take no time then one packet can set off others at the same instant: an opening its
answer, that an acknowledgement, that the first segments, and each of these its acknowledgement. No
chain of this kind goes on for ever. To show it, everything that waits has a *weight*, and so has
what a connection still has in hand: each pending chunk, the `parts` of the message that its
application will send when it is established, and the one opening that it waits for while it
listens (`Connection.debt`).

A packet that is taken in weighs more than all that comes of it and what the connection has in hand
afterwards weighs more than before (`Connection.weight_onPacket`), and so does an alarm that rings
(`Connection.weight_onAlarm`). Two copies of every packet are counted, since the network may deliver
it twice; an alarm is counted only if it has no delay, which a retransmission never has.

Each kind of packet weighs one more than two copies of what it sets off, so the weights are read
from the end of the chain: an acknowledgement, data and answers, openings, retries. The proofs
follow the functions of a connection, with one lemma for each, and a caller adds up what its callees
have.
-/

namespace ReliableStream

/-- The weight of a packet that waits, by its kind. -/
def Packet.Kind.weight : Packet.Kind → Nat
  | .syn => 7
  | .synAck | .data => 3
  | .ack | .fin | .finAck => 1

/-- The weight of an alarm that waits. -/
def Alarm.Watch.weight : Alarm.Watch → Nat
  | .segment .. => 7
  | .handshakeRetry _ => 15
  | .handshakeDeadline _ => 1

/-- The weight of an alarm that is set: it counts if it rings at the same instant. -/
def Alarm.weight (a : Alarm) : Nat := if a.delay = 0 then a.watch.weight else 0

/-- The weight of packets that are sent: each may arrive twice. -/
def Packet.weights (packets : List Packet) : Nat := (packets.map (2 * ·.kind.weight)).sum

/-- The weight of what there is to do. -/
def Effects.weight (e : Effects) : Nat :=
  Packet.weights e.packets + (e.alarms.map Alarm.weight).sum

/-- The weight of what there is to do, and of what the application will do when it is told. -/
def Reaction.weight (parts : Nat) (r : Reaction) : Nat :=
  r.toEffects.weight + 6 * parts * r.notices.count .established

@[simp] theorem Effects.weight_append (e f : Effects) : (e ++ f).weight = e.weight + f.weight := by
  show Packet.weights (e.packets ++ f.packets) + ((e.alarms ++ f.alarms).map Alarm.weight).sum = _
  simp only [Effects.weight, Packet.weights, List.map_append, List.sum_append]
  omega

@[simp] theorem Reaction.weight_append (parts : Nat) (r s : Reaction) :
    (r ++ s).weight parts = r.weight parts + s.weight parts := by
  show (r.toEffects ++ s.toEffects).weight + 6 * parts * (r.notices ++ s.notices).count _ = _
  rw [Effects.weight_append, List.count_append, Nat.mul_add, weight, weight]
  omega

/-- What does not concern the application has the weight of its effects. -/
@[simp] theorem Effects.weight_reaction (parts : Nat) (e : Effects) :
    Reaction.weight parts e = e.weight := by simp [Reaction.weight]

/-- Notes and events have no weight. -/
@[simp] theorem Effects.weight_packets (packets : List Packet) (traces : List Trace.Event)
    (notes : List Connection.Note) :
    Effects.weight { packets, traces, notes } = Packet.weights packets := Nat.add_zero _

@[simp] theorem Reaction.weight_packets (parts : Nat) (packets : List Packet)
    (traces : List Trace.Event) (notes : List Connection.Note) :
    Reaction.weight parts { packets, traces, notes } = Packet.weights packets :=
  Effects.weight_packets packets traces notes

@[simp] theorem Packet.weights_nil : Packet.weights [] = 0 := rfl

namespace Connection

variable {now parts : Nat} {c c' : Connection} {effects : Effects} {r : Reaction}

/-- The weight of what a connection has in hand, whose application has a message of so many parts to
send when it is established. -/
def debt (parts : Nat) (c : Connection) : Nat :=
  6 * c.pending.length + (if c.state = .established then 0 else 6 * parts) +
    if c.state = .listening then 1 else 0

/-- The debt depends on what is pending and on the state, and on nothing else. -/
theorem debt_congr (hpending : c'.pending = c.pending) (hstate : c'.state = c.state) :
    c'.debt parts = c.debt parts := by
  rw [debt, debt, hpending, hstate]

/-- Without a change of state it changes with what is pending. -/
theorem debt_add (parts : Nat) (hstate : c'.state = c.state) :
    c'.debt parts + 6 * c.pending.length = c.debt parts + 6 * c'.pending.length := by
  rw [debt, debt, hstate]
  omega

theorem debt_of_established (h : c.state = .established) :
    c.debt parts = 6 * c.pending.length := by simp [debt, h]

/-! ### The transfer -/

/-- A packet without data weighs at most what its two copies do: it is not sent at all if there is
no peer. -/
theorem weight_control_le (kind : Packet.Kind) (seq ack : Nat) (c : Connection) :
    Packet.weights (c.control kind seq ack) ≤ 2 * kind.weight := by
  cases hpeer : c.peer <;> simp [control, Packet.weights, hpeer]

/-- A chunk that is sent weighs no more than when it was pending. Its alarm weighs nothing, since
the time after which it rings is not zero. -/
theorem weight_sendChunks {peer : Endpoint} {line : List Bytes}
    (h : sendChunks now peer line c = .ok (c', effects)) :
    effects.weight + 6 * c'.pending.length = 6 * line.length ∧ c'.state = c.state := by
  induction line generalizing c effects with
  | nil =>
    obtain ⟨rfl, rfl⟩ := Checked.pure_prod_eq_ok h
    exact ⟨rfl, rfl⟩
  | cons chunk rest ih =>
    rw [sendChunks] at h
    split at h
    · obtain ⟨⟨c₁, sent⟩, hsend, hrest⟩ := Checked.bind_eq_ok_iff.1 h
      obtain ⟨⟨c₂, more⟩, hmore, hpure⟩ := Checked.bind_eq_ok_iff.1 hrest
      obtain ⟨rfl, rfl⟩ := Checked.pure_prod_eq_ok hpure
      obtain ⟨-, -, rfl, rfl⟩ := sendChunk_eq_ok hsend
      obtain ⟨hweight, hstate⟩ := ih hmore
      -- Valid settings have a time after which an alarm of a segment rings.
      have hrto : c.settings.rto ≠ 0 := Nat.ne_of_gt c.valid.rto_pos
      refine ⟨?_, hstate⟩
      rw [Effects.weight_append, Nat.add_assoc, hweight, List.length_cons]
      simp [Effects.weight, Packet.weights, Alarm.weight, dataPacket, Packet.Kind.weight, hrto]
      omega
    · obtain ⟨rfl, rfl⟩ := Checked.pure_prod_eq_ok h
      exact ⟨Nat.zero_add _, rfl⟩

theorem weight_pump (h : c.pump now = .ok (c', effects)) :
    effects.weight + 6 * c'.pending.length = 6 * c.pending.length ∧ c'.state = c.state := by
  rw [pump] at h
  split at h
  · exact weight_sendChunks h
  · obtain ⟨rfl, rfl⟩ := Checked.pure_prod_eq_ok h
    exact ⟨Nat.zero_add _, rfl⟩

/-- Bytes that are handed over weigh as much as the chunks into which they are cut. -/
theorem weight_send {bytes : Bytes} (h : c.send now bytes = .ok (.ok (c', effects))) :
    effects.weight + c'.debt parts =
      c.debt parts + 6 * (chunks c.settings.mtu bytes).length := by
  rw [send] at h
  split at h
  · next hstate =>
    obtain ⟨hweight, hstate'⟩ := weight_pump (Except.ok.inj h)
    rw [debt_of_established hstate, debt_of_established (hstate'.trans hstate), hweight,
      List.length_append, Nat.mul_add]
  · exact absurd h (by simp)

theorem weight_onAck {ack : Nat} (h : c.onAck now ack = .ok (c', effects)) :
    effects.weight + c'.debt parts = c.debt parts := by
  rcases onAck_eq_ok h with ⟨rfl, ⟨notes, rfl⟩, -⟩ | ⟨-, -, sent, hpump, rfl⟩
  · simp
  · obtain ⟨hweight, hstate⟩ :
      sent.weight + 6 * c'.pending.length = 6 * c.pending.length ∧ c'.state = c.state :=
        weight_pump (c := { c with inFlight := (c.inFlight.acknowledge ack).2, sendBase := ack })
          hpump
    have hdebt := debt_add parts hstate
    simp only [Effects.weight_append, Effects.weight_packets, Packet.weights_nil]
    omega

/-- An alarm of a segment sends one packet with data, at most. -/
theorem weight_onSegmentAlarm {seq generation : Nat}
    (h : c.onSegmentAlarm now seq generation = .ok (c', effects)) :
    effects.weight + c'.debt parts ≤ c.debt parts + 6 := by
  have hrto : c.settings.rto ≠ 0 := Nat.ne_of_gt c.valid.rto_pos
  rw [onSegmentAlarm] at h
  split at h
  · obtain ⟨rfl, rfl⟩ := Checked.pure_prod_eq_ok h
    simp
  · obtain ⟨resent, -, hrest⟩ := Checked.bind_eq_ok_iff.1 h
    split at hrest
    · obtain ⟨rfl, rfl⟩ := Checked.pure_prod_eq_ok hrest
      simp
    · obtain ⟨rfl, rfl⟩ := Checked.pure_prod_eq_ok hrest
      simp [Effects.weight, Packet.weights, Alarm.weight, Segment.alarm, dataPacket,
        Packet.Kind.weight, hrto, debt, Nat.add_comm]

/-- What is made ready for reading sets nothing off. -/
theorem weight_deliver (h : c.deliver = .ok (c', r)) :
    r.weight parts + c'.debt parts = c.debt parts := by
  rw [deliver] at h
  split at h
  · obtain ⟨rfl, rfl⟩ := Checked.pure_prod_eq_ok h
    exact Nat.zero_add _
  · obtain ⟨received, -, hpure⟩ := Checked.bind_eq_ok_iff.1 h
    obtain ⟨rfl, rfl⟩ := Checked.pure_prod_eq_ok hpure
    simp [Reaction.weight, debt]

theorem weight_onData {chunk : Chunk} (h : c.onData chunk = .ok (c', r)) :
    r.weight parts + c'.debt parts ≤ c.debt parts + 2 := by
  obtain ⟨⟨c₁, stored⟩, hstore, hpure⟩ := Checked.bind_eq_ok_iff.1 h
  obtain ⟨rfl, rfl⟩ := Checked.pure_prod_eq_ok hpure
  have hstored : stored.weight parts + c₁.debt parts = c.debt parts := by
    rw [store] at hstore
    split at hstore
    · obtain ⟨rfl, rfl⟩ := Checked.pure_prod_eq_ok hstore
      simp [Reaction.weight]
    · exact (weight_deliver hstore).trans (debt_congr rfl rfl)
  have hanswer : Packet.weights c₁.acknowledgement ≤ 2 := weight_control_le .ack _ _ _
  rw [Reaction.weight_append, Reaction.weight_packets]
  omega

/-! ### The handshake -/

/-- The alarms of a handshake: only a deadline may have no delay. -/
theorem weight_startHandshake (parts : Nat) (h : c.startHandshake = .ok (c', effects)) :
    effects.weight ≤ 1 ∧ c'.debt parts = c.debt parts := by
  obtain ⟨-, rfl, rfl⟩ := startHandshake_eq_ok h
  have hrto : c.settings.rto ≠ 0 := Nat.ne_of_gt c.valid.rto_pos
  refine ⟨?_, rfl⟩
  simp only [Effects.weight, Packet.weights, Alarm.weight, Alarm.Watch.weight, List.map_nil,
    List.map_cons, List.sum_nil, List.sum_cons, if_neg hrto]
  split <;> omega

theorem weight_connect {peer : Endpoint} (h : c.connect peer = .ok (.ok (c', effects))) :
    effects.weight + c'.debt parts ≤ c.debt parts + 15 := by
  rw [connect] at h
  split at h
  · next hstate =>
    obtain ⟨⟨c₁, alarms⟩, hstart, hpure⟩ := Checked.bind_eq_ok_iff.1 (Except.ok.inj h)
    obtain ⟨rfl, rfl⟩ := Checked.pure_prod_eq_ok hpure
    obtain ⟨halarms, hdebt⟩ := weight_startHandshake parts hstart
    have hopening : Packet.weights c₁.opening ≤ 14 := weight_control_le .syn _ _ _
    rw [Effects.weight_append, Effects.weight_packets, hdebt]
    simp [debt, hstate]
    omega
  · exact absurd h (by simp)

/-- Whoever begins to listen owes one more, for the deadline of the handshake that an opening
begins. -/
theorem weight_listen (h : c.listen = .ok (c', effects)) :
    effects.weight + c'.debt parts ≤ c.debt parts + 15 := by
  rw [listen] at h
  split at h
  · next hstate =>
    obtain ⟨rfl, rfl⟩ := Prod.mk.inj (Except.ok.inj h)
    simp [debt, hstate]
  · exact absurd h (by simp)

/-- An opening that is answered is waited for no more. -/
theorem weight_onSyn (parts : Nat) {source : Endpoint} {seq : Nat}
    (h : c.onSyn source seq = .ok (c', effects)) :
    effects.weight + c'.debt parts ≤ c.debt parts + 6 := by
  rw [onSyn] at h
  split at h
  · next hstate =>
    obtain ⟨⟨c₁, alarms⟩, hstart, hpure⟩ := Checked.bind_eq_ok_iff.1 h
    obtain ⟨rfl, rfl⟩ := Checked.pure_prod_eq_ok hpure
    obtain ⟨halarms, hdebt⟩ := weight_startHandshake parts hstart
    have hanswer : Packet.weights c₁.openingAnswer ≤ 6 := weight_control_le .synAck _ _ _
    rw [Effects.weight_append, Effects.weight_packets, hdebt]
    simp [debt, hstate]
    omega
  · obtain ⟨rfl, rfl⟩ := Checked.pure_prod_eq_ok h
    have hanswer : Packet.weights c.openingAnswer ≤ 6 := weight_control_le .synAck _ _ _
    rw [Effects.weight_packets]
    omega
  · obtain ⟨rfl, rfl⟩ := Checked.pure_prod_eq_ok h
    simp

/-- The notice that a connection is established weighs as much as the message that follows. -/
theorem weight_establish (parts : Nat) (hstate : c.state = .synSent ∨ c.state = .synReceived) :
    c.establish.2.weight parts + c.establish.1.debt parts = c.debt parts := by
  rcases hstate with hstate | hstate <;>
    simp [establish, Reaction.weight, Effects.weight, Packet.weights, debt, hstate] <;> omega

/-- A handshake that is completed turns what was owed into the notice, and weighs the same. -/
theorem weight_completeHandshake (parts : Nat) (ack : Nat) (c : Connection) :
    (c.completeHandshake ack).2.weight parts + (c.completeHandshake ack).1.debt parts =
      c.debt parts := by
  rw [completeHandshake]
  split
  · next hstate =>
    split
    · exact weight_establish parts (c := { c with sendBase := ack }) (.inr hstate)
    · simp [Reaction.weight]
  · simp [Reaction.weight]

/-- An answer sets off one acknowledgement, and completes the handshake if it was waited for. -/
theorem weight_onSynAck (seq ack : Nat) (c : Connection) :
    (c.onSynAck seq ack).2.weight parts + (c.onSynAck seq ack).1.debt parts ≤
      c.debt parts + 2 := by
  rw [onSynAck]
  split
  · next hstate =>
    split
    · -- What was still owed for the handshake is paid off by getting established.
      have hdone := weight_establish parts
        (c := { c with reassembly := { edge := saturatingAdd seq 1 }, sendBase := ack })
        (.inl hstate)
      have hanswer : Packet.weights ({ c with
          reassembly := { edge := saturatingAdd seq 1 }, sendBase := ack } :
          Connection).acknowledgement ≤ 2 := weight_control_le .ack _ _ _
      have hdebt : debt parts { c with
          reassembly := { edge := saturatingAdd seq 1 }, sendBase := ack } = c.debt parts :=
        debt_congr rfl rfl
      rw [hdebt] at hdone
      simp only [Reaction.weight_append, Effects.weight_reaction]
      simp only [Effects.weight, List.map_nil, List.sum_nil]
      omega
    · simp [Reaction.weight]
  · have hanswer : Packet.weights c.acknowledgement ≤ 2 := weight_control_le .ack _ _ _
    simp [Reaction.weight, Effects.weight]
    omega
  · simp [Reaction.weight]

/-- A retry sends one opening and sets the next retry, which has a delay and weighs nothing. -/
theorem weight_onRetry (attempt : Nat) (c : Connection) : (c.onRetry attempt).weight ≤ 14 := by
  have hrto : c.settings.rto ≠ 0 := Nat.ne_of_gt c.valid.rto_pos
  have hagain {packets : List Packet} (hpackets : Packet.weights packets ≤ 14) :
      (onRetry.again attempt c packets).weight ≤ 14 := by
    simpa [onRetry.again, Effects.weight, Alarm.weight, hrto] using hpackets
  rw [onRetry]
  split
  · split
    · exact hagain (weight_control_le .syn _ _ _)
    · exact hagain (Nat.le_trans (weight_control_le .synAck _ _ _) (by decide))
    · exact Nat.zero_le _
  · exact Nat.zero_le _

theorem weight_onDeadline (parts : Nat) (attempt : Nat) (c : Connection) :
    (c.onDeadline attempt).2.weight parts + (c.onDeadline attempt).1.debt parts =
      c.debt parts := by
  rw [onDeadline]
  split
  · next hcurrent =>
    obtain ⟨-, hstate⟩ := hcurrent
    rcases hstate with hstate | hstate <;> simp [Reaction.weight, Effects.weight, Packet.weights,
      debt, hstate]
  · simp [Reaction.weight]

/-! ### What reaches a connection -/

/-- Completing a handshake first does not add to the weight of what is done next. -/
theorem weight_onceEstablished {ack credit : Nat}
    {next : Connection → Checked (Connection × Reaction)}
    (hnext : ∀ {d d' : Connection} {s : Reaction}, next d = .ok (d', s) →
      s.weight parts + d'.debt parts ≤ d.debt parts + credit)
    (h : c.onceEstablished ack next = .ok (c', r)) :
    r.weight parts + c'.debt parts ≤ c.debt parts + credit := by
  have hcompleted := weight_completeHandshake parts ack c
  rw [onceEstablished] at h
  dsimp only at h
  split at h
  · obtain ⟨⟨c₁, reaction⟩, hrun, hpure⟩ := Checked.bind_eq_ok_iff.1 h
    obtain ⟨rfl, rfl⟩ := Checked.pure_prod_eq_ok hpure
    have hrest := hnext hrun
    rw [Reaction.weight_append]
    dsimp only at hrest ⊢
    omega
  · obtain ⟨rfl, rfl⟩ := Checked.pure_prod_eq_ok h
    omega

/-- **A packet that is taken in weighs more than what comes of it**, whatever its kind: there is one
case for each. -/
theorem weight_onAdmitted (parts : Nat) {packet : Packet}
    (h : c.onAdmitted now packet = .ok (c', r)) :
    r.weight parts + c'.debt parts < c.debt parts + packet.kind.weight := by
  rw [onAdmitted] at h
  split at h
  · next hkind =>
    obtain ⟨⟨c₁, effects⟩, hsyn, hpure⟩ := Checked.bind_eq_ok_iff.1 h
    obtain ⟨rfl, rfl⟩ := Checked.pure_prod_eq_ok hpure
    have hweight := weight_onSyn parts hsyn
    rw [Effects.weight_reaction, hkind]
    exact Nat.lt_succ_of_le hweight
  · next hkind =>
    obtain ⟨rfl, rfl⟩ := Prod.mk.inj (Checked.pure_eq_ok_iff.1 h)
    rw [hkind]
    exact Nat.lt_succ_of_le (weight_onSynAck ..)
  · next hkind =>
    rw [hkind]
    have hdone : r.weight parts + c'.debt parts ≤ c.debt parts + 0 := by
      refine weight_onceEstablished (fun hrun ↦ ?_) h
      obtain ⟨⟨c₁, effects⟩, hack, hpure⟩ := Checked.bind_eq_ok_iff.1 hrun
      obtain ⟨rfl, rfl⟩ := Checked.pure_prod_eq_ok hpure
      rw [Effects.weight_reaction]
      exact Nat.le_of_eq (weight_onAck hack)
    exact Nat.lt_succ_of_le hdone
  · next hkind =>
    rw [hkind]
    exact Nat.lt_succ_of_le (weight_onceEstablished weight_onData h)
  all_goals
    next hkind =>
    obtain ⟨rfl, rfl⟩ := Checked.pure_prod_eq_ok h
    simp [Reaction.weight, hkind, Packet.Kind.weight]

/-- A packet weighs more than what comes of it, also when it is not taken in. -/
theorem weight_onPacket {packet : Packet} (h : c.onPacket now packet = .ok (c', r)) :
    r.weight parts + c'.debt parts < c.debt parts + packet.kind.weight := by
  rw [onPacket] at h
  split at h
  · obtain ⟨rfl, rfl⟩ := Checked.pure_prod_eq_ok h
    cases hkind : packet.kind <;> simp [Reaction.weight, Packet.Kind.weight]
  · obtain ⟨⟨c₁, reaction⟩, hread, hpure⟩ := Checked.bind_eq_ok_iff.1 h
    obtain ⟨rfl, rfl⟩ := Checked.pure_prod_eq_ok hpure
    have hweight := weight_onAdmitted parts hread
    rw [Reaction.weight_append]
    simpa [Reaction.weight] using hweight

/-- An alarm weighs more than what comes of it. A segment alarm pays for the packet that is sent
again, and a retry for the next opening. -/
theorem weight_onAlarm {watch : Alarm.Watch} (h : c.onAlarm now watch = .ok (c', r)) :
    r.weight parts + c'.debt parts < c.debt parts + watch.weight := by
  unfold onAlarm at h
  split at h
  · obtain ⟨⟨c₁, effects⟩, halarm, hpure⟩ := Checked.bind_eq_ok_iff.1 h
    obtain ⟨rfl, rfl⟩ := Checked.pure_prod_eq_ok hpure
    rw [Effects.weight_reaction]
    exact Nat.lt_succ_of_le (weight_onSegmentAlarm halarm)
  · next attempt =>
    obtain ⟨rfl, rfl⟩ := Checked.pure_prod_eq_ok h
    have hweight := weight_onRetry attempt c
    rw [Effects.weight_reaction, Alarm.Watch.weight]
    omega
  · next attempt =>
    have hweight := weight_onDeadline parts attempt c
    rw [Checked.pure_eq_ok_iff.1 h] at hweight
    exact Nat.lt_succ_of_le (Nat.le_of_eq hweight)

end Connection

end ReliableStream
