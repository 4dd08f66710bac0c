import ReliableStream.Proofs.Party.Paced
import ReliableStream.Proofs.Simulation.Answers
import ReliableStream.Proofs.Simulation.Sound

/-!
# An answer is a turn

What a client or a server answers when something happens to it is a turn of its party: the party
has an input, and the application answers the notices (`Host.exists_turn_of_meet`). If an alarm
rings then it is one of those that the party needs or needed, and it rings when it was due
(`Plays.ringing`).

What an alarm has to do with its time is where the simulation is needed: a party is told that an
alarm rings, and cannot know when that was due. The agenda knows, as there is one alarm for a
segment in flight and it was set for the instant at which the segment has to be sent again.
-/

namespace ReliableStream.Simulation

open Party

variable {σ : Type} {initial : Bytes → Prop} {s : Simulation σ Peer} {now target id : Nat}
  {happening : Happening} {host host' : Host Peer} {effects : List Effects} {p : Party}

/-- What reaches the connection of a host when something happens to it. -/
def Happening.input (peer : Peer) : Happening → Input
  | .start => peer.opening
  | .arrival packet => .packet packet
  | .alarm watch => .alarm watch

/-- Only an arrival brings a packet. A host starts by connecting or listening. -/
theorem Happening.eq_arrival_of_input {peer : Peer} {packet : Packet}
    (h : happening.input peer = .packet packet) : happening = .arrival packet := by
  cases happening with
  | start => exact absurd h ((Input.ne_of_opens peer.opens_opening).2 packet)
  | alarm => exact absurd h (by simp [input])
  | arrival => exact congrArg _ (Input.packet.inj h)

/-- A party has its turn, and this is what becomes of its host and what that asks for. -/
structure Host.HasTurn (now : Nat) (input : Input) (p : Party) (r : Reaction) (q : Party)
    (peer : Peer) (host : Host Peer) (effects : List Effects) : Prop where
  /-- It has its turn. -/
  turn : p.Turn now input r q
  /-- This becomes of it. -/
  connection_eq : host.connection = q.toConnection
  /-- Its application has to do what it had to do. -/
  task_eq : host.application.task = peer.task
  /-- It sends these packets. -/
  packets_eq : effects.flatMap (·.packets) = r.packets
  /-- It sets these alarms. -/
  alarms_eq : effects.flatMap (·.alarms) = r.alarms
  /-- It tells of these events. -/
  traces_eq : effects.flatMap (·.traces) = r.traces

/-- Something reaches the connection of a host, and the application answers the notices. -/
theorem Host.exists_hasTurn_of_heed {input : Input} {outcome : Checked (Connection × Reaction)}
    (hdrives : host.application.Drives initial p []) (hp : p.Sound)
    (hinput : host.application.Admits input = true)
    (hperform : p.perform now input = p.move outcome)
    (h : host.heed now outcome = .ok (host', effects)) :
    ∃ q r, HasTurn now input p r q host.application host' effects := by
  obtain ⟨⟨c, reaction⟩, houtcome, hrest⟩ := Checked.bind_eq_ok_iff.1 h
  obtain ⟨⟨last, answers⟩, htell, hpure⟩ := Checked.bind_eq_ok_iff.1 hrest
  obtain ⟨rfl, rfl⟩ := Checked.pure_prod_eq_ok hpure
  have hperform' : p.perform now input = .ok ({ p with toConnection := c }, reaction) :=
    hperform.trans (Checked.bind_eq_ok_iff.2 ⟨_, houtcome, rfl⟩)
  have hmoves := moves_of_perform hperform'
  have hdrives' : Peer.Drives initial ({ host with connection := c } : Host Peer).application _ _ :=
    hdrives.moves hp hmoves hinput
  obtain ⟨q, r, hcalls, hquiet, hq, -, htask, hpackets, halarms, htraces⟩ :=
    Host.calls_of_tell hdrives' (hp.moves hmoves) rfl htell
  refine ⟨q, _, .mk hperform' hcalls hquiet, hq, htask, ?_, ?_, ?_⟩
  · rw [List.flatMap_cons, ← hpackets]
    rfl
  · rw [List.flatMap_cons, ← halarms]
    rfl
  · rw [List.flatMap_cons, ← htraces]
    rfl

/-- **An answer is a turn** of the party whose connection the host has. -/
theorem Host.exists_hasTurn (hconnection : host.connection = p.toConnection)
    (hdrives : host.application.Drives initial p []) (hp : p.Sound)
    (h : host.meet now happening = .ok (host', effects)) :
    ∃ q r, HasTurn now (happening.input host.application) p r q host.application host' effects := by
  cases happening with
  | start =>
    obtain ⟨response, hstart, hpure⟩ := Checked.bind_eq_ok_iff.1 h
    obtain ⟨rfl, rfl⟩ := Checked.pure_prod_eq_ok hpure
    rw [hconnection] at hstart
    obtain ⟨q, r, hperform, hq, -, htask, hpackets, halarms, htraces⟩ := hdrives.start hp hstart
    exact ⟨q, r, .single hperform, hq, htask, by simpa using hpackets.symm,
      by simpa using halarms.symm, by simpa using htraces.symm⟩
  | arrival packet =>
    refine exists_hasTurn_of_heed hdrives hp ?_ ?_ h
    · cases host.application <;> rfl
    · rw [hconnection]
      rfl
  | alarm watch =>
    refine exists_hasTurn_of_heed hdrives hp ?_ ?_ h
    · cases host.application <;> rfl
    · rw [hconnection]
      rfl

/-- The host that answers is the one whose turn it is. -/
theorem actor?_of_answer? {α : Type} [Application α] {s : Simulation σ α} {a : Answer α}
    (h : s.answer? target happening = .ok (some a)) : s.actor? target happening = some a.id := by
  rw [answer?] at h
  split at h
  · exact absurd h (by simp [pure, Except.pure])
  · next id hactor =>
    split at h
    · exact absurd h (by simp [pure, Except.pure])
    · obtain ⟨meeting, -, hpure⟩ := Checked.bind_eq_ok_iff.1 h
      obtain rfl := Option.some.inj (Checked.pure_eq_ok_iff.1 hpure)
      exact hactor

/-! ### Alarms -/

variable {e : Agenda.Entry Happening} {agenda : Agenda Happening}

/-- A segment in flight is watched: it will be sent again, and not later than it has to be. -/
theorem Plays.now_le (h : s.Plays initial id host p) {segment : Segment}
    (hmem : segment ∈ p.inFlight.toList) : s.now ≤ saturatingAdd segment.sentAt p.settings.rto := by
  have hone := h.watched.segment segment hmem
  have hmem' : (saturatingAdd segment.sentAt p.settings.rto,
      Alarm.Watch.segment segment.seq segment.resends) ∈ s.alarmsOf id :=
    (List.mem_filter.1 (hone ▸ List.mem_singleton.2 rfl)).1
  obtain ⟨e, he, heq⟩ := List.mem_filterMap.1 hmem'
  obtain ⟨-, -, htime⟩ := eq_of_alarmOf? heq
  exact htime ▸ s.agenda.ahead e he

/-- An alarm that rings for a segment in flight rings when it was due, since there is no other one
for the segment. -/
theorem Plays.time_eq (h : s.Plays initial id host p) (hnext : s.agenda.next? = some (e, agenda))
    {segment : Segment} (hmem : segment ∈ p.inFlight.toList)
    (haction : e.action = .model (.alarm (.segment segment.seq segment.resends)))
    (htarget : e.target = id) : e.time = saturatingAdd segment.sentAt p.settings.rto := by
  have hone := h.watched.segment segment hmem
  have halarm : alarmOf? id e = some (e.time, .segment segment.seq segment.resends) := by
    rw [alarmOf?, haction]
    exact if_pos htarget
  rw [alarmsOf_of_next? hnext, halarm] at hone
  exact congrArg Prod.fst (filter_of_cons hone (by simp [Alarm.Watch.ofSegment])).1

/-- An alarm of a host rings for a segment that the host has sent, be it in flight or not. -/
theorem Plays.seq_lt (h : s.Plays initial id host p) (hnext : s.agenda.next? = some (e, agenda))
    {seq generation : Nat} (haction : e.action = .model (.alarm (.segment seq generation)))
    (htarget : e.target = id) : seq < p.sendNext := by
  have halarm : alarmOf? id e = some (e.time, .segment seq generation) := by
    rw [alarmOf?, haction]
    exact if_pos htarget
  have hmem : (e.time, Alarm.Watch.segment seq generation) ∈ s.alarmsOf id := by
    rw [alarmsOf_of_next? hnext, halarm]
    exact List.mem_cons_self ..
  exact (h.watched.sent hmem).2

/-- An alarm that rings for a segment in flight rings when the segment has to be sent again, unless
the clock is at its limit. -/
theorem Plays.ringsOnTime (h : s.Plays initial id host p)
    (hnext : s.agenda.next? = some (e, agenda)) (haction : e.action = .model happening)
    (hactor : s.actor? e.target happening = some id)
    (hnow : ∀ watch, happening = .alarm watch → agenda.now < maxWord) (peer : Peer) :
    p.RingsOnTime agenda.now (happening.input peer) := by
  cases happening with
  | start => exact ringsOnTime_of_ne (Input.ne_of_opens peer.opens_opening).1
  | arrival packet => exact ringsOnTime_of_ne fun _ ↦ by simp [Happening.input]
  | alarm watch =>
    have htarget : e.target = id := Option.some.inj hactor
    refine ⟨fun heq ↦ ?_, fun segment hmem heq ↦ ?_⟩
    · obtain rfl := Input.alarm.inj heq
      exact h.seq_lt hnext haction htarget
    · obtain rfl := Input.alarm.inj heq
      have htime := h.time_eq hnext hmem haction htarget
      -- Below the limit of the clock nothing was saturated, so the alarm was set for that very
      -- instant.
      have hlt := hnow _ rfl
      rw [(Agenda.next?_eq_some hnext).2, htime, saturatingAdd] at hlt ⊢
      omega

/-- Time only passes: nothing on the agenda is over. -/
theorem now_le_of_next? {σ α : Type} {s : Simulation σ α} {e : Agenda.Entry Happening}
    {agenda : Agenda Happening} (h : s.agenda.next? = some (e, agenda)) : s.now ≤ agenda.now := by
  obtain ⟨hentries, htime⟩ := Agenda.next?_eq_some h
  exact htime ▸ s.agenda.ahead e (hentries ▸ List.mem_cons_self ..)

end ReliableStream.Simulation
