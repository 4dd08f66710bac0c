import ReliableStream.Proofs.Party.Contained
import ReliableStream.Proofs.Simulation.Turns

/-!
# There is room for what happens

Whatever happens to a client or a server has an outcome, if its connection is contained and its
message has a place in the stream (`Host.exists_meet_eq_ok`); and whatever it asks for is carried
out, if the packets that it sends can arrive before time is up (`Spacious.exists_follow_eq_ok`).

An outcome fails in one way only: a number gets too large for its word. So there is a list of what
may not be too large, sequence numbers and counts of the connection on the one hand, the instants at
which packets arrive on the other, and nothing else is needed.
-/

namespace ReliableStream

open Party

/-- Computations that all have results have them one after the other. -/
theorem Checked.exists_mapM_eq_ok {α β : Type} {f : α → Checked β} {l : List α}
    (h : ∀ a ∈ l, ∃ b, f a = .ok b) : ∃ results, l.mapM f = .ok results := by
  induction l with
  | nil => exact ⟨[], rfl⟩
  | cons a rest ih =>
    obtain ⟨hfirst, hrest⟩ := List.forall_mem_cons.1 h
    obtain ⟨b, hb⟩ := hfirst
    obtain ⟨more, hmore⟩ := ih hrest
    rw [List.mapM_cons]
    exact ⟨_, Checked.bind_eq_ok_iff.2 ⟨b, hb, Checked.bind_eq_ok_iff.2 ⟨more, hmore, rfl⟩⟩⟩

/-- What keeps a condition under which it goes on goes on to the end. -/
theorem Checked.exists_foldlM_eq_ok {α β : Type} {P : α → Prop} {f : α → β → Checked α}
    (hstep : ∀ {a} b, P a → ∃ a', f a b = .ok a' ∧ P a') (l : List β) {a : α} (h : P a) :
    ∃ a', l.foldlM f a = .ok a' ∧ P a' := by
  induction l generalizing a with
  | nil => exact ⟨a, rfl, h⟩
  | cons b rest ih =>
    obtain ⟨mid, hmid, hp⟩ := hstep b h
    obtain ⟨a', ha', hp'⟩ := ih hp
    rw [List.foldlM_cons]
    exact ⟨a', Checked.bind_eq_ok_iff.2 ⟨mid, hmid, ha'⟩, hp'⟩

/-! ### What clients and servers do -/

namespace Peer

variable {initial : Bytes → Prop} {now : Nat} {peer : Peer} {p : Party} {notices : List Notice}

/-- The message of a client has a place in the stream. -/
def FitsIn (peer : Peer) (p : Party) : Prop :=
  ∀ address message, peer.task = some (address, message) →
    p.firstByte + message.length ≤ maxWord

/-- All that was handed over has a place in the stream, since it is the message or nothing. -/
theorem Drives.stream_fits (h : peer.Drives initial p []) (hp : p.Sound) (hfit : peer.FitsIn p) :
    p.firstByte + p.stream.length ≤ maxWord := by
  have hnothing (hsends : p.sends = []) : p.firstByte + p.stream.length ≤ maxWord := by
    rw [stream, hsends]
    exact saturatingAdd_le ..
  cases peer with
  | client address message =>
    by_cases hstate : p.state = .established
    · rw [Sending.stream_eq h hstate]
      exact hfit address message rfl
    · exact hnothing (hp.blank hstate).sends_eq
  | server inbox => exact hnothing h.sends_eq

/-- A connection is asked for something that has an outcome unless it is refused. -/
theorem exists_ask_eq_ok {call : String} {c : Connection}
    {answer : Except Failure (Checked (Connection × Effects))}
    (h : ∀ done, answer = .ok done → ∃ result, done = .ok result) :
    ∃ response, peer.ask call c answer = .ok response := by
  cases answer with
  | error failure => exact ⟨_, rfl⟩
  | ok done =>
    obtain ⟨result, rfl⟩ := h done rfl
    exact ⟨_, rfl⟩

/-- An application that is told something has an answer. Only a client that sends could overflow. -/
theorem Drives.exists_onNotice_eq_ok {notice : Notice}
    (h : peer.Drives initial p (notice :: notices)) (hp : p.Sound) (hfit : peer.FitsIn p)
    (now : Nat) :
    ∃ response, Application.onNotice now notice peer p.toConnection = .ok response := by
  cases peer with
  | server inbox =>
    cases notice with
    | established | handshakeFailed => exact ⟨_, rfl⟩
    | dataReady len =>
      by_cases hstate : p.state = .established
      · exact ⟨_, onNotice_dataReady hstate⟩
      · exact ⟨_, onNotice_dataReady_of_ne hstate⟩
  | client address message =>
    cases notice with
    | handshakeFailed | dataReady => exact ⟨_, rfl⟩
    | established =>
      refine exists_ask_eq_ok fun done hdone ↦ ?_
      rw [Connection.send] at hdone
      split at hdone
      · next hstate =>
        -- It has handed over nothing yet, as it is told only once.
        have hsends : p.sends = [] := by
          rcases Sending.after h hstate with ⟨-, hsends⟩ | ⟨hzero, -⟩
          · exact hsends
          · rw [List.count_cons_self] at hzero
            exact absurd hzero (Nat.succ_ne_zero _)
        obtain ⟨-, acked, sent, hp'⟩ := hp.sends hstate
        have hstream : p.firstByte + (p.sends ++ [message]).flatten.length ≤ maxWord := by
          rw [hsends, List.nil_append, List.flatten_singleton]
          exact hfit address message rfl
        obtain ⟨c, effects, hpump⟩ := (hp'.hand message).exists_pump_eq_ok now hstream
        obtain rfl := Except.ok.inj hdone
        exact ⟨_, hpump⟩
      · exact absurd hdone (by simp)

/-- A host starts, if it did not start before: nothing was counted yet, so nothing overflows. -/
theorem exists_start_eq_ok (now : Nat) (peer : Peer) (hfresh : p.Fresh) :
    ∃ response, Application.start now peer p.toConnection = .ok response := by
  cases peer with
  | server inbox =>
    dsimp only [Application.start]
    rw [Connection.listen, if_pos hfresh.state_eq]
    exact ⟨_, rfl⟩
  | client address message =>
    obtain ⟨c, effects, hok⟩ := exists_startHandshake_eq_ok (c := { p.toConnection with
      peer := some address, state := .synSent, sendBase := p.isn, sendNext := p.firstByte })
      hfresh.attempt_eq
    dsimp only [Application.start]
    rw [Connection.connect, if_pos hfresh.state_eq]
    exact ⟨_, Checked.bind_eq_ok_iff.2 ⟨_, Checked.bind_eq_ok_iff.2 ⟨_, hok, rfl⟩, rfl⟩⟩

end Peer

namespace Simulation

variable {σ : Type} {initial : Bytes → Prop} {now id : Nat} {home : Endpoint}
  {happening : Happening} {host : Host Peer} {p : Party}

/-- An application is told everything, notice by notice, and its message fits all along. -/
theorem Host.exists_tell_eq_ok {notices : List Notice}
    (h : host.application.Drives initial p notices) (hp : p.Sound)
    (hconnection : host.connection = p.toConnection) (hfit : host.application.FitsIn p) :
    ∃ meeting, host.tell now notices = .ok meeting := by
  induction notices generalizing p host with
  | nil => exact ⟨_, rfl⟩
  | cons notice rest ih =>
    obtain ⟨response, hanswer⟩ := h.exists_onNotice_eq_ok hp hfit now
    obtain ⟨q, r, hcalls, hq, hdrives, htask, -⟩ := h.onNotice hp hanswer
    have hfit' : response.application.FitsIn q := fun address message heq ↦ by
      rw [(hcalls.later hp).firstByte_eq]
      exact hfit address message (htask.symm.trans heq)
    have hnext : ∃ meeting, Host.tell now rest ⟨response.connection, response.application⟩ =
        .ok meeting := ih hdrives (hcalls.sound hp) hq hfit'
    obtain ⟨meeting, hrest⟩ := hnext
    rw [← hconnection] at hanswer
    exact ⟨_, Checked.bind_eq_ok_iff.2 ⟨_, hanswer,
      Checked.bind_eq_ok_iff.2 ⟨_, hrest, rfl⟩⟩⟩

/-- A host gets something, and its application is told of it. -/
theorem Host.exists_heed_eq_ok {input : Input} {c : Connection} {reaction : Reaction}
    (hdrives : host.application.Drives initial p []) (hp : p.Sound)
    (hinput : host.application.Admits input = true) (hfit : host.application.FitsIn p)
    (hmoves : Moves now input p reaction { p with toConnection := c }) :
    ∃ meeting, host.heed now (.ok (c, reaction)) = .ok meeting := by
  have hfit' : host.application.FitsIn { p with toConnection := c } := fun address message heq ↦ by
    rw [(hmoves.later hp).firstByte_eq]
    exact hfit address message heq
  have htold : ∃ meeting, Host.tell now reaction.notices { host with connection := c } =
      .ok meeting := exists_tell_eq_ok (hdrives.moves hp hmoves hinput) (hp.moves hmoves) rfl hfit'
  obtain ⟨meeting, htell⟩ := htold
  exact ⟨_, Checked.bind_eq_ok_iff.2 ⟨_, rfl, Checked.bind_eq_ok_iff.2 ⟨_, htell, rfl⟩⟩⟩

/-- **What happens to a host has an outcome**, if its connection is contained. -/
theorem Host.exists_meet_eq_ok (hconnection : host.connection = p.toConnection)
    (hdrives : host.application.Drives initial p []) (hp : p.Sound) (hwaits : p.WaitsFirst)
    (hcontained : p.Contained) (hfit : host.application.FitsIn p)
    (hfresh : happening = .start → p.Fresh)
    (hpacket : ∀ packet, happening = .arrival packet → packet.StopsInTime)
    (hresends : ∀ s ∈ p.inFlight.toList, happening = .alarm (.segment s.seq s.resends) →
      s.resends + 1 ≤ maxHalfWord) : ∃ meeting, host.meet now happening = .ok meeting := by
  cases happening with
  | start =>
    obtain ⟨response, hstart⟩ := Peer.exists_start_eq_ok now host.application (hfresh rfl)
    rw [← hconnection] at hstart
    exact ⟨_, Checked.bind_eq_ok_iff.2 ⟨_, hstart, rfl⟩⟩
  | arrival packet =>
    obtain ⟨c, r, hread⟩ := exists_onPacket_eq_ok hcontained hp hwaits (hpacket packet rfl)
      (hdrives.stream_fits hp hfit) now
    rw [meet, hconnection, hread]
    exact exists_heed_eq_ok hdrives hp (by cases host.application <;> rfl) hfit
      (moves_of_onPacket hread)
  | alarm watch =>
    have halarm : ∃ c r, p.onAlarm now watch = .ok (c, r) :=
      exists_onAlarm_eq_ok now fun s hs heq ↦ hresends s hs (congrArg _ heq)
    obtain ⟨c, r, hheard⟩ := halarm
    rw [meet, hconnection, hheard]
    exact exists_heed_eq_ok hdrives hp (by cases host.application <;> rfl) hfit
      (moves_of_onAlarm hheard)

end Simulation

/-! ### What a network does -/

namespace Network

variable {σ : Type} [DrawSource σ] {now : Nat} {n : Network σ}

/-- A copy arrives if it can do so before time is up. -/
theorem Transit.exists_arrival_eq_ok {t : Transit} (h : now + t.total ≤ maxWord) :
    ∃ time, t.arrival now = .ok time := by
  obtain ⟨delay, extra⟩ := t
  rw [arrival]
  cases extra with
  | none => exact ⟨_, Checked.bind_eq_ok_iff.2 ⟨_, addWithin_eq_ok_iff.2 ⟨h, rfl⟩, rfl⟩⟩
  | some extra =>
    have hsum : now + delay + extra ≤ maxWord := by
      rw [Nat.add_assoc]
      exact h
    exact ⟨_, Checked.bind_eq_ok_iff.2 ⟨_, addWithin_eq_ok_iff.2
      ⟨Nat.le_trans (Nat.le_add_right ..) hsum, rfl⟩, addWithin_eq_ok_iff.2 ⟨hsum, rfl⟩⟩⟩

/-- A packet is sent if all its copies arrive before time is up. -/
theorem exists_send_eq_ok (packet : Packet) (h : now + n.faults.latest ≤ maxWord) :
    ∃ sent, n.send now packet = .ok sent := by
  have hcopies : ∃ deliveries, ((Fate.draw n.faults n.source).1.copies.mapM fun copy ↦ do
      pure { time := ← copy.arrival now, packet : Delivery }) = .ok deliveries := by
    refine Checked.exists_mapM_eq_ok fun copy hmem ↦ ?_
    obtain ⟨time, htime⟩ := Transit.exists_arrival_eq_ok
      (Nat.le_trans (Nat.add_le_add_left (Fate.keeps_of_mem n.valid hmem).total_le now) h)
    exact ⟨_, Checked.bind_eq_ok_iff.2 ⟨_, htime, rfl⟩⟩
  obtain ⟨deliveries, hdeliveries⟩ := hcopies
  exact ⟨_, Checked.bind_eq_ok_iff.2 ⟨_, hdeliveries, rfl⟩⟩

end Network

namespace Simulation

variable {σ : Type} [DrawSource σ] {s : Simulation σ Peer} {id : Nat} {home : Endpoint}

/-- Packets that are sent now arrive before time is up. -/
structure Spacious (s : Simulation σ Peer) : Prop where
  /-- All is to come within the time there is. -/
  timely : s.agenda.Timely
  /-- No packet takes longer than that. -/
  latest_le : s.now + s.network.faults.latest ≤ maxWord

namespace Spacious

theorem exists_sendPacket_eq_ok (h : s.Spacious) (home : Endpoint) (packet : Packet) :
    ∃ s', s.sendPacket home packet = .ok s' ∧ s'.Spacious := by
  obtain ⟨sent, hsent⟩ := Network.exists_send_eq_ok packet h.latest_le
  have hsend : s.sendPacket home packet = .ok _ := Checked.bind_eq_ok_iff.2 ⟨_, hsent, rfl⟩
  have hcarries : Carries networkActor [packet] [] [] s _ := carries_sendPacket h.timely hsend
  refine ⟨_, hsend, hcarries.timely, ?_⟩
  rw [hcarries.now_eq, hcarries.faults_eq]
  exact h.latest_le

/-- What a host asks for is carried out, and there is as much room afterwards. -/
theorem exists_carryOut_eq_ok (h : s.Spacious) (id : Nat) (home : Endpoint) (effects : Effects) :
    ∃ s', s.carryOut id home effects = .ok s' ∧ s'.Spacious := by
  have hnotes := List.foldlRecOn (motive := Spacious) effects.notes
    (fun s note ↦ s.note (.noted home note)) h fun _ h _ _ ↦ { h with }
  have htraces := List.foldlRecOn (motive := Spacious) effects.traces
    (fun s event ↦ s.record home event) hnotes fun _ h _ _ ↦ { h with }
  obtain ⟨mid, hmid, -⟩ := Checked.exists_foldlM_eq_ok
    (fun packet h ↦ exists_sendPacket_eq_ok h home packet) effects.packets htraces
  have hcarry : s.carryOut id home effects = .ok _ := Checked.bind_eq_ok_iff.2 ⟨mid, hmid, rfl⟩
  have hcarries := carries_carryOut h.timely hcarry
  refine ⟨_, hcarry, hcarries.timely, ?_⟩
  rw [hcarries.now_eq, hcarries.faults_eq]
  exact h.latest_le

/-- **Whatever a host answers is carried out**, if packets that are sent now can arrive before time
is up. -/
theorem exists_follow_eq_ok (h : s.Spacious) (happening : Happening)
    (answer : Option (Answer Peer)) : ∃ s', s.follow happening answer = .ok s' := by
  cases answer with
  | none => exact ⟨_, rfl⟩
  | some a =>
    have hset : (s.setHost a.id a.host).Spacious := { h with }
    obtain ⟨s', hfollow, -⟩ := Checked.exists_foldlM_eq_ok
      (fun effects h ↦ exists_carryOut_eq_ok h a.id a.home effects) a.effects hset
    exact ⟨s', hfollow⟩

end Spacious

end Simulation

end ReliableStream
