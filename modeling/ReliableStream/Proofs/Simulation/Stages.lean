import ReliableStream.Proofs.Expected
import ReliableStream.Proofs.Simulation.Delivery
import ReliableStream.Proofs.Simulation.Due

/-!
# How far a handshake is

The handshake of a host has not begun, is going on, is done or has failed: the cases of `Stage`,
each with what the trace tells of it. One that is going on has its deadline on the agenda, and any
packet that would complete it comes later (`Party.DoneBy`). So it is done before the deadline is
taken, or not at all; that is why a packet that arrives at the instant of the deadline is too late.

A stage stays the same while nothing happens to the handshake (`Stage.stays`), and a host that acts
goes on from one to the next (`Stage.acts`). A handshake begins with a step if it `Opens` there.

Two things that could complete a handshake after its deadline have to be ruled out. What is under
way when a handshake begins is no reply to it (`Acts.not_doneBy`), and what is sent later has a
later number than the deadline, which was set when the handshake began. So of two entries at one
instant the deadline comes first.
-/

namespace ReliableStream

open Party

/-- A packet completes the handshake of a party that it goes to. -/
def Party.DoneBy (p : Party) (packet : Packet) : Prop :=
  packet.destination = p.home ∧ ∃ peer, p.Changes (.packet packet) .established peer

/-- What completes a handshake is a reply: an answer to an opening, or an acknowledgement of one. -/
theorem Party.DoneBy.isReply {p : Party} {packet : Packet} (h : p.DoneBy packet) :
    packet.kind.isReply = true := by
  obtain ⟨-, peer, hchanges⟩ := h
  cases hchanges with
  | opened _ hkind => rw [hkind]; rfl
  | complete _ hkind => rcases hkind with hkind | hkind <;> rw [hkind] <;> rfl

namespace Simulation

variable {σ : Type} {initial : Bytes → Prop} {s s' : Simulation σ Peer} {parties : List Party}
  {e : Agenda.Entry Happening} {agenda : Agenda Happening} {i id time : Nat} {peer : Peer}
  {host : Host Peer} {input : Input} {p q : Party} {r : Reaction} {began : List Nat}
  {watch : Alarm.Watch}

/-! ### Stages -/

/-- A handshake that began at an instant has its deadline on the agenda. -/
structure Pends (s : Simulation σ Peer) (id : Nat) (p : Party) (time : Nat)
    (d : Agenda.Entry Happening) : Prop where
  /-- It has begun. -/
  time_le : time ≤ s.now
  /-- The deadline is still to come. -/
  mem : d ∈ s.agenda.entries
  /-- It is the one of this handshake, and at the instant that the settings say. -/
  due : alarmOf? id d = some
    (saturatingAdd time p.settings.handshakeTimeout, .handshakeDeadline p.attempt)
  /-- All that completes the handshake comes after it. -/
  before : ∀ f ∈ s.agenda.entries, ∀ packet, arrivalOf? f = some packet → p.DoneBy packet →
    d.order < f.order
  /-- Nothing is told yet. -/
  quiet : s.outcomes p.home = []

/-- How far the handshake of a host is, and when it began. -/
inductive Stage (s : Simulation σ Peer) (id : Nat) (p : Party) : List Nat → Prop
  /-- It has not begun. -/
  | waiting (hstate : p.state = .closed ∨ p.state = .listening) (hpeer : p.peer = none)
    (hquiet : s.outcomes p.home = []) : Stage s id p []
  /-- It is going on. -/
  | going {time : Nat} {d : Agenda.Entry Happening}
    (hstate : p.state = .synSent ∨ p.state = .synReceived) (hpends : s.Pends id p time d) :
    Stage s id p [time]
  /-- It was done before the deadline. -/
  | done {time instant : Nat} {peer : Endpoint} (hstate : p.state = .established)
    (hle : time ≤ instant) (hlt : instant < saturatingAdd time p.settings.handshakeTimeout)
    (htold : s.outcomes p.home = [⟨instant, p.home, .established peer⟩]) : Stage s id p [time]
  /-- It failed at the deadline. -/
  | failed {time : Nat} (hstate : p.state = .closed) (hpeer : ∃ peer, p.peer = some peer)
    (htold : s.outcomes p.home =
      [⟨saturatingAdd time p.settings.handshakeTimeout, p.home, .handshakeFailed⟩]) :
    Stage s id p [time]

/-- A handshake of a host whose state says so is going on, and its deadline is on the agenda. -/
theorem Stage.exists_pends (h : s.Stage id p began)
    (hopening : p.state = .synSent ∨ p.state = .synReceived) :
    ∃ time d, began = [time] ∧ s.Pends id p time d := by
  have hne {state : Connection.State} (hstate : p.state = state)
      (hother : state ≠ .synSent ∧ state ≠ .synReceived) : False :=
    hopening.elim (fun hs ↦ hother.1 (hstate.symm.trans hs)) fun hs ↦
      hother.2 (hstate.symm.trans hs)
  cases h with
  | waiting hstate => rcases hstate with hs | hs <;> exact (hne hs (by simp)).elim
  | going _ hpends => exact ⟨_, _, rfl, hpends⟩
  | done hstate | failed hstate => exact (hne hstate (by simp)).elim

/-- A handshake that failed is told of, at its deadline. -/
theorem Stage.failed_of_mem (h : s.Stage id p began)
    (hmem : ⟨time, p.home, .handshakeFailed⟩ ∈ s.outcomes p.home) :
    p.state = .closed ∧
      ∃ start, began = [start] ∧ time = saturatingAdd start p.settings.handshakeTimeout := by
  cases h with
  | waiting _ _ hquiet => exact absurd hmem (by simp [hquiet])
  | going _ hpends => exact absurd hmem (by simp [hpends.quiet])
  | done _ _ _ htold => exact absurd hmem (by simp [htold])
  | @failed start hstate _ htold =>
    rw [htold] at hmem
    exact ⟨hstate, start, rfl, congrArg Trace.Record.time (List.mem_singleton.1 hmem)⟩

/-- A handshake that was done is told of, at an instant before its deadline. -/
theorem Stage.established_of_mem {place : Endpoint} (h : s.Stage id p began)
    (hmem : ⟨time, p.home, .established place⟩ ∈ s.outcomes p.home) :
    ∃ start, began = [start] ∧ start ≤ time ∧
      time < saturatingAdd start p.settings.handshakeTimeout := by
  cases h with
  | waiting _ _ hquiet => exact absurd hmem (by simp [hquiet])
  | going _ hpends => exact absurd hmem (by simp [hpends.quiet])
  | failed _ _ htold => exact absurd hmem (by simp [htold])
  | @done start instant _ _ hle hlt htold =>
    rw [htold] at hmem
    obtain rfl : time = instant := congrArg Trace.Record.time (List.mem_singleton.1 hmem)
    exact ⟨start, rfl, hle, hlt⟩

/-- One handshake at most has begun, and at most one has ended. -/
theorem Stage.length_le (h : s.Stage id p began) :
    began.length ≤ 1 ∧ (s.outcomes p.home).length ≤ 1 := by
  cases h with
  | waiting _ _ hquiet => simp [hquiet]
  | going _ hpends => simp [hpends.quiet]
  | done _ _ _ htold | failed _ _ htold => simp [htold]

/-- A handshake that is going on is not past its deadline. -/
theorem Pends.now_le {d : Agenda.Entry Happening} (h : s.Pends id p time d) :
    s.now ≤ saturatingAdd time p.settings.handshakeTimeout := by
  obtain ⟨-, -, hdue⟩ := eq_of_alarmOf? h.due
  exact hdue ▸ s.agenda.ahead d h.mem

/-! ### Nothing happens -/

/-- The simulation goes on, and nothing happens to the handshake of a party. -/
structure Spares (id : Nat) (p : Party) (s s' : Simulation σ Peer) : Prop where
  /-- The clock is not set back. -/
  now_le : s.now ≤ s'.now
  /-- Its deadline is still to come. -/
  kept : p.state = .synSent ∨ p.state = .synReceived → ∀ f ∈ s.agenda.entries, ∀ time,
    alarmOf? id f = some (time, .handshakeDeadline p.attempt) → f ∈ s'.agenda.entries
  /-- What arrives is not new, or comes after all that there was. -/
  arrivals : ∀ f ∈ s'.agenda.entries, (arrivalOf? f).isSome →
    f ∈ s.agenda.entries ∨ s.agenda.added ≤ f.order
  /-- Nothing is told of it. -/
  outcomes_eq : s'.outcomes p.home = s.outcomes p.home

/-- **The handshake is as far as it was**, if nothing happens to it and the state of the party stays
the same. -/
theorem Stage.stays (h : s.Stage id p began) (hspares : Spares id p s s') (hstays : Stays p r q)
    (hlater : p.Later q) : s'.Stage id q began := by
  have hhome := hlater.home_eq
  have hsettings := hlater.settings_eq
  have houtcomes : s'.outcomes q.home = s.outcomes p.home := hhome ▸ hspares.outcomes_eq
  cases h with
  | waiting hstate hpeer hquiet =>
    exact .waiting (hstays.state_eq ▸ hstate) (hstays.peer_eq.trans hpeer)
      (houtcomes.trans hquiet)
  | @going _ d hstate hpends =>
    refine .going (hstays.state_eq ▸ hstate)
      { time_le := Nat.le_trans hpends.time_le hspares.now_le
        mem := hspares.kept hstate d hpends.mem _ hpends.due
        due := ?_
        before := fun f hf packet hpacket ⟨hdestination, peer, hchanges⟩ ↦ ?_
        quiet := houtcomes.trans hpends.quiet }
    · rw [hsettings, hstays.attempt_eq]
      exact hpends.due
    · -- What is new on the agenda has a higher number than the deadline.
      rcases hspares.arrivals f hf (by simp [hpacket]) with hold | hnew
      · exact hpends.before f hold packet hpacket
          ⟨hdestination.trans hhome, peer, hstays.changes hchanges⟩
      · exact Nat.lt_of_lt_of_le (s.agenda.numbered d hpends.mem) hnew
  | done hstate hle hlt htold =>
    exact .done (hstays.state_eq.trans hstate) hle (hsettings ▸ hlt)
      (by rw [houtcomes, htold, hhome])
  | failed hstate hpeer htold =>
    exact .failed (hstays.state_eq.trans hstate) (hstays.peer_eq ▸ hpeer)
      (by rw [houtcomes, htold, hhome, hsettings])

/-- Nothing happens to the host at all. -/
theorem Stage.spared (h : s.Stage id p began) (hspares : Spares id p s s') : s'.Stage id p began :=
  h.stays hspares (.refl p) (.refl p)

/-- A handshake of a party without a peer has not begun. -/
theorem Stage.eq_nil (h : s.Stage id p began) (hstate : p.state = .closed ∨ p.state = .listening)
    (hnone : p.peer = none) : began = [] := by
  cases h with
  | waiting => rfl
  | going hother =>
    rcases hstate with hs | hs <;> rcases hother with hother | hother <;>
      exact absurd (hs.symm.trans hother) (by simp)
  | done hother => rcases hstate with hs | hs <;> exact absurd (hs.symm.trans hother) (by simp)
  | failed _ hpeer =>
    obtain ⟨peer, hsome⟩ := hpeer
    exact absurd (hnone.symm.trans hsome) (by simp)

/-! ### Beginnings -/

/-- The handshake of a host begins with a step. -/
inductive Opens (id : Nat) (s s' : Simulation σ Peer) : Prop
  /-- A client starts. -/
  | start {e : Agenda.Entry Happening} {agenda : Agenda Happening} {host : Host Peer}
    {address : Endpoint} {message : Bytes} (hnext : s.agenda.next? = some (e, agenda))
    (haction : e.action = .model .start) (htarget : e.target = id) (hhost : s.host? id = some host)
    (hclient : host.application = .client address message) : Opens id s s'
  /-- An opening arrives, and a server does not wait for one any longer. -/
  | accept {e : Agenda.Entry Happening} {agenda : Agenda Happening} {packet : Packet}
    {host host' : Host Peer} {inbox : Bytes} (hnext : s.agenda.next? = some (e, agenda))
    (haction : e.action = .model (.arrival packet)) (hkind : packet.kind = .syn)
    (hhost : s.host? id = some host) (hserver : host.application = .server inbox)
    (hstate : host.connection.state = .listening) (hhost' : s'.host? id = some host')
    (hstate' : host'.connection.state ≠ .listening) : Opens id s s'

/-- The instants at which handshakes of a host began, before a step and after it. -/
structure Dates (id : Nat) (s s' : Simulation σ Peer) (began began' : List Nat) : Prop where
  /-- A handshake that begins is dated. -/
  opens : s.Opens id s' → began' = began ++ [s'.now]
  /-- Otherwise there is nothing to date. -/
  rests : ¬ s.Opens id s' → began' = began

/-- Only a client that starts can begin a handshake without becoming another host. -/
theorem Opens.start_of_host_eq (h : Opens id s s') (hhost : s'.host? id = s.host? id) :
    ∃ e agenda, s.agenda.next? = some (e, agenda) ∧ e.action = .model .start ∧ e.target = id := by
  cases h with
  | start hnext haction htarget => exact ⟨_, _, hnext, haction, htarget⟩
  | accept _ _ _ hbefore _ hstate hafter hstate' =>
    obtain rfl := Option.some.inj (hbefore.symm.trans (hhost.symm.trans hafter))
    exact absurd hstate hstate'

/-! ### What reaches a host -/

/-- What reaches a host is no alarm of another one. -/
theorem Reaches.alarmOf?_of_ne (h : Reaches s e i peer p input) (hne : id ≠ i + 1) :
    alarmOf? id e = none := by
  refine Option.eq_none_iff_forall_ne_some.2 fun ⟨time, watch⟩ halarm ↦ ?_
  obtain ⟨halarm, htarget, -⟩ := eq_of_alarmOf? halarm
  cases h with
  | start haction | arrival haction => exact absurd (haction.symm.trans halarm) (by simp)
  | alarm _ hother => exact hne (htarget.symm.trans hother)

/-- An alarm that reaches a host is what rings. -/
theorem Reaches.eq_alarm (h : Reaches s e i peer p input)
    (haction : e.action = .model (.alarm watch)) : input = .alarm watch := by
  cases h with
  | start hother | arrival hother => exact absurd (haction.symm.trans hother) (by simp)
  | alarm hother =>
    obtain rfl := Happening.alarm.inj (Agenda.Action.model.inj (haction.symm.trans hother))
    rfl

/-- What opens a party reaches only one that was never opened, for a host starts only once. -/
theorem Reaches.fresh_of_opens (h : Reaches s e i peer p input) (hopens : input.opens = true) :
    p.Fresh := by
  cases h with
  | start _ _ hfresh => exact hfresh
  | arrival | alarm => exact absurd hopens (by simp [Input.opens])

/-- A packet that reaches a host arrives where the host is registered. -/
theorem Reaches.of_packet {packet : Packet} (h : Reaches s e i peer p (.packet packet)) :
    e.action = .model (.arrival packet) ∧
      s.network.actorAt? packet.destination = some (i + 1) := by
  generalize hinput : Input.packet packet = input at h
  cases h with
  | start => exact absurd hinput.symm ((Input.ne_of_opens peer.opens_opening).2 packet)
  | alarm => exact absurd hinput (by simp)
  | arrival haction hactor =>
    obtain rfl := Input.packet.inj hinput
    exact ⟨haction, hactor⟩

/-- An alarm that reaches a host was set for it. -/
theorem Reaches.of_alarm (h : Reaches s e i peer p (.alarm watch)) :
    alarmOf? (i + 1) e = some (e.time, watch) := by
  generalize hinput : Input.alarm watch = input at h
  cases h with
  | start => exact absurd hinput.symm ((Input.ne_of_opens peer.opens_opening).1 watch)
  | arrival => exact absurd hinput (by simp)
  | alarm haction htarget =>
    obtain rfl := Input.alarm.inj hinput
    rw [alarmOf?, haction]
    exact if_pos htarget

/-! ### A host acts -/

section Acting

variable (hacts : Acts initial (i + 1) peer input p r q { s with agenda } s')
  (hnext : s.agenda.next? = some (e, agenda)) (hreaches : Reaches s e i peer p input)

include hacts hnext

/-- Whatever is new on the agenda was added last, so its number is higher than all there were. -/
theorem Acts.added : ∀ f ∈ s'.agenda.entries, f ∈ s.agenda.entries ∨ s.agenda.added ≤ f.order := by
  obtain ⟨host, -, -, -, hcarries⟩ := hacts.carries
  intro f hf
  refine (hcarries.added.2 f hf).imp (fun hold ↦ ?_) fun hnew ↦ ?_
  · rw [(Agenda.next?_eq_some hnext).1]
    exact List.mem_cons_of_mem _ hold
  · exact Agenda.added_of_next? hnext ▸ hnew.1

/-- What the trace tells of the party is what it told before, and what ends a handshake now. -/
theorem Acts.outcomes_eq : s'.outcomes p.home =
    s.outcomes p.home ++ (r.traces.filter Trace.Event.isOutcome).map (⟨e.time, p.home, ·⟩) := by
  have hnow : ({ s with agenda } : Simulation σ Peer).now = e.time := (passes_next hnext).now_eq
  rw [hacts.tells.own, hnow]
  rfl

/-! ### A handshake begins -/

/-- A handshake that begins has its deadline on the agenda, as far away as the settings say. -/
theorem Acts.exists_deadline (hplays : s.Plays initial (i + 1) host p) (honce : p.Once input)
    (hattempt : p.attempt = 0) (hne : p.state ≠ .established)
    (hinput : ∀ watch, input ≠ .alarm watch)
    (hstate : q.state = .synSent ∨ q.state = .synReceived) :
    ∃ d ∈ s'.agenda.entries, alarmOf? (i + 1) d = some
      (saturatingAdd e.time p.settings.handshakeTimeout, .handshakeDeadline q.attempt) := by
  obtain ⟨host', -, -, -, hcarries⟩ := hacts.carries
  have hnow : ({ s with agenda } : Simulation σ Peer).now = e.time := (passes_next hnext).now_eq
  -- There was no alarm before, so all there are now were set just now.
  have hnil : s.alarmsOf (i + 1) = [] := hplays.watched.eq_nil hattempt hne
  have hwatched := hacts.turn.watched (hnil ▸ hplays.watched) hplays.sound honce hinput
  obtain ⟨time, hdeadline⟩ := hwatched.deadline hstate
  rw [hnow, List.append_nil] at hdeadline
  have hmem : (time, .handshakeDeadline q.attempt) ∈ r.alarms.map (Alarm.due e.time) :=
    List.mem_of_mem_filter (hdeadline ▸ List.mem_singleton.2 rfl)
  have hset : (time, .handshakeDeadline q.attempt) ∈ s'.alarmsOf (i + 1) :=
    hcarries.alarms_perm.mem_iff.2 (List.mem_append_left _ (hnow ▸ hmem))
  obtain ⟨alarm, halarm, hdue⟩ := List.mem_map.1 hmem
  obtain ⟨d, hd, heq⟩ := List.mem_filterMap.1 hset
  refine ⟨d, hd, heq.trans ?_⟩
  rw [← hdue, Alarm.due, (hacts.turn.proceeds hplays.sound hinput).delay_eq alarm halarm,
    (Prod.mk.inj hdue).2]
  rfl

/-- **Nothing is under way that would complete a handshake that begins.** What was under way before
is no reply to a party without a peer, and the party itself sends no reply that it would take for
one. -/
theorem Acts.not_doneBy (hexpected : Expected parties s.underway)
    (hnodup : (parties.map (·.home)).Nodup) (hp : p ∈ parties) (hsound : p.Sound)
    (hpeer : p.peer = none) : ∀ f ∈ s'.agenda.entries, ∀ packet, arrivalOf? f = some packet →
      ¬ q.DoneBy packet := by
  intro f hf packet hpacket hdone
  have hreply := hdone.isReply
  obtain ⟨hdestination, peer, hchanges⟩ := hdone
  rcases hacts.underway hnext packet (List.mem_filterMap.2 ⟨f, hf, hpacket⟩) with hold | hnew
  · have hnot := hexpected.not_isReply hnodup hp hpeer hold
      (hdestination.trans (hacts.turn.later hsound).home_eq)
    exact absurd (hnot.symm.trans hreply) (by simp)
  · -- Whoever replies has answered an opening, and waits for something else, or is established.
    rcases hacts.turn.state_of_isReply hsound hnew hreply with ⟨hkind, hstate⟩ | ⟨-, hstate⟩
    · cases hchanges with
      | opened hother => exact absurd (hstate.symm.trans hother) (by simp)
      | complete _ hother =>
        rcases hother with hother | hother <;> exact absurd (hkind.symm.trans hother) (by simp)
    · exact not_changes_of_established hstate hchanges

/-- **A handshake begins.** Its deadline is set, and nothing that would complete it is there yet. -/
theorem Stage.begin (h : s.Stage (i + 1) p []) (hplays : s.Plays initial (i + 1) host p)
    (honce : p.Once input) (hattempt : p.attempt = 0) (hpeer : p.peer = none)
    (hexpected : Expected parties s.underway) (hnodup : (parties.map (·.home)).Nodup)
    (hp : p ∈ parties) (henters : Enters input p r q) (hinput : ∀ watch, input ≠ .alarm watch)
    (hstate : q.state = .synSent ∨ q.state = .synReceived) : s'.Stage (i + 1) q [s'.now] := by
  cases h with
  | waiting hbefore _ hquiet =>
    have hlater := hacts.turn.later hplays.sound
    have hne : p.state ≠ .established := by rcases hbefore with hs | hs <;> simp [hs]
    obtain ⟨d, hd, hdue⟩ := hacts.exists_deadline hnext hplays honce hattempt hne hinput hstate
    have hsilent : s'.outcomes p.home = [] := by
      rw [hacts.outcomes_eq hnext, hquiet, henters.traces_eq]
      rcases hbefore with hs | hs <;> rcases hstate with hs' | hs' <;> simp [outcomeTraces, hs, hs']
    rw [(hacts.passes hnext).now_eq]
    refine .going hstate
      { time_le := Nat.le_of_eq (hacts.passes hnext).now_eq.symm
        mem := hd
        due := ?_
        before := fun f hf packet hpacket hdone ↦ absurd hdone
          (hacts.not_doneBy hnext hexpected hnodup hp hplays.sound hpeer f hf packet hpacket)
        quiet := hlater.home_eq ▸ hsilent }
    rw [hlater.settings_eq]
    exact hdue

/-! ### A handshake is done, or fails -/

/-- **The handshake is done**, before its deadline is taken: the packet has a later number, so it
comes at an earlier instant. -/
theorem Stage.complete {packet : Packet} (h : s.Stage (i + 1) p began)
    (hhome : packet.destination = p.home) (haction : e.action = .model (.arrival packet))
    (hsound : p.Sound) (henters : Enters (.packet packet) p r q)
    (hopening : p.state = .synSent ∨ p.state = .synReceived) (hstate : q.state = .established)
    (hpeer : q.peer = some packet.source) : s'.Stage (i + 1) q began := by
  have hlater := hacts.turn.later hsound
  have hpasses := hacts.passes hnext
  obtain ⟨time, d, rfl, hpends⟩ := h.exists_pends hopening
  have hchanges := henters.changes
  rw [hstate] at hchanges
  have he : e ∈ s.agenda.entries := (Agenda.next?_eq_some hnext).1 ▸ List.mem_cons_self ..
  have horder : d.order < e.order :=
    hpends.before e he packet (by rw [arrivalOf?, haction]) ⟨hhome, _, hchanges⟩
  obtain ⟨-, -, htime⟩ := eq_of_alarmOf? hpends.due
  -- At one and the same instant the deadline would have been taken first.
  have hlt : e.time < d.time := by
    rcases hpasses.first d hpends.mem with rfl | hbefore
    · exact absurd horder (Nat.lt_irrefl _)
    · rw [Agenda.Entry.Before] at hbefore
      omega
  have htold : s'.outcomes p.home = [⟨e.time, p.home, .established packet.source⟩] := by
    rw [hacts.outcomes_eq hnext, hpends.quiet, henters.traces_eq]
    rcases hopening with hs | hs <;> simp [outcomeTraces, hs, hstate, hpeer]
  refine .done hstate (Nat.le_trans hpends.time_le hpasses.now_le) ?_ (hlater.home_eq ▸ htold)
  rw [hlater.settings_eq, ← htime]
  exact hlt

/-- **The deadline is taken, and the handshake has failed.** -/
theorem Stage.giveUp (h : s.Stage (i + 1) p began) (hplays : s.Plays initial (i + 1) host p)
    (halarm : alarmOf? (i + 1) e = some (e.time, .handshakeDeadline p.attempt))
    (henters : Enters input p r q) (hopening : p.state = .synSent ∨ p.state = .synReceived)
    (hstate : q.state = .closed) (hpeer : q.peer = p.peer) : s'.Stage (i + 1) q began := by
  have hlater := hacts.turn.later hplays.sound
  obtain ⟨time, d, rfl, hpends⟩ := h.exists_pends hopening
  have he : e ∈ s.agenda.entries := (Agenda.next?_eq_some hnext).1 ▸ List.mem_cons_self ..
  -- There is one deadline, so this is the one that was set when the handshake began.
  obtain ⟨instant, hone⟩ := hplays.watched.deadline hopening
  have heq {f : Agenda.Entry Happening} {due : Nat} (hf : f ∈ s.agenda.entries)
      (hset : alarmOf? (i + 1) f = some (due, .handshakeDeadline p.attempt)) : due = instant := by
    have hmem : (due, Alarm.Watch.handshakeDeadline p.attempt) ∈
        (s.alarmsOf (i + 1)).filter (·.2.isDeadline) :=
      List.mem_filter.2 ⟨List.mem_filterMap.2 ⟨f, hf, hset⟩, rfl⟩
    rw [hone] at hmem
    exact (Prod.mk.inj (List.mem_singleton.1 hmem)).1
  have htime := (heq he halarm).trans (heq hpends.mem hpends.due).symm
  have htold : s'.outcomes p.home = [⟨e.time, p.home, .handshakeFailed⟩] := by
    rw [hacts.outcomes_eq hnext, hpends.quiet, henters.traces_eq]
    rcases hopening with hs | hs <;> simp [outcomeTraces, hs, hstate]
  refine .failed hstate (hpeer ▸ (hplays.sound.opening hopening).2) ?_
  rw [hlater.home_eq, hlater.settings_eq, ← htime]
  exact htold

/-- A host that begins to wait for an opening has told nothing so far. -/
theorem Stage.listen (h : s.Stage (i + 1) p []) (hsound : p.Sound) (henters : Enters input p r q)
    (hstate : p.state = .closed) (hstate' : q.state = .listening) (hpeer : q.peer = none) :
    s'.Stage (i + 1) q [] := by
  cases h with
  | waiting _ _ hquiet =>
    refine .waiting (.inr hstate') hpeer ?_
    rw [(hacts.turn.later hsound).home_eq, hacts.outcomes_eq hnext, hquiet, henters.traces_eq]
    simp [outcomeTraces, hstate, hstate']

/-! ### A handshake stays as it is -/

include hreaches

/-- A host acts, and its state stays the same. Then its deadline was not what rang, as that would
have closed it. -/
theorem Acts.spares (hstays : Stays p r q) : Spares (i + 1) p s s' where
  now_le := (hacts.passes hnext).now_le_now
  kept hstate f hf time halarm := by
    refine ((hacts.passes hnext).kept f hf).resolve_left ?_
    rintro rfl
    -- A deadline in force would not leave the state as it was.
    obtain rfl := hreaches.eq_alarm (eq_of_alarmOf? halarm).1
    exact (hacts.turn.enters (.giveUp hstate)).changes.state_ne hstays.state_eq
  arrivals f hf _ := hacts.added hnext f hf
  outcomes_eq := by rw [hacts.outcomes_eq hnext, hstays.traces_eq, List.map_nil, List.append_nil]

/-- Nothing happens to a party somewhere else: no alarm of it rang, and nothing is told of its
place. -/
theorem Acts.spares_other {other : Party} (hne : id ≠ i + 1) (hhome : other.home ≠ p.home) :
    Spares id other s s' where
  now_le := (hacts.passes hnext).now_le_now
  kept _ f hf time halarm := by
    refine ((hacts.passes hnext).kept f hf).resolve_left ?_
    rintro rfl
    exact absurd ((hreaches.alarmOf?_of_ne hne).symm.trans halarm) (by simp)
  arrivals f hf _ := hacts.added hnext f hf
  outcomes_eq := hacts.tells.others other.home hhome

end Acting

/-! ### What a host that acts does to its handshake -/

/-- The host afterwards is the party afterwards. -/
theorem Acts.exists_host? (hi : s.hosts[i]? = some host)
    (hacts : Acts initial (i + 1) peer input p r q { s with agenda } s') :
    ∃ host', s'.host? (i + 1) = some host' ∧ host'.connection = q.toConnection := by
  obtain ⟨host', hq, -, -, hcarries⟩ := hacts.carries
  obtain ⟨hlt, -⟩ := List.getElem?_eq_some_iff.1 hi
  refine ⟨host', ?_, hq⟩
  rw [host?, hcarries.hosts_eq]
  exact List.getElem?_set_self hlt

/-- A client that starts begins a handshake. -/
theorem Reaches.opens_of_connect {address : Endpoint}
    (h : Reaches s e i host.application p (.connect address))
    (hnext : s.agenda.next? = some (e, agenda)) (hi : s.hosts[i]? = some host) :
    s.Opens (i + 1) s' := by
  generalize hinput : Input.connect address = input at h
  cases h with
  | arrival | alarm => exact absurd hinput (by simp)
  | start haction htarget =>
    cases hpeer : host.application with
    | client => exact .start hnext haction htarget hi hpeer
    | server => exact absurd hinput (by simp [hpeer, Peer.opening])

/-- A server that gets the opening it waits for begins a handshake. -/
theorem Reaches.opens_of_accept {packet : Packet}
    (h : Reaches s e i host.application p (.packet packet)) (hi : s.hosts[i]? = some host)
    (hplays : s.Plays initial (i + 1) host p)
    (hacts : Acts initial (i + 1) host.application (.packet packet) p r q { s with agenda } s')
    (hnext : s.agenda.next? = some (e, agenda)) (hstate : p.state = .listening)
    (hkind : packet.kind = .syn) (hstate' : q.state = .synReceived) : s.Opens (i + 1) s' := by
  obtain ⟨host', hhost', hq⟩ := hacts.exists_host? hi
  have hdrives := hplays.drives
  cases hpeer : host.application with
  | client =>
    rw [hpeer] at hdrives
    exact absurd hstate hdrives.opens.1
  | server =>
    exact .accept hnext h.of_packet.1 hkind hi hpeer (by rw [hplays.connection_eq, hstate]) hhost'
      (by simp [hq, hstate'])

/-- A handshake of a host that acts begins if it connects or does not wait any longer, and in no
other way. -/
theorem Opens.of_acts (h : s.Opens (i + 1) s') (hi : s.hosts[i]? = some host)
    (hconnection : host.connection = p.toConnection)
    (hacts : Acts initial (i + 1) host.application input p r q { s with agenda } s')
    (hnext : s.agenda.next? = some (e, agenda))
    (hreaches : Reaches s e i host.application p input) :
    (p.state = .closed ∧ ∃ address, input = .connect address) ∨
      p.state = .listening ∧ q.state ≠ .listening := by
  cases h with
  | start hother haction _ hhost hclient =>
    obtain ⟨rfl, -⟩ := Prod.mk.inj (Option.some.inj (hnext.symm.trans hother))
    obtain rfl := Option.some.inj (hi.symm.trans hhost)
    cases hreaches with
    | arrival hother | alarm hother => exact absurd (haction.symm.trans hother) (by simp)
    | start _ _ hfresh => exact .inl ⟨hfresh.state_eq, by simp [hclient, Peer.opening]⟩
  | accept _ _ _ hhost _ hstate hhost' hstate' =>
    obtain rfl := Option.some.inj (hi.symm.trans hhost)
    obtain ⟨after, hafter, hq⟩ := hacts.exists_host? hi
    obtain rfl := Option.some.inj (hafter.symm.trans hhost')
    rw [hconnection] at hstate
    rw [hq] at hstate'
    exact .inr ⟨hstate, hstate'⟩

/-- Nobody else begins a handshake when a host acts. -/
theorem Reaches.not_opens (h : Reaches s e i peer p input)
    (hnext : s.agenda.next? = some (e, agenda)) (hne : id ≠ i + 1)
    (hhost : s'.host? id = s.host? id) : ¬ s.Opens id s' := by
  intro hopens
  obtain ⟨e', agenda', hnext', haction, htarget⟩ := hopens.start_of_host_eq hhost
  obtain ⟨rfl, -⟩ := Prod.mk.inj (Option.some.inj (hnext.symm.trans hnext'))
  cases h with
  | start _ hother => exact hne (htarget.symm.trans hother)
  | arrival hother | alarm hother => exact absurd (haction.symm.trans hother) (by simp)

/-- **A host that acts changes its state, and its handshake goes on as the change says.** There is
one case for each line of the table of state changes. -/
theorem Stage.acts_of_enters {began' : List Nat} (h : s.Stage (i + 1) p began)
    (hplays : s.Plays initial (i + 1) host p)
    (hi : s.hosts[i]? = some host) (hp : parties[i]? = some p)
    (hacts : Acts initial (i + 1) host.application input p r q { s with agenda } s')
    (hnext : s.agenda.next? = some (e, agenda)) (honce : p.Once input)
    (hreaches : Reaches s e i host.application p input)
    (hexpected : Expected parties s.underway) (hnodup : (parties.map (·.home)).Nodup)
    (hrouted : s.Routed parties) (hdates : Dates (i + 1) s s' began began')
    (henters : Enters input p r q) : s'.Stage (i + 1) q began' := by
  have hmem : p ∈ parties := List.mem_of_getElem? hp
  -- Only connecting, and not waiting any longer, begin a handshake.
  have hrests (hinput : ∀ address, input ≠ .connect address) (hne : p.state ≠ .listening) :
      ¬ s.Opens (i + 1) s' := fun hopens ↦
    match hopens.of_acts hi hplays.connection_eq hacts hnext hreaches with
    | .inl ⟨_, address, hconnect⟩ => hinput address hconnect
    | .inr ⟨hlistening, _⟩ => hne hlistening
  have hchanges := henters.changes
  generalize hstate' : q.state = state at hchanges
  generalize hpeer' : q.peer = peer at hchanges
  cases hchanges with
  | connect hstate =>
    have hfresh : p.Fresh := hreaches.fresh_of_opens rfl
    obtain rfl := h.eq_nil (.inl hstate) hfresh.peer_eq
    rw [hdates.opens (hreaches.opens_of_connect hnext hi)]
    exact h.begin hacts hnext hplays honce hfresh.attempt_eq hfresh.peer_eq hexpected hnodup hmem
      henters (by simp) (.inl hstate')
  | listen hstate =>
    have hfresh : p.Fresh := hreaches.fresh_of_opens rfl
    obtain rfl := h.eq_nil (.inl hstate) hfresh.peer_eq
    rw [hdates.rests (hrests (by simp) (by simp [hstate]))]
    exact h.listen hacts hnext hplays.sound henters hstate hstate' hpeer'
  | accept hstate hkind =>
    obtain ⟨hattempt, hnone⟩ := honce.waits hstate
    obtain rfl := h.eq_nil (.inr hstate) hnone
    rw [hdates.opens (hreaches.opens_of_accept hi hplays hacts hnext hstate hkind hstate')]
    exact h.begin hacts hnext hplays honce hattempt hnone hexpected hnodup hmem henters (by simp)
      (.inr hstate')
  | opened hstate =>
    obtain ⟨haction, hactor⟩ := hreaches.of_packet
    rw [hdates.rests (hrests (by simp) (by simp [hstate]))]
    exact h.complete hacts hnext (hrouted.home_eq hactor hp).symm haction hplays.sound henters
      (.inl hstate) hstate' hpeer'
  | complete hstate =>
    obtain ⟨haction, hactor⟩ := hreaches.of_packet
    rw [hdates.rests (hrests (by simp) (by simp [hstate]))]
    exact h.complete hacts hnext (hrouted.home_eq hactor hp).symm haction hplays.sound henters
      (.inr hstate) hstate' hpeer'
  | giveUp hstate =>
    rw [hdates.rests (hrests (by simp) (by rcases hstate with hs | hs <;> simp [hs]))]
    exact h.giveUp hacts hnext hplays hreaches.of_alarm henters hstate hstate' hpeer'

/-- A host that acts and stays in its state does not begin a handshake, and ends none. -/
theorem Stage.acts_of_stays {began' : List Nat} (h : s.Stage (i + 1) p began)
    (hplays : s.Plays initial (i + 1) host p) (hi : s.hosts[i]? = some host)
    (hacts : Acts initial (i + 1) host.application input p r q { s with agenda } s')
    (hnext : s.agenda.next? = some (e, agenda))
    (hreaches : Reaches s e i host.application p input)
    (hdates : Dates (i + 1) s s' began began') (hstays : Stays p r q) :
    s'.Stage (i + 1) q began' := by
  rw [hdates.rests]
  · exact h.stays (hacts.spares hnext hreaches hstays) hstays (hacts.turn.later hplays.sound)
  · intro hopens
    rcases hopens.of_acts hi hplays.connection_eq hacts hnext hreaches with
      ⟨hclosed, address, rfl⟩ | ⟨hlistening, hne⟩
    · exact (hacts.turn.enters (.connect hclosed)).changes.state_ne hstays.state_eq
    · exact hne (hstays.state_eq.trans hlistening)

/-- **A host acts, and its handshake goes on.** -/
theorem Stage.acts {began' : List Nat} (h : s.Stage (i + 1) p began)
    (hplays : s.Plays initial (i + 1) host p)
    (hi : s.hosts[i]? = some host) (hp : parties[i]? = some p)
    (hacts : Acts initial (i + 1) host.application input p r q { s with agenda } s')
    (hnext : s.agenda.next? = some (e, agenda)) (honce : p.Once input)
    (hreaches : Reaches s e i host.application p input)
    (hexpected : Expected parties s.underway) (hnodup : (parties.map (·.home)).Nodup)
    (hrouted : s.Routed parties) (hdates : Dates (i + 1) s s' began began') :
    s'.Stage (i + 1) q began' := by
  rcases hacts.turn.enters_or_stays with henters | hstays
  · exact h.acts_of_enters hplays hi hp hacts hnext honce hreaches hexpected hnodup hrouted hdates
      henters
  · exact h.acts_of_stays hplays hi hacts hnext hreaches hdates hstays

end Simulation

end ReliableStream
