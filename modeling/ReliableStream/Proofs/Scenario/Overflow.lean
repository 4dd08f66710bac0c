import ReliableStream.Proofs.Scenario.Completion
import ReliableStream.Proofs.Simulation.Room
import ReliableStream.Proofs.Simulation.Termination

/-!
# No addition overflows

A scenario is `Admissible` up to an instant if its settings are valid, packets that are sent by then
arrive within the time there is, no segment can have been sent again too often by then to be
counted, and the message is not too long. Then every step of a run up to that instant has a result,
whatever is drawn, and the run comes to its end (`Admissible.never_overflows`). The places may be
those of one host: nothing is said about where the server and the client are.

The run is followed step by step. What happens does so before the end (`Ends`), and until then
`Roomy` is kept: what the connections count is contained.

A step can overflow in three ways: a packet could arrive after the end of time, a count of a
connection could leave its word, or an application could hand over more than there are places.
`Spacious`, `Contained` and `FitsIn` exclude one each.
-/

namespace ReliableStream.Scenario

open Party Simulation

variable {σ : Type} {sc : Scenario} {s s' : Simulation σ Peer} {stop now id : Nat} {p q : Party}
  {parties : List Party} {input : Input} {r : Reaction} {host host' : Host Peer}
  {effects : List Effects} {e k : Agenda.Entry Happening} {agenda : Agenda Happening}
  {happening : Happening}

/-- A scenario whose numbers are small enough for a run up to an instant. -/
structure Admissible (sc : Scenario) (stop : Nat) : Prop where
  /-- The network can misbehave so. -/
  faults : sc.faults.Valid
  /-- Connections can behave so. -/
  settings : sc.settings.Valid
  /-- The client starts within the time there is. -/
  clientStart_le : sc.clientStart ≤ maxWord
  /-- What is sent before the end arrives within the time there is. -/
  arrival_le : stop + sc.faults.maxDelay + sc.faults.maxExtra ≤ maxWord
  /-- How often a segment is sent again before the end fits in half a word. -/
  stop_lt : stop < halfWordCount * sc.settings.rto
  /-- The message has a place after every initial sequence number. -/
  message_lt : sc.message.length < 2 ^ 63

/-- What a host of a scenario counts is contained, and what it has to send has a place. -/
structure HasRoom (sc : Scenario) (host : Host Peer) : Prop where
  /-- What it counts is contained. -/
  contained : host.connection.Contained
  /-- It behaves as the scenario says. -/
  settings_eq : host.connection.settings = sc.settings
  /-- Its initial sequence number is half a word. -/
  isn_lt : host.connection.isn < maxHalfWord
  /-- It has nothing to send but the message. -/
  message_eq : ∀ address message,
    host.application.task = some (address, message) → message = sc.message

/-- What a host has still to hand over has a place in its stream. -/
theorem HasRoom.fitsIn (h : sc.HasRoom host) (hmessage : sc.message.length < 2 ^ 63)
    (hconnection : host.connection = p.toConnection) : host.application.FitsIn p := by
  intro address message htask
  have hisn := h.isn_lt
  rw [hconnection] at hisn
  rw [h.message_eq address message htask, Connection.firstByte, saturatingAdd]
  simp only [maxWord, maxHalfWord] at hisn ⊢
  omega

/-- A host that has its turn has room afterwards. -/
theorem HasRoom.turn (h : sc.HasRoom host) (hconnection : host.connection = p.toConnection)
    (hp : p.Sound) (hrings : p.RingsOnTime now input)
    (hpacket : ∀ packet, input = .packet packet → packet.StopsInTime)
    (hturn : Host.HasTurn now input p r q host.application host' effects) : sc.HasRoom host' := by
  obtain ⟨hcontained, hsettings, hisn, hmessage⟩ := h
  rw [hconnection] at hcontained hsettings hisn
  have hlater := hturn.turn.later hp
  exact
    { contained := hturn.connection_eq ▸ hturn.turn.contained hcontained hp hrings hpacket
      settings_eq := hturn.connection_eq ▸ hlater.settings_eq.trans hsettings
      isn_lt := by rw [hturn.connection_eq, hlater.isn_eq]; exact hisn
      message_eq := fun address message ↦ hturn.task_eq ▸ hmessage address message }

/-- All hosts have room, and so has everything that is under way. -/
structure Roomy (sc : Scenario) (s : Simulation σ Peer) : Prop where
  /-- The network misbehaves as the scenario says. -/
  faults_eq : s.network.faults = sc.faults
  /-- The hosts have room. -/
  hosts : ∀ host ∈ s.hosts, sc.HasRoom host
  /-- The data under way stops within a word. -/
  underway : ∀ packet ∈ s.underway, packet.StopsInTime

namespace Roomy

/-- An entry is taken, and fewer packets are under way. -/
theorem next (h : sc.Roomy s) (hnext : s.agenda.next? = some (e, agenda)) :
    sc.Roomy { s with agenda } :=
  { h with
    underway := fun packet hmem ↦ h.underway packet (by
      rw [underway_of_next? hnext]
      exact List.mem_append_right _ hmem) }

theorem setHost (h : sc.Roomy s) (hhost : sc.HasRoom host) : sc.Roomy (s.setHost id host) :=
  { h with
    hosts := fun other hmem ↦ (List.mem_or_eq_of_mem_set hmem).elim (h.hosts other) (· ▸ hhost) }

/-- Something is carried out. -/
theorem carries {packets : List Packet} {alarms : List Alarm} {traces : List Trace.Event}
    (h : sc.Roomy s) (hcarries : Carries id packets alarms traces s s')
    (hpackets : ∀ packet ∈ packets, packet.StopsInTime) : sc.Roomy s' where
  faults_eq := hcarries.faults_eq.trans h.faults_eq
  hosts := hcarries.hosts_eq ▸ h.hosts
  underway packet hmem :=
    (hcarries.underway_sub packet hmem).elim (h.underway packet) (hpackets packet)

end Roomy

/-! ### A step -/

/-- How often a segment was sent again before the end. -/
theorem Admissible.resends_lt (h : sc.Admissible stop) (hcontained : p.Contained)
    (hsettings : p.settings = sc.settings) (hrings : p.RingsOnTime now input) (hnow : now < stop)
    {x : Segment} (hx : x ∈ p.inFlight.toList)
    (hinput : input = .alarm (.segment x.seq x.resends)) : x.resends + 1 ≤ maxHalfWord := by
  have hlast := hcontained.resends_le x hx
  rw [hsettings] at hlast
  have htimes : (x.resends + 1) * sc.settings.rto < halfWordCount * sc.settings.rto := by
    calc (x.resends + 1) * sc.settings.rto
        = x.resends * sc.settings.rto + sc.settings.rto := Nat.succ_mul ..
      _ ≤ x.sentAt + sc.settings.rto := Nat.add_le_add_right hlast _
      _ = now := by rw [hrings.due x hx hinput, hsettings]
      _ < halfWordCount * sc.settings.rto := Nat.lt_trans hnow h.stop_lt
  exact Nat.le_of_lt_succ (Nat.lt_of_mul_lt_mul_right htimes)

section Steps

variable (h : sc.Roomy s) (hadmissible : sc.Admissible k.time) (hends : Ends k s.agenda)
  (hsound : s.Sound (· = []) parties) (hnext : s.agenda.next? = some (e, agenda))
include h hadmissible hends hsound hnext

/-- Packets that are sent before the end can arrive. -/
theorem Roomy.spacious : ({ s with agenda } : Simulation σ Peer).Spacious where
  timely := hsound.timely.next hnext
  latest_le := by
    have hpasses := passes_next hnext
    have hle := hpasses.time_le hends.mem
    have harrival := hadmissible.arrival_le
    rw [hpasses.now_eq, h.faults_eq, Network.Faults.latest]
    split <;> omega

variable (haction : e.action = .model happening)
include haction

/-- What happens to a host before the end has an outcome, and leaves room. The end matters for
alarms only, since a segment is sent again once for each interval that has passed. -/
theorem Roomy.exists_meet_eq_ok {i : Nat} (hi : s.hosts[i]? = some host)
    (hactor : s.actor? e.target happening = some (i + 1)) :
    ∃ host' effects, host.meet agenda.now happening = .ok (host', effects) ∧ sc.HasRoom host' ∧
      ∀ packet ∈ effects.flatMap (·.packets), packet.StopsInTime := by
  obtain ⟨p, -, hplays⟩ := hsound.exists_party hi
  have hroom := h.hosts host (List.mem_of_getElem? hi)
  have hcontained : p.Contained := hplays.connection_eq ▸ hroom.contained
  have hsettings : p.settings = sc.settings := hplays.connection_eq ▸ hroom.settings_eq
  -- An alarm that rings does so before the end.
  have hbefore (watch : Alarm.Watch) (heq : happening = .alarm watch) : agenda.now < k.time := by
    rw [(Agenda.next?_eq_some hnext).2]
    exact hends.time_lt hnext (haction.trans (congrArg _ heq))
  have hend := hsound.timely.time_le k hends.mem
  have hrings := hplays.ringsOnTime hnext haction hactor
    (fun watch heq ↦ Nat.lt_of_lt_of_le (hbefore watch heq) hend) host.application
  have hpacket (packet : Packet) (heq : happening = .arrival packet) : packet.StopsInTime :=
    h.underway packet (mem_underway_of_next? hnext (haction.trans (congrArg _ heq)))
  have hstarting (heq : happening = .start) : i + 1 ∈ s.starting := by
    subst heq
    have htarget : e.target = i + 1 := Option.some.inj hactor
    exact htarget ▸ mem_starting_of_next? hnext haction
  have hresends (x : Segment) (hx : x ∈ p.inFlight.toList)
      (heq : happening = .alarm (.segment x.seq x.resends)) : x.resends + 1 ≤ maxHalfWord :=
    hadmissible.resends_lt hcontained hsettings hrings (hbefore _ heq) hx (heq ▸ rfl)
  -- Each of the three ways to overflow is excluded.
  have hmeets : ∃ meeting, host.meet agenda.now happening = .ok meeting :=
    Host.exists_meet_eq_ok hplays.connection_eq hplays.drives hplays.sound hplays.waits hcontained
      (hroom.fitsIn hadmissible.message_lt hplays.connection_eq)
      (fun heq ↦ hplays.fresh (hstarting heq)) hpacket hresends
  obtain ⟨⟨host', effects⟩, hmeet⟩ := hmeets
  obtain ⟨q, r, hturn⟩ := Host.exists_hasTurn hplays.connection_eq hplays.drives hplays.sound hmeet
  refine ⟨host', effects, hmeet,
    hroom.turn hplays.connection_eq hplays.sound hrings
      (fun packet heq ↦ hpacket packet (Happening.eq_arrival_of_input heq)) hturn,
    fun packet hmem ↦ ?_⟩
  rw [hturn.packets_eq] at hmem
  exact (hturn.turn.sound hplays.sound).stopsInTime
    (hturn.turn.vouches hplays.sound packet hmem)

variable [DrawSource σ]

/-- Whatever happens before the end has an outcome, and leaves room. -/
theorem Roomy.exists_happen_eq_ok :
    ∃ s', { s with agenda }.happen e.target happening = .ok s' ∧ sc.Roomy s' ∧
      Ends k s'.agenda := by
  have hspacious := h.spacious hadmissible hends hsound hnext
  have hends' : Ends k agenda := hends.next hnext (by simp [haction])
  by_cases hnobody : ∀ id, s.actor? e.target happening = some id → s.host? id = none
  · obtain ⟨traces, hcarries⟩ := exists_carries_pass 0 happening hspacious.timely
    exact ⟨_, happen_eq_ok_of_none hnobody, (h.next hnext).carries hcarries (by simp),
      hends'.grows hcarries.grows⟩
  · simp only [not_forall] at hnobody
    obtain ⟨id, hactor, hsome⟩ := hnobody
    obtain ⟨host, hhost⟩ := Option.ne_none_iff_exists'.1 hsome
    obtain ⟨i, rfl, hi⟩ := host?_eq_some hhost
    obtain ⟨host', effects, hmeet, hroom, hpackets⟩ :=
      h.exists_meet_eq_ok hadmissible hends hsound hnext haction hi hactor
    obtain ⟨s', hfollow⟩ := hspacious.exists_follow_eq_ok happening
      (some ⟨i + 1, host.connection.home, host', effects⟩)
    have hanswer := (answer?_eq_ok_iff (s := { s with agenda }) hactor hhost).2 ⟨_, hmeet, rfl⟩
    have hcarries := carries_of_follow hspacious.timely hfollow
    exact ⟨s', happen_eq_ok_iff.2 ⟨_, hanswer, hfollow⟩,
      ((h.next hnext).setHost hroom).carries hcarries hpackets, hends'.grows hcarries.grows⟩

end Steps

variable [DrawSource σ]

/-- Every step has a result, and until the end there is room. -/
theorem Roomy.exists_step_eq_ok (h : sc.Roomy s) (hadmissible : sc.Admissible k.time)
    (hends : Ends k s.agenda) (hsound : s.Sound (· = []) parties) :
    ∃ running s', s.step = .ok (running, s') ∧
      (running = true → sc.Roomy s' ∧ Ends k s'.agenda) := by
  rw [Simulation.step]
  cases hnext : s.agenda.next? with
  | none => exact ⟨_, _, rfl, by simp⟩
  | some taken =>
    obtain ⟨e, agenda⟩ := taken
    dsimp only
    cases haction : e.action with
    | close => exact ⟨_, _, rfl, by simp⟩
    | model happening =>
      obtain ⟨s', hhappen, hroomy, hends'⟩ :=
        h.exists_happen_eq_ok hadmissible hends hsound hnext haction
      exact ⟨true, s', Checked.bind_eq_ok_iff.2 ⟨s', hhappen, rfl⟩, fun _ ↦ ⟨hroomy, hends'⟩⟩

/-- Any number of steps has a result. -/
theorem Roomy.exists_advance_eq_ok (h : sc.Roomy s) (hadmissible : sc.Admissible k.time)
    (hends : Ends k s.agenda) (hreach : s.Reachable (· = [])) (n : Nat) :
    ∃ running s', s.advance n = .ok (running, s') := by
  induction n generalizing s with
  | zero => exact ⟨true, s, rfl⟩
  | succ n ih =>
    obtain ⟨parties, hsound⟩ := hreach.exists_sound
    obtain ⟨running, mid, hstep, hmid⟩ := h.exists_step_eq_ok hadmissible hends hsound
    cases running with
    | false => exact ⟨false, mid, Checked.bind_eq_ok_iff.2 ⟨_, hstep, rfl⟩⟩
    | true =>
      obtain ⟨hroomy, hends'⟩ := hmid rfl
      obtain ⟨running, s', hrest⟩ := ih hroomy hends' (hreach.step hstep)
      exact ⟨running, s', Checked.bind_eq_ok_iff.2 ⟨_, hstep, hrest⟩⟩

/-! ### The beginning -/

/-- A host whose settings are valid is not refused. -/
theorem exists_addHost_eq_ok {settings : Connection.Settings} (hsettings : settings.Valid)
    (s : Simulation σ Peer) (home : Endpoint) (peer : Peer) (start : Nat) :
    ∃ id s', s.addHost home settings peer start = (.ok id, s') := by
  have hcreate (isn : Nat) : ∃ c, Connection.create home settings isn = .ok c := by
    rw [Connection.create]
    split
    · next fault hfault =>
      rw [settings.fault?_eq_none_iff.2 hsettings] at hfault
      exact absurd hfault (by simp)
    · exact ⟨_, rfl⟩
  obtain ⟨c, hc⟩ := hcreate (DrawSource.initialSequence s.sequences).1
  rw [Simulation.addHost, Simulation.enter, hc]
  exact ⟨_, _, rfl⟩

omit [DrawSource σ] in
/-- A network whose faults make sense is not refused. -/
theorem exists_create_eq_ok {faults : Network.Faults} (hfaults : faults.Valid)
    (draws sequences : σ) :
    ∃ s : Simulation σ Peer, Simulation.create faults draws sequences = .ok s := by
  rw [Simulation.create, Network.create]
  split
  · next fault hfault =>
    rw [faults.fault?_eq_none_iff.2 hfaults] at hfault
    exact absurd hfault (by simp)
  · exact ⟨_, rfl⟩

/-- Nothing is to come but starts, and there is room. -/
structure Starts (sc : Scenario) (s : Simulation σ Peer) : Prop where
  /-- There is room. -/
  roomy : sc.Roomy s
  /-- It is one of clients and servers whose inboxes were empty. -/
  reachable : s.Reachable (· = [])
  /-- Nothing is to come but starts. -/
  starts : ∀ f ∈ s.agenda.entries, f.action = .model .start
  /-- No time has passed. -/
  now_eq : s.now = 0

/-- A host is added. -/
theorem Starts.addHost {home : Endpoint} {peer : Peer} {start : Nat} (h : sc.Starts s)
    (hadd : s.addHost home sc.settings peer start = (.ok id, s')) (hbegins : peer.Begins (· = []))
    (hstart : start ≤ maxWord) (hmessage : ∀ address message,
      peer.task = some (address, message) → message = sc.message) : sc.Starts s' := by
  obtain ⟨-, valid, isn, hisn, hjoins⟩ := exists_joins_of_addHost hadd
  have hreach : (s.addHost home sc.settings peer start).2.Reachable (· = []) :=
    h.reachable.addHost hbegins hstart
  rw [hadd] at hreach
  have hperm := s.agenda.entries_put_perm start (s.hosts.length + 1) (.model .start)
  exact
    { roomy :=
        { faults_eq := hjoins.faults_eq.trans h.roomy.faults_eq
          hosts := fun host hmem ↦ by
            rw [hjoins.hosts_eq] at hmem
            rcases List.mem_append.1 hmem with hold | hnew
            · exact h.roomy.hosts host hold
            · obtain rfl := List.mem_singleton.1 hnew
              exact ⟨contained_create, rfl, hisn, hmessage⟩
          underway := fun packet hmem ↦ h.roomy.underway packet (by
            rw [underway, hjoins.agenda_eq] at hmem
            exact (hperm.filterMap arrivalOf?).mem_iff.1 hmem) }
      reachable := hreach
      starts := fun f hf ↦ by
        rw [hjoins.agenda_eq] at hf
        rcases List.mem_cons.1 (hperm.mem_iff.1 hf) with rfl | hold
        · rfl
        · exact h.starts f hold
      now_eq := (congrArg Agenda.now hjoins.agenda_eq).trans h.now_eq }

/-- An admissible scenario is not refused. -/
theorem Admissible.exists_setupFrom_eq_ok (h : sc.Admissible stop) (draws sequences : σ)
    (journal : Array Simulation.Entry) :
    ∃ setup, sc.setupFrom draws sequences journal = .ok setup ∧ sc.Starts setup.simulation := by
  obtain ⟨empty, hcreate⟩ := exists_create_eq_ok h.faults draws sequences
  have hempty : sc.Starts { empty with journal } := by
    have hreach : ({ empty with journal } : Simulation σ Peer).Reachable (· = []) :=
      .create hcreate
    obtain ⟨valid, rfl⟩ := create_eq_ok hcreate
    exact
      { roomy := ⟨rfl, fun _ hmem ↦ absurd hmem List.not_mem_nil,
          fun _ hmem ↦ absurd hmem List.not_mem_nil⟩
        reachable := hreach
        starts := fun _ hmem ↦ absurd hmem List.not_mem_nil
        now_eq := rfl }
  obtain ⟨server, mid, hserver⟩ :=
    exists_addHost_eq_ok h.settings { empty with journal } sc.server (.server []) 0
  obtain ⟨client, s, hclient⟩ := exists_addHost_eq_ok h.settings mid sc.client
    (.client sc.server sc.message) sc.clientStart
  have hmid := hempty.addHost hserver (Peer.begins_server rfl) (Nat.zero_le _)
    fun _ _ htask ↦ absurd htask (by simp [Peer.task])
  have hs := hmid.addHost hclient Peer.begins_client h.clientStart_le
    fun _ _ htask ↦ (Prod.mk.inj (Option.some.inj htask)).2.symm
  exact ⟨⟨s, server, client⟩,
    setupFrom_eq_ok_iff.2 ⟨empty, mid, hcreate, hserver, hclient⟩, hs⟩

/-- **No addition overflows.** A scenario that is admissible up to an instant is set up, wherever
chance comes from. Each number of steps of its run up to that instant has a result, and after some
of them the run has ended. -/
theorem Admissible.never_overflows (h : sc.Admissible stop) (draws sequences : σ)
    (journal : Array Simulation.Entry) :
    ∃ setup : Setup σ, sc.setupFrom draws sequences journal = .ok setup ∧
      (∀ n, ∃ running s', (setup.simulation.closeAt stop).advance n = .ok (running, s')) ∧
      ∃ n s', (setup.simulation.closeAt stop).advance n = .ok (false, s') := by
  obtain ⟨setup, hsetup, hstarts⟩ := h.exists_setupFrom_eq_ok draws sequences journal
  have hends := ends_closeAt hstarts.starts stop
  rw [hstarts.now_eq, Nat.max_eq_left (Nat.zero_le _)] at hends
  have hstop : stop ≤ maxWord := by
    have harrival := h.arrival_le
    omega
  have hperm := setup.simulation.agenda.entries_put_perm stop 0 .close
  have hroomy : sc.Roomy (setup.simulation.closeAt stop) :=
    { hstarts.roomy with
      underway := fun packet hmem ↦
        hstarts.roomy.underway packet ((hperm.filterMap arrivalOf?).mem_iff.1 hmem) }
  have hall := hroomy.exists_advance_eq_ok h hends (hstarts.reachable.closeAt hstop)
  refine ⟨setup, hsetup, hall, ?_⟩
  obtain ⟨n, hend | ⟨overflow, hoverflow⟩⟩ :=
    exists_advance_of_close (setup.simulation.closeAt stop) hends.action_eq hstop hends.mem
  · exact ⟨n, hend⟩
  · obtain ⟨running, s', hok⟩ := hall n
    exact absurd (hok.symm.trans hoverflow) (by simp)

/-- Five bytes, over a network that loses half of all packets, for more than two hundred and seventy
years. Segments are sent again every two seconds. -/
def halfLost : Scenario where
  name := "half_lost"
  faults := { loss := .ofRatio false 1 2 }
  settings := { mtu := 2, window := 2 }
  server := ⟨10, 0, 0, 2, 80⟩
  client := ⟨10, 0, 0, 1, 4000⟩
  clientStart := Time.second
  message := [1, 2, 3, 4, 5]
  duration := halfWordCount * (2 * Time.second) - 1

theorem admissible_halfLost : halfLost.Admissible halfLost.duration where
  faults :=
    { loss := by decide +kernel
      reorder := by decide +kernel
      duplicate := by decide +kernel
      delays := by decide
      extraDelays := by decide }
  settings := ⟨by decide, by decide, by decide⟩
  clientStart_le := by decide
  arrival_le := by decide
  stop_lt := by decide
  message_lt := by decide

/-- The longest run for which nothing can overflow, whichever packets are lost. -/
theorem never_overflows_halfLost : halfLost.Admissible halfLost.duration ∧
    ∃ setup : Setup Dealt, halfLost.setupFrom .fates .zeros = .ok setup ∧
      (∀ n, ∃ running s',
        (setup.simulation.closeAt halfLost.duration).advance n = .ok (running, s')) ∧
      ∃ n s', (setup.simulation.closeAt halfLost.duration).advance n = .ok (false, s') :=
  ⟨admissible_halfLost, admissible_halfLost.never_overflows (σ := Dealt) .fates .zeros #[]⟩

end ReliableStream.Scenario
