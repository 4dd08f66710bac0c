import ReliableStream.Proofs.Simulation.Acts
import ReliableStream.Proofs.Coherent

/-!
# Simulations of clients and servers

`Reachable` are the simulations that one can come to: hosts with a client or a server are added at
any time, steps are taken, and the end may be set. How the network misbehaves, what is drawn, and
how many hosts there are and where is not restricted. A step whose counters would overflow does not
exist. What an inbox may hold when its server is added is a parameter, `initial`.

`s.Sound initial parties` is what holds of all of them, whoever is where. Each host has a party,
whose connection is the one of the host and whose history is what the application did; the alarms
set for the host are those the party needs; and a host that has still to start does so once. A step
either lets one host act (`Takes`) or changes nothing that matters (`Advance`).

Each thing that may be done to a simulation has its lemma, `Sound.addHost`, `Sound.closeAt` and
`Sound.step`, and each says how the parties go on as well. So what is to be known of parties alone
does not look at simulations any more: `Reachable.exists_of_advance` is the induction, and it leaves
three cases.
-/

namespace ReliableStream.Simulation

open Party

variable {σ : Type} {initial : Bytes → Prop}

/-- The simulations one can come to. -/
inductive Reachable [DrawSource σ] (initial : Bytes → Prop) : Simulation σ Peer → Prop
  /-- At the beginning there is nobody. -/
  | create {faults : Network.Faults} {draws sequences : σ} {s : Simulation σ Peer}
    {journal : Array Entry} (hcreate : create faults draws sequences = .ok s) :
    Reachable initial { s with journal }
  /-- A host is added, or refused. -/
  | addHost {s : Simulation σ Peer} {home : Endpoint} {settings : Connection.Settings} {peer : Peer}
    {start : Nat} (hreach : Reachable initial s) (hbegins : peer.Begins initial)
    (hstart : start ≤ maxWord) :
    Reachable initial (s.addHost home settings peer start).2
  /-- The end is set. -/
  | closeAt {s : Simulation σ Peer} {time : Nat} (hreach : Reachable initial s)
    (htime : time ≤ maxWord) : Reachable initial (s.closeAt time)
  /-- A step is taken. -/
  | step {s s' : Simulation σ Peer} {running : Bool} (hreach : Reachable initial s)
    (hstep : s.step = .ok (running, s')) : Reachable initial s'

/-- What a party is to the host whose connection it is. -/
structure Plays (initial : Bytes → Prop) (id : Nat) (s : Simulation σ Peer) (host : Host Peer)
    (p : Party) : Prop where
  /-- It is the party of this connection. -/
  connection_eq : host.connection = p.toConnection
  /-- The application has done all it has to. -/
  drives : host.application.Drives initial p []
  /-- It is sound. -/
  sound : p.Sound
  /-- It has no peer while it waits. -/
  waits : p.WaitsFirst
  /-- The alarms that are set for the host are those it needs. -/
  watched : p.Watched (s.alarmsOf id)
  /-- Before the host starts it is not opened. -/
  fresh : id ∈ s.starting → p.Fresh

/-- What holds of every simulation of clients and servers. -/
structure Sound (initial : Bytes → Prop) (s : Simulation σ Peer) (parties : List Party) :
    Prop where
  /-- All is to come within the time there is. -/
  timely : s.agenda.Timely
  /-- Each host has a party. -/
  length_eq : parties.length = s.hosts.length
  /-- It is the party of the host. -/
  plays : ∀ {i host p}, s.hosts[i]? = some host → parties[i]? = some p →
    s.Plays initial (i + 1) host p
  /-- No host starts twice. -/
  nodup : s.starting.Nodup
  /-- Nothing is to come for hosts that do not exist. -/
  nobody : ∀ {id}, s.host? id = none → s.alarmsOf id = [] ∧ id ∉ s.starting

/-- Why something reaches a host when an entry of the agenda is taken. -/
inductive Reaches (s : Simulation σ Peer) (e : Agenda.Entry Happening) (i : Nat) (peer : Peer)
    (p : Party) : Input → Prop
  /-- The host starts, and was never opened before. -/
  | start (haction : e.action = .model .start) (htarget : e.target = i + 1) (hfresh : p.Fresh) :
    Reaches s e i peer p peer.opening
  /-- A packet arrives where the host is registered. -/
  | arrival {packet : Packet} (haction : e.action = .model (.arrival packet))
    (hactor : s.network.actorAt? packet.destination = some (i + 1)) :
    Reaches s e i peer p (.packet packet)
  /-- An alarm rings that was set for the host. -/
  | alarm {watch : Alarm.Watch} (haction : e.action = .model (.alarm watch))
    (htarget : e.target = i + 1) : Reaches s e i peer p (.alarm watch)

/-- An entry is taken, and a host acts. -/
inductive Takes (initial : Bytes → Prop) (s s' : Simulation σ Peer) (e : Agenda.Entry Happening)
    (agenda : Agenda Happening) (parties : List Party) : List Party → Prop
  | mk {i : Nat} {host : Host Peer} {input : Input} {p q : Party} {r : Reaction}
    (hi : s.hosts[i]? = some host) (hp : parties[i]? = some p)
    (hreaches : Reaches s e i host.application p input) (honce : p.Once input)
    (hacts : Acts initial (i + 1) host.application input p r q { s with agenda } s') :
    Takes initial s s' e agenda parties (parties.set i q)

/-- An entry is a packet that arrives where no host is. -/
def Unheard (s : Simulation σ Peer) (e : Agenda.Entry Happening) : Prop :=
  ∃ packet, e.action = .model (.arrival packet) ∧
    ∀ {id}, s.network.actorAt? packet.destination = some id → s.host? id = none

/-- How the parties go on. -/
inductive Advance (s s' : Simulation σ Peer) (parties : List Party) : List Party → Prop
  /-- Nothing happens to any of them. -/
  | rest (hroutes : s'.network.routes = s.network.routes)
    (hunderway : ∀ packet ∈ s'.underway, packet ∈ s.underway) : Advance s s' parties parties
  /-- One of them has its turn. -/
  | turn {i now : Nat} {input : Input} {p q : Party} {r : Reaction}
    (hroutes : s'.network.routes = s.network.routes) (hi : parties[i]? = some p)
    (honce : p.Once input) (hturn : p.Turn now input r q)
    (hinput : ∀ packet, input = .packet packet →
      packet ∈ s.underway ∧ s.network.actorAt? packet.destination = some (i + 1))
    (hunderway : ∀ packet ∈ s'.underway, packet ∈ s.underway ∨ packet ∈ r.packets) :
    Advance s s' parties (parties.set i q)
  /-- A new one joins. -/
  | join {home : Endpoint} {settings : Connection.Settings} {valid : settings.Valid} {isn : Nat}
    (hroutes : s'.network.routes =
      (home, parties.length + 1) :: s.network.routes.filter (·.1 ≠ home))
    (hisn : isn < maxWord) (hunderway : ∀ packet ∈ s'.underway, packet ∈ s.underway) :
    Advance s s' parties (parties ++ [.create home settings valid isn])

theorem host?_eq_some {α : Type} {s : Simulation σ α} {id : Nat} {host : Host α}
    (h : s.host? id = some host) : ∃ i, id = i + 1 ∧ s.hosts[i]? = some host := by
  cases id with
  | zero => exact absurd h (by simp [host?])
  | succ i => exact ⟨i, rfl, h⟩

/-- Nobody comes or goes unless the number of hosts changes. -/
theorem host?_eq_none {α : Type} {s s' : Simulation σ α}
    (hlength : s'.hosts.length = s.hosts.length) {id : Nat} (h : s'.host? id = none) :
    s.host? id = none := by
  cases id with
  | zero => rfl
  | succ i =>
    have hle : s'.hosts.length ≤ i := List.getElem?_eq_none_iff.1 h
    exact List.getElem?_eq_none_iff.2 (hlength ▸ hle)

variable {s s' : Simulation σ Peer} {parties parties' : List Party} {e : Agenda.Entry Happening}
  {agenda : Agenda Happening} {i : Nat} {host : Host Peer} {p q : Party} {input : Input}
  {r : Reaction} {answer : Except Failure Nat} {peer : Peer}

theorem Sound.exists_party (h : s.Sound initial parties) (hi : s.hosts[i]? = some host) :
    ∃ p, parties[i]? = some p ∧ s.Plays initial (i + 1) host p := by
  obtain ⟨hlt, -⟩ := List.getElem?_eq_some_iff.1 hi
  have hlt' : i < parties.length := h.length_eq ▸ hlt
  exact ⟨parties[i], List.getElem?_eq_getElem hlt', h.plays hi (List.getElem?_eq_getElem hlt')⟩

/-- The party of a host, by the number of the host. -/
theorem Sound.exists_mem {id : Nat} (h : s.Sound initial parties) (hhost : s.host? id = some host) :
    ∃ p ∈ parties, s.Plays initial id host p := by
  obtain ⟨i, rfl, hi⟩ := host?_eq_some hhost
  obtain ⟨p, hp, hplays⟩ := h.exists_party hi
  exact ⟨p, List.mem_of_getElem? hp, hplays⟩

/-- The host of a party, and its number. -/
theorem Sound.exists_host (h : s.Sound initial parties) (hmem : p ∈ parties) :
    ∃ id host, s.host? id = some host ∧ s.Plays initial id host p := by
  obtain ⟨i, hlt, rfl⟩ := List.getElem_of_mem hmem
  have hlt' : i < s.hosts.length := h.length_eq ▸ hlt
  exact ⟨i + 1, s.hosts[i], List.getElem?_eq_getElem hlt',
    h.plays (List.getElem?_eq_getElem hlt') (List.getElem?_eq_getElem hlt)⟩

theorem Sound.party (h : s.Sound initial parties) (hmem : p ∈ parties) : p.Sound := by
  obtain ⟨id, host, -, hplays⟩ := h.exists_host hmem
  exact hplays.sound

/-- The parties are where the hosts are, in the same order. -/
theorem Sound.homes_eq (h : s.Sound initial parties) :
    parties.map (·.home) = s.hosts.map (·.connection.home) := by
  refine List.ext_getElem (by simp [h.length_eq]) ?_
  intro i hparty hhost
  rw [List.length_map] at hparty hhost
  have hplays := h.plays (List.getElem?_eq_getElem hhost) (List.getElem?_eq_getElem hparty)
  rw [List.getElem_map, List.getElem_map, hplays.connection_eq]

/-- Taking an entry that is no alarm of a host takes none of its alarms, so its party is watched as
before. -/
theorem Plays.watched_of_next? {id : Nat} (h : s.Plays initial id host p)
    (hnext : s.agenda.next? = some (e, agenda)) (halarm : alarmOf? id e = none) :
    p.Watched ({ s with agenda }.alarmsOf id) := by
  have hwatched := h.watched
  rw [alarmsOf_of_next? hnext, halarm] at hwatched
  exact hwatched

/-- A host and its party stay as they are while the same alarms are set for the host, and it does
not come to start once more. -/
theorem Plays.stays {id : Nat} (h : s.Plays initial id host p)
    (halarms : (s'.alarmsOf id).Perm (s.alarmsOf id))
    (hstarting : id ∈ s'.starting → id ∈ s.starting) : s'.Plays initial id host p :=
  { h with
    watched := h.watched.perm halarms.symm
    fresh := fun hmem ↦ h.fresh (hstarting hmem) }

/-- Nothing is to come for a host that does not exist, as long as nothing is set for it. -/
theorem Sound.nothing_of_nobody {id : Nat} (h : s.Sound initial parties) (hnone : s.host? id = none)
    (halarms : (s'.alarmsOf id).Perm (s.alarmsOf id))
    (hstarting : id ∈ s'.starting → id ∈ s.starting) :
    s'.alarmsOf id = [] ∧ id ∉ s'.starting := by
  obtain ⟨hnil, hnot⟩ := h.nobody hnone
  rw [hnil] at halarms
  exact ⟨halarms.eq_nil, fun hmem ↦ hnot (hstarting hmem)⟩

/-- A host that starts later is not opened so far, and stays so whatever reaches it. -/
theorem Plays.fresh_of_turn {id now : Nat} (h : s.Plays initial id host p)
    (hnext : s.agenda.next? = some (e, agenda)) (hturn : p.Turn now input r q)
    (hinput : input.opens = false) (hmem : id ∈ { s with agenda }.starting) : q.Fresh := by
  have hstill : id ∈ s.starting := by
    rw [starting_of_next? hnext]
    exact List.mem_append_right _ hmem
  have hfresh := h.fresh hstill
  rw [hturn.eq_of_fresh hfresh h.sound hinput]
  exact hfresh

/-! ### Nothing happens, or a host acts -/

/-- Nothing happens to any host: the same alarms are set, and whoever starts later was to start. -/
theorem Sound.rest (h : s.Sound initial parties) (hhosts : s'.hosts = s.hosts)
    (htimely : s'.agenda.Timely) (halarms : ∀ id, (s'.alarmsOf id).Perm (s.alarmsOf id))
    (hnodup : s'.starting.Nodup) (hstarting : ∀ id ∈ s'.starting, id ∈ s.starting) :
    s'.Sound initial parties where
  timely := htimely
  length_eq := by rw [h.length_eq, hhosts]
  plays hi hp := by
    rw [hhosts] at hi
    exact (h.plays hi hp).stays (halarms _) (hstarting _)
  nodup := hnodup
  nobody {id} hnone :=
    h.nothing_of_nobody (host?_eq_none (congrArg List.length hhosts) hnone) (halarms id)
      (hstarting id)

/-- **A host acts.** Its party after the turn is sound and watched, and this is where that was
shown. The parties of the others are as they were, and so are the alarms that are set for them. -/
theorem Sound.acts (h : s.Sound initial parties) (hnext : s.agenda.next? = some (e, agenda))
    (hi : s.hosts[i]? = some host) (hp : parties[i]? = some p) (honce : p.Once input)
    (hacts : Acts initial (i + 1) peer input p r q { s with agenda } s')
    (hwatched : q.Watched (r.alarms.map (Alarm.due agenda.now) ++
      { s with agenda }.alarmsOf (i + 1)))
    (hfresh : i + 1 ∈ { s with agenda }.starting → q.Fresh)
    (hothers : ∀ other ≠ i + 1, alarmOf? other e = none) : s'.Sound initial (parties.set i q) := by
  obtain ⟨host', hconnection, hdrives, -, hcarries⟩ := hacts.carries
  obtain ⟨hlt, -⟩ := List.getElem?_eq_some_iff.1 hi
  have hplays := h.plays hi hp
  have hhosts : s'.hosts = s.hosts.set i host' := hcarries.hosts_eq
  have hstarting : s'.starting.Perm { s with agenda }.starting := hcarries.starting_perm
  have hsublist : { s with agenda }.starting.Sublist s.starting := by
    rw [starting_of_next? hnext]
    exact List.sublist_append_right ..
  have hstill {other : Nat} (hmem : other ∈ s'.starting) : other ∈ s.starting :=
    hsublist.subset (hstarting.mem_iff.1 hmem)
  have halarms {other : Nat} (hne : other ≠ i + 1) :
      (s'.alarmsOf other).Perm (s.alarmsOf other) := by
    have hall := hcarries.others_perm other hne
    rw [alarmsOf_of_next? hnext, hothers other hne]
    exact hall
  refine
    { timely := hcarries.timely, length_eq := ?length_eq, plays := ?plays, nodup := ?nodup,
      nobody := ?nobody }
  case length_eq => rw [hhosts, List.length_set, List.length_set, h.length_eq]
  case plays =>
    intro j hostj pj hj hpj
    rw [hhosts] at hj
    rcases cases_of_getElem?_set hj with ⟨rfl, rfl⟩ | ⟨hij, hj⟩
    · rw [List.getElem?_set_self (h.length_eq ▸ hlt)] at hpj
      obtain rfl := Option.some.inj hpj
      exact
        { connection_eq := hconnection
          drives := hdrives
          sound := hacts.turn.sound hplays.sound
          waits := hacts.turn.waitsFirst honce
          watched := hwatched.perm hcarries.alarms_perm.symm
          fresh := fun hmem ↦ hfresh (hstarting.mem_iff.1 hmem) }
    -- Another host is as it was, and the alarms set for it are.
    · rw [List.getElem?_set_ne hij] at hpj
      exact (h.plays hj hpj).stays (halarms (by omega)) hstill
  case nodup => exact hstarting.nodup_iff.2 (h.nodup.sublist hsublist)
  case nobody =>
    intro id hnone
    have hold : s.host? id = none :=
      host?_eq_none (by rw [hhosts, List.length_set]) hnone
    have hne : id ≠ i + 1 := by
      rintro rfl
      exact absurd (hold.symm.trans hi) (by simp)
    exact h.nothing_of_nobody hold (halarms hne) hstill

/-- A packet that reaches a host was under way, and the host is registered where it goes. -/
theorem Reaches.underway (h : Reaches s e i peer p input)
    (hnext : s.agenda.next? = some (e, agenda)) :
    ∀ packet, input = .packet packet →
      packet ∈ s.underway ∧ s.network.actorAt? packet.destination = some (i + 1) := by
  intro packet heq
  cases h with
  | start => exact absurd heq ((Input.ne_of_opens peer.opens_opening).2 packet)
  | alarm => exact absurd heq (by simp)
  | arrival haction hactor =>
    obtain rfl := Input.packet.inj heq
    exact ⟨mem_underway_of_next? hnext haction, hactor⟩

theorem Reaches.ne_alarm (h : Reaches s e i peer p input)
    (haction : ∀ watch, e.action ≠ .model (.alarm watch)) : ∀ watch, input ≠ .alarm watch := by
  cases h with
  | start => exact (Input.ne_of_opens peer.opens_opening).1
  | arrival => simp
  | alarm halarm => exact absurd halarm (haction _)

/-- A host that acts is a party that has its turn. -/
theorem Takes.advance (h : Takes initial s s' e agenda parties parties')
    (hnext : s.agenda.next? = some (e, agenda)) : Advance s s' parties parties' := by
  obtain ⟨-, hp, hreaches, honce, hacts⟩ := h
  obtain ⟨host', -, -, -, hcarries⟩ := hacts.carries
  refine .turn hcarries.routes_eq hp honce hacts.turn (hreaches.underway hnext) ?_
  intro packet hmem
  refine (hcarries.underway_sub packet hmem).imp_left fun hold ↦ ?_
  rw [underway_of_next? hnext]
  exact List.mem_append_right _ hold

/-- Taking an entry that is about nobody in particular changes nothing that matters. -/
theorem Sound.take (h : s.Sound initial parties) (hnext : s.agenda.next? = some (e, agenda))
    (halarm : ∀ id, alarmOf? id e = none) (hstart : startOf? e = none) (hhosts : s'.hosts = s.hosts)
    (hroutes : s'.network.routes = s.network.routes) (hagenda : s'.agenda = agenda) :
    s'.Sound initial parties ∧ Advance s s' parties parties := by
  subst hagenda
  have hstarting : s.starting = s'.starting := by
    rw [starting_of_next? hnext, hstart]
    rfl
  refine ⟨h.rest hhosts (h.timely.next hnext) ?_ (hstarting ▸ h.nodup)
    (fun id hmem ↦ hstarting ▸ hmem), .rest hroutes ?_⟩
  · intro id
    rw [alarmsOf_of_next? hnext, halarm]
    exact .refl _
  · intro packet hmem
    rw [underway_of_next? hnext]
    exact List.mem_append_right _ hmem

/-- An alarm is set for a host that exists, and is the next one of those that are set for it. -/
theorem Sound.exists_host?_of_alarm {watch : Alarm.Watch} (h : s.Sound initial parties)
    (hnext : s.agenda.next? = some (e, agenda)) (haction : e.action = .model (.alarm watch)) :
    s.alarmsOf e.target = (e.time, watch) :: { s with agenda }.alarmsOf e.target ∧
      ∃ host, s.host? e.target = some host := by
  have htarget : s.alarmsOf e.target = (e.time, watch) :: { s with agenda }.alarmsOf e.target := by
    rw [alarmsOf_of_next? hnext, show alarmOf? e.target e = some (e.time, watch) by
      simp [alarmOf?, haction]]
    rfl
  refine ⟨htarget, ?_⟩
  cases hhost : s.host? e.target with
  | none =>
    have hnil := (h.nobody hhost).1
    rw [htarget] at hnil
    exact absurd hnil (by simp)
  | some host => exact ⟨host, rfl⟩

/-! ### Ends and beginnings -/

/-- The end is set. It is neither an alarm nor a start nor an arrival. -/
theorem Sound.closeAt {time : Nat} (h : s.Sound initial parties) (htime : time ≤ maxWord) :
    (s.closeAt time).Sound initial parties ∧ Advance s (s.closeAt time) parties parties := by
  have hperm := s.agenda.entries_put_perm time 0 .close
  have hstarting : (s.closeAt time).starting.Perm s.starting := hperm.filterMap startOf?
  exact ⟨h.rest rfl (h.timely.put htime) (fun id ↦ hperm.filterMap (alarmOf? id))
      (hstarting.nodup_iff.2 h.nodup) (fun _ hmem ↦ hstarting.mem_iff.1 hmem),
    .rest rfl fun _ hmem ↦ (hperm.filterMap arrivalOf?).mem_iff.1 hmem⟩

/-- The party of a new host, which is new as well. -/
theorem plays_create {home : Endpoint} {settings : Connection.Settings} {valid : settings.Valid}
    {isn id : Nat} {peer : Peer} (hisn : isn < maxWord) (hbegins : peer.Begins initial)
    (halarms : s.alarmsOf id = []) :
    s.Plays initial id ⟨(Party.create home settings valid isn).toConnection, peer⟩
      (Party.create home settings valid isn) where
  connection_eq := rfl
  drives := Peer.drives_create hbegins
  sound := sound_create hisn
  waits := fresh_create.waitsFirst
  watched := halarms ▸ Watched.create
  fresh _ := fresh_create

/-- A new host is a new party, which is registered and has still to start. -/
structure Joins (s s' : Simulation σ Peer) (peer : Peer) (start : Nat) (p : Party) : Prop where
  /-- It is the last host. -/
  hosts_eq : s'.hosts = s.hosts ++ [⟨p.toConnection, peer⟩]
  /-- It is registered, in place of whoever was there. -/
  routes_eq : s'.network.routes =
    (p.home, s.hosts.length + 1) :: s.network.routes.filter (·.1 ≠ p.home)
  /-- The network misbehaves as it did. -/
  faults_eq : s'.network.faults = s.network.faults
  /-- It will start. -/
  agenda_eq : s'.agenda = s.agenda.addAt start (s.hosts.length + 1) .start
  /-- The trace tells that it was registered. -/
  trace_sub : ∀ record ∈ s'.trace, record ∈ s.trace ∨ record.event = .registered
  /-- Nobody's handshake ends. -/
  outcomes_eq : ∀ other, s'.outcomes other = s.outcomes other

/-- It does not matter where sequence numbers are drawn from. -/
theorem Joins.of_sequences {sequences : σ} {start : Nat}
    (h : Joins { s with sequences } s' peer start p) : Joins s s' peer start p :=
  { h with }

/-- A host that is not refused joins, and its number is the next one. Its settings are valid, as
they were checked. -/
theorem exists_joins_of_enter {home : Endpoint} {settings : Connection.Settings} {peer : Peer}
    {start isn id : Nat} (h : s.enter home settings peer start isn = (.ok id, s')) :
    id = s.hosts.length + 1 ∧
      ∃ valid, Joins s s' peer start (Party.create home settings valid isn) := by
  rw [Simulation.enter] at h
  split at h
  · exact absurd (Prod.mk.inj h).1 (by simp)
  · next c hcreate =>
    obtain ⟨valid, rfl⟩ := exists_of_create hcreate
    obtain ⟨hid, rfl⟩ := Prod.mk.inj h
    exact ⟨(Except.ok.inj hid).symm, valid, rfl, rfl, rfl, rfl, fun _ ↦ mem_trace_record,
      fun other ↦ outcomes_record_of_not home other rfl _⟩

theorem eq_of_enter {home : Endpoint} {settings : Connection.Settings} {peer : Peer}
    {start isn : Nat} {failure : Failure}
    (h : s.enter home settings peer start isn = (.error failure, s')) : s' = s := by
  rw [Simulation.enter] at h
  split at h
  · exact (Prod.mk.inj h).2.symm
  · exact absurd (Prod.mk.inj h).1 (by simp)

/-- **A host joins that has still to start.** Its number was not given out before, so no alarm was
set for it and it did not have to start yet. -/
theorem Sound.join (h : s.Sound initial parties) (htimely : s'.agenda.Timely)
    (hhosts : s'.hosts = s.hosts ++ [host])
    (halarms : ∀ id, (s'.alarmsOf id).Perm (s.alarmsOf id))
    (hstarting : s'.starting.Perm ((s.hosts.length + 1) :: s.starting))
    (hplays : s'.Plays initial (s.hosts.length + 1) host p) :
    s'.Sound initial (parties ++ [p]) := by
  -- The number of the new host belonged to nobody, so nothing is to come for it.
  have hnobody : s.host? (s.hosts.length + 1) = none := List.getElem?_eq_none (Nat.le_refl _)
  have hlength : s'.hosts.length = s.hosts.length + 1 := by
    rw [hhosts, List.length_append, List.length_singleton]
  have hstill {id : Nat} (hne : id ≠ s.hosts.length + 1) (hmem : id ∈ s'.starting) :
      id ∈ s.starting :=
    (List.mem_cons.1 (hstarting.mem_iff.1 hmem)).resolve_left hne
  refine
    { timely := htimely, length_eq := ?length_eq, plays := ?plays, nodup := ?nodup,
      nobody := ?nobody }
  case length_eq => rw [hlength, List.length_append, h.length_eq, List.length_singleton]
  case plays =>
    intro i hosti pi hi hp
    rw [hhosts] at hi
    rcases cases_of_getElem?_concat hi with hi | ⟨rfl, rfl⟩
    · obtain ⟨hlt, -⟩ := List.getElem?_eq_some_iff.1 hi
      rw [List.getElem?_append_left (h.length_eq ▸ hlt)] at hp
      exact (h.plays hi hp).stays (halarms _) (hstill (by omega))
    · rw [← h.length_eq, List.getElem?_concat_length] at hp
      obtain rfl := Option.some.inj hp
      exact hplays
  case nodup => exact hstarting.nodup_iff.2 (List.nodup_cons.2 ⟨(h.nobody hnobody).2, h.nodup⟩)
  case nobody =>
    intro id hid
    have hold : s.host? id = none ∧ id ≠ s.hosts.length + 1 := by
      cases id with
      | zero => exact ⟨rfl, by omega⟩
      | succ i =>
        have hle : s'.hosts.length ≤ i := List.getElem?_eq_none_iff.1 hid
        exact ⟨List.getElem?_eq_none (by omega), by omega⟩
    exact h.nothing_of_nobody hold.1 (halarms id) (hstill hold.2)

/-- A new host is a new party, and the alarms and packets there are stay. -/
theorem Sound.joins {home : Endpoint} {settings : Connection.Settings} {valid : settings.Valid}
    {peer : Peer} {start isn : Nat} (h : s.Sound initial parties) (hbegins : peer.Begins initial)
    (hstart : start ≤ maxWord) (hisn : isn < maxWord)
    (hjoins : Joins s s' peer start (Party.create home settings valid isn)) :
    s'.Sound initial (parties ++ [.create home settings valid isn]) ∧
      Advance s s' parties (parties ++ [.create home settings valid isn]) := by
  have hagenda := hjoins.agenda_eq
  have hperm := s.agenda.entries_put_perm start (s.hosts.length + 1) (.model .start)
  have halarms (id : Nat) : (s'.alarmsOf id).Perm (s.alarmsOf id) := by
    rw [alarmsOf, hagenda]
    exact hperm.filterMap (alarmOf? id)
  have hstarting : s'.starting.Perm ((s.hosts.length + 1) :: s.starting) := by
    rw [starting, hagenda]
    exact hperm.filterMap startOf?
  have hunderway : ∀ packet ∈ s'.underway, packet ∈ s.underway := by
    intro packet hmem
    rw [underway, hagenda] at hmem
    exact (hperm.filterMap arrivalOf?).mem_iff.1 hmem
  have hroutes : s'.network.routes =
      (home, parties.length + 1) :: s.network.routes.filter (·.1 ≠ home) := by
    rw [hjoins.routes_eq, h.length_eq]
    rfl
  -- No alarm is set for a host that did not exist.
  have hset := halarms (s.hosts.length + 1)
  rw [(h.nobody (List.getElem?_eq_none (Nat.le_refl _))).1] at hset
  exact ⟨h.join (hagenda ▸ h.timely.put hstart) hjoins.hosts_eq halarms hstarting
    (plays_create hisn hbegins hset.eq_nil), .join hroutes hisn hunderway⟩

theorem Sound.enter {home : Endpoint} {settings : Connection.Settings} {peer : Peer}
    {start isn : Nat} {sequences : σ} (h : s.Sound initial parties) (hbegins : peer.Begins initial)
    (hstart : start ≤ maxWord) (hisn : isn < maxWord)
    (henter : { s with sequences }.enter home settings peer start isn = (answer, s')) :
    ∃ parties', s'.Sound initial parties' ∧ Advance s s' parties parties' := by
  cases answer with
  | error failure =>
    obtain rfl := eq_of_enter henter
    exact ⟨parties, h.rest rfl h.timely (fun _ ↦ .refl _) h.nodup (fun _ hmem ↦ hmem),
      .rest rfl fun _ hmem ↦ hmem⟩
  | ok id =>
    obtain ⟨-, valid, hjoins⟩ := exists_joins_of_enter henter
    exact ⟨_, h.joins hbegins hstart hisn hjoins.of_sequences⟩

/-- At the beginning nothing is to come, for nobody. -/
theorem sound_create {faults : Network.Faults} {draws sequences : σ} {journal : Array Entry}
    (h : create faults draws sequences = .ok s) :
    ({ s with journal } : Simulation σ Peer).Sound initial [] := by
  obtain ⟨valid, rfl⟩ := create_eq_ok h
  exact
    { timely := ⟨Nat.zero_le _, fun e he ↦ absurd he List.not_mem_nil⟩
      length_eq := rfl
      plays := fun hi _ ↦ absurd hi (by simp)
      nodup := List.nodup_nil
      nobody := fun _ ↦ ⟨rfl, List.not_mem_nil⟩ }

variable [DrawSource σ]

/-- A host that is added joins, with a sequence number from the first half of what a word can hold.
-/
theorem exists_joins_of_addHost {home : Endpoint} {settings : Connection.Settings} {peer : Peer}
    {start id : Nat} (h : s.addHost home settings peer start = (.ok id, s')) :
    id = s.hosts.length + 1 ∧ ∃ valid, ∃ isn < maxHalfWord,
      Joins s s' peer start (Party.create home settings valid isn) := by
  have hlt := DrawSource.initialSequence_lt s.sequences
  rw [Simulation.addHost] at h
  generalize DrawSource.initialSequence s.sequences = draw at hlt h
  obtain ⟨hid, valid, hjoins⟩ := exists_joins_of_enter h
  exact ⟨hid, valid, draw.1, hlt, hjoins.of_sequences⟩

/-- Adding a host keeps a simulation sound, whether or not the host is refused. -/
theorem Sound.addHost {home : Endpoint} {settings : Connection.Settings} {peer : Peer} {start : Nat}
    (h : s.Sound initial parties) (hbegins : peer.Begins initial) (hstart : start ≤ maxWord) :
    ∃ parties', (s.addHost home settings peer start).2.Sound initial parties' ∧
      Advance s (s.addHost home settings peer start).2 parties parties' := by
  have hlt := DrawSource.initialSequence_lt s.sequences
  rw [Simulation.addHost]
  generalize DrawSource.initialSequence s.sequences = draw at hlt ⊢
  exact h.enter hbegins hstart (Nat.lt_trans hlt (by decide)) rfl

/-! ### Steps -/

/-- A host starts. It has not been opened, since hosts start once and open only then. -/
theorem Sound.start (h : s.Sound initial parties) (hnext : s.agenda.next? = some (e, agenda))
    (haction : e.action = .model .start)
    (hstart : { s with agenda }.startHost e.target = .ok s') :
    ∃ parties', s'.Sound initial parties' ∧ Takes initial s s' e agenda parties parties' := by
  have htarget : s.starting = e.target :: { s with agenda }.starting := by
    rw [starting_of_next? hnext, startOf?, haction]
    rfl
  have halarm (id : Nat) : alarmOf? id e = none := by simp [alarmOf?, haction]
  have hmem : e.target ∈ s.starting := htarget ▸ List.mem_cons_self ..
  cases hhost : s.host? e.target with
  | none => exact absurd hmem (h.nobody hhost).2
  | some host =>
    obtain ⟨i, hid, hi⟩ := host?_eq_some hhost
    obtain ⟨p, hp, hplays⟩ := h.exists_party hi
    have hfresh : p.Fresh := hplays.fresh (hid ▸ hmem)
    obtain ⟨r, q, hacts⟩ := exists_acts_of_start (s := { s with agenda })
      (h.timely.next hnext) hhost hplays.connection_eq hplays.drives hplays.sound hstart
    rw [hid] at hacts htarget
    have hwatched := hplays.watched_of_next? hnext (halarm _)
    refine ⟨parties.set i q, h.acts hnext hi hp hfresh.once hacts ?_ ?_ fun _ _ ↦ halarm _,
      .mk hi hp (.start haction hid hfresh) hfresh.once hacts⟩
    · exact hacts.turn.watched hwatched hplays.sound hfresh.once
        (Input.ne_of_opens host.application.opens_opening).1
    · -- It does not start a second time.
      have hnodup := h.nodup
      rw [htarget] at hnodup
      exact fun hagain ↦ absurd hagain (List.nodup_cons.1 hnodup).1

/-- A packet arrives. Where nobody is registered, or the one who is does not exist, it is not heard.
-/
theorem Sound.arrive {packet : Packet} (h : s.Sound initial parties)
    (hnext : s.agenda.next? = some (e, agenda)) (haction : e.action = .model (.arrival packet))
    (harrive : { s with agenda }.arrive packet = .ok s') :
    (s'.Sound initial parties ∧ Advance s s' parties parties) ∧ s.Unheard e ∨
      ∃ parties', s'.Sound initial parties' ∧ Takes initial s s' e agenda parties parties' := by
  have halarm (id : Nat) : alarmOf? id e = none := by simp [alarmOf?, haction]
  have hstart : startOf? e = none := by simp [startOf?, haction]
  rw [Simulation.arrive, Network.route] at harrive
  cases hroute : s.network.actorAt? packet.destination with
  | none =>
    simp only [hroute] at harrive
    obtain rfl := Checked.pure_eq_ok_iff.1 harrive
    exact .inl ⟨h.take hnext halarm hstart rfl rfl rfl, packet, haction, fun hsome ↦
      absurd (hroute.symm.trans hsome) (by simp)⟩
  | some id =>
    simp only [hroute] at harrive
    cases hhost : { s with agenda }.host? id with
    | none =>
      rw [hhost] at harrive
      obtain rfl := Checked.pure_eq_ok_iff.1 harrive
      refine .inl ⟨h.take hnext halarm hstart rfl rfl rfl, packet, haction, fun hsome ↦ ?_⟩
      obtain rfl := Option.some.inj (hroute.symm.trans hsome)
      exact hhost
    | some host =>
      rw [hhost] at harrive
      obtain ⟨⟨c, reaction⟩, hpacket, hreact⟩ := Checked.bind_eq_ok_iff.1 harrive
      obtain ⟨i, rfl, hi⟩ := host?_eq_some hhost
      obtain ⟨p, hp, hplays⟩ := h.exists_party hi
      obtain ⟨r, q, hacts⟩ := exists_acts_of_packet (s := { s with agenda }) (h.timely.next hnext)
        hplays.connection_eq hplays.drives hplays.sound hpacket hreact
      have honce : p.Once (.packet packet) := hplays.waits.once rfl
      have hwatched := hplays.watched_of_next? hnext (halarm _)
      refine .inr ⟨parties.set i q, h.acts hnext hi hp honce hacts ?_ ?_ fun _ _ ↦ halarm _,
        .mk hi hp (.arrival haction hroute) honce hacts⟩
      · exact hacts.turn.watched hwatched hplays.sound honce (by simp)
      · exact hplays.fresh_of_turn hnext hacts.turn rfl

/-- An alarm rings. It is one of those that the party needed, so what is set afterwards is what the
party needs then. -/
theorem Sound.ring {watch : Alarm.Watch} (h : s.Sound initial parties)
    (hnext : s.agenda.next? = some (e, agenda)) (haction : e.action = .model (.alarm watch))
    (hring : { s with agenda }.ring e.target watch = .ok s') :
    ∃ parties', s'.Sound initial parties' ∧ Takes initial s s' e agenda parties parties' := by
  obtain ⟨htarget, host, hhost⟩ := h.exists_host?_of_alarm hnext haction
  have hhost' : ({ s with agenda } : Simulation σ Peer).host? e.target = some host := hhost
  rw [Simulation.ring, hhost'] at hring
  obtain ⟨⟨c, reaction⟩, halarm, hreact⟩ := Checked.bind_eq_ok_iff.1 hring
  obtain ⟨i, hid, hi⟩ := host?_eq_some hhost
  obtain ⟨p, hp, hplays⟩ := h.exists_party hi
  have hwatched := hplays.watched
  rw [← hid, htarget] at hwatched
  obtain ⟨r, q, hacts, hset⟩ := exists_acts_of_alarm (s := { s with agenda })
    (h.timely.next hnext) hplays.connection_eq hplays.drives hplays.sound hplays.waits hwatched
    halarm hreact
  rw [hid] at hacts hset
  have honce : p.Once (.alarm watch) := hplays.waits.once rfl
  refine ⟨parties.set i q, h.acts hnext hi hp honce hacts hset
    (hplays.fresh_of_turn hnext hacts.turn rfl) ?_, .mk hi hp (.alarm haction hid) honce hacts⟩
  intro other hne
  rw [alarmOf?, haction]
  exact if_neg (hid ▸ hne.symm)

/-- Something happens: a host acts, or a packet arrives where nobody is. -/
theorem Sound.happen {happening : Happening} (h : s.Sound initial parties)
    (hnext : s.agenda.next? = some (e, agenda)) (haction : e.action = .model happening)
    (hhappen : { s with agenda }.happen e.target happening = .ok s') :
    (s'.Sound initial parties ∧ Advance s s' parties parties) ∧ s.Unheard e ∨
      ∃ parties', s'.Sound initial parties' ∧ Takes initial s s' e agenda parties parties' := by
  cases happening with
  | start => exact .inr (h.start hnext haction hhappen)
  | arrival packet => exact h.arrive hnext haction hhappen
  | alarm watch => exact .inr (h.ring hnext haction hhappen)

/-- What a step does. -/
inductive Steps (s : Simulation σ Peer) : Bool → Simulation σ Peer → Prop
  /-- There is nothing to do. -/
  | idle (hnext : s.agenda.next? = none) : Steps s false s
  /-- The end is reached. -/
  | close {e : Agenda.Entry Happening} {agenda : Agenda Happening}
    (hnext : s.agenda.next? = some (e, agenda)) (haction : e.action = .close) :
    Steps s false ({ s with agenda }.note (.ended e.time))
  /-- Something happens. -/
  | happen {e : Agenda.Entry Happening} {agenda : Agenda Happening} {happening : Happening}
    {s' : Simulation σ Peer} (hnext : s.agenda.next? = some (e, agenda))
    (haction : e.action = .model happening)
    (hhappen : { s with agenda }.happen e.target happening = .ok s') : Steps s true s'

/-- What a step does is one of three things, depending on the next entry. -/
theorem steps_of_step {running : Bool} (h : s.step = .ok (running, s')) : Steps s running s' := by
  rw [Simulation.step] at h
  split at h
  · next hnext =>
    obtain ⟨rfl, rfl⟩ := Checked.pure_prod_eq_ok h
    exact .idle hnext
  · next e agenda hnext =>
    dsimp only at h
    split at h
    · next haction =>
      obtain ⟨rfl, rfl⟩ := Checked.pure_prod_eq_ok h
      exact .close hnext haction
    · next happening haction =>
      obtain ⟨mid, hhappen, hpure⟩ := Checked.bind_eq_ok_iff.1 h
      obtain ⟨rfl, rfl⟩ := Checked.pure_prod_eq_ok hpure
      exact .happen hnext haction hhappen

/-- **A step keeps a simulation sound**, and the parties go on. -/
theorem Sound.step {running : Bool} (h : s.Sound initial parties)
    (hstep : s.step = .ok (running, s')) :
    ∃ parties', s'.Sound initial parties' ∧ Advance s s' parties parties' := by
  cases steps_of_step hstep with
  | idle => exact ⟨parties, h, .rest rfl fun _ hmem ↦ hmem⟩
  | close hnext haction =>
    exact ⟨parties, h.take hnext (fun id ↦ by simp [alarmOf?, haction])
      (by simp [startOf?, haction]) rfl rfl rfl⟩
  | happen hnext haction hhappen =>
    rcases h.happen hnext haction hhappen with ⟨hrest, -⟩ | ⟨_, hsound, htakes⟩
    · exact ⟨parties, hrest⟩
    · exact ⟨_, hsound, htakes.advance hnext⟩

/-! ### All of them -/

/-- **What holds at the beginning, and still does when the parties go on, holds of all of them.**
The parties are not known beforehand, so it is shown of some that fit. -/
theorem Reachable.exists_of_advance {P : Simulation σ Peer → List Party → Prop}
    (h : s.Reachable initial)
    (hcreate : ∀ {faults : Network.Faults} {draws sequences : σ} {s : Simulation σ Peer}
      {journal : Array Entry}, Simulation.create faults draws sequences = .ok s →
      P { s with journal } [])
    (hadvance : ∀ {s s' parties parties'}, s.Sound initial parties → P s parties →
      Advance s s' parties parties' → P s' parties') :
    ∃ parties, s.Sound initial parties ∧ P s parties := by
  have hnext {s s' : Simulation σ Peer}
      (hgoes : ∀ {parties}, s.Sound initial parties →
        ∃ parties', s'.Sound initial parties' ∧ Advance s s' parties parties')
      (ih : ∃ parties, s.Sound initial parties ∧ P s parties) :
      ∃ parties, s'.Sound initial parties ∧ P s' parties := by
    obtain ⟨parties, hsound, hp⟩ := ih
    obtain ⟨parties', hsound', hgo⟩ := hgoes hsound
    exact ⟨parties', hsound', hadvance hsound hp hgo⟩
  induction h with
  | create hempty => exact ⟨[], sound_create hempty, hcreate hempty⟩
  | addHost _ hbegins hstart ih => exact hnext (fun hsound ↦ hsound.addHost hbegins hstart) ih
  | closeAt _ htime ih => exact hnext (fun hsound ↦ ⟨_, hsound.closeAt htime⟩) ih
  | step _ hstep ih => exact hnext (fun hsound ↦ hsound.step hstep) ih

theorem Reachable.exists_sound (h : s.Reachable initial) :
    ∃ parties, s.Sound initial parties := by
  obtain ⟨parties, hsound, -⟩ := h.exists_of_advance (P := fun _ _ ↦ True)
    (fun _ ↦ trivial) fun _ _ _ ↦ trivial
  exact ⟨parties, hsound⟩

/-- What one can come to from the beginning, by something that leads from one simulation to another.
-/
theorem reachable_of_map_create {f : Simulation σ Peer → Simulation σ Peer}
    (hf : ∀ {empty}, Reachable initial empty → Reachable initial (f empty))
    {faults : Network.Faults} {draws sequences : σ}
    (h : (create faults draws sequences).map f = .ok s) : s.Reachable initial := by
  obtain ⟨empty, hcreate, rfl⟩ := Failure.exists_of_map_eq_ok h
  exact hf (.create hcreate)

/-- What one begins with if all chance comes from a seed. -/
theorem reachable_ofSeed {faults : Network.Faults} {seed : UInt64} {s : Simulation ChaCha Peer}
    (h : ofSeed faults seed = .ok s) : s.Reachable initial := by
  obtain ⟨empty, hcreate, rfl⟩ := Failure.exists_of_map_eq_ok h
  exact .create hcreate

/-- Taking steps leads to nothing else, however many are taken. -/
theorem Reachable.advance {n : Nat} {running : Bool} (h : s.Reachable initial)
    (hadvance : s.advance n = .ok (running, s')) : s'.Reachable initial := by
  induction n generalizing s with
  | zero =>
    obtain ⟨-, rfl⟩ := Checked.pure_prod_eq_ok hadvance
    exact h
  | succ n ih =>
    rw [Simulation.advance] at hadvance
    obtain ⟨⟨going, mid⟩, hstep, hrest⟩ := Checked.bind_eq_ok_iff.1 hadvance
    cases going with
    | false =>
      obtain ⟨-, rfl⟩ := Checked.pure_prod_eq_ok hrest
      exact h.step hstep
    | true => exact ih (h.step hstep) hrest

/-- What a number of steps lead to, if there is a beginning and nothing overflows. -/
def after (n : Nat) (beginning : Except Failure (Simulation σ Peer)) : Option (Simulation σ Peer) :=
  match beginning with
  | .error _ => none
  | .ok s =>
    match s.advance n with
    | .error _ => none
    | .ok (_, s) => some s

theorem reachable_of_after {n : Nat} {beginning : Except Failure (Simulation σ Peer)}
    (hbeginning : ∀ {s}, beginning = .ok s → Reachable initial s)
    (h : after n beginning = some s) : s.Reachable initial := by
  unfold after at h
  split at h
  · exact absurd h (by simp)
  · split at h
    · exact absurd h (by simp)
    · next hadvance =>
      obtain rfl := Option.some.inj h
      exact (hbeginning rfl).advance hadvance

end ReliableStream.Simulation

/-! ### A run

A client sends five bytes to a server in segments of two, over a network that loses half of the
packets. Which ones is laid out in advance: the acknowledgement that completes the handshake is
lost, the second segment, and the first acknowledgement.
-/

namespace ReliableStream

/-- Draws that are laid out in advance. After them every word is zero. -/
structure Dealt where
  /-- The words. -/
  words : List UInt64

instance : DrawSource Dealt where
  next d := (d.words.headD 0, ⟨d.words.tail⟩)

/-- Every word is zero. -/
def Dealt.zeros : Dealt := ⟨[]⟩

/-- A packet that arrives after the smallest delay. -/
def Dealt.arrives : List UInt64 := [0x8000000000000000, 0, 0, 0]

/-- A packet that is lost. -/
def Dealt.lost : List UInt64 := [0]

/-- The fates of the packets. -/
def Dealt.fates : Dealt :=
  ⟨arrives ++ arrives ++ lost ++ arrives ++ lost ++ lost ++ (List.replicate 6 arrives).flatten⟩

/-- A server, and a client that sends it five bytes. -/
def Simulation.fiveBytes : Except Failure (Simulation Dealt Peer) :=
  (create { Network.Faults.perfect with loss := .ofRatio false 1 2 } .fates
    ⟨[0x10000000000, 0x90000000000]⟩).map fun s ↦
      ((s.addHost ⟨10, 0, 0, 2, 80⟩ {} (.server []) 0).2.addHost ⟨10, 0, 0, 1, 4000⟩
        { mtu := 2, window := 2 } (.client ⟨10, 0, 0, 2, 80⟩ [1, 2, 3, 4, 5]) 0).2

/-- One can come to it: the network is created, and two hosts are added. -/
theorem Simulation.reachable_fiveBytes {s : Simulation Dealt Peer} (h : fiveBytes = .ok s) :
    s.Reachable (· = []) := by
  refine reachable_of_map_create (fun hempty ↦ ?_) h
  exact (hempty.addHost (Peer.begins_server rfl) (Nat.zero_le _)).addHost
    Peer.begins_client (Nat.zero_le _)

end ReliableStream
