import ReliableStream.Proofs.Coherent
import ReliableStream.Proofs.Simulation.Sound
import ReliableStream.Proofs.Simulation.Tallies

/-!
# Everything is accounted for

Five kinds of totals are kept in three places: by each connection, by the network, and in the trace.
`Balanced` says how they have to agree with each other, with the packets that the hosts asked to
send, and with those that arrived. These two are counted on the way (`Counts`): a step `asks` for
some packets and at most one is `arriving` at it.

`Reachable.balanced` is that every simulation of clients and servers one can come to is balanced,
if no two hosts are at the same place. Where two are, the trace does not tell them apart.

What a step does to the totals is not taken from the code again. Carrying out an answer moves the
network's totals and the trace together (`Enacts`), and a turn moves those of one connection
together with what is told of it (`Tallies`). So the invariant is `Accounted`: one half of it,
`Counted`, is about the network and holds wherever hosts are, and the other one, `Told`, is about
the hosts.
-/

namespace ReliableStream.Simulation

variable {σ : Type} {initial : Bytes → Prop} {s s' : Simulation σ Peer}
  {asked arrived : List Packet} {home : Endpoint}

/-! ### What a step asks for, and what arrives at it -/

/-- The packet that arrives at the next step, if one does. -/
def arriving (s : Simulation σ Peer) : List Packet :=
  match s.agenda.next? with
  | none => []
  | some (e, _) => (arrivalOf? e).toList

/-- The packets that are asked to be sent at the next step. -/
def asks (s : Simulation σ Peer) : List Packet :=
  match s.agenda.next? with
  | none => []
  | some (e, agenda) =>
    match e.action with
    | .close => []
    | .model happening =>
      match ({ s with agenda } : Simulation σ Peer).answer? e.target happening with
      | .ok (some a) => a.packets
      | .ok none | .error _ => []

/-- What arrives is what the next entry brings, if that is an arrival. -/
theorem arriving_eq {e : Agenda.Entry Happening} {agenda : Agenda Happening}
    (hnext : s.agenda.next? = some (e, agenda)) : s.arriving = (arrivalOf? e).toList := by
  rw [arriving, hnext]

/-- What one can come to, with the packets that hosts asked to send and those that arrived on the
way. -/
inductive Counts [DrawSource σ] (initial : Bytes → Prop) :
    Simulation σ Peer → List Packet → List Packet → Prop
  /-- At the beginning there are none. -/
  | create {faults : Network.Faults} {draws sequences : σ} {s : Simulation σ Peer}
    {journal : Array Entry} (hcreate : create faults draws sequences = .ok s) :
    Counts initial { s with journal } [] []
  /-- A host is added, or refused. -/
  | addHost {s : Simulation σ Peer} {asked arrived : List Packet} {home : Endpoint}
    {settings : Connection.Settings} {peer : Peer} {start : Nat}
    (h : Counts initial s asked arrived) (hbegins : peer.Begins initial)
    (hstart : start ≤ maxWord) :
    Counts initial (s.addHost home settings peer start).2 asked arrived
  /-- The end is set. -/
  | closeAt {s : Simulation σ Peer} {asked arrived : List Packet} {time : Nat}
    (h : Counts initial s asked arrived) (htime : time ≤ maxWord) :
    Counts initial (s.closeAt time) asked arrived
  /-- A step is taken. -/
  | step {s s' : Simulation σ Peer} {asked arrived : List Packet} {running : Bool}
    (h : Counts initial s asked arrived) (hstep : s.step = .ok (running, s')) :
    Counts initial s' (asked ++ s.asks) (arrived ++ s.arriving)

/-- Whatever one can come to, one can count the packets. -/
theorem Reachable.exists_counts [DrawSource σ] (h : s.Reachable initial) :
    ∃ asked arrived, Counts initial s asked arrived := by
  induction h with
  | create hcreate => exact ⟨_, _, .create hcreate⟩
  | addHost _ hbegins hstart ih =>
    obtain ⟨asked, arrived, ih⟩ := ih
    exact ⟨asked, arrived, .addHost ih hbegins hstart⟩
  | closeAt _ htime ih =>
    obtain ⟨asked, arrived, ih⟩ := ih
    exact ⟨asked, arrived, .closeAt ih htime⟩
  | step _ hstep ih =>
    obtain ⟨asked, arrived, ih⟩ := ih
    exact ⟨_, _, .step ih hstep⟩

/-! ### The balance -/

/-- What the trace tells of an endpoint. -/
def eventsAt {α : Type} (home : Endpoint) (s : Simulation σ α) : List Trace.Event :=
  (s.trace.toList.filter (·.endpoint = home)).map (·.event)

/-- All totals agree. -/
structure Balanced (s : Simulation σ Peer) (asked arrived : List Packet) : Prop where
  /-- Each host has counted what the trace tells of it. -/
  hosts : ∀ host ∈ s.hosts, host.connection.stats.Agrees (s.eventsAt host.connection.home)
  /-- The network has counted what the trace tells of it. -/
  network : s.network.stats.Agrees s.events
  /-- All packets were sent that a host asked to send. -/
  sent_eq : s.network.stats.sent = asked.length
  /-- No more packets were lost than sent. -/
  lost_le : s.network.stats.lost ≤ s.network.stats.sent
  /-- Every copy has arrived or is under way. -/
  copies_eq : s.network.stats.sent - s.network.stats.lost + s.network.stats.duplicated =
    arrived.length + s.underway.length

/-- What is known of the totals of the network. -/
structure Counted (s : Simulation σ Peer) (asked arrived : List Packet) : Prop where
  /-- They agree with the trace. -/
  agrees : s.network.stats.Agrees s.events
  /-- All packets were sent that a host asked to send. -/
  sent_eq : s.network.stats.sent = asked.length
  /-- No more packets were lost than sent. -/
  lost_le : s.network.stats.lost ≤ s.network.stats.sent
  /-- Every copy has arrived or is under way. -/
  balance : s.Balance arrived.length

/-- What is known of the totals of the hosts, if no two are at the same place. -/
structure Told (s : Simulation σ Peer) : Prop where
  /-- Each host has counted what the trace tells of it. -/
  agrees : ∀ {i : Nat} {host : Host Peer}, s.hosts[i]? = some host →
    host.connection.stats.Agrees (s.eventsAt host.connection.home)
  /-- Of other places nothing is told that a host would count. -/
  silent : ∀ home ∉ s.hosts.map (·.connection.home),
    ({} : Connection.Stats).Agrees (s.eventsAt home)

variable {e : Agenda.Entry Happening} {agenda : Agenda Happening} {told : List Trace.Event}
  {packets : List Packet} {happening : Happening} {host host' : Host Peer} {i : Nat}

/-! ### The network counts -/

namespace Counted

/-- Nothing is sent, and nothing arrives. Whatever is told meanwhile is of no account, as the
network owns none of it. -/
theorem rest (h : s.Counted asked arrived) (hstats : s'.network.stats = s.network.stats)
    (hevents : s'.events = s.events ++ told) (hown : ∀ event ∈ told, event.isOwn = true)
    (hunderway : s'.underway.length = s.underway.length) : s'.Counted asked arrived where
  agrees := by
    rw [hstats, hevents]
    exact h.agrees.append hown
  sent_eq := by rw [hstats, h.sent_eq]
  lost_le := by
    rw [hstats]
    exact h.lost_le
  balance := by
    rw [Balance, hstats, hunderway]
    exact h.balance

/-- An entry is taken, and a packet arrives if it is one. A copy that was under way has arrived, and
the sum of both stays. -/
theorem take (h : s.Counted asked arrived) (hnext : s.agenda.next? = some (e, agenda)) :
    ({ s with agenda } : Simulation σ Peer).Counted asked (arrived ++ s.arriving) where
  agrees := h.agrees
  sent_eq := h.sent_eq
  lost_le := h.lost_le
  balance := by
    have hbalance := h.balance
    rw [Balance, underway_of_next? hnext, List.length_append] at hbalance
    rw [Balance, arriving_eq hnext, List.length_append]
    dsimp only
    omega

/-- What a host asks for is carried out. -/
theorem enacts (h : s.Counted asked arrived) (henacts : Enacts home packets told s s')
    (hown : ∀ event ∈ told, event.isOwn = true) : s'.Counted (asked ++ packets) arrived where
  agrees := henacts.agrees hown h.agrees
  sent_eq := by rw [henacts.sent_eq, h.sent_eq, List.length_append]
  lost_le := henacts.lost_le h.lost_le
  balance := henacts.balance h.balance

/-- Nobody has its turn. A packet that is dropped is counted. -/
theorem pass (h : s.Counted asked arrived) : (s.pass happening).Counted asked arrived := by
  cases happening with
  | start | alarm => exact h
  | arrival packet =>
    rw [Simulation.pass, Network.route]
    cases s.network.actorAt? packet.destination with
    | some id => exact h
    | none =>
      dsimp only
      exact ⟨events_record .. ▸ h.agrees.drop packet.destination, h.sent_eq, h.lost_le, h.balance⟩

end Counted

/-- The hosts are as they were. -/
theorem hosts_pass (happening : Happening) (s : Simulation σ Peer) :
    (s.pass happening).hosts = s.hosts := by
  cases happening with
  | start | alarm => rfl
  | arrival packet =>
    rw [Simulation.pass, Network.route]
    cases s.network.actorAt? packet.destination <;> rfl

/-! ### The trace tells of each host -/

/-- What a host adds to what is told of it. The network adds to it as well, but nothing that a host
would count. -/
theorem Enacts.exists_eventsAt (h : Enacts home packets told s s') :
    ∃ more, s'.eventsAt home = s.eventsAt home ++ more ∧
      more.filter (·.isOwn) = told.filter (·.isOwn) := by
  obtain ⟨records, htrace, hmine, hevents⟩ := h.written
  have hall : records.filter (·.endpoint = home) = records :=
    List.filter_eq_self.2 fun record hmem ↦ by simpa using (hmine record hmem).2
  exact ⟨_, by rw [eventsAt, htrace, List.filter_append, List.map_append, hall, eventsAt], hevents⟩

/-- Nothing is told of anyone else, since all that is recorded is recorded for the host that acts.
-/
theorem Enacts.eventsAt_eq (h : Enacts home packets told s s') {other : Endpoint}
    (hne : other ≠ home) : s'.eventsAt other = s.eventsAt other := by
  obtain ⟨records, htrace, hmine, -⟩ := h.written
  have hnone : records.filter (·.endpoint = other) = [] :=
    List.filter_eq_nil_iff.2 fun record hmem ↦ by simpa [(hmine record hmem).2] using hne.symm
  rw [eventsAt, htrace, List.filter_append, hnone, List.append_nil, eventsAt]

/-- An event is told of the one it is recorded for, and of nobody else. -/
theorem eventsAt_record (home other : Endpoint) (event : Trace.Event) (s : Simulation σ Peer) :
    (s.record home event).eventsAt other =
      s.eventsAt other ++ if home = other then [event] else [] := by
  have htrace : (s.record home event).trace.toList = s.trace.toList ++ [⟨s.now, home, event⟩] :=
    Array.toList_push
  rw [eventsAt, htrace, List.filter_append, List.map_append, eventsAt]
  simp [List.filter_cons, apply_ite]

/-- A host that stays where it is leaves all as they are. -/
theorem map_home_set {hosts : List (Host Peer)} (hi : hosts[i]? = some host)
    (hhome : host'.connection.home = host.connection.home) :
    (hosts.set i host').map (·.connection.home) = hosts.map (·.connection.home) :=
  map_place_set hi hhome

namespace Told

/-- Nothing is told that a host would count, and the hosts stay. -/
theorem rest (h : s.Told) (hhosts : s'.hosts = s.hosts)
    (hevents : ∀ home, (s'.eventsAt home).filter (·.isOwn) = (s.eventsAt home).filter (·.isOwn)) :
    s'.Told where
  agrees hi := by
    rw [hhosts] at hi
    rw [← Connection.Stats.agrees_filter, hevents, Connection.Stats.agrees_filter]
    exact h.agrees hi
  silent home hhome := by
    rw [hhosts] at hhome
    rw [← Connection.Stats.agrees_filter, hevents, Connection.Stats.agrees_filter]
    exact h.silent home hhome

/-- Nobody has its turn. -/
theorem pass (h : s.Told) : (s.pass happening).Told := by
  refine h.rest (hosts_pass happening s) fun home ↦ ?_
  cases happening with
  | start | alarm => rfl
  | arrival packet =>
    rw [Simulation.pass, Network.route]
    cases s.network.actorAt? packet.destination with
    | some id => rfl
    | none =>
      dsimp only
      rw [eventsAt_record, List.filter_append]
      split
      · exact List.append_nil _
      · exact List.append_nil _

/-- **A host acts, and tells of it.** Its own totals and its own events move together. What is told
of another place is not touched, and this is where no two hosts may be at one place. -/
theorem acts (h : s.Told) (hnodup : (s.hosts.map (·.connection.home)).Nodup)
    (hi : s.hosts[i]? = some host) (htallies : host.connection.Tallies told host'.connection)
    (hhosts : s'.hosts = s.hosts.set i host')
    (henacts : Enacts host.connection.home packets told
      { s with hosts := s.hosts.set i host' } s') : s'.Told := by
  obtain ⟨more, hmore, hown⟩ := henacts.exists_eventsAt
  constructor
  case agrees =>
    intro j hostj hj
    rw [hhosts] at hj
    rcases cases_of_getElem?_set hj with ⟨rfl, rfl⟩ | ⟨hij, hold⟩
    · rw [htallies.home_eq, hmore]
      exact (htallies.agrees (h.agrees hi)).congr_own hown
    · have hne : hostj.connection.home ≠ host.connection.home :=
        fun heq ↦ hij (index_eq_of_place_eq hnodup hi hold heq.symm)
      rw [henacts.eventsAt_eq hne]
      exact h.agrees hold
  case silent =>
    intro other hother
    rw [hhosts, map_home_set hi htallies.home_eq] at hother
    have hne : other ≠ host.connection.home := by
      rintro rfl
      exact hother (List.mem_map_of_mem (List.mem_of_getElem? hi))
    rw [henacts.eventsAt_eq hne]
    exact h.silent other hother

/-- A host joins of which only that is told. Nothing that counts was told of its place before. -/
theorem join (h : s.Told) (hnew : host.connection.home ∉ s.hosts.map (·.connection.home))
    (hstats : host.connection.stats = {}) (hhosts : s'.hosts = s.hosts ++ [host])
    (htrace : s'.trace = s.trace.push ⟨s.now, host.connection.home, .registered⟩) : s'.Told := by
  have hevents (other : Endpoint) : s'.eventsAt other =
      s.eventsAt other ++ if host.connection.home = other then [.registered] else [] := by
    rw [← eventsAt_record, eventsAt, htrace]
    rfl
  have hother {other : Endpoint} (hmem : other ∈ s.hosts.map (·.connection.home)) :
      s'.eventsAt other = s.eventsAt other := by
    have hne : host.connection.home ≠ other := by
      rintro rfl
      exact hnew hmem
    rw [hevents, if_neg hne, List.append_nil]
  have hnothing {stats : Connection.Stats} {told : List Trace.Event} (hstats : stats.Agrees told) :
      stats.Agrees (told ++ [.registered]) := by
    constructor <;>
      simp [hstats.bytesSent_eq, hstats.bytesReceived_eq, hstats.resends_eq, Trace.Event.sentBytes,
        Trace.Event.deliveredBytes, Trace.Event.isResend]
  constructor
  case agrees =>
    intro j hostj hj
    rw [hhosts] at hj
    rcases cases_of_getElem?_concat hj with hold | ⟨rfl, rfl⟩
    · rw [hother (List.mem_map_of_mem (List.mem_of_getElem? hold))]
      exact h.agrees hold
    · -- The new host has counted nothing, and `silent` had it that there was nothing to count.
      rw [hevents, if_pos rfl, hstats]
      exact hnothing (h.silent _ hnew)
  case silent =>
    intro other hmem
    rw [hhosts, List.map_append, List.mem_append, not_or] at hmem
    have hne : host.connection.home ≠ other := by
      rintro rfl
      exact hmem.2 (List.mem_singleton.2 rfl)
    rw [hevents, if_neg hne, List.append_nil]
    exact h.silent other hmem.1

end Told

/-! ### Every step keeps account -/

/-- All that is known of the totals. -/
structure Accounted (s : Simulation σ Peer) (asked arrived : List Packet) : Prop where
  /-- The network counts. -/
  counted : s.Counted asked arrived
  /-- So do the hosts, if the trace tells them apart. -/
  told : (s.hosts.map (·.connection.home)).Nodup → s.Told

/-- What is asked for at a step is what the answer of the host whose turn it is asks for. -/
theorem asks_eq (hnext : s.agenda.next? = some (e, agenda))
    (haction : e.action = .model happening) {answer : Option (Answer Peer)}
    (hanswer : ({ s with agenda } : Simulation σ Peer).answer? e.target happening = .ok answer) :
    s.asks = answer.elim [] (·.packets) := by
  rw [asks, hnext]
  dsimp only
  rw [haction]
  dsimp only
  rw [hanswer]
  cases answer <;> rfl

/-- An entry is taken. -/
theorem Accounted.take (h : s.Accounted asked arrived) (hnext : s.agenda.next? = some (e, agenda)) :
    ({ s with agenda } : Simulation σ Peer).Accounted asked (arrived ++ s.arriving) :=
  ⟨h.counted.take hnext, fun hnodup ↦ { h.told hnodup with }⟩

/-- The end is set. -/
theorem Accounted.closeAt {time : Nat} (h : s.Accounted asked arrived) :
    (s.closeAt time).Accounted asked arrived := by
  have hperm := s.agenda.entries_put_perm time 0 .close
  refine ⟨h.counted.rest rfl (List.append_nil _).symm (fun _ hmem ↦ absurd hmem List.not_mem_nil)
    (hperm.filterMap arrivalOf?).length_eq, fun hnodup ↦ { h.told hnodup with }⟩

/-- A host joins. If all are at different places then so were those before it, and nobody was at its
own. -/
theorem Accounted.join (h : s.Accounted asked arrived) (host : Host Peer)
    (hhosts : s'.hosts = s.hosts ++ [host])
    (hstats : host.connection.stats = {})
    (htrace : s'.trace = s.trace.push ⟨s.now, host.connection.home, .registered⟩)
    (hnetwork : s'.network.stats = s.network.stats)
    (hunderway : s'.underway.length = s.underway.length) : s'.Accounted asked arrived := by
  have hevents : s'.events = s.events ++ [.registered] := by
    rw [events, htrace, Array.toList_push, List.map_append]
    rfl
  refine ⟨h.counted.rest hnetwork hevents (by decide) hunderway, fun hnodup ↦ ?_⟩
  rw [hhosts] at hnodup
  -- The premise is about the places with the new one, so it covers the old ones too.
  obtain ⟨hnodup', hnew⟩ := places_of_concat hnodup
  exact (h.told hnodup').join hnew hstats hhosts htrace

/-- A host is added, or refused. -/
theorem Accounted.enter {settings : Connection.Settings} {peer : Peer} {start isn : Nat}
    (h : s.Accounted asked arrived) :
    (s.enter home settings peer start isn).2.Accounted asked arrived := by
  rw [Simulation.enter]
  split
  · exact h
  · next c hcreate =>
    obtain ⟨valid, rfl⟩ := Party.exists_of_create hcreate
    have hperm := s.agenda.entries_put_perm start (s.hosts.length + 1) (.model .start)
    exact h.join ⟨(Party.create home settings valid isn).toConnection, peer⟩ rfl rfl rfl rfl
      (hperm.filterMap arrivalOf?).length_eq

/-- It does not matter where sequence numbers are drawn from. -/
theorem Accounted.of_sequences {sequences : σ} (h : s.Accounted asked arrived) :
    ({ s with sequences } : Simulation σ Peer).Accounted asked arrived :=
  ⟨{ h.counted with }, fun hnodup ↦ { h.told hnodup with }⟩

variable [DrawSource σ]

/-- Something happens to a simulation whose next entry was taken. -/
theorem Accounted.happen {target : Nat} {answer : Option (Answer Peer)}
    (h : s.Accounted asked arrived) (hanswer : s.answer? target happening = .ok answer)
    (hfollow : s.follow happening answer = .ok s') :
    s'.Accounted (asked ++ answer.elim [] (·.packets)) arrived := by
  cases answer with
  | none =>
    obtain rfl := Checked.pure_eq_ok_iff.1 hfollow
    rw [Option.elim_none, List.append_nil]
    exact ⟨h.counted.pass, fun hnodup ↦ (h.told (hosts_pass happening s ▸ hnodup)).pass⟩
  | some a =>
    obtain ⟨host, hhost, hhome, hmeet⟩ := exists_host_of_answer? hanswer
    obtain ⟨i, hid, hi⟩ := host?_eq_some hhost
    have htallies := Host.tallies_of_meet hmeet
    have henacts := enacts_of_follow hfollow
    have hcounted : (s.setHost a.id a.host).Counted asked arrived := { h.counted with }
    refine ⟨hcounted.enacts henacts htallies.own, fun hnodup ↦ ?_⟩
    rw [hid, hhome] at henacts
    have hhosts : s'.hosts = s.hosts.set i a.host := henacts.hosts_eq
    rw [hhosts, map_home_set hi htallies.home_eq] at hnodup
    exact (h.told hnodup).acts hnodup hi htallies hhosts henacts

/-- **A step keeps account**: of what arrives at it, and of what is asked for in answer. -/
theorem Accounted.step {running : Bool} (h : s.Accounted asked arrived)
    (hstep : s.step = .ok (running, s')) :
    s'.Accounted (asked ++ s.asks) (arrived ++ s.arriving) := by
  cases steps_of_step hstep with
  | idle hnext =>
    rw [asks, arriving, hnext, List.append_nil, List.append_nil]
    exact h
  | close hnext haction =>
    have htake := h.take hnext
    rw [asks, hnext]
    dsimp only
    rw [haction, List.append_nil]
    exact ⟨{ htake.counted with }, fun hnodup ↦ { htake.told hnodup with }⟩
  | happen hnext haction hhappen =>
    obtain ⟨answer, hanswer, hfollow⟩ := happen_eq_ok_iff.1 hhappen
    rw [asks_eq hnext haction hanswer]
    exact (h.take hnext).happen hanswer hfollow

theorem Accounted.addHost {settings : Connection.Settings} {peer : Peer} {start : Nat}
    (h : s.Accounted asked arrived) :
    (s.addHost home settings peer start).2.Accounted asked arrived := by
  rw [Simulation.addHost]
  generalize DrawSource.initialSequence s.sequences = draw
  exact h.of_sequences.enter

theorem Counts.accounted (h : Counts initial s asked arrived) : s.Accounted asked arrived := by
  induction h with
  | create hcreate =>
    obtain ⟨valid, rfl⟩ := create_eq_ok hcreate
    exact
      { counted := ⟨⟨rfl, rfl, rfl, rfl⟩, rfl, Nat.le_refl _, rfl⟩
        told := fun _ ↦ ⟨fun hi ↦ absurd hi (by simp), fun _ _ ↦ Connection.Stats.agrees_nil⟩ }
  | addHost _ _ _ ih => exact ih.addHost
  | closeAt _ _ ih => exact ih.closeAt
  | step _ hstep ih => exact ih.step hstep

/-- **Everything is accounted for.** If no two hosts are at the same place, then the totals of the
hosts and of the network, the trace and the packets under way agree. -/
theorem Reachable.balanced (h : s.Reachable initial)
    (hnodup : (s.hosts.map (·.connection.home)).Nodup) :
    (∃ asked arrived, Counts initial s asked arrived) ∧
      ∀ asked arrived, Counts initial s asked arrived → s.Balanced asked arrived := by
  refine ⟨h.exists_counts, fun asked arrived hcounts ↦ ?_⟩
  obtain ⟨hcounted, htold⟩ := hcounts.accounted
  have hbalance : s.network.stats.sent + s.network.stats.duplicated =
    s.network.stats.lost + arrived.length + s.underway.length := hcounted.balance
  have hlost := hcounted.lost_le
  exact
    { hosts := fun host hmem ↦ by
        obtain ⟨i, hi⟩ := List.getElem?_of_mem hmem
        exact (htold hnodup).agrees hi
      network := hcounted.agrees
      sent_eq := hcounted.sent_eq
      lost_le := hlost
      copies_eq := by omega }

/-- Fates of packets on a network that loses, duplicates and holds back half of what it gets. After
them everything is lost. -/
def mishapFates : Dealt :=
  ⟨twice ++ once ++ once ++ once ++ once ++ twice ++ Dealt.lost ++ once ++ List.replicate 4 0 ++
    once ++ once⟩
where
  /-- The packet arrives once. -/
  once : List UInt64 := [0x8000000000000000, 0x8000000000000000, 0, 0x8000000000000000]
  /-- The packet arrives twice, and the second copy is held back. -/
  twice : List UInt64 := [0x8000000000000000, 0, 0, 0x8000000000000000, 0, 0, 0]

/-- A server and two clients, of which one looks for a server where nobody is. -/
def mishaps : Except Failure (Simulation Dealt Peer) :=
  (create { loss := .ofRatio false 1 2, duplicate := .ofRatio false 1 2,
            reorder := .ofRatio false 1 2 } mishapFates .zeros).map fun s ↦
    (((s.addHost ⟨10, 0, 0, 2, 80⟩ {} (.server []) 0).2.addHost ⟨10, 0, 0, 1, 4000⟩
      { mtu := 2, window := 2 } (.client ⟨10, 0, 0, 2, 80⟩ [1, 2, 3, 4, 5]) 0).2.addHost
      ⟨10, 0, 0, 3, 4000⟩ {} (.client ⟨10, 0, 0, 9, 80⟩ [6]) 0).2

/-- One can come to it: the network is created, and three hosts are added. -/
theorem reachable_mishaps {s : Simulation Dealt Peer} (h : mishaps = .ok s) :
    s.Reachable (· = []) := by
  refine reachable_of_map_create (fun hempty ↦ ?_) h
  exact ((hempty.addHost (Peer.begins_server rfl) (Nat.zero_le _)).addHost
    Peer.begins_client (Nat.zero_le _)).addHost Peer.begins_client (Nat.zero_le _)

/-- Of fifteen packets six are lost and two are duplicated. Ten copies have arrived, one of them
where nobody is, and one is under way. -/
theorem balanced_mishaps :
    ∃ s, after 19 mishaps = some s ∧ s.network.stats = ⟨15, 6, 2, 2, 1⟩ ∧
      s.underway.length = 1 ∧ s.hosts.map (·.connection.stats) = [⟨0, 4, 0⟩, ⟨5, 0, 2⟩, {}] ∧
      (∃ asked arrived, Counts (· = []) s asked arrived) ∧
      ∀ asked arrived, Counts (· = []) s asked arrived → s.Balanced asked arrived := by
  have hrun : (after 19 mishaps).map (fun s ↦
      (s.network.stats, s.underway.length, s.hosts.map (·.connection.stats),
        decide (s.hosts.map (·.connection.home)).Nodup)) =
      some (⟨15, 6, 2, 2, 1⟩, 1, [⟨0, 4, 0⟩, ⟨5, 0, 2⟩, {}], true) := by
    decide +kernel
  obtain ⟨s, hs, hfacts⟩ := Option.map_eq_some_iff.1 hrun
  obtain ⟨hstats, hfacts⟩ := Prod.mk.inj hfacts
  obtain ⟨hunderway, hfacts⟩ := Prod.mk.inj hfacts
  obtain ⟨hhosts, hnodup⟩ := Prod.mk.inj hfacts
  exact ⟨s, hs, hstats, hunderway, hhosts,
    (reachable_of_after reachable_mishaps hs).balanced (of_decide_eq_true hnodup)⟩

end ReliableStream.Simulation
