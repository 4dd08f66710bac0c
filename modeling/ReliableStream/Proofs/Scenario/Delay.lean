import ReliableStream.Proofs.Scenario.Runs
import ReliableStream.Proofs.Timing.Lags

/-!
# A scenario that takes place later

The client of a scenario starts at an instant that the scenario gives. If it starts later, and the
run ends later by as much, then the run shows the same (`outcome_delay`): the same is read, sent,
lost and counted, and the same is told of it, later. Only the registrations take place at the
beginning in any case, and the start of the server, which nothing shows.

The first step is that start. It is looked at on its own, and from then on one run lags behind the
other (`Lags.advance`).

Both sides may fail, and then in the same way: if the scenario is refused it is refused whenever the
client starts, and a run that overflows does so with either start.
-/

namespace ReliableStream

namespace Simulation

variable {σ : Type} {s s' : Simulation σ Peer} {home : Endpoint}
  {settings : Connection.Settings} {peer : Peer} {start id isn : Nat} {failure : Failure}

/-- When a host starts matters only to the agenda. -/
theorem enter_of_ok (h : s.enter home settings peer start isn = (.ok id, s')) (later : Nat) :
    s.enter home settings peer later isn =
      (.ok id, { s' with agenda := s.agenda.addAt later id .start }) := by
  rw [enter] at h ⊢
  cases hcreate : Connection.create home settings isn with
  | error failure =>
    rw [hcreate] at h
    exact absurd (Prod.mk.inj h).1 (by simp)
  | ok c =>
    rw [hcreate] at h
    obtain ⟨hid, rfl⟩ := Prod.mk.inj h
    obtain rfl := Except.ok.inj hid
    rfl

/-- A host that is refused is refused whenever it would start. -/
theorem enter_of_error (h : s.enter home settings peer start isn = (.error failure, s'))
    (later : Nat) : s.enter home settings peer later isn = (.error failure, s') := by
  rw [enter] at h ⊢
  cases hcreate : Connection.create home settings isn with
  | error failure =>
    rw [hcreate] at h
    exact h
  | ok c =>
    rw [hcreate] at h
    exact absurd (Prod.mk.inj h).1 (by simp)

variable [DrawSource σ]

/-- A host that is added starts when it is told to, and all else is the same. -/
theorem addHost_of_ok (h : s.addHost home settings peer start = (.ok id, s')) (later : Nat) :
    s.addHost home settings peer later =
      (.ok id, { s' with agenda := s.agenda.addAt later id .start }) := by
  rw [addHost] at h ⊢
  exact enter_of_ok h later

theorem addHost_of_error (h : s.addHost home settings peer start = (.error failure, s'))
    (later : Nat) : s.addHost home settings peer later = (.error failure, s') := by
  rw [addHost] at h ⊢
  exact enter_of_error h later

end Simulation

namespace Scenario

open Party Simulation

variable {sc : Scenario} {seed : UInt64} {s : Simulation ChaCha Peer} {stop d : Nat}

/-- The scenario in which the client starts later. -/
def delay (d : Nat) (sc : Scenario) : Scenario := { sc with clientStart := sc.clientStart + d }

/-- What a run shows. -/
structure Report where
  /-- What the server has read. -/
  inbox : Bytes
  /-- The totals of the network. -/
  network : Network.Stats
  /-- The connections, with their states and totals, the server's first. -/
  connections : List Connection
  /-- What was told. -/
  trace : Array Trace.Record

/-- The same, but later. Connections know only when the segments in flight were sent. -/
def Report.delay (d : Nat) (report : Report) : Report :=
  { report with
    connections := report.connections.map (Connection.delay d)
    trace := report.trace.map (Trace.Record.delay d) }

/-- What a scenario shows that is set up or was run. -/
def Setup.report {σ : Type} (setup : Setup σ) : Report where
  inbox := setup.inbox
  network := setup.simulation.network.stats
  connections := setup.simulation.hosts.map (·.connection)
  trace := setup.simulation.trace

/-- What a run until an instant shows, unless the scenario is refused or something overflows. -/
def outcome (seed : UInt64) (stop : Nat) (sc : Scenario) : Except Failure (Checked Report) :=
  (sc.setup seed).map fun setup ↦ (setup.run stop).map Setup.report

/-! ### The beginning -/

/-- Puts on an agenda what is to come when a scenario is set up: the server starts, and the
client. -/
def opening (clientStart : Nat) (agenda : Agenda Happening) : Agenda Happening :=
  (agenda.addAt 0 1 .start).addAt clientStart 2 .start

/-- The server starts first, whenever the client does. -/
theorem next?_opening (clientStart stop : Nat) :
    ∃ a, ((opening clientStart {}).closeAt stop).next? = some (⟨0, 0, 1, .model .start⟩, a) ∧
      a.entries = Agenda.place ⟨stop, 2, 0, .close⟩ [⟨clientStart, 1, 2, .model .start⟩] ∧
      a.added = 3 := by
  have hentries : ((opening clientStart {}).closeAt stop).entries = ⟨0, 0, 1, .model .start⟩ ::
      Agenda.place ⟨stop, 2, 0, .close⟩ [⟨clientStart, 1, 2, .model .start⟩] := by
    simp [opening, Agenda.closeAt, Agenda.addAt, Agenda.put, Agenda.place]
  cases hnext : ((opening clientStart {}).closeAt stop).next? with
  | none =>
    rw [Agenda.entries_of_next?_eq_none hnext] at hentries
    exact absurd hentries.symm (List.cons_ne_nil _ _)
  | some taken =>
    obtain ⟨e, a⟩ := taken
    obtain ⟨rfl, hrest⟩ := List.cons.inj ((Agenda.next?_eq_some hnext).1.symm.trans hentries)
    exact ⟨a, rfl, hrest, Agenda.added_of_next? hnext⟩

theorem close_mem_opening (clientStart stop : Nat) :
    ⟨stop, 2, 0, .close⟩ ∈ ((opening clientStart {}).closeAt stop).entries := by
  obtain ⟨a, hnext, ha, -⟩ := next?_opening clientStart stop
  rw [(Agenda.next?_eq_some hnext).1, ha]
  exact List.mem_cons_of_mem _ (Agenda.mem_place.2 (.inl rfl))

/-- What holds of a simulation that a scenario sets up, whenever the hosts start. -/
structure Opens (sc : Scenario) (s : Simulation ChaCha Peer) : Prop where
  /-- The network misbehaves as the scenario says. -/
  faults_eq : s.network.faults = sc.faults
  /-- The first host is a server. -/
  server : ∃ host, s.host? 1 = some host ∧ host.application = .server []
  /-- Nothing is in flight. -/
  inFlight_eq : ∀ host ∈ s.hosts, host.connection.inFlight = ∅
  /-- Nothing is told but who is registered. -/
  registered : ∀ record ∈ s.trace, record.event = .registered

/-- With both hosts added, all is ready. -/
theorem opens_of_addHost {mid last : Simulation ChaCha Peer} {server client start : Nat}
    (hseeded : Simulation.ofSeed sc.faults seed = .ok s)
    (hserver : s.addHost sc.server sc.settings (.server []) 0 = (.ok server, mid))
    (hclient : mid.addHost sc.client sc.settings (.client sc.server sc.message) start =
      (.ok client, last)) :
    server = 1 ∧ client = 2 ∧ mid.agenda = ({} : Agenda Happening).addAt 0 1 .start ∧
      sc.Opens last := by
  obtain ⟨_, hcreate, rfl⟩ := Failure.exists_of_map_eq_ok hseeded
  obtain ⟨_, rfl⟩ := create_eq_ok hcreate
  obtain ⟨rfl, _, _, -, hv⟩ := exists_joins_of_addHost hserver
  obtain ⟨rfl, _, _, -, hc⟩ := exists_joins_of_addHost hclient
  have hhosts := hc.hosts_eq
  rw [hv.hosts_eq] at hhosts
  refine ⟨rfl, by rw [hv.hosts_eq]; rfl, hv.agenda_eq, ?_⟩
  exact
    { faults_eq := hc.faults_eq.trans hv.faults_eq
      server := ⟨_, by rw [host?, hhosts]; rfl, rfl⟩
      inFlight_eq := by
        rw [hhosts]
        simp [Party.create]
      registered := fun record hrecord ↦ by
        rcases hc.trace_sub record hrecord with hmid | hnew
        · exact (hv.trace_sub record hmid).resolve_left (by simp)
        · exact hnew }

/-- **When the client starts matters only to the agenda.** -/
theorem setup_cases (sc : Scenario) (seed : UInt64) :
    (∃ failure, ∀ start, { sc with clientStart := start }.setup seed = .error failure) ∨
      ∃ s, sc.Opens s ∧ ∀ start, { sc with clientStart := start }.setup seed =
        .ok ⟨{ s with agenda := opening start {} }, 1, 2⟩ := by
  -- The scenario is refused before the client is looked at, or with it, or not at all.
  cases hseeded : (Simulation.ofSeed sc.faults seed : Except Failure (Simulation ChaCha Peer)) with
  | error failure => exact .inl ⟨failure, fun start ↦ by rw [setup, hseeded]; rfl⟩
  | ok seeded =>
    have hsetup (start : Nat) : { sc with clientStart := start }.setup seed =
        { sc with clientStart := start }.assemble seeded := by
      rw [setup, hseeded]
      rfl
    rcases hserver : seeded.addHost sc.server sc.settings (.server []) 0 with ⟨server, mid⟩
    cases server with
    | error failure => exact .inl ⟨failure, fun start ↦ by rw [hsetup, assemble, hserver]; rfl⟩
    | ok server =>
      rcases hclient : mid.addHost sc.client sc.settings (.client sc.server sc.message)
        sc.clientStart with ⟨client, last⟩
      cases client with
      | error failure =>
        refine .inl ⟨failure, fun start ↦ ?_⟩
        rw [hsetup, assemble, hserver]
        dsimp only [bind, Except.bind]
        rw [addHost_of_error hclient]
      | ok client =>
        obtain ⟨rfl, rfl, hagenda, hopens⟩ := opens_of_addHost hseeded hserver hclient
        refine .inr ⟨last, hopens, fun start ↦ ?_⟩
        rw [hsetup, assemble, hserver]
        dsimp only [bind, Except.bind]
        rw [addHost_of_ok hclient, hagenda]
        rfl

namespace Opens

/-- Nothing that was done before anybody starts shows when it was done. -/
theorem shows (h : sc.Opens s) (d : Nat) : Shows d s s where
  hosts_eq := by
    have hsame : ∀ host ∈ s.hosts, host.delay d = host := fun host hhost ↦ by
      have hdelay : InFlight.delay d ∅ = ∅ := rfl
      have hinFlight := h.inFlight_eq host hhost
      rw [Host.delay, Connection.delay, hinFlight, hdelay, ← hinFlight]
    rw [List.map_congr_left hsame, List.map_id']
  network_eq := rfl
  trace_eq := by
    have hsame : ∀ record ∈ s.trace, record.delay d = record := fun record hrecord ↦
      if_pos (h.registered record hrecord)
    rw [Array.map_congr_left hsame, Array.map_id']

/-- The server starts in both, and from then on one of them lags behind. -/
theorem step (h : sc.Opens s) (hstop : stop + d + sc.faults.latest < maxWord) :
    Checked.Both (fun x y ↦ x.1 = true ∧ y.1 = true ∧ Lags d stop x.2 y.2)
      (({ s with agenda := opening sc.clientStart {} }.closeAt stop).step)
      (({ s with agenda := opening (sc.clientStart + d) {} }.closeAt (stop + d)).step) := by
  obtain ⟨a, hnext, ha, hadded⟩ := next?_opening sc.clientStart stop
  obtain ⟨b, hnext', hb, hadded'⟩ := next?_opening (sc.clientStart + d) (stop + d)
  obtain ⟨host, hhost, happlication⟩ := h.server
  have hlags : Lags d stop { s with agenda := a } { s with agenda := b } :=
    { h.shows d with
      added_eq := hadded'.trans hadded.symm
      coming_eq := by
        refine Agenda.comingBy_of_entries_eq ?_ stop
        rw [ha, hb, Agenda.map_delay_place]
        rfl
      latest_lt := by
        show stop + d + s.network.faults.latest < maxWord
        rw [h.faults_eq]
        exact hstop }
  rw [Simulation.step, Simulation.step, closeAt, closeAt, hnext, hnext']
  exact (hlags.start_server hhost happlication).bind fun _ _ _ h ↦ .ok ⟨rfl, rfl, h⟩

/-- Any number of steps. -/
theorem advance (h : sc.Opens s) (hstop : stop + d + sc.faults.latest < maxWord) (n : Nat) :
    Checked.Both (fun x y ↦ y.1 = x.1 ∧ Shows d x.2 y.2)
      (({ s with agenda := opening sc.clientStart {} }.closeAt stop).advance n)
      (({ s with agenda := opening (sc.clientStart + d) {} }.closeAt (stop + d)).advance n) := by
  cases n with
  | zero => exact .ok ⟨rfl, { h.shows d with }⟩
  | succ n =>
    rw [Simulation.advance, Simulation.advance]
    refine (h.step hstop).bind fun x y hx hboth ↦ ?_
    obtain ⟨hrunning, hrunning', hlags⟩ := hboth
    obtain ⟨running, s'⟩ := x
    obtain ⟨running', t'⟩ := y
    obtain rfl : running = true := hrunning
    obtain rfl : running' = true := hrunning'
    have hk : stop ≤ maxWord := by omega
    exact hlags.advance rfl (Nat.le_refl stop) (lt_of_step rfl hk (close_mem_opening ..) hx).1 n

/-- Runs. -/
theorem run (h : sc.Opens s) (hstop : stop + d + sc.faults.latest < maxWord) :
    Checked.Both (Shows d) ({ s with agenda := opening sc.clientStart {} }.run stop)
      ({ s with agenda := opening (sc.clientStart + d) {} }.run (stop + d)) := by
  refine (h.advance hstop stepLimit).bind fun x y _ hboth ↦ ?_
  obtain ⟨hrunning, hshows⟩ := hboth
  dsimp only
  rw [hrunning]
  split
  · exact .error
  · exact .ok hshows

end Opens

/-- What is shown depends on the difference of the instants. -/
theorem Setup.report_delay {s t : Simulation ChaCha Peer} (h : Shows d s t) (server client : Nat) :
    Setup.report ⟨t, server, client⟩ = (Setup.report ⟨s, server, client⟩).delay d := by
  have hinbox : Setup.inbox ⟨t, server, client⟩ = Setup.inbox ⟨s, server, client⟩ := by
    rw [Setup.inbox, Setup.inbox]
    dsimp only
    rw [h.host?_eq]
    cases s.host? server <;> rfl
  rw [Setup.report, Setup.report, hinbox, Report.delay]
  dsimp only
  rw [h.hosts_eq, h.network_eq, h.trace_eq, List.map_map, List.map_map]
  rfl

/-- **A scenario that takes place later shows the same, later.** It is an equation between reports
for every seed, so it also says of each of them whether there is one. -/
theorem outcome_delay (sc : Scenario) (seed : UInt64) (stop d : Nat)
    (hstop : stop + d + sc.faults.maxDelay + sc.faults.maxExtra < maxWord) :
    (sc.delay d).outcome seed (stop + d) =
      (sc.outcome seed stop).map fun result ↦ result.map (Report.delay d) := by
  have hlatest : sc.faults.latest ≤ sc.faults.maxDelay + sc.faults.maxExtra := by
    rw [Network.Faults.latest]
    split <;> omega
  rcases setup_cases sc seed with ⟨failure, hsetup⟩ | ⟨s, hopens, hsetup⟩
  · have hearly : sc.setup seed = .error failure := hsetup sc.clientStart
    have hlate : (sc.delay d).setup seed = .error failure := hsetup (sc.clientStart + d)
    rw [outcome, outcome, hearly, hlate]
    rfl
  · have hearly : sc.setup seed = .ok ⟨{ s with agenda := opening sc.clientStart {} }, 1, 2⟩ :=
      hsetup sc.clientStart
    have hlate : (sc.delay d).setup seed =
        .ok ⟨{ s with agenda := opening (sc.clientStart + d) {} }, 1, 2⟩ :=
      hsetup (sc.clientStart + d)
    rw [outcome, outcome, hearly, hlate]
    refine congrArg Except.ok (Checked.Both.map_eq (R := fun x y ↦ y.report = x.report.delay d)
      ?_ fun _ _ h ↦ h)
    exact (hopens.run (by omega)).bind fun _ _ _ h ↦ .ok (Setup.report_delay h 1 2)

/-- Two bytes for a network that loses four packets in ten. -/
def twoBytes : Scenario :=
  { highLoss with
    faults := { Network.Faults.perfect with loss := highLoss.faults.loss }
    message := [1, 2] }

/-- The whole transfer, with what is lost on its way and sent again, takes place an hour later. -/
theorem outcome_delay_twoBytes :
    5 * Time.second + 3600 * Time.second + twoBytes.faults.maxDelay + twoBytes.faults.maxExtra <
      maxWord ∧
    ((twoBytes.outcome 5 (5 * Time.second)).toOption.bind (·.toOption)).map
      (fun report ↦ (report.inbox, report.network.lost,
        report.connections.map (·.stats.resends), report.trace.size)) =
        some ([1, 2], 1, [0, 1], 9) ∧
    (twoBytes.delay (3600 * Time.second)).outcome 5 (5 * Time.second + 3600 * Time.second) =
      (twoBytes.outcome 5 (5 * Time.second)).map fun result ↦
        result.map (Report.delay (3600 * Time.second)) :=
  ⟨by decide, by decide +kernel, outcome_delay twoBytes 5 _ _ (by decide)⟩

end Scenario

end ReliableStream
