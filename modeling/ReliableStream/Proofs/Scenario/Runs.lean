import ReliableStream.Proofs.Party.Outcome
import ReliableStream.Proofs.Simulation.Delivery
import ReliableStream.Proofs.Simulation.Due
import ReliableStream.Scenario

/-!
# Runs of a scenario

A scenario sets up a server and a client at different places. `sc.Begins s` says that `s` is what it
sets up, wherever chance comes from; a seed is one such source (`begins_of_setup`).

`sc.Runs s parties` is what holds of every simulation that this comes to as long as no alarm is
heeded: there are the two hosts, their parties are sound and settled, nobody sent anything again and
no handshake failed. It holds at the beginning (`Begins.exists_runs`) and still does when a host
acts (`Runs.takes`) or an entry is taken for nothing (`Runs.rest`).

`Runs` says nothing of time. What is due when is left to `OnTime` and `Transfer`, which are about
the server and the client by name, while `Runs` treats its two parties alike.
-/

namespace ReliableStream.Scenario

open Party Simulation

variable {σ : Type} {sc : Scenario} {s s' : Simulation σ Peer} {parties parties' : List Party}
  {v c : Party} {e : Agenda.Entry Happening} {agenda : Agenda Happening} {packet : Packet}

/-- How many segments the message takes. -/
def segments (sc : Scenario) : Nat :=
  (sc.message.length + sc.settings.mtu - 1) / sc.settings.mtu

/-- How many windows the segments fill, the last one perhaps in part. -/
def rounds (sc : Scenario) : Nat :=
  (sc.segments + sc.settings.window - 1) / sc.settings.window

/-- Sets a scenario up with any sources of chance: `draws` decides what becomes of packets, and
`sequences` where streams start. -/
def setupFrom [DrawSource σ] (sc : Scenario) (draws sequences : σ)
    (journal : Array Simulation.Entry := #[]) : Except Failure (Setup σ) := do
  let empty ← Simulation.create sc.faults draws sequences
  sc.assemble { empty with journal }

/-- **A seed is one source of chance.** So whatever is proved of `setupFrom` for any sources holds
of every seed. -/
theorem setup_eq_setupFrom (sc : Scenario) (seed : UInt64) : sc.setup seed =
    sc.setupFrom (ChaCha.ofSeed seed) (ChaCha.ofSeed (seed + 1)) #[.created seed.toNat] := by
  rw [setup, setupFrom, Simulation.ofSeed]
  cases Simulation.create sc.faults (ChaCha.ofSeed seed) (ChaCha.ofSeed (seed + 1)) <;> rfl

theorem setupFrom_eq_ok_iff [DrawSource σ] {draws sequences : σ}
    {journal : Array Simulation.Entry} {setup : Setup σ} :
    sc.setupFrom draws sequences journal = .ok setup ↔ ∃ empty mid,
      Simulation.create sc.faults draws sequences = .ok empty ∧
      ({ empty with journal } : Simulation σ Peer).addHost sc.server sc.settings (.server []) 0 =
        (.ok setup.server, mid) ∧
      mid.addHost sc.client sc.settings (.client sc.server sc.message) sc.clientStart =
        (.ok setup.client, setup.simulation) := by
  constructor
  · intro h
    obtain ⟨empty, hcreate, h⟩ := Failure.exists_of_bind_eq_ok h
    obtain ⟨mid, hserver, hclient⟩ := assemble_eq_ok_iff.1 h
    exact ⟨empty, mid, hcreate, hserver, hclient⟩
  · rintro ⟨empty, mid, hcreate, hserver, hclient⟩
    rw [setupFrom, hcreate]
    exact assemble_eq_ok_iff.2 ⟨mid, hserver, hclient⟩

/-- What a scenario sets up, wherever chance comes from. -/
def Begins [DrawSource σ] (sc : Scenario) (s : Simulation σ Peer) : Prop :=
  ∃ (draws sequences : σ) (journal : Array Simulation.Entry) (setup : Setup σ),
    sc.setupFrom draws sequences journal = .ok setup ∧ setup.simulation = s

/-- Setting a scenario up with a seed is one way to begin. The server is the first host, and the
client the second one. -/
theorem begins_of_setup {seed : UInt64} {setup : Setup ChaCha} (h : sc.setup seed = .ok setup) :
    sc.Begins setup.simulation ∧ setup.server = 1 ∧ setup.client = 2 := by
  rw [setup_eq_setupFrom] at h
  refine ⟨⟨_, _, _, setup, h, rfl⟩, ?_⟩
  obtain ⟨empty, mid, hcreate, hserver, hclient⟩ := setupFrom_eq_ok_iff.1 h
  obtain ⟨hserverid, _, _, -, hv⟩ := exists_joins_of_addHost hserver
  obtain ⟨hclientid, -⟩ := exists_joins_of_addHost hclient
  obtain ⟨_, rfl⟩ := create_eq_ok hcreate
  exact ⟨hserverid, hclientid.trans (by rw [hv.hosts_eq]; rfl)⟩

/-- What holds of the simulations that a scenario comes to. -/
structure Runs (sc : Scenario) (s : Simulation σ Peer) (parties : List Party) : Prop where
  /-- It is one of clients and servers whose inboxes were empty. -/
  sound : s.Sound (· = []) parties
  /-- The parties keep their peers. -/
  settled : Settled parties s.underway
  /-- The first one is where the server is, the second one where the client is. -/
  homes_eq : parties.map (·.home) = [sc.server, sc.client]
  /-- The second one has a message to send. -/
  tasks_eq : s.hosts.map (·.application.task) = [none, some (sc.server, sc.message)]
  /-- Both are registered. -/
  routes_eq : s.network.routes = [(sc.client, 2), (sc.server, 1)]
  /-- The network misbehaves as the scenario says. -/
  faults_eq : s.network.faults = sc.faults
  /-- The parties behave as it says. -/
  settings_eq : ∀ p ∈ parties, p.settings = sc.settings
  /-- Nothing is pending that a window has room for. -/
  pumped : ∀ p ∈ parties, p.Pumped
  /-- Nothing was sent again. -/
  resends_eq : ∀ p ∈ parties, p.stats.resends = 0 ∧ ∀ x ∈ p.inFlight.toList, x.resends = 0
  /-- No handshake failed. -/
  noFailure : ∀ record ∈ s.trace, record.event ≠ .handshakeFailed

/-! ### The beginning -/

/-- Two hosts are set up that have still to start. Each of them is added to what is sound and
settled, and they are not at the same place. -/
theorem Begins.exists_runs [DrawSource σ] (h : sc.Begins s) (hne : sc.server ≠ sc.client)
    (hstart : sc.clientStart ≤ maxWord) :
    ∃ v c, sc.Runs s [v, c] ∧ v.Fresh ∧ c.Fresh ∧ s.agenda.entries =
      [⟨0, 0, 1, .model .start⟩, ⟨sc.clientStart, 1, 2, .model .start⟩] := by
  obtain ⟨draws, sequences, journal, setup, hsetup, rfl⟩ := h
  obtain ⟨empty, mid, hcreate, hserver, hclient⟩ := setupFrom_eq_ok_iff.1 hsetup
  -- An empty simulation is sound, then one with the server, and then one with both.
  have hsound : ({ empty with journal } : Simulation σ Peer).Sound (· = []) [] :=
    Simulation.sound_create hcreate
  obtain ⟨valid, rfl⟩ := create_eq_ok hcreate
  obtain ⟨-, validv, isnv, hisnv, hv⟩ := exists_joins_of_addHost hserver
  obtain ⟨-, validc, isnc, hisnc, hc⟩ := exists_joins_of_addHost hclient
  have hisnv : isnv < maxWord := Nat.lt_trans hisnv (by decide)
  have hisnc : isnc < maxWord := Nat.lt_trans hisnc (by decide)
  have hmid := (hsound.joins (fun _ heq ↦ (Peer.server.inj heq).symm) (Nat.zero_le _) hisnv hv).1
  have hs := (hmid.joins (fun _ heq ↦ absurd heq (by simp)) hstart hisnc hc).1
  have hagenda := hc.agenda_eq
  rw [hv.agenda_eq, hv.hosts_eq] at hagenda
  have hentries : setup.simulation.agenda.entries =
      [⟨0, 0, 1, .model .start⟩, ⟨sc.clientStart, 1, 2, .model .start⟩] := by
    rw [hagenda]
    simp [Agenda.addAt, Agenda.put, Agenda.place]
  have hsettled : Settled [Party.create sc.server sc.settings validv isnv,
      Party.create sc.client sc.settings validc isnc] [] :=
    (Settled.nil.join List.not_mem_nil hisnv).join (by simpa [Party.create] using hne.symm) hisnc
  refine ⟨.create sc.server sc.settings validv isnv, .create sc.client sc.settings validc isnc, ?_,
    fresh_create, fresh_create, hentries⟩
  exact
    { sound := hs
      settled := by
        rw [underway, hentries]
        exact hsettled
      homes_eq := rfl
      tasks_eq := by
        rw [hc.hosts_eq, hv.hosts_eq]
        rfl
      routes_eq := by
        rw [hc.routes_eq, hv.routes_eq, hv.hosts_eq]
        simp [Party.create, hne]
      faults_eq := by rw [hc.faults_eq, hv.faults_eq]
      settings_eq := by simp [Party.create]
      pumped := by simp [pumped_create]
      resends_eq := by
        have hnone : (∅ : InFlight).toList = [] := rfl
        simp [Party.create, hnone]
      noFailure := fun record hmem ↦ by
        rcases hc.trace_sub record hmem with hold | hnew
        · rcases hv.trace_sub record hold with hnever | hnew
          · exact absurd hnever (by simp)
          · simp [hnew]
        · simp [hnew] }

/-! ### Going on -/

namespace Runs

/-- A packet arrives where it goes to. -/
theorem routed (h : sc.Runs s parties) : s.Routed parties := by
  have hhome {i : Nat} {endpoint : Endpoint}
      (hi : [sc.server, sc.client][i]? = some endpoint) :
      ∃ j p, i + 1 = j + 1 ∧ parties[j]? = some p ∧ p.home = endpoint := by
    rw [← h.homes_eq, List.getElem?_map] at hi
    obtain ⟨p, hp, hhome⟩ := Option.map_eq_some_iff.1 hi
    exact ⟨i, p, rfl, hp, hhome⟩
  intro endpoint id hmem
  rw [h.routes_eq] at hmem
  rcases List.mem_cons.1 hmem with heq | hmem
  · obtain ⟨rfl, rfl⟩ := Prod.mk.inj heq
    exact hhome (i := 1) rfl
  · obtain ⟨rfl, rfl⟩ := Prod.mk.inj (List.mem_singleton.1 hmem)
    exact hhome (i := 0) rfl

/-- Nothing happens. -/
theorem rest (h : sc.Runs s parties) (hsound : s'.Sound (· = []) parties)
    (hrests : Rests s s') : sc.Runs s' parties :=
  { h with
    sound := hsound
    settled := h.settled.subset hrests.underway_sub
    tasks_eq := hrests.hosts_eq ▸ h.tasks_eq
    routes_eq := hrests.network_eq ▸ h.routes_eq
    faults_eq := hrests.network_eq ▸ h.faults_eq
    noFailure := hrests.trace_eq ▸ h.noFailure }

/-- The end is reached. -/
theorem ends (h : sc.Runs s parties) (hnext : s.agenda.next? = some (e, agenda))
    (haction : e.action = .close) (entry : Simulation.Entry) :
    sc.Runs ({ s with agenda }.note entry) parties ∧ Rests s ({ s with agenda }.note entry) := by
  have hstart : startOf? e = none := by simp [startOf?, haction]
  have hrests : Rests s ({ s with agenda }.note entry) :=
    { rests_next hnext hstart (by simp [arrivalOf?, haction]) with }
  have htake : ({ s with agenda }.note entry).Sound (· = []) parties ∧
      Advance s ({ s with agenda }.note entry) parties parties :=
    h.sound.take hnext (fun id ↦ by simp [alarmOf?, haction]) hstart rfl rfl rfl
  exact ⟨h.rest htake.1 hrests, hrests⟩

/-- **A host acts, and not because of an alarm.** It has its turn, so each fact about parties is
carried by the corresponding lemma on turns, and the facts about hosts by what carrying out does. -/
theorem takes (h : sc.Runs s parties) (hnext : s.agenda.next? = some (e, agenda))
    (hsound : s'.Sound (· = []) parties')
    (htakes : Takes (· = []) s s' e agenda parties parties')
    (halarm : ∀ watch, e.action ≠ .model (.alarm watch)) : sc.Runs s' parties' := by
  cases htakes with
  | @mk i host input p q r hi hp hreaches honce hacts =>
    have hmem := List.mem_of_getElem? hp
    have hproceeds := hacts.turn.proceeds (h.sound.party hmem) (hreaches.ne_alarm halarm)
    have hturned := h.settled.turn hp honce hacts.turn fun packet heq ↦ by
      obtain ⟨hpacket, hactor⟩ := hreaches.underway hnext packet heq
      exact ⟨hpacket, (Routed.home_eq h.routed hactor hp).symm⟩
    obtain ⟨host', -, -, htask, hcarries⟩ := hacts.carries
    -- The one that acts has changed, and the other one has not.
    have hall {P : Party → Prop} (hold : ∀ party ∈ parties, P party) (hnew : P q) :
        ∀ party ∈ parties.set i q, P party := fun party hparty ↦
      (List.mem_or_eq_of_mem_set hparty).elim (hold party) fun heq ↦ heq ▸ hnew
    exact
      { sound := hsound
        settled := hturned.subset fun packet hpacket ↦
          List.mem_append.2 (hacts.underway hnext packet hpacket)
        homes_eq := (Coherent.map_home_set hp hproceeds.later).trans h.homes_eq
        tasks_eq := by
          -- A host that acts keeps its task.
          obtain ⟨hlt, rfl⟩ := List.getElem?_eq_some_iff.1 hi
          have hlt' : i < (s.hosts.map (·.application.task)).length := by rwa [List.length_map]
          have hget : (s.hosts.map (·.application.task))[i] = s.hosts[i].application.task :=
            List.getElem_map ..
          have hhosts : s'.hosts = s.hosts.set i host' := hcarries.hosts_eq
          rw [hhosts, List.map_set, htask, ← hget, List.set_getElem_self]
          exact h.tasks_eq
        routes_eq := hcarries.routes_eq.trans h.routes_eq
        faults_eq := hcarries.faults_eq.trans h.faults_eq
        settings_eq := hall h.settings_eq (hproceeds.later.settings_eq.trans (h.settings_eq p hmem))
        pumped := hall h.pumped (hacts.turn.pumped (h.sound.party hmem) (h.pumped p hmem))
        resends_eq := by
          -- What is in flight was so before or was sent just now, and neither was sent again.
          obtain ⟨hstats, hsegments⟩ := h.resends_eq p hmem
          refine hall h.resends_eq ⟨hproceeds.resends_eq.trans hstats, fun x hx ↦ ?_⟩
          rcases hproceeds.segments x hx with hold | ⟨-, -, hresends, -⟩
          · exact hsegments x hold
          · exact hresends
        noFailure := fun record hrecord ↦ by
          rcases hcarries.trace_sub record hrecord with hold | hnew | hfate
          · exact h.noFailure record hold
          · intro heq
            exact hproceeds.noFailure (heq ▸ hnew)
          · intro heq
            rw [heq] at hfate
            exact absurd hfate (by simp [Trace.Event.isFate]) }

/-! ### The server and the client -/

/-- The parties are two. -/
theorem eq_or_eq_of_getElem? {i : Nat} {p : Party} (hp : [v, c][i]? = some p) :
    i = 0 ∧ p = v ∨ i = 1 ∧ p = c := by
  match i with
  | 0 => exact .inl ⟨rfl, (Option.some.inj hp).symm⟩
  | 1 => exact .inr ⟨rfl, (Option.some.inj hp).symm⟩
  | i + 2 => exact absurd hp (by simp)

section Both

variable (h : sc.Runs s [v, c])
include h

/-- The server is at the one place, and the client at the other one. -/
theorem home_eq : v.home = sc.server ∧ c.home = sc.client := by
  have hhomes : [v.home, c.home] = [sc.server, sc.client] := h.homes_eq
  simpa using hhomes

theorem server_ne_client : sc.server ≠ sc.client := by
  have hnodup := h.settled.coherent.nodup
  rw [h.homes_eq] at hnodup
  simpa using hnodup

theorem sound_server : v.Sound := h.sound.party (by simp)

theorem sound_client : c.Sound := h.sound.party (by simp)

/-- What the server knows of the client, if they are peers. -/
theorem knows_server (hv : v.peer = some sc.client) : v.Knows c :=
  h.settled.coherent.knows v (by simp) c (by simp) (hv.trans (congrArg some h.home_eq.2.symm))

/-- What the client knows of the server. -/
theorem knows_client (hc : c.peer = some sc.server) : c.Knows v :=
  h.settled.coherent.knows c (by simp) v (by simp) (hc.trans (congrArg some h.home_eq.1.symm))

/-- If they are peers then neither talks to itself. -/
theorem not_self : (v.peer = some sc.client → v.peer ≠ some sc.server) ∧
    (c.peer = some sc.server → c.peer ≠ some sc.client) := by
  refine ⟨fun hv heq ↦ ?_, fun hc heq ↦ ?_⟩
  · exact h.server_ne_client (Option.some.inj (heq.symm.trans hv))
  · exact h.server_ne_client (Option.some.inj (hc.symm.trans heq))

/-- The first host is the server. -/
theorem exists_server : ∃ host inbox, s.host? 1 = some host ∧ host.application = .server inbox ∧
    s.Plays (· = []) 1 host v := by
  have hget : (s.hosts.map (·.application.task))[0]? = some none := by rw [h.tasks_eq]; rfl
  rw [List.getElem?_map] at hget
  obtain ⟨host, hhost, htask⟩ := Option.map_eq_some_iff.1 hget
  have hplays := h.sound.plays hhost (show [v, c][0]? = some v from rfl)
  cases happlication : host.application with
  | server inbox => exact ⟨host, inbox, hhost, happlication, hplays⟩
  | client address message =>
    rw [happlication] at htask
    exact absurd htask (by simp [Peer.task])

/-- The second host is the client. -/
theorem exists_client : ∃ host, s.host? 2 = some host ∧
    host.application = .client sc.server sc.message ∧ s.Plays (· = []) 2 host c := by
  have hget : (s.hosts.map (·.application.task))[1]? = some (some (sc.server, sc.message)) := by
    rw [h.tasks_eq]
    rfl
  rw [List.getElem?_map] at hget
  obtain ⟨host, hhost, htask⟩ := Option.map_eq_some_iff.1 hget
  have hplays := h.sound.plays hhost (show [v, c][1]? = some c from rfl)
  cases happlication : host.application with
  | server inbox =>
    rw [happlication] at htask
    exact absurd htask (by simp [Peer.task])
  | client address message =>
    rw [happlication] at htask
    obtain ⟨rfl, rfl⟩ := Prod.mk.inj (Option.some.inj htask)
    exact ⟨host, hhost, happlication, hplays⟩

/-- The server has nothing to send. -/
theorem pieces_server : v.pieces = [] := by
  obtain ⟨host, inbox, -, happlication, hplays⟩ := h.exists_server
  have hdrives := hplays.drives
  rw [happlication] at hdrives
  rw [pieces, hdrives.sends_eq, List.flatMap_nil]

theorem inFlight_server : v.inFlight.toList = [] := by
  by_contra hne
  obtain ⟨x, hx⟩ := List.exists_mem_of_ne_nil _ hne
  have hv := h.sound_server
  obtain ⟨-, acked, sent, hsends⟩ := hv.sends (hv.established_of_mem hx)
  have hmem := hsends.chunk_mem hx
  rw [script, h.pieces_server] at hmem
  exact absurd hmem List.not_mem_nil

/-- The client has its message to send. -/
theorem sends_client (hstate : c.state = .established) : c.sends = [sc.message] := by
  obtain ⟨host, -, happlication, hplays⟩ := h.exists_client
  have hdrives := hplays.drives
  rw [happlication] at hdrives
  exact (hdrives.after hstate).elim (fun hone ↦ absurd hone.1 (by simp)) And.right

/-- A server that waits has no peer, and no alarms are set for it. -/
theorem listening (hv : v.state = .listening) : v.peer = none ∧ s.alarmsOf 1 = [] := by
  obtain ⟨_, _, -, -, hplays⟩ := h.exists_server
  obtain ⟨hattempt, hpeer⟩ := hplays.waits hv
  exact ⟨hpeer, hplays.watched.eq_nil hattempt (by simp [hv])⟩

/-- No alarms are set for a host that has still to start. -/
theorem alarms_of_fresh : (v.Fresh → s.alarmsOf 1 = []) ∧ (c.Fresh → s.alarmsOf 2 = []) := by
  obtain ⟨_, _, -, -, hserver⟩ := h.exists_server
  obtain ⟨_, -, -, hclient⟩ := h.exists_client
  exact ⟨fun hv ↦ hserver.watched.eq_nil hv.attempt_eq (by simp [hv.state_eq]),
    fun hc ↦ hclient.watched.eq_nil hc.attempt_eq (by simp [hc.state_eq])⟩

/-- The stream of the client is its message, in as many pieces as the message takes. -/
theorem length_pieces_client (hstate : c.state = .established) :
    c.stream = sc.message ∧ c.pieces.length = sc.segments := by
  refine ⟨?_, ?_⟩
  · rw [stream, h.sends_client hstate, List.flatten_singleton]
  · rw [pieces, h.sends_client hstate, List.flatMap_singleton, length_chunks c.valid.mtu_pos,
      h.settings_eq c (by simp), segments]

/-- The client has got nothing but the opening. -/
theorem edge_client (hstate : c.state = .established) (hpeer : c.peer = some sc.server) :
    c.edge = v.firstByte := by
  obtain ⟨i, hfollows⟩ := (h.knows_client hpeer).follows hstate
  obtain rfl : i = 0 := Nat.le_zero.1 (by simpa [h.pieces_server] using hfollows.le_length)
  exact hfollows.edge_eq.trans v.cutAt_zero

/-- Whatever is under way, one of the two has sent to its peer. -/
theorem sender (hpacket : packet ∈ s.underway) :
    packet.source = sc.server ∧ v.Vouches packet ∧ v.peer = some packet.destination ∨
      packet.source = sc.client ∧ c.Vouches packet ∧ c.peer = some packet.destination := by
  obtain ⟨p, hp, hvouches⟩ := h.settled.coherent.vouched packet hpacket
  have hpeer := h.settled.faithful packet hpacket p hp hvouches.source_eq
  rcases List.mem_cons.1 hp with rfl | hp
  · exact .inl ⟨hvouches.source_eq.trans h.home_eq.1, hvouches, hpeer⟩
  · obtain rfl := List.mem_singleton.1 hp
    exact .inr ⟨hvouches.source_eq.trans h.home_eq.2, hvouches, hpeer⟩

/-- Nothing is under way if neither has a peer. -/
theorem not_mem_underway (hv : v.peer = none) (hc : c.peer = none) : packet ∉ s.underway := by
  intro hpacket
  rcases h.sender hpacket with ⟨-, -, hpeer⟩ | ⟨-, -, hpeer⟩
  · exact absurd (hv.symm.trans hpeer) (by simp)
  · exact absurd (hc.symm.trans hpeer) (by simp)

/-- What goes to the server comes from the client, if the server does not talk to itself. -/
theorem vouches_client (hself : v.peer ≠ some sc.server) (hpacket : packet ∈ s.underway)
    (hdestination : packet.destination = sc.server) :
    packet.source = sc.client ∧ c.Vouches packet := by
  rcases h.sender hpacket with ⟨-, -, hpeer⟩ | ⟨hsource, hvouches, -⟩
  · exact absurd (hpeer.trans (congrArg some hdestination)) hself
  · exact ⟨hsource, hvouches⟩

/-- What goes to the client comes from the server, if the client does not talk to itself. -/
theorem vouches_server (hself : c.peer ≠ some sc.client) (hpacket : packet ∈ s.underway)
    (hdestination : packet.destination = sc.client) :
    packet.source = sc.server ∧ v.Vouches packet := by
  rcases h.sender hpacket with ⟨hsource, hvouches, -⟩ | ⟨-, -, hpeer⟩
  · exact ⟨hsource, hvouches⟩
  · exact absurd (hpeer.trans (congrArg some hdestination)) hself

/-- Every packet is heard, if the two talk to nobody else. -/
theorem not_unheard (hnext : s.agenda.next? = some (e, agenda))
    (hserver : ∀ peer ∈ v.peer, peer = sc.client) (hclient : ∀ peer ∈ c.peer, peer = sc.server) :
    ¬ s.Unheard e := by
  rintro ⟨packet, haction, hnobody⟩
  have hpacket := mem_underway_of_next? hnext haction
  have hactor : s.network.actorAt? packet.destination =
      [(sc.client, 2), (sc.server, 1)].lookup packet.destination := by
    rw [Network.actorAt?, h.routes_eq]
  rcases h.sender hpacket with ⟨-, -, hpeer⟩ | ⟨-, -, hpeer⟩
  · obtain ⟨host, hhost, -⟩ := h.exists_client
    have hnone : s.host? 2 = none :=
      hnobody (by rw [hactor, hserver _ hpeer, List.lookup_cons_self])
    exact absurd (hhost.symm.trans hnone) (by simp)
  · obtain ⟨host, inbox, hhost, -⟩ := h.exists_server
    have hne : (sc.server == sc.client) = false := by simpa using h.server_ne_client
    have hnone : s.host? 1 = none := hnobody (by
      rw [hactor, hclient _ hpeer, List.lookup_cons, hne, List.lookup_cons_self])
    exact absurd (hhost.symm.trans hnone) (by simp)

end Both

end Runs

end ReliableStream.Scenario
