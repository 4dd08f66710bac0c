import ReliableStream.Proofs.Settled
import ReliableStream.Proofs.Simulation.Sound

/-!
# Delivery in a simulation

Any number of clients and servers at different places, some of them perhaps at one server: what a
server has put into its inbox is at any time the beginning of the message of the one client that is
its peer, and it is the whole message when that client has everything acknowledged
(`Reachable.delivered`). It rests on the hosts' parties being `Settled`: the packets under way
in the agenda are the wire between them, and a packet arrives where its destination is registered.

The theory of several parties with one wire between them does the work (`Settled.coherent`). What is
left to show here is that a simulation is an instance of it: whatever a step does, the parties go on
in one of three ways (`Advance`), and each of them keeps them settled (`Placed.advance`).
-/

namespace ReliableStream.Simulation

open Party

variable {σ : Type} {initial : Bytes → Prop} {s s' : Simulation σ Peer}
  {parties parties' : List Party}

/-- Whoever is registered somewhere is there. -/
def Routed (s : Simulation σ Peer) (parties : List Party) : Prop :=
  ∀ {endpoint id}, (endpoint, id) ∈ s.network.routes →
    ∃ i p, id = i + 1 ∧ parties[i]? = some p ∧ p.home = endpoint

/-- Who is where, if no two are at the same place. -/
def Placed (s : Simulation σ Peer) (parties : List Party) : Prop :=
  (parties.map (·.home)).Nodup → Settled parties s.underway ∧ s.Routed parties

/-! ### How the parties go on -/

/-- A packet reaches the one that is where it goes to. -/
theorem Routed.home_eq (h : s.Routed parties) {endpoint : Endpoint} {i : Nat} {p : Party}
    (hactor : s.network.actorAt? endpoint = some (i + 1)) (hi : parties[i]? = some p) :
    p.home = endpoint := by
  obtain ⟨before, behind, hroutes, -⟩ := List.lookup_eq_some_iff.1 hactor
  have hmem : (endpoint, i + 1) ∈ s.network.routes := by
    rw [hroutes]
    exact List.mem_append_right _ (List.mem_cons_self ..)
  obtain ⟨j, q, hij, hj, hhome⟩ := h hmem
  obtain rfl : i = j := Nat.succ.inj hij
  obtain rfl : p = q := Option.some.inj (hi.symm.trans hj)
  exact hhome

/-- Nobody moves and no route changes. -/
theorem Routed.turn (h : s.Routed parties) (hroutes : s'.network.routes = s.network.routes)
    {i : Nat} {p q : Party} (hi : parties[i]? = some p) (hhome : q.home = p.home) :
    s'.Routed (parties.set i q) := by
  intro endpoint id hroute
  rw [hroutes] at hroute
  obtain ⟨j, t, hid, hj, hthere⟩ := h hroute
  rcases cases_of_replace hi hj q with ⟨-, rfl, hq⟩ | ⟨-, hstill⟩
  · exact ⟨j, q, hid, hq, hhome.trans hthere⟩
  · exact ⟨j, t, hid, hstill, hthere⟩

/-- A new one is registered where it is, in place of whoever was registered there. -/
theorem Routed.join (h : s.Routed parties) {p : Party}
    (hroutes : s'.network.routes =
      (p.home, parties.length + 1) :: s.network.routes.filter (·.1 ≠ p.home)) :
    s'.Routed (parties ++ [p]) := by
  intro endpoint id hroute
  rw [hroutes] at hroute
  rcases List.mem_cons.1 hroute with heq | hroute
  · obtain ⟨rfl, rfl⟩ := Prod.mk.inj heq
    exact ⟨parties.length, p, rfl, List.getElem?_concat_length, rfl⟩
  · obtain ⟨j, t, hid, hj, hthere⟩ := h (List.mem_of_mem_filter hroute)
    obtain ⟨hlt, -⟩ := List.getElem?_eq_some_iff.1 hj
    exact ⟨j, t, hid, (List.getElem?_append_left hlt).trans hj, hthere⟩

/-- **It stays so whatever the parties do.** There is one case for each way in which they go on, and
a fact about packets and one about routes in each of them. -/
theorem Placed.advance (h : s.Placed parties) (hsound : s.Sound initial parties)
    (hadvance : Advance s s' parties parties') : s'.Placed parties' := by
  cases hadvance with
  | rest hroutes hunderway =>
    intro hnodup
    obtain ⟨hsettled, hrouted⟩ := h hnodup
    refine ⟨hsettled.subset hunderway, ?_⟩
    intro endpoint id hmem
    rw [hroutes] at hmem
    exact hrouted hmem
  | @turn i now input p q r hroutes hi honce hturn hinput hunderway =>
    intro hnodup
    have hlater : p.Later q := hturn.later (hsound.party (List.mem_of_getElem? hi))
    rw [Coherent.map_home_set hi hlater] at hnodup
    obtain ⟨hsettled, hrouted⟩ := h hnodup
    -- Whoever gets a packet is where it goes to, as that is where it is registered.
    have hturned : Settled (parties.set i q) (s.underway ++ r.packets) := by
      refine hsettled.turn hi honce hturn ?_
      intro packet heq
      obtain ⟨hpacket, hactor⟩ := hinput packet heq
      exact ⟨hpacket, (hrouted.home_eq hactor hi).symm⟩
    exact ⟨hturned.subset fun packet hpacket ↦ List.mem_append.2 (hunderway packet hpacket),
      Routed.turn hrouted hroutes hi hlater.home_eq⟩
  | @join home settings valid isn hroutes hisn hunderway =>
    intro hnodup
    obtain ⟨hold, hhome⟩ := places_of_concat hnodup
    obtain ⟨hsettled, hrouted⟩ := h hold
    exact ⟨(hsettled.join hhome hisn).subset hunderway, Routed.join hrouted hroutes⟩

/-- In every simulation the parties are sound and, at different places, settled. At the beginning
there are none. -/
theorem Reachable.exists_placed [DrawSource σ] (h : s.Reachable initial) :
    ∃ parties, s.Sound initial parties ∧ s.Placed parties := by
  refine h.exists_of_advance ?_ fun hsound hplaced hadvance ↦ hplaced.advance hsound hadvance
  intro faults draws sequences s journal hcreate hnodup
  obtain ⟨valid, rfl⟩ := create_eq_ok hcreate
  exact ⟨.nil, fun hmem ↦ absurd hmem List.not_mem_nil⟩

/-! ### Inboxes -/

/-- What a server has put into its inbox is what its client has sent. -/
structure Delivered (s : Simulation σ Peer) (host : Host Peer) (inbox : Bytes) : Prop where
  /-- Every byte that was handed over for reading is in it. -/
  length_eq : inbox.length = host.connection.stats.bytesReceived
  /-- It is the beginning of the message of the peer, which is one of the hosts and a client. -/
  beginning : inbox ≠ [] → ∃ id client address message, s.host? id = some client ∧
    client.application = .client address message ∧
    host.connection.peer = some client.connection.home ∧ inbox <+: message ∧
    ∀ id' other, s.host? id' = some other → host.connection.peer = some other.connection.home →
      id' = id
  /-- It is the whole message of a client that is established with the server and has everything
  acknowledged. -/
  whole : ∀ {id client address message}, s.host? id = some client →
    client.application = .client address message → client.connection.state = .established →
    client.connection.peer = some host.connection.home →
    client.connection.allAcknowledged = true → inbox = message

/-- Hosts at the same place are the same, if no two are. So the place of a peer says which host it
is. -/
theorem id_eq_of_home {id id' : Nat} {host host' : Host Peer}
    (hnodup : (s.hosts.map (·.connection.home)).Nodup) (hhost : s.host? id = some host)
    (hhost' : s.host? id' = some host')
    (heq : host.connection.home = host'.connection.home) : id = id' := by
  obtain ⟨i, rfl, hi⟩ := host?_eq_some hhost
  obtain ⟨j, rfl, hj⟩ := host?_eq_some hhost'
  exact congrArg (· + 1) (index_eq_of_place_eq hnodup hi hj heq)

/-- **Delivery.** If no two hosts are at the same place, and all inboxes were empty at first, then
every server has got the beginning of what the client sends it that is its peer, and all of it when
the client has everything acknowledged. -/
theorem Reachable.delivered [DrawSource σ] (h : s.Reachable (· = []))
    (hnodup : (s.hosts.map (·.connection.home)).Nodup) {id : Nat} {host : Host Peer} {inbox : Bytes}
    (hhost : s.host? id = some host) (hserver : host.application = .server inbox) :
    s.Delivered host inbox := by
  obtain ⟨parties, hsound, hplaced⟩ := h.exists_placed
  obtain ⟨hsettled, -⟩ := hplaced (hsound.homes_eq ▸ hnodup)
  obtain ⟨p, hp, hplays⟩ := hsound.exists_mem hhost
  have hdrives := hplays.drives
  rw [hserver] at hdrives
  obtain ⟨_, rfl, hinbox⟩ := hdrives.exists_inbox_eq
  rw [List.nil_append] at hinbox
  subst hinbox
  constructor
  case length_eq =>
    rw [hplays.connection_eq, hplays.sound.received_eq]
  case beginning =>
    intro hne
    obtain ⟨peer, hpeer, hsome, hprefix⟩ := hsettled.coherent.exists_heard_prefix hp hne
    obtain ⟨id', client, hclient, hplays'⟩ := hsound.exists_host hpeer
    have hsome' : host.connection.peer = some client.connection.home := by
      rw [hplays.connection_eq, hplays'.connection_eq]
      exact hsome
    -- A peer whose stream is not empty is a client, since the inboxes of servers were empty.
    obtain ⟨address, happlication⟩ := hplays'.drives.exists_client hplays'.sound fun hnil ↦
      hne (List.prefix_nil.1 (hnil ▸ hprefix))
    refine ⟨id', client, address, peer.stream, hclient, happlication, hsome', hprefix,
      fun id'' other hother heq ↦ ?_⟩
    exact id_eq_of_home hnodup hother hclient (Option.some.inj (heq.symm.trans hsome'))
  case whole =>
    intro id' client address message hclient happlication hstate hsome hall
    obtain ⟨peer, hpeer, hplays'⟩ := hsound.exists_mem hclient
    have hdrives' := hplays'.drives
    rw [happlication] at hdrives'
    rw [hplays'.connection_eq] at hstate hsome hall
    rw [hplays.connection_eq] at hsome
    -- Whoever is established with a party is the peer of it, so the two talk to each other.
    have hback : p.peer = some peer.home :=
      hsettled.reciprocal peer hpeer (.inr hstate) p hp hsome
    rw [← hdrives'.stream_eq hstate]
    exact hsettled.coherent.heard_eq_stream hpeer hp hstate hsome (fun _ ↦ hback) hall

/-- All five bytes arrive although three packets are lost, and the client knows it. -/
theorem delivered_fiveBytes :
    ∃ s host client, after 15 fiveBytes = some s ∧ s.host? 1 = some host ∧
      s.host? 2 = some client ∧ host.application = .server [1, 2, 3, 4, 5] ∧
      client.connection.allAcknowledged = true ∧ s.Delivered host [1, 2, 3, 4, 5] := by
  have hrun : (after 15 fiveBytes).bind (fun s ↦ (s.host? 1).bind fun host ↦
      (s.host? 2).map fun client ↦ (host.application, client.connection.allAcknowledged,
        decide (s.hosts.map (·.connection.home)).Nodup)) =
        some (.server [1, 2, 3, 4, 5], true, true) := by decide +kernel
  obtain ⟨s, hs, hrest⟩ := Option.bind_eq_some_iff.1 hrun
  obtain ⟨host, hhost, hrest⟩ := Option.bind_eq_some_iff.1 hrest
  obtain ⟨client, hclient, htriple⟩ := Option.map_eq_some_iff.1 hrest
  obtain ⟨hserver, hpair⟩ := Prod.mk.inj htriple
  obtain ⟨hall, hnodup⟩ := Prod.mk.inj hpair
  exact ⟨s, host, client, hs, hhost, hclient, hserver, hall,
    (reachable_of_after reachable_fiveBytes hs).delivered (of_decide_eq_true hnodup) hhost hserver⟩

end ReliableStream.Simulation
