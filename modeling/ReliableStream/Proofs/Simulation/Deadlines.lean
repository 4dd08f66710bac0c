import ReliableStream.Proofs.Simulation.Handshakes

/-!
# Handshakes end by their deadlines

A handshake begins when its client starts, or when the opening comes that its server waits for. It
is done before its deadline or fails exactly then: `KeepsDeadline` says so of what the trace tells
and of the states that the connections are in. One that failed has failed for good, whatever one
comes to later. Hosts may be added, but nobody is gone, and what was told is not taken back
(`Continues.remembers`).

A reply that arrives at the instant of the deadline is always too late, since it was sent after the
deadline was set. `keepsDeadline_twoPairs` shows one.

What a handshake does is known from `Tracks`, which holds of a simulation as it is at one time. That
a connection is closed for good is about all times after it. It needs no induction of its own: a
failure that was told is still told later, and a host of which one is told is closed.
-/

namespace ReliableStream.Simulation

open Party

variable {σ : Type} {initial : Bytes → Prop} {s s' : Simulation σ Peer} {parties : List Party}
  {began : Nat → List Nat} {id time : Nat}

/-! ### What is remembered -/

/-- The hosts stay where they are, and what was told stays told. -/
structure Remembers (s s' : Simulation σ Peer) : Prop where
  /-- The hosts are where they were, and there may be more of them. -/
  homes_prefix : s.hosts.map (·.connection.home) <+: s'.hosts.map (·.connection.home)
  /-- What was told stays told. -/
  outcomes_prefix : ∀ home, s.outcomes home <+: s'.outcomes home

namespace Remembers

theorem of_eq (hhosts : s'.hosts = s.hosts)
    (houtcomes : ∀ home, s'.outcomes home = s.outcomes home) : Remembers s s' where
  homes_prefix := hhosts ▸ List.prefix_rfl
  outcomes_prefix home := houtcomes home ▸ List.prefix_rfl

theorem trans {t : Simulation σ Peer} (h : Remembers s s') (h' : Remembers s' t) :
    Remembers s t where
  homes_prefix := h.homes_prefix.trans h'.homes_prefix
  outcomes_prefix home := (h.outcomes_prefix home).trans (h'.outcomes_prefix home)

/-- A host keeps its number, and stays where it is. -/
theorem exists_host (h : Remembers s s') {host : Host Peer} (hhost : s.host? id = some host) :
    ∃ host', s'.host? id = some host' ∧ host'.connection.home = host.connection.home := by
  obtain ⟨i, rfl, hi⟩ := host?_eq_some hhost
  obtain ⟨more, hmore⟩ := h.homes_prefix
  obtain ⟨hlt, -⟩ := List.getElem?_eq_some_iff.1 hi
  have hget : (s'.hosts.map (·.connection.home))[i]? = some host.connection.home := by
    rw [← hmore, List.getElem?_append_left (by rwa [List.length_map]), List.getElem?_map, hi]
    rfl
  rw [List.getElem?_map] at hget
  exact Option.map_eq_some_iff.1 hget

end Remembers

variable [DrawSource σ]

/-! ### What one can come to later -/

/-- What one can come to from a simulation. -/
inductive Continues (initial : Bytes → Prop) (s : Simulation σ Peer) : Simulation σ Peer → Prop
  | refl : Continues initial s s
  /-- A host is added, or refused. -/
  | addHost {t : Simulation σ Peer} {home : Endpoint} {settings : Connection.Settings} {peer : Peer}
    {start : Nat} (h : Continues initial s t) (hbegins : peer.Begins initial)
    (hstart : start ≤ maxWord) : Continues initial s (t.addHost home settings peer start).2
  /-- The end is set. -/
  | closeAt {t : Simulation σ Peer} {time : Nat} (h : Continues initial s t)
    (htime : time ≤ maxWord) : Continues initial s (t.closeAt time)
  /-- A step is taken. -/
  | step {t t' : Simulation σ Peer} {running : Bool} (h : Continues initial s t)
    (hstep : t.step = .ok (running, t')) : Continues initial s t'

theorem Reachable.continues (h : s.Reachable initial) (hcontinues : Continues initial s s') :
    s'.Reachable initial := by
  induction hcontinues with
  | refl => exact h
  | addHost _ hbegins hstart ih => exact ih.addHost hbegins hstart
  | closeAt _ htime ih => exact ih.closeAt htime
  | step _ hstep ih => exact ih.step hstep

/-- Adding a host forgets nothing. It is the last one, and of its handshake nothing is told. -/
theorem remembers_addHost (s : Simulation σ Peer) (home : Endpoint)
    (settings : Connection.Settings) (peer : Peer) (start : Nat) :
    Remembers s (s.addHost home settings peer start).2 := by
  generalize hadd : s.addHost home settings peer start = added
  obtain ⟨answer, s'⟩ := added
  cases answer with
  | error failure =>
    obtain ⟨sequences, rfl⟩ := eq_of_addHost hadd
    exact .of_eq rfl fun home ↦ outcomes_congr rfl home
  | ok id =>
    obtain ⟨-, valid, isn, hisn, hjoins⟩ := exists_joins_of_addHost hadd
    refine ⟨?_, fun home ↦ hjoins.outcomes_eq home ▸ List.prefix_rfl⟩
    rw [hjoins.hosts_eq, List.map_append]
    exact List.prefix_append ..

/-- Nor does a step. A host that acts goes on telling of its handshake, and of those at other places
nothing is told meanwhile. -/
theorem Sound.remembers {running : Bool} (h : s.Sound initial parties)
    (hstep : s.step = .ok (running, s')) : Remembers s s' := by
  cases steps_of_step hstep with
  | idle => exact .of_eq rfl fun _ ↦ rfl
  | close => exact .of_eq rfl fun home ↦ outcomes_congr rfl home
  | happen hnext haction hhappen =>
    rcases h.happen hnext haction hhappen with ⟨-, hunheard⟩ | ⟨parties', hsound', htakes⟩
    · obtain ⟨hcalm, hhosts, -⟩ := calm_of_unheard hunheard hnext haction hhappen
      exact .of_eq hhosts hcalm.outcomes_eq
    · have hhomes : s'.hosts.map (·.connection.home) = s.hosts.map (·.connection.home) := by
        rw [← hsound'.homes_eq, htakes.homes_eq h, h.homes_eq]
      refine ⟨hhomes ▸ List.prefix_rfl, fun home ↦ ?_⟩
      obtain @⟨i, host, input, p, q, r, -, -, -, -, hacts⟩ := htakes
      by_cases hhome : home = p.home
      · subst hhome
        rw [hacts.outcomes_eq hnext]
        exact List.prefix_append ..
      · exact hacts.tells.others home hhome ▸ List.prefix_rfl

/-- Whatever one comes to later, nobody is gone and nothing is forgotten. -/
theorem Continues.remembers (h : Continues initial s s') (hreach : s.Reachable initial) :
    Remembers s s' := by
  induction h with
  | refl => exact .of_eq rfl fun _ ↦ rfl
  | addHost _ _ _ ih => exact ih.trans (remembers_addHost ..)
  | closeAt _ _ ih => exact ih.trans (.of_eq rfl fun home ↦ outcomes_congr rfl home)
  | step hcontinues hstep ih =>
    obtain ⟨parties, hsound⟩ := (hreach.continues hcontinues).exists_sound
    exact ih.trans (hsound.remembers hstep)

/-! ### Deadlines -/

/-- The connection of a host is closed, and stays so while no two hosts are at the same place. -/
def ClosedForGood (initial : Bytes → Prop) (s : Simulation σ Peer) (id : Nat) : Prop :=
  ∀ {s'}, Continues initial s s' → (s'.hosts.map (·.connection.home)).Nodup →
    ∃ host, s'.host? id = some host ∧ host.connection.state = .closed

/-- How the handshake of a host began and ended, if it did. -/
structure KeepsDeadline (initial : Bytes → Prop) (s : Simulation σ Peer) (id : Nat)
    (c : Connection) (began : List Nat) : Prop where
  /-- It began once at most. -/
  began_le : began.length ≤ 1
  /-- It is told once at most how it ended. -/
  told_le : (s.outcomes c.home).length ≤ 1
  /-- It failed at the deadline, and the connection is closed for good. -/
  failed : ∀ time, ⟨time, c.home, .handshakeFailed⟩ ∈ s.trace →
    (∃ start, began = [start] ∧ time = saturatingAdd start c.settings.handshakeTimeout) ∧
      s.ClosedForGood initial id
  /-- It was done before the deadline. -/
  established : ∀ time peer, ⟨time, c.home, .established peer⟩ ∈ s.trace →
    ∃ start, began = [start] ∧ start ≤ time ∧ time < saturatingAdd start c.settings.handshakeTimeout
  /-- It goes on no longer than to the deadline. -/
  opening : c.state = .synSent ∨ c.state = .synReceived →
    ∃ start, began = [start] ∧ start ≤ s.now ∧
      s.now ≤ saturatingAdd start c.settings.handshakeTimeout

/-- The stage of the handshake of a host, with the instants at which it began. -/
theorem Recounts.exists_stage {host : Host Peer} (h : Recounts initial s began)
    (hnodup : (s.hosts.map (·.connection.home)).Nodup) (hhost : s.host? id = some host) :
    ∃ p, host.connection = p.toConnection ∧ s.Stage id p (began id) := by
  obtain ⟨parties, hsound, htracks⟩ := h.exists_tracks
  obtain ⟨i, rfl, hi⟩ := host?_eq_some hhost
  obtain ⟨p, hp, hplays⟩ := hsound.exists_party hi
  exact ⟨p, hplays.connection_eq, (htracks (hsound.homes_eq ▸ hnodup)).stages hp⟩

/-- A host whose handshake failed is closed, and stays so as long as no other one is at its place.
-/
theorem Reachable.closed_of_failed {host : Host Peer} (h : s.Reachable initial)
    (hhost : s.host? id = some host)
    (hmem : ⟨time, host.connection.home, .handshakeFailed⟩ ∈ s.outcomes host.connection.home) :
    s.ClosedForGood initial id := by
  intro s' hcontinues hnodup
  have hremembers := hcontinues.remembers h
  obtain ⟨host', hhost', hhome⟩ := hremembers.exists_host hhost
  obtain ⟨began, hrecounts⟩ := (h.continues hcontinues).exists_recounts
  obtain ⟨p, hconnection, hstage⟩ := hrecounts.exists_stage hnodup hhost'
  -- What was told is still told, so this is the stage it is in.
  have htold := (hremembers.outcomes_prefix _).subset hmem
  rw [← hhome, hconnection] at htold
  exact ⟨host', hhost', by rw [hconnection, (hstage.failed_of_mem htold).1]⟩

/-- **Deadlines.** If no two hosts are at the same place, then each handshake ends once at most:
it fails exactly at its deadline, which closes the connection for good, or is done before, and it
does not go on past the deadline. -/
theorem Reachable.keepsDeadline (h : s.Reachable initial)
    (hnodup : (s.hosts.map (·.connection.home)).Nodup) :
    (∃ began, Recounts initial s began) ∧
      ∀ began, Recounts initial s began → ∀ id host, s.host? id = some host →
        s.KeepsDeadline initial id host.connection (began id) := by
  refine ⟨h.exists_recounts, fun began hrecounts id host hhost ↦ ?_⟩
  obtain ⟨p, hconnection, hstage⟩ := hrecounts.exists_stage hnodup hhost
  have hclosed {time : Nat}
      (hmem : ⟨time, host.connection.home, .handshakeFailed⟩ ∈ s.outcomes host.connection.home) :
      s.ClosedForGood initial id := h.closed_of_failed hhost hmem
  rw [hconnection] at hclosed ⊢
  exact
    { began_le := hstage.length_le.1
      told_le := hstage.length_le.2
      failed := fun time hmem ↦ by
        rw [← mem_outcomes rfl] at hmem
        exact ⟨(hstage.failed_of_mem hmem).2, hclosed hmem⟩
      established := fun time peer hmem ↦ hstage.established_of_mem ((mem_outcomes rfl).2 hmem)
      opening := fun hopening ↦ by
        obtain ⟨start, d, heq, hpends⟩ := hstage.exists_pends hopening
        exact ⟨start, heq, hpends.time_le, hpends.now_le⟩ }

/-- Two clients and a server for each. The second client waits for its answer only as long as the
answer takes. -/
def twoPairs : Except Failure (Simulation Dealt Peer) :=
  (create Network.Faults.perfect .zeros .zeros).map fun s ↦
    ((((s.addHost ⟨10, 0, 0, 2, 80⟩ {} (.server []) 0).2.addHost
      ⟨10, 0, 0, 1, 4000⟩ {} (.client ⟨10, 0, 0, 2, 80⟩ [1]) 1).2.addHost
      ⟨10, 0, 0, 2, 81⟩ {} (.server []) 0).2.addHost
      ⟨10, 0, 0, 1, 4001⟩ { handshakeTimeout := 2 * Network.Faults.perfect.minDelay }
      (.client ⟨10, 0, 0, 2, 81⟩ [2]) 1).2

/-- One can come to it: the network is created, and four hosts are added. -/
theorem reachable_twoPairs {s : Simulation Dealt Peer} (h : twoPairs = .ok s) :
    s.Reachable (· = []) := by
  refine reachable_of_map_create (fun hempty ↦ ?_) h
  exact (((hempty.addHost (Peer.begins_server rfl) (Nat.zero_le _)).addHost
    Peer.begins_client (by decide)).addHost (Peer.begins_server rfl) (Nat.zero_le _)).addHost
    Peer.begins_client (by decide)

/-- The answer arrives at the very instant of the deadline, after it. So the second handshake fails
at both ends, each time at the deadline. The first one is done. -/
theorem keepsDeadline_twoPairs :
    ∃ s, after 23 twoPairs = some s ∧
      s.hosts.map (fun host ↦ (s.outcomes host.connection.home).map fun record ↦
        (record.time, record.event)) =
          [[(300000001, .established ⟨10, 0, 0, 1, 4000⟩)],
            [(200000001, .established ⟨10, 0, 0, 2, 80⟩)],
            [(5100000001, .handshakeFailed)], [(200000001, .handshakeFailed)]] ∧
      (∃ began, Recounts (· = []) s began) ∧
      ∀ began, Recounts (· = []) s began → ∀ id host, s.host? id = some host →
        s.KeepsDeadline (· = []) id host.connection (began id) := by
  have hrun : (after 23 twoPairs).map (fun s ↦
      (s.hosts.map (fun host ↦ (s.outcomes host.connection.home).map fun record ↦
        (record.time, record.event)), decide (s.hosts.map (·.connection.home)).Nodup)) =
      some ([[(300000001, .established ⟨10, 0, 0, 1, 4000⟩)],
        [(200000001, .established ⟨10, 0, 0, 2, 80⟩)],
        [(5100000001, .handshakeFailed)], [(200000001, .handshakeFailed)]], true) := by
    decide +kernel
  obtain ⟨s, hs, hfacts⟩ := Option.map_eq_some_iff.1 hrun
  obtain ⟨htold, hnodup⟩ := Prod.mk.inj hfacts
  exact ⟨s, hs, htold,
    (reachable_of_after reachable_twoPairs hs).keepsDeadline (of_decide_eq_true hnodup)⟩

end ReliableStream.Simulation
