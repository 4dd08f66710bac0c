import ReliableStream.Proofs.Simulation.Sound

/-!
# Nothing is left without its watchdog

In every simulation of clients and servers, between any two steps: each segment in flight, of any
host, has one alarm that is set for it, which will find that nothing has happened since the segment
was sent last; and each unfinished handshake has one for its next retry and one for its deadline
(`Reachable.watchdogs`). So nothing can wait for ever, however many packets are lost, and nothing is
sent again too often.

Nothing is proved about steps here. The invariant of simulations, `Sound`, has that each host plays
a party whose segments and handshake are watched by just the alarms that are set for that host
(`Party.Watched`), and the statement is that with the party left out.
-/

namespace ReliableStream.Simulation

variable {σ : Type} [DrawSource σ] {initial : Bytes → Prop} {s : Simulation σ Peer}

/-- **Nothing is left without its watchdog, and nothing has two.** Of the alarms that are set for a
host exactly one watches any given segment in flight: it is of the segment's present generation, and
rings when the segment has to be sent again. During a handshake exactly one is a retry and exactly
one a deadline, both of the current attempt. -/
theorem Reachable.watchdogs (h : s.Reachable initial) {id : Nat} {host : Host Peer}
    (hhost : s.host? id = some host) :
    (∀ segment ∈ host.connection.inFlight.toList,
      (s.alarmsOf id).filter (·.2.ofSegment segment.seq) =
        [(saturatingAdd segment.sentAt host.connection.settings.rto,
          .segment segment.seq segment.resends)]) ∧
      (host.connection.state = .synSent ∨ host.connection.state = .synReceived →
        (∃ time, (s.alarmsOf id).filter (·.2.isRetry) =
          [(time, .handshakeRetry host.connection.attempt)]) ∧
        ∃ time, (s.alarmsOf id).filter (·.2.isDeadline) =
          [(time, .handshakeDeadline host.connection.attempt)]) := by
  obtain ⟨parties, hsound⟩ := h.exists_sound
  obtain ⟨i, rfl, hi⟩ := host?_eq_some hhost
  obtain ⟨p, -, hplays⟩ := hsound.exists_party hi
  rw [hplays.connection_eq]
  exact ⟨hplays.watched.segment,
    fun hstate ↦ ⟨hplays.watched.retry hstate, hplays.watched.deadline hstate⟩⟩

/-- A segment that was sent again and one that was not, with old alarms of the handshake and of a
segment that is acknowledged still set. -/
theorem watchdogs_fiveBytes :
    ∃ s host, after 12 fiveBytes = some s ∧ s.host? 2 = some host ∧
      host.connection.inFlight.toList.map (·.resends) = [1, 0] ∧ (s.alarmsOf 2).length = 4 ∧
      (∀ segment ∈ host.connection.inFlight.toList,
        (s.alarmsOf 2).filter (·.2.ofSegment segment.seq) =
          [(saturatingAdd segment.sentAt host.connection.settings.rto,
            .segment segment.seq segment.resends)]) ∧
        (host.connection.state = .synSent ∨ host.connection.state = .synReceived →
          (∃ time, (s.alarmsOf 2).filter (·.2.isRetry) =
            [(time, .handshakeRetry host.connection.attempt)]) ∧
          ∃ time, (s.alarmsOf 2).filter (·.2.isDeadline) =
            [(time, .handshakeDeadline host.connection.attempt)]) := by
  have hrun : (after 12 fiveBytes).bind (fun s ↦ (s.host? 2).map fun host ↦
      (host.connection.inFlight.toList.map (·.resends), (s.alarmsOf 2).length)) =
        some ([1, 0], 4) := by decide +kernel
  obtain ⟨s, hs, hrest⟩ := Option.bind_eq_some_iff.1 hrun
  obtain ⟨host, hhost, hpair⟩ := Option.map_eq_some_iff.1 hrest
  obtain ⟨hresends, halarms⟩ := Prod.mk.inj hpair
  exact ⟨s, host, hs, hhost, hresends, halarms,
    (reachable_of_after reachable_fiveBytes hs).watchdogs hhost⟩

end ReliableStream.Simulation
