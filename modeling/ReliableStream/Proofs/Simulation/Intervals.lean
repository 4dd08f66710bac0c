import ReliableStream.Proofs.Simulation.Accounts
import ReliableStream.Proofs.Simulation.Turns

/-!
# A segment is sent again at fixed intervals

In every simulation of clients and servers whose clock is not at its limit: what the trace tells of
a place in the stream of a host is that a segment was sent there, and sent again each time one
retransmission interval after the last, and then acknowledged, and nothing else. While the segment
is in flight it says itself how often it was sent and when last, and it is not overdue
(`Reachable.keepsInterval`).

Hosts at the same place cannot be told apart in the trace, so that no two may be.

Each place of each stream is followed on its own: `Party.Paced` says what has to be told of one.
That an alarm rings when it was due is known from the agenda (`Plays.ringsOnTime`), and this is what
makes the intervals equal. At the limit of the clock instants are not added up any more, and they
would be shorter.
-/

namespace ReliableStream.Simulation

open Party Telling

variable {σ : Type} {initial : Bytes → Prop} {s s' : Simulation σ Peer} {home other : Endpoint}
  {told : List Trace.Event} {packets : List Packet} {happening : Happening}
  {host host' : Host Peer} {i seq : Nat}

/-- What the trace tells of an endpoint, and when. -/
def toldAt {α : Type} (home : Endpoint) (s : Simulation σ α) : Telling :=
  (s.trace.toList.filter (·.endpoint = home)).map fun record ↦ (record.time, record.event)

/-- The right things were told of each host, and nothing is told of segments of anyone else. -/
structure Paced (s : Simulation σ Peer) : Prop where
  /-- Of each host. -/
  hosts : ∀ host ∈ s.hosts, host.connection.Paced (s.toldAt host.connection.home)
  /-- Of anyone else. -/
  silent : ∀ home ∉ s.hosts.map (·.connection.home), ∀ seq, about seq (s.toldAt home) = []

/-! ### What is added to the trace -/

/-- An event is told of the one it is recorded for, and of nobody else. -/
theorem toldAt_record (home other : Endpoint) (event : Trace.Event) (s : Simulation σ Peer) :
    (s.record home event).toldAt other =
      s.toldAt other ++ if home = other then [(s.now, event)] else [] := by
  have htrace : (s.record home event).trace.toList = s.trace.toList ++ [⟨s.now, home, event⟩] :=
    Array.toList_push
  rw [toldAt, htrace, List.filter_append, List.map_append, toldAt]
  simp [List.filter_cons, apply_ite]

/-- An event that does not concern segments leaves what is told of them as it is. -/
theorem about_toldAt_record {event : Trace.Event} (hevent : ∀ seq, event.concerns seq = false)
    (home other : Endpoint) (seq : Nat) (s : Simulation σ Peer) :
    about seq ((s.record home event).toldAt other) = about seq (s.toldAt other) := by
  rw [toldAt_record]
  split
  · exact about_concat_of_not (hevent seq) ..
  · rw [List.append_nil]

/-- What a host adds to what is told of its segments: its own events, as those of the network are
about none. -/
theorem Enacts.about_toldAt (h : Enacts home packets told s s') (seq : Nat) :
    about seq (s'.toldAt home) = about seq (s.toldAt home ++ told.map (s.now, ·)) := by
  obtain ⟨records, htrace, hmine, hevents⟩ := h.written
  have hall : records.filter (·.endpoint = home) = records :=
    List.filter_eq_self.2 fun record hmem ↦ by simpa using (hmine record hmem).2
  have hmore : records.map (fun record ↦ (record.time, record.event)) =
      (records.map (·.event)).map (s.now, ·) := by
    rw [List.map_map]
    exact List.map_congr_left fun record hmem ↦ by simp [(hmine record hmem).1]
  -- Only a host tells of segments.
  have hown (events : List Trace.Event) :
      about seq (events.map (s.now, ·)) =
        about seq ((events.filter (·.isOwn)).map (s.now, ·)) := by
    rw [about, about, List.filter_map, List.filter_map, List.filter_filter]
    refine congrArg _ (List.filter_congr fun event _ ↦ ?_)
    cases event <;> simp [Trace.Event.concerns, Trace.Event.isOwn, Trace.Event.isFate,
      Trace.Event.isUndeliverable]
  rw [toldAt, htrace, List.filter_append, List.map_append, hall, hmore, about_append, about_append,
    hown, hevents, ← hown, toldAt]

/-- Nothing is told of anyone else, since all that is recorded is recorded for the host that acts.
-/
theorem Enacts.toldAt_eq (h : Enacts home packets told s s') (hne : other ≠ home) :
    s'.toldAt other = s.toldAt other := by
  obtain ⟨records, htrace, hmine, -⟩ := h.written
  have hnone : records.filter (·.endpoint = other) = [] :=
    List.filter_eq_nil_iff.2 fun record hmem ↦ by simpa [(hmine record hmem).2] using hne.symm
  rw [toldAt, htrace, List.filter_append, hnone, List.append_nil, toldAt]

theorem now_pass (happening : Happening) (s : Simulation σ Peer) :
    (s.pass happening).now = s.now := by
  cases happening with
  | start | alarm => rfl
  | arrival packet =>
    rw [Simulation.pass, Network.route]
    cases s.network.actorAt? packet.destination <;> rfl

namespace Paced

/-- Nothing is told of segments. -/
theorem rest (h : s.Paced) (hhosts : s'.hosts = s.hosts)
    (htold : ∀ home seq, about seq (s'.toldAt home) = about seq (s.toldAt home)) : s'.Paced where
  hosts host hmem := by
    rw [hhosts] at hmem
    exact (h.hosts host hmem).quiet (htold _) rfl rfl (fun _ ↦ Nat.le_refl _) id
  silent home hhome seq := by
    rw [hhosts] at hhome
    rw [htold]
    exact h.silent home hhome seq

/-- Nobody has its turn. -/
theorem pass (h : s.Paced) : (s.pass happening).Paced := by
  refine h.rest (hosts_pass happening s) fun home seq ↦ ?_
  cases happening with
  | start | alarm => rfl
  | arrival packet =>
    rw [Simulation.pass, Network.route]
    cases s.network.actorAt? packet.destination with
    | some id => rfl
    | none => exact about_toldAt_record (fun _ ↦ rfl) ..

/-- **A host acts, and tells of it.** The right things are told of it then, and of the others still.
-/
theorem acts (h : s.Paced) (hnodup : (s.hosts.map (·.connection.home)).Nodup)
    (hi : s.hosts[i]? = some host) (hhome : host'.connection.home = host.connection.home)
    (hpaced : host'.connection.Paced (s.toldAt host.connection.home ++ told.map (s.now, ·)))
    (henacts : Enacts host.connection.home packets told
      { s with hosts := s.hosts.set i host' } s') : s'.Paced := by
  have hhosts : s'.hosts = s.hosts.set i host' := henacts.hosts_eq
  constructor
  case hosts =>
    intro hostj hmem
    obtain ⟨j, hj⟩ := List.getElem?_of_mem hmem
    rw [hhosts] at hj
    rcases cases_of_getElem?_set hj with ⟨rfl, rfl⟩ | ⟨hij, hold⟩
    · rw [hhome]
      exact hpaced.quiet henacts.about_toldAt rfl rfl (fun _ ↦ Nat.le_refl _) id
    · have hne : hostj.connection.home ≠ host.connection.home :=
        fun heq ↦ hij (index_eq_of_place_eq hnodup hi hold heq.symm)
      rw [henacts.toldAt_eq hne]
      exact h.hosts hostj (List.mem_of_getElem? hold)
  case silent =>
    intro other hother
    rw [hhosts, map_home_set hi hhome] at hother
    have hne : other ≠ host.connection.home := by
      rintro rfl
      exact hother (List.mem_map_of_mem (List.mem_of_getElem? hi))
    rw [henacts.toldAt_eq hne]
    exact h.silent other hother

/-- A host joins of which only that is told. Nothing was told of its place, so none of its segments
was. -/
theorem join (h : s.Paced) {settings : Connection.Settings} {valid : settings.Valid} {isn : Nat}
    {peer : Peer} (hnew : home ∉ s.hosts.map (·.connection.home))
    (hhosts : s'.hosts = s.hosts ++ [⟨(Party.create home settings valid isn).toConnection, peer⟩])
    (htold : ∀ home seq, about seq (s'.toldAt home) = about seq (s.toldAt home)) : s'.Paced where
  hosts host hmem := by
    rw [hhosts] at hmem
    rcases List.mem_append.1 hmem with hold | hlast
    · exact (h.hosts host hold).quiet (htold _) rfl rfl (fun _ ↦ Nat.le_refl _) id
    · obtain rfl := List.mem_singleton.1 hlast
      exact paced_create fun seq ↦ (htold home seq).trans (h.silent home hnew seq)
  silent other hother seq := by
    rw [hhosts, List.map_append, List.mem_append, not_or] at hother
    rw [htold]
    exact h.silent other hother.1 seq

end Paced

/-! ### Every step keeps the intervals -/

variable {e : Agenda.Entry Happening} {agenda : Agenda Happening} {p : Party} {id : Nat}

/-- The right things were told, if the trace tells the hosts apart and the clock is not at its
limit. -/
def KeepsTime (s : Simulation σ Peer) : Prop :=
  (s.hosts.map (·.connection.home)).Nodup → s.now < maxWord → s.Paced

namespace KeepsTime

/-- A host is added, or refused. -/
theorem enter {settings : Connection.Settings} {peer : Peer} {start isn : Nat} (h : s.KeepsTime) :
    (s.enter home settings peer start isn).2.KeepsTime := by
  rw [Simulation.enter]
  split
  · exact h
  · next c hcreate =>
    obtain ⟨valid, rfl⟩ := exists_of_create hcreate
    intro hnodup hnow
    dsimp only [record, note] at hnodup
    obtain ⟨hnodup', hnew⟩ := places_of_concat hnodup
    exact (h hnodup' hnow).join hnew rfl fun other seq ↦
      about_toldAt_record (fun _ ↦ rfl) home other seq s

/-- It does not matter where sequence numbers are drawn from. -/
theorem of_sequences {sequences : σ} (h : s.KeepsTime) :
    ({ s with sequences } : Simulation σ Peer).KeepsTime :=
  fun hnodup hnow ↦ { h hnodup hnow with }

variable [DrawSource σ]

theorem addHost {settings : Connection.Settings} {peer : Peer} {start : Nat} (h : s.KeepsTime) :
    (s.addHost home settings peer start).2.KeepsTime := by
  rw [Simulation.addHost]
  generalize DrawSource.initialSequence s.sequences = draw
  exact h.of_sequences.enter

/-- **Something happens to a simulation whose next entry was taken.** An answer is a turn of the
host's party, and an alarm that makes it act rings on time. That is all that a party needs to keep
its intervals. -/
theorem happen {parties : List Party} {answer : Option (Answer Peer)} (h : s.KeepsTime)
    (hsound : s.Sound initial parties) (hnext : s.agenda.next? = some (e, agenda))
    (haction : e.action = .model happening)
    (hanswer : ({ s with agenda } : Simulation σ Peer).answer? e.target happening = .ok answer)
    (hfollow : ({ s with agenda } : Simulation σ Peer).follow happening answer = .ok s') :
    s'.KeepsTime := by
  intro hnodup hnow
  have hpaced (hnodup : (s.hosts.map (·.connection.home)).Nodup) (hnow : agenda.now < maxWord) :
      ({ s with agenda } : Simulation σ Peer).Paced :=
    { h hnodup (Nat.lt_of_le_of_lt (now_le_of_next? hnext) hnow) with }
  cases answer with
  | none =>
    obtain rfl := Checked.pure_eq_ok_iff.1 hfollow
    rw [hosts_pass] at hnodup
    rw [now_pass] at hnow
    exact (hpaced hnodup hnow).pass
  | some a =>
    obtain ⟨host, hhost, hhome, hmeet⟩ := exists_host_of_answer? hanswer
    obtain ⟨i, hid, hi⟩ := host?_eq_some hhost
    obtain ⟨p, -, hplays⟩ := hsound.exists_party hi
    obtain ⟨q, r, hturn⟩ :=
      Host.exists_hasTurn hplays.connection_eq hplays.drives hplays.sound hmeet
    have hactor := actor?_of_answer? hanswer
    have henacts := enacts_of_follow hfollow
    rw [hid] at hactor
    rw [hid, hhome] at henacts
    have hstays : a.host.connection.home = host.connection.home := by
      rw [hturn.connection_eq, hplays.connection_eq]
      exact (hturn.turn.later hplays.sound).home_eq
    have hhosts : s'.hosts = s.hosts.set i a.host := henacts.hosts_eq
    rw [hhosts, map_home_set hi hstays] at hnodup
    rw [henacts.now_eq] at hnow
    -- What was told of the host before, and then what its party adds to that.
    have htold := (hpaced hnodup hnow).hosts host (List.mem_of_getElem? hi)
    rw [hplays.connection_eq] at htold
    have htold' := hturn.turn.paced htold hplays.sound
      (hplays.ringsOnTime hnext haction hactor (fun _ _ ↦ hnow) host.application)
    refine (hpaced hnodup hnow).acts hnodup hi hstays ?_ henacts
    rw [hturn.connection_eq, hplays.connection_eq, Answer.traces, hturn.traces_eq]
    exact htold'

/-- A step is taken. Time only passes, so the clock was not at its limit before it. -/
theorem step {parties : List Party} {running : Bool} (h : s.KeepsTime)
    (hsound : s.Sound initial parties) (hstep : s.step = .ok (running, s')) : s'.KeepsTime := by
  cases steps_of_step hstep with
  | idle => exact h
  | close hnext =>
    exact fun hnodup hnow ↦
      (h hnodup (Nat.lt_of_le_of_lt (now_le_of_next? hnext) hnow)).rest rfl fun _ _ ↦ rfl
  | happen hnext haction hhappen =>
    obtain ⟨answer, hanswer, hfollow⟩ := happen_eq_ok_iff.1 hhappen
    exact h.happen hsound hnext haction hanswer hfollow

end KeepsTime

variable [DrawSource σ]

/-- So the right things are told in all that one can come to. -/
theorem Reachable.keepsTime (h : s.Reachable initial) : s.KeepsTime := by
  induction h with
  | create hcreate =>
    obtain ⟨valid, rfl⟩ := create_eq_ok hcreate
    exact fun _ _ ↦ ⟨fun _ hmem ↦ absurd hmem List.not_mem_nil, fun _ _ _ ↦ rfl⟩
  | addHost _ _ _ ih => exact ih.addHost
  | closeAt _ _ ih => exact fun hnodup hnow ↦ (ih hnodup hnow).rest rfl fun _ _ ↦ rfl
  | step hreach hstep ih =>
    obtain ⟨parties, hsound⟩ := hreach.exists_sound
    exact ih.step hsound hstep

/-- **A segment is sent again at fixed intervals, until it is acknowledged.** Suppose that no two
hosts are at the same place, and that the clock is not at its limit. Then what the trace tells of a
place in the stream of a host is that a segment was sent there, and sent again with the same length,
each time one retransmission interval after the last and counted from one, and then only that it was
acknowledged. Nobody else is told of. And a segment in flight was sent again as often as it says,
and not acknowledged; it was sent last when it says, and it is not overdue. -/
theorem Reachable.keepsInterval (h : s.Reachable initial)
    (hnodup : (s.hosts.map (·.connection.home)).Nodup) (hnow : s.now < maxWord) :
    (∀ host ∈ s.hosts, ∀ seq,
      Runs host.connection.settings.rto seq (about seq (s.toldAt host.connection.home))) ∧
      (∀ home ∉ s.hosts.map (·.connection.home), ∀ seq, about seq (s.toldAt home) = []) ∧
      ∀ host ∈ s.hosts, ∀ segment ∈ host.connection.inFlight.toList, ∃ start,
        about segment.seq (s.toldAt host.connection.home) =
          course host.connection.settings.rto start segment.seq segment.payload.length
            segment.resends ∧
          segment.sentAt = start + segment.resends * host.connection.settings.rto ∧
          s.now ≤ segment.sentAt + host.connection.settings.rto := by
  have hpaced := h.keepsTime hnodup hnow
  obtain ⟨parties, hsound⟩ := h.exists_sound
  refine ⟨fun host hmem ↦ (hpaced.hosts host hmem).runs, hpaced.silent, ?_⟩
  intro host hmem segment hsegment
  obtain ⟨start, hcourse, hsentAt⟩ := (hpaced.hosts host hmem).inFlight segment hsegment
  obtain ⟨i, hi⟩ := List.getElem?_of_mem hmem
  obtain ⟨p, -, hplays⟩ := hsound.exists_party hi
  rw [hplays.connection_eq] at hsegment
  have hdue := hplays.now_le hsegment
  rw [saturatingAdd, ← congrArg (·.settings) hplays.connection_eq] at hdue
  exact ⟨start, hcourse, hsentAt, Nat.le_trans hdue (Nat.min_le_left ..)⟩

/-- A segment that was lost is sent again after two seconds, and then acknowledged. The next one is
still in flight. -/
theorem keepsInterval_fiveBytes :
    ∃ s, after 12 fiveBytes = some s ∧ s.now = 2400000000 ∧
      s.hosts.map (·.connection.inFlight.toList.map (·.seq)) = [[], [2306, 2308]] ∧
      about 2304 (s.toldAt ⟨10, 0, 0, 1, 4000⟩) =
        [(200000000, .segmentSent 2304 2), (2200000000, .segmentResent 2304 2 1),
          (2400000000, .ackReceived 2306 1)] ∧
      (∀ host ∈ s.hosts, ∀ seq,
        Runs host.connection.settings.rto seq (about seq (s.toldAt host.connection.home))) ∧
        (∀ home ∉ s.hosts.map (·.connection.home), ∀ seq, about seq (s.toldAt home) = []) ∧
        ∀ host ∈ s.hosts, ∀ segment ∈ host.connection.inFlight.toList, ∃ start,
          about segment.seq (s.toldAt host.connection.home) =
            course host.connection.settings.rto start segment.seq segment.payload.length
              segment.resends ∧
            segment.sentAt = start + segment.resends * host.connection.settings.rto ∧
            s.now ≤ segment.sentAt + host.connection.settings.rto := by
  have hrun : (after 12 fiveBytes).map (fun s ↦
      (s.now, s.hosts.map (·.connection.inFlight.toList.map (·.seq)),
        about 2304 (s.toldAt ⟨10, 0, 0, 1, 4000⟩),
        decide (s.hosts.map (·.connection.home)).Nodup)) =
      some (2400000000, [[], [2306, 2308]],
        [(200000000, .segmentSent 2304 2), (2200000000, .segmentResent 2304 2 1),
          (2400000000, .ackReceived 2306 1)], true) := by
    decide +kernel
  obtain ⟨s, hs, hfacts⟩ := Option.map_eq_some_iff.1 hrun
  obtain ⟨hnow, hfacts⟩ := Prod.mk.inj hfacts
  obtain ⟨hflight, hfacts⟩ := Prod.mk.inj hfacts
  obtain ⟨htold, hnodup⟩ := Prod.mk.inj hfacts
  exact ⟨s, hs, hnow, hflight, htold,
    (reachable_of_after reachable_fiveBytes hs).keepsInterval (of_decide_eq_true hnodup)
      (by rw [hnow]; decide)⟩

end ReliableStream.Simulation
