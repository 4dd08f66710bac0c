import ReliableStream.Proofs.Network.Totals
import ReliableStream.Proofs.Simulation.Pending

/-!
# What is enacted

What a host asks for is carried out at one instant, and leaves its mark in four places: the trace,
the totals of the network, the packets under way, and the ends that are set. `Enacts home packets
events s s'` says what these have to do with each other when a host at `home` sends `packets` and
tells of `events`. The trace is continued, by those events and by what became of the packets; the
totals count the packets, and go on agreeing with the trace; each copy that will arrive is under
way; and no end is set or lifted. It holds of everything that is carried out (`enacts_carryOut`).

The network draws what becomes of a packet, and nothing here depends on what it draws: a packet has
some fate (`Network.exists_fate_of_send`), and the totals, the events and the copies are those of
that fate.
-/

namespace ReliableStream

namespace Simulation

variable {σ α : Type} {s s' t : Simulation σ α} {home : Endpoint} {packets packets' : List Packet}
  {told told' : List Trace.Event} {arrived : Nat}

/-- What the trace tells. -/
def events (s : Simulation σ α) : List Trace.Event := s.trace.toList.map (·.event)

/-- The ends that are set. -/
def ends (s : Simulation σ α) : List (Agenda.Entry Happening) :=
  s.agenda.entries.filter (·.action = .close)

/-- Of all copies of packets that the network did not lose, so many have arrived, and the others are
under way. -/
def Balance (arrived : Nat) (s : Simulation σ α) : Prop :=
  s.network.stats.sent + s.network.stats.duplicated =
    s.network.stats.lost + arrived + s.underway.length

/-- A host at `home` sends packets and tells of events, and nothing else changes. -/
structure Enacts (home : Endpoint) (packets : List Packet) (events : List Trace.Event)
    (s s' : Simulation σ α) : Prop where
  /-- No time has passed. -/
  now_eq : s'.now = s.now
  /-- The hosts are as they were. -/
  hosts_eq : s'.hosts = s.hosts
  /-- The same ends are set. -/
  ends_eq : s'.ends = s.ends
  /-- The trace goes on with what the host tells, and with what became of its packets. -/
  written : ∃ records, s'.trace.toList = s.trace.toList ++ records ∧
    (∀ record ∈ records, record.time = s.now ∧ record.endpoint = home) ∧
    (records.map (·.event)).filter (·.isOwn) = events.filter (·.isOwn)
  /-- The packets are counted. -/
  sent_eq : s'.network.stats.sent = s.network.stats.sent + packets.length
  /-- No more packets are lost than sent. -/
  lost_le : s.network.stats.lost ≤ s.network.stats.sent →
    s'.network.stats.lost ≤ s'.network.stats.sent
  /-- The totals agree with the trace if they did before. -/
  agrees : (∀ event ∈ events, event.isOwn = true) → s.network.stats.Agrees s.events →
    s'.network.stats.Agrees s'.events
  /-- Nothing has arrived, and what will arrive is under way. -/
  balance : ∀ {arrived}, s.Balance arrived → s'.Balance arrived

namespace Enacts

/-- Nothing is asked for, and at most the journal is longer. -/
theorem of_agenda_eq (hagenda : s'.agenda = s.agenda) (hhosts : s'.hosts = s.hosts)
    (htrace : s'.trace = s.trace) (hnetwork : s'.network = s.network) : Enacts home [] [] s s' where
  now_eq := by rw [now, hagenda, now]
  hosts_eq := hhosts
  ends_eq := by rw [ends, hagenda, ends]
  written := ⟨[], by rw [htrace, List.append_nil], fun _ h ↦ absurd h List.not_mem_nil, rfl⟩
  sent_eq := by rw [hnetwork, List.length_nil, Nat.add_zero]
  lost_le h := by rwa [hnetwork]
  agrees _ h := by rwa [hnetwork, Simulation.events, htrace]
  balance h := by rwa [Balance, hnetwork, underway, hagenda]

theorem refl : Enacts home [] [] s s := of_agenda_eq rfl rfl rfl rfl

/-- One thing is asked for after the other. Both are told now, as no time has passed between them.
-/
theorem trans (h : Enacts home packets told s s') (h' : Enacts home packets' told' s' t) :
    Enacts home (packets ++ packets') (told ++ told') s t where
  now_eq := h'.now_eq.trans h.now_eq
  hosts_eq := h'.hosts_eq.trans h.hosts_eq
  ends_eq := h'.ends_eq.trans h.ends_eq
  written := by
    obtain ⟨first, hfirst, hmine, hevents⟩ := h.written
    obtain ⟨next, hnext, hmine', hevents'⟩ := h'.written
    refine ⟨first ++ next, by rw [hnext, hfirst, List.append_assoc], fun record hmem ↦ ?_, ?_⟩
    · rcases List.mem_append.1 hmem with hmem | hmem
      · exact hmine record hmem
      · exact h.now_eq ▸ hmine' record hmem
    · rw [List.map_append, List.filter_append, hevents, hevents', List.filter_append]
  sent_eq := by rw [h'.sent_eq, h.sent_eq, List.length_append, Nat.add_assoc]
  lost_le hle := h'.lost_le (h.lost_le hle)
  agrees hown hagrees := by
    obtain ⟨hfirst, hnext⟩ := List.forall_mem_append.1 hown
    exact h'.agrees hnext (h.agrees hfirst hagrees)
  balance hbalance := h'.balance (h.balance hbalance)

variable {β : Type} (sends : β → List Packet) (tells : β → List Trace.Event) {l : List β}

theorem foldl {f : Simulation σ α → β → Simulation σ α}
    (hstep : ∀ b s, Enacts home (sends b) (tells b) s (f s b)) :
    Enacts home (l.flatMap sends) (l.flatMap tells) s (l.foldl f s) := by
  induction l generalizing s with
  | nil => exact refl
  | cons b rest ih => exact (hstep b s).trans ih

theorem foldlM {f : Simulation σ α → β → Checked (Simulation σ α)}
    (hstep : ∀ b s s', f s b = .ok s' → Enacts home (sends b) (tells b) s s')
    (h : l.foldlM f s = .ok t) : Enacts home (l.flatMap sends) (l.flatMap tells) s t :=
  Checked.foldlM_induction
    (motive := fun l s t ↦ Enacts home (l.flatMap sends) (l.flatMap tells) s t)
    (fun _ ↦ refl) (fun b _ s mid _ hmid hrest ↦ (hstep b s mid hmid).trans hrest) h

end Enacts

/-! ### What is carried out -/

theorem events_record (home : Endpoint) (event : Trace.Event) (s : Simulation σ α) :
    (s.record home event).events = s.events ++ [event] := by
  simp [events, record, note]

theorem enacts_record (home : Endpoint) (event : Trace.Event) (s : Simulation σ α) :
    Enacts home [] [event] s (s.record home event) where
  now_eq := rfl
  hosts_eq := rfl
  ends_eq := rfl
  written := ⟨[⟨s.now, home, event⟩], Array.toList_push, by simp, rfl⟩
  sent_eq := rfl
  lost_le h := h
  agrees hown hagrees := by
    rw [events_record]
    exact hagrees.append hown
  balance h := h

/-- What happens sets no end, wherever it is put. -/
theorem ends_put (time target : Nat) (happening : Happening) (agenda : Agenda Happening) :
    (agenda.put time target (.model happening)).entries.filter (·.action = .close) =
      agenda.entries.filter (·.action = .close) :=
  Agenda.filter_place_of_not (by simp)

theorem enacts_setAlarm (id : Nat) (alarm : Alarm) (s : Simulation σ α) :
    Enacts home [] [] s (s.setAlarm id alarm) :=
  { Enacts.refl (s := s) with
    ends_eq := ends_put ..
    balance := fun h ↦ by
      have hperm := s.agenda.entries_put_perm (saturatingAdd s.agenda.now alarm.delay) id
        (.model (.alarm alarm.watch))
      rw [Balance, underway, setAlarm, Agenda.addAfter, Agenda.addAt,
        (hperm.filterMap arrivalOf?).length_eq]
      exact h }

/-- What is told of one endpoint, event after event: the trace is longer by just these. -/
theorem exists_foldl_record (home : Endpoint) (events : List Trace.Event) (s : Simulation σ α) :
    ∃ journal, events.foldl (fun s event ↦ s.record home event) s =
      { s with trace := s.trace ++ (events.map (⟨s.now, home, ·⟩)).toArray, journal } := by
  induction events generalizing s with
  | nil => exact ⟨s.journal, by simp⟩
  | cons event rest ih =>
    obtain ⟨journal, hrest⟩ := ih (s.record home event)
    refine ⟨journal, ?_⟩
    rw [List.foldl_cons, hrest]
    simp [record, note, now]

/-- Copies are scheduled one after the other: so many more packets are under way, and no ends are
set. -/
theorem exists_foldl_schedule (deliveries : List Network.Delivery) (s : Simulation σ α) :
    ∃ agenda, deliveries.foldl (fun s delivery ↦ s.schedule delivery) s = { s with agenda } ∧
      agenda.now = s.agenda.now ∧
      agenda.entries.filter (·.action = .close) = s.ends ∧
      (agenda.entries.filterMap arrivalOf?).length = deliveries.length + s.underway.length := by
  induction deliveries generalizing s with
  | nil => exact ⟨s.agenda, rfl, rfl, rfl, (Nat.zero_add _).symm⟩
  | cons delivery rest ih =>
    obtain ⟨agenda, hrest, hnow, hends, hunderway⟩ := ih (s.schedule delivery)
    have hperm := s.agenda.entries_put_perm delivery.time networkActor
      (.model (.arrival delivery.packet))
    refine ⟨agenda, hrest, hnow, hends.trans (ends_put ..), ?_⟩
    have hone : (s.schedule delivery).underway.length = s.underway.length + 1 :=
      (hperm.filterMap arrivalOf?).length_eq
    rw [hunderway, hone, List.length_cons]
    omega

variable [DrawSource σ]

/-- **A packet is sent**, and meets with some fate. What is told of that, what is counted, and how
many copies come are three readings of it. -/
theorem enacts_sendPacket {packet : Packet} (h : s.sendPacket home packet = .ok s') :
    Enacts home [packet] [] s s' := by
  obtain ⟨sent, hsent, h⟩ := Checked.bind_eq_ok_iff.1 h
  obtain ⟨fate, htraces, hstats, hlength⟩ := Network.exists_fate_of_send hsent
  -- None of what the network tells is told by a host.
  have hfates := Network.isFate_of_send hsent
  obtain ⟨journal, hrecord⟩ :=
    exists_foldl_record home sent.traces { s with network := sent.network }
  obtain ⟨agenda, hschedule, hnow, hends, hunderway⟩ := exists_foldl_schedule sent.deliveries
    (sent.traces.foldl (fun s event ↦ s.record home event) { s with network := sent.network })
  rw [hrecord] at hschedule hnow hends hunderway
  simp only [hrecord, hschedule, Checked.pure_eq_ok_iff] at h
  subst h
  exact
    { now_eq := hnow
      hosts_eq := rfl
      ends_eq := hends
      written := by
        refine ⟨_, Array.toList_append, fun record hmem ↦ ?_, ?_⟩
        · obtain ⟨event, -, rfl⟩ := List.mem_map.1 hmem
          exact ⟨rfl, rfl⟩
        · rw [List.map_map, List.filter_nil, List.filter_eq_nil_iff]
          intro event hmem
          have hfate := hfates event (by simpa using hmem)
          simp [Trace.Event.isOwn, hfate]
      sent_eq := by simp [hstats, Network.Stats.count]
      lost_le := fun hle ↦ by
        simp only [hstats, Network.Stats.count]
        split <;> omega
      agrees := fun _ hagrees ↦ by
        have hcount : (s.network.stats.count fate).Agrees (s.events ++ fate.events packet) :=
          hagrees.count
        rw [← hstats, ← htraces] at hcount
        simpa [events, Function.comp_def] using hcount
      balance := fun {arrived} hbalance ↦ by
        -- A packet has one copy more than it was duplicated, or none if it is lost.
        have hcopies := Network.length_copies_add fate
        have hbefore : s.network.stats.sent + s.network.stats.duplicated =
          s.network.stats.lost + arrived + s.underway.length := hbalance
        have hafter : (agenda.entries.filterMap arrivalOf?).length =
          fate.copies.length + s.underway.length := hlength ▸ hunderway
        show sent.network.stats.sent + sent.network.stats.duplicated =
          sent.network.stats.lost + arrived + (agenda.entries.filterMap arrivalOf?).length
        rw [hstats, hafter]
        simp only [Network.Stats.count]
        omega }

/-- What a host asks for is carried out: what it notes, what it tells, what it sends, and the alarms
that it sets. -/
theorem enacts_carryOut {id : Nat} {effects : Effects} (h : s.carryOut id home effects = .ok s') :
    Enacts home effects.packets effects.traces s s' := by
  obtain ⟨mid, hmid, h⟩ := Checked.bind_eq_ok_iff.1 h
  obtain rfl := Checked.pure_eq_ok_iff.1 h
  have hnotes : Enacts home _ _ s _ := .foldl (fun _ ↦ []) (fun _ ↦ []) (l := effects.notes)
    (f := fun s note ↦ s.note (.noted home note)) fun _ _ ↦ .of_agenda_eq rfl rfl rfl rfl
  have htraces := hnotes.trans (.foldl (fun _ ↦ []) (fun event ↦ [event]) (l := effects.traces)
    fun event s ↦ enacts_record home event s)
  have hpackets := htraces.trans (.foldlM (fun packet ↦ [packet]) (fun _ ↦ [])
    (fun _ _ _ ↦ enacts_sendPacket) hmid)
  have halarms := hpackets.trans (.foldl (fun _ ↦ []) (fun _ ↦ []) (l := effects.alarms)
    (f := fun s alarm ↦ s.setAlarm id alarm) fun alarm s ↦ enacts_setAlarm id alarm s)
  simpa [Carries.flatMap_nothing] using halarms

end Simulation

end ReliableStream
