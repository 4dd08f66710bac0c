import ReliableStream.Proofs.Simulation.Sound

/-!
# What is due

`s.Due time P` says that a packet which satisfies `P` is under way and arrives by `time`, and
`s.StartsBy id time` that a host starts by then. That is what a promise comes to in a simulation: as
long as the packet is under way the clock is not past that time (`Due.time_le`), and it stays so
until the packet is taken (`Due.passes`).

`Passes e s s'` says what the taking of an entry leaves as it is. It holds if a host acts
(`Acts.passes`). `Rests s s'` says that nothing happens at all: the end of a run is reached or set,
or an alarm rings for nothing (`ring_of_quiet`).

Promises of this kind are what liveness comes down to. No packet is promised at once: it is due,
then it arrives, and the next one is due. An entry that is due is never passed over, because the
clock only moves to the instant of the first one.
-/

namespace ReliableStream

/-- An established connection does nothing when an alarm rings that watches none of the segments in
flight. -/
theorem Connection.onAlarm_of_established {now : Nat} {watch : Alarm.Watch} {c : Connection}
    (hstate : c.state = .established)
    (hwatch : ∀ x ∈ c.inFlight.toList, watch ≠ .segment x.seq x.resends) :
    c.onAlarm now watch = .ok (c, {}) := by
  cases watch with
  | handshakeRetry attempt =>
    rw [onAlarm, onRetry, hstate]
    split <;> rfl
  | handshakeDeadline attempt =>
    rw [onAlarm, onDeadline, if_neg (by simp [hstate])]
    rfl
  | segment seq generation =>
    have hnone : c.inFlight.resend? seq generation now = .ok none := by
      refine InFlight.resend?_eq_none_iff.2 fun x hmem hseq hgeneration ↦ ?_
      exact hwatch x hmem (hseq ▸ hgeneration ▸ rfl)
    rw [onAlarm, onSegmentAlarm, hnone]
    cases c.peer <;> rfl

namespace Simulation

open Party

variable {σ : Type} {initial : Bytes → Prop} {s s' : Simulation σ Peer}
  {e : Agenda.Entry Happening} {agenda : Agenda Happening} {P : Packet → Prop} {time : Nat}

/-- A packet of some kind arrives by an instant. -/
def Due (s : Simulation σ Peer) (time : Nat) (P : Packet → Prop) : Prop :=
  ∃ f ∈ s.agenda.entries, ∃ packet, arrivalOf? f = some packet ∧ P packet ∧ f.time ≤ time

theorem action_of_arrivalOf? {packet : Packet} (h : arrivalOf? e = some packet) :
    e.action = .model (.arrival packet) := by
  unfold arrivalOf? at h
  split at h
  · next haction =>
    obtain rfl := Option.some.inj h
    exact haction
  all_goals exact absurd h (by simp)

/-- An entry is taken: it is the first one, the clock shows its instant, and all others are still to
come. -/
structure Passes (e : Agenda.Entry Happening) (s s' : Simulation σ Peer) : Prop where
  /-- It is the first one. -/
  first : ∀ f ∈ s.agenda.entries, f = e ∨ e.Before f
  /-- The clock is not set back. -/
  now_le : s.now ≤ e.time
  /-- The clock shows when it was due. -/
  now_eq : s'.now = e.time
  /-- The others are still to come. -/
  kept : ∀ f ∈ s.agenda.entries, f = e ∨ f ∈ s'.agenda.entries

theorem Passes.time_le (h : Passes e s s') {f : Agenda.Entry Happening}
    (hf : f ∈ s.agenda.entries) : e.time ≤ f.time := by
  rcases h.first f hf with rfl | hbefore
  · exact Nat.le_refl _
  · rw [Agenda.Entry.Before] at hbefore
    omega

theorem Passes.now_le_now (h : Passes e s s') : s.now ≤ s'.now :=
  Nat.le_trans h.now_le (Nat.le_of_eq h.now_eq.symm)

/-- What is due does not lie in the past: an entry that is taken is not later than that. -/
theorem Due.time_le (h : s.Due time P) (hpasses : Passes e s s') : e.time ≤ time := by
  obtain ⟨f, hf, packet, -, -, hle⟩ := h
  exact Nat.le_trans (hpasses.time_le hf) hle

/-- What is due stays due until it arrives, so it does when an entry is taken that brings no such
packet. -/
theorem Due.passes (h : s.Due time P) (hpasses : Passes e s s')
    (harrival : ∀ packet, e.action = .model (.arrival packet) → ¬ P packet) : s'.Due time P := by
  obtain ⟨f, hf, packet, hpacket, hP, hle⟩ := h
  rcases hpasses.kept f hf with rfl | hkept
  · exact absurd hP (harrival packet (action_of_arrivalOf? hpacket))
  · exact ⟨f, hkept, packet, hpacket, hP, hle⟩

/-- A packet that arrives leaves due what it is not. -/
theorem Due.arrival {packet : Packet} (h : s.Due time P) (hpasses : Passes e s s')
    (haction : e.action = .model (.arrival packet)) (hnot : ¬ P packet) : s'.Due time P :=
  h.passes hpasses fun other hother ↦ by
    obtain rfl := Happening.arrival.inj (Agenda.Action.model.inj (haction.symm.trans hother))
    exact hnot

theorem Due.mono {time' : Nat} (h : s.Due time P) (hle : time ≤ time') : s.Due time' P := by
  obtain ⟨f, hf, packet, hpacket, hP, hle'⟩ := h
  exact ⟨f, hf, packet, hpacket, hP, Nat.le_trans hle' hle⟩

/-- A host starts by an instant. -/
def StartsBy (s : Simulation σ Peer) (id time : Nat) : Prop :=
  ∃ f ∈ s.agenda.entries, f.action = .model .start ∧ f.target = id ∧ f.time ≤ time

theorem StartsBy.time_le {id : Nat} (h : s.StartsBy id time) (hpasses : Passes e s s') :
    e.time ≤ time := by
  obtain ⟨f, hf, -, -, hle⟩ := h
  exact Nat.le_trans (hpasses.time_le hf) hle

/-- A host that starts later has still to start when an entry is taken that is not for it. -/
theorem StartsBy.passes {id : Nat} (h : s.StartsBy id time) (hpasses : Passes e s s')
    (hother : e.target ≠ id) : s'.StartsBy id time := by
  obtain ⟨f, hf, hstart, htarget, hle⟩ := h
  rcases hpasses.kept f hf with rfl | hkept
  · exact absurd htarget hother
  · exact ⟨f, hkept, hstart, htarget, hle⟩

/-- An entry is taken, and nothing more happens. -/
theorem passes_next (hnext : s.agenda.next? = some (e, agenda)) :
    Passes e s { s with agenda } where
  first f hf := by
    have hordered := s.agenda.ordered
    rw [(Agenda.next?_eq_some hnext).1] at hf hordered
    exact (List.mem_cons.1 hf).imp_right ((List.pairwise_cons.1 hordered).1 f)
  now_le := s.agenda.ahead e ((Agenda.next?_eq_some hnext).1 ▸ List.mem_cons_self ..)
  now_eq := (Agenda.next?_eq_some hnext).2
  kept f hf := by
    rw [(Agenda.next?_eq_some hnext).1] at hf
    exact List.mem_cons.1 hf

/-- Nothing is gone from an agenda, and what is new comes after it and is not the end. -/
structure Grows (a b : Agenda Happening) : Prop where
  /-- Nothing is gone. -/
  kept : ∀ f ∈ a.entries, f ∈ b.entries
  /-- What is new comes after it. -/
  added : ∀ f ∈ b.entries, f ∈ a.entries ∨ a.added ≤ f.order ∧ f.action ≠ .close

theorem Grows.refl (a : Agenda Happening) : Grows a a := ⟨fun _ hf ↦ hf, fun _ hf ↦ .inl hf⟩

/-- Carrying out what a host asks for takes nothing from the agenda, and sets no end. -/
theorem Carries.grows {id : Nat} {packets : List Packet} {alarms : List Alarm}
    {traces : List Trace.Event} (h : Carries id packets alarms traces s s') :
    Grows s.agenda s'.agenda :=
  ⟨h.kept, h.added.2⟩

section Acting

variable {i : Nat} {peer : Peer} {input : Input} {p q : Party} {r : Reaction}

/-- An entry is taken, and a host acts. -/
theorem Acts.passes (h : Acts initial (i + 1) peer input p r q { s with agenda } s')
    (hnext : s.agenda.next? = some (e, agenda)) : Passes e s s' := by
  obtain ⟨host, -, -, -, hcarries⟩ := h.carries
  have htaken := passes_next hnext
  exact
    { first := htaken.first
      now_le := htaken.now_le
      now_eq := hcarries.now_eq.trans htaken.now_eq
      kept := fun f hf ↦ (htaken.kept f hf).imp_right (hcarries.kept f) }

/-- **If nothing is lost then what a host sends is due**, after the longest time that the network
takes. -/
theorem Acts.due (h : Acts initial (i + 1) peer input p r q { s with agenda } s')
    (hnext : s.agenda.next? = some (e, agenda)) (hloss : s.network.faults.loss.isZero)
    {packet : Packet} (hpacket : packet ∈ r.packets) (hP : P packet) :
    s'.Due (e.time + s.network.faults.latest) P := by
  obtain ⟨host, -, -, -, hcarries⟩ := h.carries
  obtain ⟨f, hf, harrival, hle⟩ := hcarries.prompt hloss packet hpacket
  have hnow : ({ s with agenda } : Simulation σ Peer).now = e.time := (passes_next hnext).now_eq
  exact ⟨f, hf, packet, harrival, hP, hnow ▸ hle⟩

/-- No packets are under way but those there were and those that the host sends. -/
theorem Acts.underway (h : Acts initial (i + 1) peer input p r q { s with agenda } s')
    (hnext : s.agenda.next? = some (e, agenda)) :
    ∀ packet ∈ s'.underway, packet ∈ s.underway ∨ packet ∈ r.packets := by
  obtain ⟨host, -, -, -, hcarries⟩ := h.carries
  intro packet hpacket
  refine (hcarries.underway_sub packet hpacket).imp_left fun hold ↦ ?_
  rw [underway_of_next? hnext]
  exact List.mem_append_right _ hold

/-- No alarms are set but those there were and those that the host asks for. -/
theorem Acts.alarms (h : Acts initial (i + 1) peer input p r q { s with agenda } s')
    (hnext : s.agenda.next? = some (e, agenda)) (id : Nat) :
    ∀ x ∈ s'.alarmsOf id, x ∈ s.alarmsOf id ∨ ∃ alarm ∈ r.alarms, x = alarm.due e.time := by
  obtain ⟨host, -, -, -, hcarries⟩ := h.carries
  intro x hx
  have hold : x ∈ ({ s with agenda } : Simulation σ Peer).alarmsOf id → x ∈ s.alarmsOf id := by
    rw [alarmsOf_of_next? hnext]
    exact List.mem_append_right _
  by_cases hid : id = i + 1
  · subst hid
    rcases List.mem_append.1 (hcarries.alarms_perm.mem_iff.1 hx) with hnew | hkept
    · obtain ⟨alarm, halarm, rfl⟩ := List.mem_map.1 hnew
      refine .inr ⟨alarm, halarm, ?_⟩
      rw [← (passes_next hnext).now_eq]
      rfl
    · exact .inl (hold hkept)
  · exact .inl (hold ((hcarries.others_perm id hid).mem_iff.1 hx))

end Acting

/-! ### Nothing happens -/

/-- Nothing happens, but time may pass and alarms may be gone. -/
structure Rests (s s' : Simulation σ Peer) : Prop where
  /-- The hosts are as they were. -/
  hosts_eq : s'.hosts = s.hosts
  /-- The network is as it was. -/
  network_eq : s'.network = s.network
  /-- There is nothing to tell. -/
  trace_eq : s'.trace = s.trace
  /-- The clock is not set back. -/
  now_le : s.now ≤ s'.now
  /-- Starts and arrivals are still to come. -/
  kept : ∀ f ∈ s.agenda.entries, (startOf? f).isSome ∨ (arrivalOf? f).isSome →
    f ∈ s'.agenda.entries
  /-- No alarms are set. -/
  alarms_sub : ∀ id, ∀ x ∈ s'.alarmsOf id, x ∈ s.alarmsOf id
  /-- No packets are sent. -/
  underway_sub : ∀ packet ∈ s'.underway, packet ∈ s.underway

/-- An entry is taken that is neither a start nor an arrival, and nothing more happens: an end, or
an alarm that is not heeded. -/
theorem rests_next (hnext : s.agenda.next? = some (e, agenda)) (hstart : startOf? e = none)
    (harrival : arrivalOf? e = none) : Rests s { s with agenda } where
  hosts_eq := rfl
  network_eq := rfl
  trace_eq := rfl
  now_le := (passes_next hnext).now_le_now
  kept f hf hkind := by
    rcases (passes_next hnext).kept f hf with rfl | hkept
    · simp [hstart, harrival] at hkind
    · exact hkept
  alarms_sub id x hx := by
    rw [alarmsOf_of_next? hnext]
    exact List.mem_append_right _ hx
  underway_sub packet hpacket := by
    rw [underway_of_next? hnext]
    exact List.mem_append_right _ hpacket

/-- The end is set, and whatever was to come is still to come. -/
theorem rests_closeAt (time : Nat) : Rests s (s.closeAt time) :=
  have hperm := s.agenda.entries_put_perm time 0 .close
  { hosts_eq := rfl
    network_eq := rfl
    trace_eq := rfl
    now_le := Nat.le_refl _
    kept := fun _ hf _ ↦ hperm.mem_iff.2 (List.mem_cons_of_mem _ hf)
    alarms_sub := fun id _ ↦ (hperm.filterMap (alarmOf? id)).mem_iff.1
    underway_sub := fun _ ↦ (hperm.filterMap arrivalOf?).mem_iff.1 }

theorem Due.rests (h : s.Due time P) (hrests : Rests s s') : s'.Due time P := by
  obtain ⟨f, hf, packet, hpacket, hdue⟩ := h
  exact ⟨f, hrests.kept f hf (.inr (by simp [hpacket])), packet, hpacket, hdue⟩

theorem StartsBy.rests {id : Nat} (h : s.StartsBy id time) (hrests : Rests s s') :
    s'.StartsBy id time := by
  obtain ⟨f, hf, hstart, hdue⟩ := h
  exact ⟨f, hrests.kept f hf (.inl (by simp [startOf?, hstart])), hstart, hdue⟩

/-! ### Alarms that ring for nothing -/

/-- A host does not heed an alarm. -/
def Quiet (s : Simulation σ Peer) (id : Nat) (watch : Alarm.Watch) : Prop :=
  ∃ host, s.host? id = some host ∧
    host.connection.onAlarm s.now watch = .ok (host.connection, {})

variable [DrawSource σ]

/-- An alarm that is not heeded changes nothing, so the whole simulation is as it was. -/
theorem ring_of_quiet {id : Nat} {watch : Alarm.Watch} (h : s.Quiet id watch) :
    s.ring id watch = .ok s := by
  obtain ⟨host, hhost, hquiet⟩ := h
  have hset : s.setHost id host = s := by
    obtain ⟨i, rfl, hi⟩ := host?_eq_some hhost
    obtain ⟨hlt, rfl⟩ := List.getElem?_eq_some_iff.1 hi
    rw [setHost, Nat.add_sub_cancel, List.set_getElem_self]
  have hreact : s.react id host {} = .ok (s.setHost id host) := rfl
  rw [Simulation.ring, hhost]
  dsimp only
  rw [hquiet]
  exact hreact.trans (congrArg _ hset)

/-- The party of the host is as it was. A step gives some party that fits, and since the host did
nothing it is the one there was. -/
theorem Sound.quiet {parties : List Party} {watch : Alarm.Watch} (h : s.Sound initial parties)
    (hnext : s.agenda.next? = some (e, agenda)) (haction : e.action = .model (.alarm watch))
    (hquiet : { s with agenda }.Quiet e.target watch) :
    ({ s with agenda } : Simulation σ Peer).Sound initial parties := by
  obtain ⟨parties', hsound, htakes⟩ := h.ring hnext haction (ring_of_quiet hquiet)
  obtain ⟨host, hhost, hnothing⟩ := hquiet
  cases htakes with
  | @mk i host' input p q r hi hp hreaches honce hacts =>
    -- The turn begins with what the connection does on the alarm, which is nothing, and so ends
    -- there.
    suffices hq : q = p by
      obtain ⟨hlt, rfl⟩ := List.getElem?_eq_some_iff.1 hp
      rw [hq, List.set_getElem_self] at hsound
      exact hsound
    cases hreaches with
    | start hstart => exact absurd (haction.symm.trans hstart) (by simp)
    | arrival harrival => exact absurd (haction.symm.trans harrival) (by simp)
    | alarm halarm htarget =>
      obtain rfl := Happening.alarm.inj (Agenda.Action.model.inj (haction.symm.trans halarm))
      rw [htarget] at hhost
      obtain rfl := Option.some.inj (hi.symm.trans hhost)
      rw [(h.plays hi hp).connection_eq] at hnothing
      have hperform : p.perform ({ s with agenda } : Simulation σ Peer).now (.alarm watch) =
          .ok (p, {}) := Checked.bind_eq_ok_iff.2 ⟨_, hnothing, rfl⟩
      have hturn := hacts.turn.perform_eq fun hfirst ↦ by
        obtain ⟨-, rfl⟩ := Prod.mk.inj (Except.ok.inj (hfirst.symm.trans hperform))
        rfl
      exact (Prod.mk.inj (Except.ok.inj (hturn.symm.trans hperform))).1

end Simulation

end ReliableStream
