import Mathlib.Tactic.Common
import ReliableStream.Proofs.Latency
import ReliableStream.Proofs.Party.Watched
import ReliableStream.Simulation.Run

/-!
# What is still to come

The entries of an agenda by what they are about: the alarms that are set for each host, the packets
under way, and the hosts that have still to start. Only which there are counts, not in which order
they were added.

`Carries id packets alarms traces s s'` says that all that has changed from `s` to `s'` is due to
what host `id` asks for: its alarms are set, no packets are under way but those there were and those
it sends, and nobody else's alarms are touched. Nothing that was to come is gone, and if no packets
are lost then all that it sends arrives in time. It holds of everything that is carried out
(`carries_carryOut`).

`Carries` is proved from the bottom up. What is noted and what is told is not on the agenda; an
alarm is one entry, and so is each copy of a packet; a packet is sent by putting its copies there;
and effects are a number of each. Conditions that have to hold all the time, such as that nothing
comes after the end of time, are kept by it as well.
-/

namespace ReliableStream.Simulation

variable {σ α : Type} {s s' t : Simulation σ α} {id : Nat} {packets packets' : List Packet}
  {alarms alarms' : List Alarm} {traces traces' : List Trace.Event}

/-! ### Entries by what they are about -/

/-- The alarm of a host, and when it rings, if an entry is one. -/
def alarmOf? (id : Nat) (e : Agenda.Entry Happening) : Option (Nat × Alarm.Watch) :=
  match e.action with
  | .model (.alarm watch) => if e.target = id then some (e.time, watch) else none
  | .model .start | .model (.arrival _) | .close => none

/-- The packet that arrives, if one does. -/
def arrivalOf? (e : Agenda.Entry Happening) : Option Packet :=
  match e.action with
  | .model (.arrival packet) => some packet
  | .model .start | .model (.alarm _) | .close => none

theorem alarmOf?_alarm (id time order : Nat) (watch : Alarm.Watch) :
    alarmOf? id ⟨time, order, id, .model (.alarm watch)⟩ = some (time, watch) := if_pos rfl

theorem alarmOf?_alarm_of_ne {id other : Nat} (hne : other ≠ id) (time order : Nat)
    (watch : Alarm.Watch) : alarmOf? other ⟨time, order, id, .model (.alarm watch)⟩ = none :=
  if_neg hne.symm

theorem target_of_alarmOf? {id : Nat} {e : Agenda.Entry Happening} {x : Nat × Alarm.Watch}
    (h : alarmOf? id e = some x) : e.target = id := by
  unfold alarmOf? at h
  split at h
  · split at h
    · assumption
    · exact absurd h (by simp)
  all_goals exact absurd h (by simp)

theorem eq_of_alarmOf? {id time : Nat} {watch : Alarm.Watch}
    {e : Agenda.Entry Happening} (h : alarmOf? id e = some (time, watch)) :
    e.action = .model (.alarm watch) ∧ e.target = id ∧ e.time = time := by
  have htarget := target_of_alarmOf? h
  unfold alarmOf? at h
  split at h
  · next haction =>
    rw [if_pos htarget] at h
    obtain ⟨htime, rfl⟩ := Prod.mk.inj (Option.some.inj h)
    exact ⟨haction, htarget, htime⟩
  all_goals exact absurd h (by simp)

/-- The host that starts, if one does. -/
def startOf? (e : Agenda.Entry Happening) : Option Nat :=
  match e.action with
  | .model .start => some e.target
  | .model (.arrival _) | .model (.alarm _) | .close => none

/-- The alarms that are set for a host, each with the instant at which it rings. -/
def alarmsOf (id : Nat) (s : Simulation σ α) : List (Nat × Alarm.Watch) :=
  s.agenda.entries.filterMap (alarmOf? id)

/-- The packets under way. -/
def underway (s : Simulation σ α) : List Packet := s.agenda.entries.filterMap arrivalOf?

/-- The hosts that have still to start. -/
def starting (s : Simulation σ α) : List Nat := s.agenda.entries.filterMap startOf?

section Taking

variable {e : Agenda.Entry Happening} {agenda : Agenda Happening}

/-- If an entry is an alarm of a host then it is one less of those afterwards. -/
theorem alarmsOf_of_next? (h : s.agenda.next? = some (e, agenda)) (id : Nat) :
    s.alarmsOf id = (alarmOf? id e).toList ++ { s with agenda }.alarmsOf id := by
  rw [alarmsOf, (Agenda.next?_eq_some h).1, List.filterMap_cons]
  cases alarmOf? id e <;> rfl

/-- If an entry is an arrival then one packet less is under way afterwards. -/
theorem underway_of_next? (h : s.agenda.next? = some (e, agenda)) :
    s.underway = (arrivalOf? e).toList ++ { s with agenda }.underway := by
  rw [underway, (Agenda.next?_eq_some h).1, List.filterMap_cons]
  cases arrivalOf? e <;> rfl

/-- A packet that arrives was under way. -/
theorem mem_underway_of_next? {packet : Packet} (h : s.agenda.next? = some (e, agenda))
    (haction : e.action = .model (.arrival packet)) : packet ∈ s.underway := by
  rw [underway_of_next? h, arrivalOf?, haction]
  exact List.mem_cons_self ..

/-- If an entry is a start then one host less has still to start. -/
theorem starting_of_next? (h : s.agenda.next? = some (e, agenda)) :
    s.starting = (startOf? e).toList ++ { s with agenda }.starting := by
  rw [starting, (Agenda.next?_eq_some h).1, List.filterMap_cons]
  cases startOf? e <;> rfl

/-- A host that starts was still to start. -/
theorem mem_starting_of_next? (h : s.agenda.next? = some (e, agenda))
    (haction : e.action = .model .start) : e.target ∈ s.starting := by
  rw [starting_of_next? h, startOf?, haction]
  exact List.mem_cons_self ..

end Taking

/-! ### Asking -/

/-- All that has changed is due to what a host asks for. -/
structure Carries (id : Nat) (packets : List Packet) (alarms : List Alarm)
    (traces : List Trace.Event) (s s' : Simulation σ α) : Prop where
  /-- The hosts are as they were. -/
  hosts_eq : s'.hosts = s.hosts
  /-- They are where they were. -/
  routes_eq : s'.network.routes = s.network.routes
  /-- The network misbehaves as it did. -/
  faults_eq : s'.network.faults = s.network.faults
  /-- No time has passed. -/
  now_eq : s'.now = s.now
  /-- All is to come within the time there is. -/
  timely : s'.agenda.Timely
  /-- What was to come is still to come. -/
  kept : ∀ e ∈ s.agenda.entries, e ∈ s'.agenda.entries
  /-- What is new comes after it, and is not the end. -/
  added : s.agenda.added ≤ s'.agenda.added ∧ ∀ e ∈ s'.agenda.entries,
    e ∈ s.agenda.entries ∨ s.agenda.added ≤ e.order ∧ e.action ≠ .close
  /-- The alarms are set that the host asks for. -/
  alarms_perm : (s'.alarmsOf id).Perm (alarms.map (Alarm.due s.now) ++ s.alarmsOf id)
  /-- The others keep theirs. -/
  others_perm : ∀ other ≠ id, (s'.alarmsOf other).Perm (s.alarmsOf other)
  /-- No packet is under way but those there were and those it sends. -/
  underway_sub : ∀ packet ∈ s'.underway, packet ∈ s.underway ∨ packet ∈ packets
  /-- If nothing is lost then what it sends arrives, and in time. -/
  prompt : s.network.faults.loss.isZero → ∀ packet ∈ packets, ∃ e ∈ s'.agenda.entries,
    arrivalOf? e = some packet ∧ e.time ≤ s.now + s.network.faults.latest
  /-- The same hosts have still to start. -/
  starting_perm : s'.starting.Perm s.starting
  /-- The trace tells what it did and what became of its packets. -/
  trace_sub : ∀ record ∈ s'.trace,
    record ∈ s.trace ∨ record.event ∈ traces ∨ record.event.isFate = true

namespace Carries

theorem refl (hs : s.agenda.Timely) : Carries id [] [] [] s s where
  hosts_eq := rfl
  routes_eq := rfl
  faults_eq := rfl
  now_eq := rfl
  timely := hs
  kept _ h := h
  added := ⟨Nat.le_refl _, fun _ h ↦ .inl h⟩
  alarms_perm := .refl _
  others_perm _ _ := .refl _
  underway_sub _ h := .inl h
  prompt _ _ h := absurd h List.not_mem_nil
  starting_perm := .refl _
  trace_sub _ h := .inl h

/-- **One thing is asked for after the other.** Since no time passes and no faults change in
between, what is promised for packets that are sent later is promised for them now. -/
theorem trans (h : Carries id packets alarms traces s s')
    (h' : Carries id packets' alarms' traces' s' t) :
    Carries id (packets ++ packets') (alarms ++ alarms') (traces ++ traces') s t where
  hosts_eq := h'.hosts_eq.trans h.hosts_eq
  routes_eq := h'.routes_eq.trans h.routes_eq
  faults_eq := h'.faults_eq.trans h.faults_eq
  now_eq := h'.now_eq.trans h.now_eq
  timely := h'.timely
  kept e he := h'.kept e (h.kept e he)
  added := by
    refine ⟨Nat.le_trans h.added.1 h'.added.1, fun e he ↦ ?_⟩
    rcases h'.added.2 e he with hmid | ⟨hle, hopen⟩
    · exact h.added.2 e hmid
    · exact .inr ⟨Nat.le_trans h.added.1 hle, hopen⟩
  alarms_perm := by
    have hall := h'.alarms_perm.trans (h.alarms_perm.append_left _)
    rw [h.now_eq, ← List.append_assoc] at hall
    rw [List.map_append]
    exact hall.trans (List.perm_append_comm.append_right _)
  others_perm other hne := (h'.others_perm other hne).trans (h.others_perm other hne)
  underway_sub packet hmem := by
    rcases h'.underway_sub packet hmem with hmid | hnew
    · exact (h.underway_sub packet hmid).imp_right (List.mem_append_left _)
    · exact .inr (List.mem_append_right _ hnew)
  prompt hloss packet hmem := by
    rcases List.mem_append.1 hmem with hfirst | hnext
    · obtain ⟨e, he, hdue⟩ := h.prompt hloss packet hfirst
      exact ⟨e, h'.kept e he, hdue⟩
    · -- The second promise is about the faults and the clock as they were left, which is as they
      -- were.
      have hprompt := h'.prompt
      rw [h.faults_eq, h.now_eq] at hprompt
      exact hprompt hloss packet hnext
  starting_perm := h'.starting_perm.trans h.starting_perm
  trace_sub record hmem := by
    rcases h'.trace_sub record hmem with hmid | hnew | hfate
    · exact (h.trace_sub record hmid).imp_right (·.imp_left (List.mem_append_left _))
    · exact .inr (.inl (List.mem_append_right _ hnew))
    · exact .inr (.inr hfate)

/-- It does no harm to count more packets, or to count those once that arrive twice. -/
theorem mono (h : Carries id packets alarms traces s s')
    (hsub : ∀ packet ∈ packets, packet ∈ packets')
    (hprompt : s.network.faults.loss.isZero → ∀ packet ∈ packets', packet ∈ packets) :
    Carries id packets' alarms traces s s' :=
  { h with
    underway_sub := fun packet hmem ↦ (h.underway_sub packet hmem).imp_right (hsub packet)
    prompt := fun hloss packet hmem ↦ h.prompt hloss packet (hprompt hloss packet hmem) }

/-! ### One after the other -/

variable {β : Type} (sends : β → List Packet) (sets : β → List Alarm)
  (tells : β → List Trace.Event) {l : List β}

theorem foldl {f : Simulation σ α → β → Simulation σ α}
    (hstep : ∀ b ∈ l, ∀ {packets alarms traces t}, Carries id packets alarms traces s t →
      Carries id (sends b) (sets b) (tells b) t (f t b))
    (hs : s.agenda.Timely) :
    Carries id (l.flatMap sends) (l.flatMap sets) (l.flatMap tells) s (l.foldl f s) := by
  induction l generalizing s with
  | nil => exact refl hs
  | cons b rest ih =>
    have hfirst := hstep b (List.mem_cons_self ..) (refl hs)
    exact hfirst.trans (ih (fun b' hb _ _ _ _ ht ↦
      hstep b' (List.mem_cons_of_mem _ hb) (hfirst.trans ht)) hfirst.timely)

theorem flatMap_nothing {γ : Type} (l : List β) : l.flatMap (fun _ ↦ ([] : List γ)) = [] :=
  List.flatMap_eq_nil_iff.2 fun _ _ ↦ rfl

/-- Several things that ask for nothing. -/
theorem foldl_nothing {f : Simulation σ α → β → Simulation σ α}
    (hstep : ∀ b ∈ l, ∀ {t}, t.agenda.Timely → Carries id [] [] [] t (f t b))
    (hs : s.agenda.Timely) : Carries id [] [] [] s (l.foldl f s) := by
  have hall := foldl (fun _ ↦ []) (fun _ ↦ []) (fun _ ↦ [])
    (fun b hb _ _ _ _ ht ↦ hstep b hb ht.timely) hs
  rw [flatMap_nothing, flatMap_nothing, flatMap_nothing] at hall
  exact hall

theorem foldlM {f : Simulation σ α → β → Checked (Simulation σ α)}
    (hstep : ∀ b s s', s.agenda.Timely → f s b = .ok s' →
      Carries id (sends b) (sets b) (tells b) s s')
    (hs : s.agenda.Timely) (h : l.foldlM f s = .ok t) :
    Carries id (l.flatMap sends) (l.flatMap sets) (l.flatMap tells) s t := by
  refine Checked.foldlM_induction
    (motive := fun l s t ↦ s.agenda.Timely →
      Carries id (l.flatMap sends) (l.flatMap sets) (l.flatMap tells) s t)
    (fun _ ↦ refl) (fun b rest s mid t hmid hrest hs ↦ ?_) h hs
  have hfirst := hstep b s mid hs hmid
  exact hfirst.trans (hrest hfirst.timely)

end Carries

/-! ### What is carried out -/

theorem carries_note (entry : Entry) (hs : s.agenda.Timely) :
    Carries id [] [] [] s (s.note entry) :=
  { Carries.refl hs with }

/-- What the trace tells was told before, or it is the event that is recorded. -/
theorem mem_trace_record {home : Endpoint} {event : Trace.Event} {record : Trace.Record}
    (h : record ∈ (s.record home event).trace) : record ∈ s.trace ∨ record.event = event := by
  rcases Array.mem_push.1 h with hold | rfl
  · exact .inl hold
  · exact .inr rfl

theorem carries_record (home : Endpoint) (event : Trace.Event) (hs : s.agenda.Timely) :
    Carries id [] [] [event] s (s.record home event) :=
  { Carries.refl hs with
    trace_sub := fun _ hmem ↦
      (mem_trace_record hmem).imp_right fun heq ↦ .inl (List.mem_singleton.2 heq) }

/-- What became of a packet is told as well, but not by the host. -/
theorem carries_recordFate (home : Endpoint) {event : Trace.Event} (hfate : event.isFate = true)
    (hs : s.agenda.Timely) : Carries id [] [] [] s (s.record home event) :=
  { Carries.refl hs with
    trace_sub := fun _ hmem ↦ (mem_trace_record hmem).imp_right fun heq ↦ .inr (by rwa [heq]) }

/-- Something is put on the agenda: it comes after all that is there, and is not the end. -/
theorem mem_entries_put {time target : Nat} {happening : Happening} {e : Agenda.Entry Happening}
    (h : e ∈ (s.agenda.put time target (.model happening)).entries) :
    e ∈ s.agenda.entries ∨ s.agenda.added ≤ e.order ∧ e.action ≠ .close := by
  rcases Agenda.mem_place.1 h with rfl | hold
  · exact .inr ⟨Nat.le_refl _, by simp⟩
  · exact .inl hold

/-- A copy of a packet is scheduled. It is under way then, and arrives in time. -/
theorem carries_schedule {delivery : Network.Delivery} (hs : s.agenda.Timely)
    (htime : delivery.time ≤ maxWord)
    (hlatest : delivery.time ≤ s.now + s.network.faults.latest) :
    Carries id [delivery.packet] [] [] s (s.schedule delivery) := by
  have hperm := s.agenda.entries_put_perm delivery.time networkActor
    (.model (.arrival delivery.packet))
  exact
    { hosts_eq := rfl
      routes_eq := rfl
      faults_eq := rfl
      now_eq := rfl
      timely := hs.put htime
      kept := fun e he ↦ hperm.mem_iff.2 (List.mem_cons_of_mem _ he)
      added := ⟨Nat.le_succ _, fun e he ↦ mem_entries_put he⟩
      alarms_perm := hperm.filterMap (alarmOf? id)
      others_perm := fun other _ ↦ hperm.filterMap (alarmOf? other)
      underway_sub := fun packet hmem ↦ by
        have hmem' := (hperm.filterMap arrivalOf?).mem_iff.1 hmem
        exact (List.mem_cons.1 hmem').symm.imp_right List.mem_singleton.2
      prompt := fun _ packet hmem ↦ by
        obtain rfl := List.mem_singleton.1 hmem
        exact ⟨_, hperm.mem_iff.2 (List.mem_cons_self ..), rfl,
          Nat.max_le.2 ⟨hlatest, Nat.le_add_right ..⟩⟩
      starting_perm := hperm.filterMap startOf?
      trace_sub := fun _ hmem ↦ .inl hmem }

/-- An alarm is set, for the host that asks for it and for nobody else. -/
theorem carries_setAlarm (alarm : Alarm) (hs : s.agenda.Timely) :
    Carries id [] [alarm] [] s (s.setAlarm id alarm) := by
  have hperm := s.agenda.entries_put_perm (saturatingAdd s.agenda.now alarm.delay) id
    (.model (.alarm alarm.watch))
  have hkept : ∀ e ∈ s.agenda.entries, e ∈ (s.setAlarm id alarm).agenda.entries :=
    fun e he ↦ hperm.mem_iff.2 (List.mem_cons_of_mem _ he)
  -- An alarm is never set for an instant that has passed.
  have hmax : max (saturatingAdd s.agenda.now alarm.delay) s.agenda.now =
      saturatingAdd s.agenda.now alarm.delay :=
    Nat.max_eq_left (le_saturatingAdd alarm.delay hs.now_le)
  rw [hmax] at hperm
  exact
    { hosts_eq := rfl
      routes_eq := rfl
      faults_eq := rfl
      now_eq := rfl
      timely := hs.put (saturatingAdd_le ..)
      kept := hkept
      added := ⟨Nat.le_succ _, fun e he ↦ mem_entries_put he⟩
      alarms_perm := by
        have hset := hperm.filterMap (alarmOf? id)
        rw [List.filterMap_cons_some (alarmOf?_alarm ..)] at hset
        exact hset
      others_perm := fun other hne ↦ by
        have hset := hperm.filterMap (alarmOf? other)
        rw [List.filterMap_cons_none (alarmOf?_alarm_of_ne hne ..)] at hset
        exact hset
      underway_sub := fun packet hmem ↦ .inl ((hperm.filterMap arrivalOf?).mem_iff.1 hmem)
      prompt := fun _ _ hmem ↦ absurd hmem List.not_mem_nil
      starting_perm := hperm.filterMap startOf?
      trace_sub := fun _ hmem ↦ .inl hmem }

variable [DrawSource σ]

/-- **A packet is sent.** Its copies are under way, at least one of them if nothing is lost, and the
packet counts once however many there are. -/
theorem carries_sendPacket {home : Endpoint} {packet : Packet} (hs : s.agenda.Timely)
    (h : s.sendPacket home packet = .ok s') : Carries id [packet] [] [] s s' := by
  obtain ⟨sent, hsent, h⟩ := Checked.bind_eq_ok_iff.1 h
  obtain rfl := Checked.pure_eq_ok_iff.1 h
  obtain ⟨hroutes, hdeliveries⟩ := Network.send_eq_ok hsent
  have hnetwork : Carries id [] [] [] s { s with network := sent.network } :=
    { Carries.refl hs with
      routes_eq := hroutes
      faults_eq := Network.faults_of_send hsent }
  have htraces := hnetwork.trans (Carries.foldl_nothing (l := sent.traces)
    (fun event hevent _ ht ↦ carries_recordFate home (Network.isFate_of_send hsent event hevent) ht)
    hnetwork.timely)
  have hcopies := htraces.trans (Carries.foldl (l := sent.deliveries)
    (f := fun s delivery ↦ s.schedule delivery)
    (fun delivery ↦ [delivery.packet]) (fun _ ↦ []) (fun _ ↦ [])
    (fun delivery hmem _ _ _ t ht ↦ carries_schedule ht.timely (hdeliveries delivery hmem).2.2 (by
      have hall := htraces.trans ht
      rw [hall.now_eq, hall.faults_eq]
      exact Network.time_le_of_send hsent delivery hmem)) htraces.timely)
  rw [Carries.flatMap_nothing, Carries.flatMap_nothing] at hcopies
  refine hcopies.mono (fun copy hmem ↦ ?_) fun hloss copy hmem ↦ ?_
  -- Each copy is of the packet, and if nothing is lost then there is one.
  · obtain ⟨delivery, hdelivery, hcopy⟩ := List.mem_flatMap.1 hmem
    rw [(hdeliveries delivery hdelivery).1] at hcopy
    exact hcopy
  · obtain rfl := List.mem_singleton.1 hmem
    obtain ⟨delivery, hdelivery, hpacket⟩ := Network.exists_delivery hsent hloss
    exact List.mem_flatMap.2 ⟨delivery, hdelivery, List.mem_singleton.2 hpacket.symm⟩

/-- What a host asks for is carried out, in four rounds: notes, events, packets and alarms. -/
theorem carries_carryOut {home : Endpoint} {effects : Effects} (hs : s.agenda.Timely)
    (h : s.carryOut id home effects = .ok s') :
    Carries id effects.packets effects.alarms effects.traces s s' := by
  obtain ⟨mid, hmid, h⟩ := Checked.bind_eq_ok_iff.1 h
  obtain rfl := Checked.pure_eq_ok_iff.1 h
  have hnotes : Carries id [] [] [] s _ := Carries.foldl_nothing (l := effects.notes)
    (fun note _ _ ht ↦ carries_note (.noted home note) ht) hs
  have htraces := hnotes.trans (Carries.foldl (l := effects.traces) (fun _ ↦ []) (fun _ ↦ [])
    (fun event ↦ [event]) (fun event _ _ _ _ _ ht ↦ carries_record home event ht.timely)
    hnotes.timely)
  have hpackets := htraces.trans (Carries.foldlM (fun packet ↦ [packet]) (fun _ ↦ []) (fun _ ↦ [])
    (fun _ _ _ hs h ↦ carries_sendPacket hs h) htraces.timely hmid)
  have halarms := hpackets.trans (Carries.foldl (l := effects.alarms) (fun _ ↦ [])
    (fun alarm ↦ [alarm]) (fun _ ↦ []) (fun alarm _ _ _ _ _ ht ↦ carries_setAlarm alarm ht.timely)
    hpackets.timely)
  simpa [Carries.flatMap_nothing] using halarms

end ReliableStream.Simulation
