import ReliableStream.Proofs.Simulation.Answers

/-!
# Simulations that go on alike

The entries of an agenda are numbered as they are added, so an end that is set in between moves all
later numbers. The numbers themselves do not matter, only the order that they make: what is
`upcoming` is the entries in order, without their numbers and without ends.

Two simulations are `Alike` if all but their ends, their clocks and their journals is the same. From
two that are `Together`, which show the same time as well, the same happens (`Together.happen`):
hosts answer the same, the same is drawn for their packets, and all that they ask for comes at the
same place among what is upcoming.

The lemmas follow the way something happens: recording an event and adding an entry keep simulations
together, so sending a packet does, so carrying out what a host asks for does. That the second
simulation succeeds where the first one does is part of each of them.
-/

namespace ReliableStream

namespace Agenda

variable {α : Type} {e f : Entry α} {l : List (Entry α)}

/-- An entry without its number. -/
def Entry.unnumbered (e : Entry α) : Entry α := { e with order := 0 }

/-- Whether an entry is something that happens, and not an end. -/
def Entry.isModel (e : Entry α) : Bool :=
  match e.action with
  | .model _ => true
  | .close => false

/-- The place of an entry does not depend on any numbers. -/
theorem map_unnumbered_place :
    (place e l).map Entry.unnumbered = place e.unnumbered (l.map Entry.unnumbered) := by
  induction l with
  | nil => rfl
  | cons f rest ih =>
    rw [place, List.map_cons, place]
    split
    · next hle =>
      have hle' : f.unnumbered.time ≤ e.unnumbered.time := hle
      rw [if_pos hle', List.map_cons, ih]
    · next hgt =>
      have hgt' : ¬ f.unnumbered.time ≤ e.unnumbered.time := hgt
      rw [if_neg hgt', List.map_cons, List.map_cons]

/-- What happens on an agenda, in order. -/
def upcoming (a : Agenda α) : List (Entry α) :=
  (a.entries.filter (·.isModel)).map Entry.unnumbered

/-- What is added comes upcoming at its place, which is that of its time, after all that has the
same. -/
theorem upcoming_addAt (time target : Nat) (happening : α) (a : Agenda α) :
    (a.addAt time target happening).upcoming =
      place ⟨max time a.now, 0, target, .model happening⟩ a.upcoming := by
  rw [upcoming, addAt, put, filter_place rfl a.ordered, map_unnumbered_place]
  rfl

theorem upcoming_closeAt (time : Nat) (a : Agenda α) : (a.closeAt time).upcoming = a.upcoming := by
  rw [upcoming, closeAt, put, filter_place_of_not rfl, upcoming]

end Agenda

namespace Simulation

variable {σ α : Type} {s t s' t' : Simulation σ α} {target id : Nat} {home : Endpoint}
  {happening : Happening}

/-- All is the same but for ends, clocks and journals. -/
structure Alike (s t : Simulation σ α) : Prop where
  /-- The hosts are the same. -/
  hosts_eq : t.hosts = s.hosts
  /-- So is the network, and what it will draw. -/
  network_eq : t.network = s.network
  /-- The same was told. -/
  trace_eq : t.trace = s.trace
  /-- The same is to happen. -/
  upcoming_eq : t.agenda.upcoming = s.agenda.upcoming

/-- All is the same but for ends and journals. -/
structure Together (s t : Simulation σ α) : Prop extends Alike s t where
  /-- It is the same time. -/
  now_eq : t.now = s.now

theorem Alike.refl (s : Simulation σ α) : Alike s s := ⟨rfl, rfl, rfl, rfl⟩

namespace Together

/-! ### One after the other -/

variable {β : Type} {l : List β}

theorem foldl {f : Simulation σ α → β → Simulation σ α}
    (hstep : ∀ b {s t}, Together s t → Together (f s b) (f t b)) (h : Together s t) :
    Together (l.foldl f s) (l.foldl f t) := by
  induction l generalizing s t with
  | nil => exact h
  | cons b rest ih => exact ih (hstep b h)

theorem foldlM {f : Simulation σ α → β → Checked (Simulation σ α)}
    (hstep : ∀ b {s t s'}, Together s t → f s b = .ok s' → ∃ t', f t b = .ok t' ∧ Together s' t')
    (h : Together s t) (hs : l.foldlM f s = .ok s') :
    ∃ t', l.foldlM f t = .ok t' ∧ Together s' t' := by
  induction l generalizing s t with
  | nil =>
    obtain rfl := Checked.pure_eq_ok_iff.1 hs
    exact ⟨t, rfl, h⟩
  | cons b rest ih =>
    rw [List.foldlM_cons] at hs
    obtain ⟨mid, hmid, hrest⟩ := Checked.bind_eq_ok_iff.1 hs
    obtain ⟨mid', hmid', hboth⟩ := hstep b h hmid
    obtain ⟨t', ht', hall⟩ := ih hboth hrest
    exact ⟨t', by rw [List.foldlM_cons]; exact Checked.bind_eq_ok_iff.2 ⟨_, hmid', ht'⟩, hall⟩

/-! ### What is carried out -/

theorem note (h : Together s t) (entry other : Entry) : Together (s.note entry) (t.note other) :=
  { h with }

theorem record (h : Together s t) (home : Endpoint) (event : Trace.Event) :
    Together (s.record home event) (t.record home event) where
  hosts_eq := h.hosts_eq
  network_eq := h.network_eq
  trace_eq := by
    show t.trace.push ⟨t.now, home, event⟩ = s.trace.push ⟨s.now, home, event⟩
    rw [h.trace_eq, h.now_eq]
  upcoming_eq := h.upcoming_eq
  now_eq := h.now_eq

theorem addAt (h : Together s t) (time target : Nat) (happening : Happening) :
    Together { s with agenda := s.agenda.addAt time target happening }
      { t with agenda := t.agenda.addAt time target happening } :=
  { h with
    upcoming_eq := by
      have hnow : t.agenda.now = s.agenda.now := h.now_eq
      dsimp only
      rw [Agenda.upcoming_addAt, Agenda.upcoming_addAt, h.upcoming_eq, hnow] }

/-- An alarm is set for the same instant by both, since it is the same time. -/
theorem setAlarm (h : Together s t) (id : Nat) (alarm : Alarm) :
    Together (s.setAlarm id alarm) (t.setAlarm id alarm) := by
  have hnow : t.agenda.now = s.agenda.now := h.now_eq
  have hset := h.addAt (saturatingAdd s.agenda.now alarm.delay) id (.alarm alarm.watch)
  rwa [Simulation.setAlarm, Simulation.setAlarm, Agenda.addAfter, Agenda.addAfter, hnow]

theorem setHost (h : Together s t) (id : Nat) (host : Host α) :
    Together (s.setHost id host) (t.setHost id host) :=
  { h with hosts_eq := congrArg (·.set (id - 1) host) h.hosts_eq }

/-- A packet that is dropped is dropped by both, as the same hosts are known to the network. -/
theorem pass (h : Together s t) : Together (s.pass happening) (t.pass happening) := by
  cases happening with
  | start | alarm => exact h
  | arrival packet =>
    rw [Simulation.pass, Simulation.pass, h.network_eq]
    generalize s.network.route packet = routed
    obtain ⟨outcome, network⟩ := routed
    have hnetwork : Together { s with network } { t with network } := { h with network_eq := rfl }
    cases outcome with
    | ok id => exact hnetwork
    | error failure => exact (hnetwork.note ..).record ..

section

variable [Application α]

/-- The same host answers the same. An answer depends on the hosts, the routes and the time. -/
theorem answer?_eq (h : Together s t) :
    t.answer? target happening = s.answer? target happening := by
  have hactor : t.actor? target happening = s.actor? target happening := by
    cases happening <;> simp only [actor?, h.network_eq]
  have hhost (id : Nat) : t.host? id = s.host? id := by
    cases id <;> simp only [host?, h.hosts_eq]
  rw [answer?, answer?, hactor, h.now_eq]
  simp only [hhost]

end

variable [DrawSource σ]

/-- The same becomes of a packet, as the same is drawn for it. -/
theorem sendPacket (h : Together s t) {packet : Packet}
    (hs : s.sendPacket home packet = .ok s') :
    ∃ t', t.sendPacket home packet = .ok t' ∧ Together s' t' := by
  obtain ⟨sent, hsent, hpure⟩ := Checked.bind_eq_ok_iff.1 hs
  obtain rfl := Checked.pure_eq_ok_iff.1 hpure
  rw [← h.network_eq, ← h.now_eq] at hsent
  refine ⟨_, Checked.bind_eq_ok_iff.2 ⟨sent, hsent, rfl⟩, ?_⟩
  have hnetwork : Together { s with network := sent.network } { t with network := sent.network } :=
    { h with network_eq := rfl }
  exact (hnetwork.foldl fun event _ _ h ↦ h.record home event).foldl
    fun delivery _ _ h ↦ h.addAt ..

/-- The same is carried out, in four rounds: notes, events, packets and alarms. -/
theorem carryOut (h : Together s t) {effects : Effects}
    (hs : s.carryOut id home effects = .ok s') :
    ∃ t', t.carryOut id home effects = .ok t' ∧ Together s' t' := by
  obtain ⟨mid, hmid, hpure⟩ := Checked.bind_eq_ok_iff.1 hs
  obtain rfl := Checked.pure_eq_ok_iff.1 hpure
  have hnotes := h.foldl (l := effects.notes) (f := fun s note ↦ s.note (.noted home note))
    fun note _ _ h ↦ h.note ..
  have htraces := hnotes.foldl (l := effects.traces) fun event _ _ h ↦ h.record home event
  obtain ⟨mid', hmid', hpackets⟩ := htraces.foldlM
    (f := fun s packet ↦ s.sendPacket home packet) (fun packet _ _ _ h hs ↦ h.sendPacket hs) hmid
  exact ⟨_, Checked.bind_eq_ok_iff.2 ⟨mid', hmid', rfl⟩,
    hpackets.foldl fun alarm _ _ h ↦ h.setAlarm id alarm⟩

variable [Application α]

/-- **From simulations that are together the same happens.** It happens as answers are followed, and
both the answer and what is done with it are the same. -/
theorem happen (h : Together s t) (hs : s.happen target happening = .ok s') :
    ∃ t', t.happen target happening = .ok t' ∧ Together s' t' := by
  obtain ⟨answer, hanswer, hfollow⟩ := happen_eq_ok_iff.1 hs
  rw [← h.answer?_eq] at hanswer
  cases answer with
  | none =>
    obtain rfl := Checked.pure_eq_ok_iff.1 hfollow
    exact ⟨_, happen_eq_ok_iff.2 ⟨none, hanswer, rfl⟩, h.pass⟩
  | some a =>
    obtain ⟨t', ht', hboth⟩ := (h.setHost a.id a.host).foldlM
      (f := fun s effects ↦ s.carryOut a.id a.home effects)
      (fun effects _ _ _ h hs ↦ h.carryOut hs) hfollow
    exact ⟨t', happen_eq_ok_iff.2 ⟨some a, hanswer, ht'⟩, hboth⟩

end Together

end Simulation

end ReliableStream
