import ReliableStream.Proofs.Latency
import ReliableStream.Proofs.Simulation.Room
import ReliableStream.Proofs.Simulation.Tallies
import ReliableStream.Proofs.Simulation.Termination
import ReliableStream.Proofs.Timing.Delay

/-!
# Simulations that lag behind

One simulation lags behind another by `d` until an instant if all that it shows is the same but for
that delay, and if what it has on its agenda until the delayed instant is what the other one has
until the instant, in the same order (`Lags`). What comes later does not matter, and cannot be
compared: alarms are held within the time there is.

From such simulations the same happens, and the one lags behind still (`Lags.step`). Either both
have an outcome or none has (`Checked.Both`). Packets can arrive in both, since what is sent until
the instant arrives within the time there is, even if it is sent later by `d`.

The relation between two results is `Checked.Both`, and it is carried through a computation by
`Checked.Both.bind`, one lemma for each operation of a simulation. So no run has to be taken apart:
the two are followed side by side.
-/

namespace ReliableStream

/-- Two computations have outcomes that are related, or none. -/
inductive Checked.Both {α β : Type} (R : α → β → Prop) : Checked α → Checked β → Prop
  /-- Both have an outcome. -/
  | ok {a : α} {b : β} (h : R a b) : Both R (.ok a) (.ok b)
  /-- None has. -/
  | error {overflow : Overflow} : Both R (.error overflow) (.error overflow)

namespace Checked

variable {α β γ δ : Type} {R : α → β → Prop} {S : γ → δ → Prop} {x : Checked α} {y : Checked β}

/-- Computations one after the other are related if the first ones are, and the second ones from
related values. -/
theorem Both.bind {f : α → Checked γ} {g : β → Checked δ} (h : Both R x y)
    (hnext : ∀ a b, x = .ok a → R a b → Both S (f a) (g b)) : Both S (x >>= f) (y >>= g) := by
  cases h with
  | ok h => exact hnext _ _ rfl h
  | error => exact .error

/-- A change of both outcomes. -/
theorem Both.map_eq {f : α → γ} {g : β → γ} {change : γ → γ} (h : Both R x y)
    (heq : ∀ a b, R a b → g b = change (f a)) : y.map g = (x.map f).map change := by
  cases h with
  | ok h => exact congrArg Except.ok (heq _ _ h)
  | error => rfl

/-- Computations one after the other. -/
theorem Both.foldlM {ι : Type} {f : α → ι → Checked α} {g : β → ι → Checked β} {l : List ι}
    (hstep : ∀ i ∈ l, ∀ {a b}, R a b → Both R (f a i) (g b i)) {a : α} {b : β} (h : R a b) :
    Both R (l.foldlM f a) (l.foldlM g b) := by
  induction l generalizing a b with
  | nil => exact .ok h
  | cons i rest ih =>
    rw [List.foldlM_cons, List.foldlM_cons]
    exact (hstep i (List.mem_cons_self ..) h).bind fun _ _ _ h ↦
      ih (fun j hj ↦ hstep j (List.mem_cons_of_mem _ hj)) h

/-- Computations with the same outcomes are the same, as there is only one overflow. -/
theorem eq_of_ok_iff {x y : Checked α} (h : ∀ a, x = .ok a ↔ y = .ok a) : x = y := by
  cases x with
  | ok a => exact ((h a).1 rfl).symm
  | error overflow =>
    cases y with
    | ok a => exact (h a).2 rfl
    | error overflow' =>
      cases overflow
      cases overflow'
      rfl

/-- A change that passes through each of several computations passes through all. -/
theorem mapM_map {f f' : α → Checked β} {g : β → β} {l : List α}
    (h : ∀ a ∈ l, f' a = (f a).map g) : l.mapM f' = (l.mapM f).map (List.map g) := by
  induction l with
  | nil => rfl
  | cons a rest ih =>
    obtain ⟨hfirst, hrest⟩ := List.forall_mem_cons.1 h
    rw [List.mapM_cons, List.mapM_cons]
    exact bind_map hfirst fun _ ↦ bind_map (ih hrest) fun _ ↦ rfl

end Checked

/-! ### Agendas -/

namespace Agenda

variable {α : Type} {a : Agenda α} {e : Entry α} {d stop : Nat} {rest : List (Entry α)}

/-- The entry, due later. -/
def Entry.delay (d : Nat) (e : Entry α) : Entry α := { e with time := e.time + d }

/-- The place of an entry depends only on the order of instants, which a common delay does not
change. -/
theorem map_delay_place (l : List (Entry α)) :
    (place e l).map (Entry.delay d) = place (e.delay d) (l.map (Entry.delay d)) := by
  induction l with
  | nil => rfl
  | cons f rest ih =>
    rw [place, List.map_cons, place]
    split
    · next hle =>
      have hle' : (f.delay d).time ≤ (e.delay d).time := Nat.add_le_add_right hle d
      rw [if_pos hle', List.map_cons, ih]
    · next hgt =>
      have hgt' : ¬ (f.delay d).time ≤ (e.delay d).time := fun hle ↦
        hgt (Nat.le_of_add_le_add_right hle)
      rw [if_neg hgt', List.map_cons, List.map_cons]

/-- What is to come until an instant. -/
def comingBy (stop : Nat) (a : Agenda α) : List (Entry α) := a.entries.filter (·.time ≤ stop)

/-- Entries that are all due later. -/
theorem comingBy_of_entries_eq {b : Agenda α} (h : b.entries = a.entries.map (Entry.delay d))
    (stop : Nat) : b.comingBy (stop + d) = (a.comingBy stop).map (Entry.delay d) := by
  rw [comingBy, comingBy, h, List.filter_map]
  refine congrArg _ (List.filter_congr fun e _ ↦ ?_)
  simp [Entry.delay]

/-- An entry that is put on an agenda is among what is to come until an instant, if it is due by
then, at its place. -/
theorem comingBy_put (stop time target : Nat) (action : Action α) (a : Agenda α) :
    (a.put time target action).comingBy stop =
      if max time a.now ≤ stop then
        place ⟨max time a.now, a.added, target, action⟩ (a.comingBy stop)
      else a.comingBy stop := by
  rw [comingBy, put]
  split
  · next hle => exact filter_place (by simpa using hle) a.ordered
  · next hgt => exact filter_place_of_not (by simpa using hgt)

/-- What is to come first is taken first, and leaves the rest. -/
theorem next?_of_comingBy (h : a.comingBy stop = e :: rest) :
    e.time ≤ stop ∧ ∃ b, a.next? = some (e, b) ∧ b.comingBy stop = rest := by
  have hordered := a.ordered
  cases hnext : a.next? with
  | none =>
    rw [comingBy, entries_of_next?_eq_none hnext] at h
    exact absurd h.symm (List.cons_ne_nil _ _)
  | some taken =>
    obtain ⟨f, b⟩ := taken
    have hentries := (next?_eq_some hnext).1
    rw [hentries] at hordered
    rw [comingBy, hentries, List.filter_cons] at h
    split at h
    · next hle =>
      obtain ⟨rfl, hrest⟩ := List.cons.inj h
      exact ⟨by simpa using hle, b, rfl, hrest⟩
    · next hgt =>
      -- What is not due by then is followed by nothing that is.
      have he : e ∈ b.entries.filter (·.time ≤ stop) := h ▸ List.mem_cons_self ..
      have hbefore := (List.pairwise_cons.1 hordered).1 e (List.mem_filter.1 he).1
      have hle : e.time ≤ stop := by simpa using (List.mem_filter.1 he).2
      rw [Entry.Before] at hbefore
      simp only [decide_eq_true_eq] at hgt
      omega

end Agenda

/-! ### The network -/

namespace Network

variable {σ : Type} [DrawSource σ] {now d : Nat} {n : Network σ}

/-- The copy arrives later. -/
def Delivery.delay (d : Nat) (delivery : Delivery) : Delivery :=
  { delivery with time := delivery.time + d }

/-- What sending a packet leads to, put off. -/
def Sent.delay (d : Nat) (sent : Sent σ) : Sent σ :=
  { sent with deliveries := sent.deliveries.map (Delivery.delay d) }

/-- A copy arrives after as long as it takes, if there is an instant for that. -/
theorem Transit.arrival_eq {t : Transit} (h : now + t.total ≤ maxWord) :
    t.arrival now = .ok (now + t.total) := by
  obtain ⟨time, htime⟩ := Transit.exists_arrival_eq_ok h
  rw [htime, Transit.eq_add_total htime]

/-- A packet that is sent later has the same fate, if it can still arrive. -/
theorem send_delay (packet : Packet) (h : now + d + n.faults.latest ≤ maxWord) :
    n.send (now + d) packet = (n.send now packet).map (Sent.delay d) := by
  refine Checked.bind_map (Checked.mapM_map fun copy hcopy ↦ ?_) fun _ ↦ rfl
  have htotal := (Fate.keeps_of_mem n.valid hcopy).total_le
  rw [Transit.arrival_eq (by omega), Transit.arrival_eq (by omega), Nat.add_right_comm]
  rfl

end Network

/-! ### Simulations -/

/-- The record of something that happened later. Whoever is registered is so from the beginning. -/
def Trace.Record.delay (d : Nat) (record : Record) : Record :=
  if record.event = .registered then record else { record with time := record.time + d }

namespace Simulation

variable {σ : Type} {d stop : Nat} {s t s' t' : Simulation σ Peer} {id target : Nat}
  {home : Endpoint} {happening : Happening} {e k : Agenda.Entry Happening}

/-- One simulation shows what the other one does, but for a delay. -/
structure Shows (d : Nat) (s t : Simulation σ Peer) : Prop where
  /-- The hosts have done the same. -/
  hosts_eq : t.hosts = s.hosts.map (Host.delay d)
  /-- The network is the same, and so is what it will draw. -/
  network_eq : t.network = s.network
  /-- The same was told. -/
  trace_eq : t.trace = s.trace.map (Trace.Record.delay d)

/-- One simulation lags behind another until an instant. -/
structure Lags (d stop : Nat) (s t : Simulation σ Peer) : Prop extends Shows d s t where
  /-- As much was put on the agenda. -/
  added_eq : t.agenda.added = s.agenda.added
  /-- The same is to come until then. -/
  coming_eq : t.agenda.comingBy (stop + d) = (s.agenda.comingBy stop).map (Agenda.Entry.delay d)
  /-- What is sent until then arrives within the time there is. -/
  latest_lt : stop + d + s.network.faults.latest < maxWord

/-- It lags behind, and its clock shows how much. -/
structure InStep (d stop : Nat) (s t : Simulation σ Peer) : Prop extends Lags d stop s t where
  /-- Its clock shows more. -/
  now_eq : t.now = s.now + d
  /-- The instant has not passed. -/
  now_le : s.now ≤ stop

namespace InStep

/-! ### What is carried out -/

theorem foldl {β : Type} {l : List β} {f g : Simulation σ Peer → β → Simulation σ Peer}
    (hstep : ∀ b ∈ l, ∀ {s t}, InStep d stop s t → InStep d stop (f s b) (g t b))
    (h : InStep d stop s t) : InStep d stop (l.foldl f s) (l.foldl g t) := by
  induction l generalizing s t with
  | nil => exact h
  | cons b rest ih =>
    exact ih (fun b' hb ↦ hstep b' (List.mem_cons_of_mem _ hb)) (hstep b (List.mem_cons_self ..) h)

theorem note (h : InStep d stop s t) (entry other : Entry) :
    InStep d stop (s.note entry) (t.note other) :=
  { h with }

theorem record (h : InStep d stop s t) (home : Endpoint) {event : Trace.Event}
    (hevent : event ≠ .registered) :
    InStep d stop (s.record home event) (t.record home event) :=
  { h with
    trace_eq := by
      show t.trace.push ⟨t.now, home, event⟩ = (s.trace.push ⟨s.now, home, event⟩).map _
      rw [Array.map_push, h.trace_eq, h.now_eq, Trace.Record.delay, if_neg hevent] }

/-- Something is put on both agendas, for instants that correspond as far as they matter. -/
theorem addAt (h : InStep d stop s t) {time time' : Nat}
    (htime : time' = time + d ∨ stop < time ∧ stop + d < time') (target : Nat)
    (happening : Happening) :
    InStep d stop { s with agenda := s.agenda.addAt time target happening }
      { t with agenda := t.agenda.addAt time' target happening } :=
  { h with
    added_eq := congrArg (· + 1) h.added_eq
    coming_eq := by
      have hnow : t.agenda.now = s.agenda.now + d := h.now_eq
      dsimp only
      rw [Agenda.addAt, Agenda.addAt, Agenda.comingBy_put, Agenda.comingBy_put, h.coming_eq,
        h.added_eq, hnow]
      split
      · next hle =>
        have heq : max time' (s.agenda.now + d) = max time s.agenda.now + d := by omega
        rw [if_pos (by omega), Agenda.map_delay_place, heq]
        rfl
      · rw [if_neg (by omega)] }

/-- An alarm that is held within the time there is rings after the instant. -/
theorem setAlarm (h : InStep d stop s t) (id : Nat) (alarm : Alarm) :
    InStep d stop (s.setAlarm id alarm) (t.setAlarm id alarm) := by
  have hnow : t.agenda.now = s.agenda.now + d := h.now_eq
  have hlatest := h.latest_lt
  refine h.addAt ?_ id (.alarm alarm.watch)
  rw [hnow, saturatingAdd, saturatingAdd]
  omega

theorem setHost (h : InStep d stop s t) (id : Nat) (host : Host Peer) :
    InStep d stop (s.setHost id host) (t.setHost id (host.delay d)) :=
  { h with
    hosts_eq := by
      show t.hosts.set (id - 1) (host.delay d) = (s.hosts.set (id - 1) host).map _
      rw [List.map_set, h.hosts_eq] }

/-- The network changes, but not in how it misbehaves. -/
theorem setNetwork (h : InStep d stop s t) {network : Network σ}
    (hfaults : network.faults = s.network.faults) :
    InStep d stop { s with network } { t with network } :=
  { h with
    network_eq := rfl
    latest_lt := by
      rw [hfaults]
      exact h.latest_lt }

/-- What happens to a host is taken notice of by both. -/
theorem pass (h : InStep d stop s t) :
    InStep d stop (s.pass happening) (t.pass happening) := by
  cases happening with
  | start | alarm => exact h
  | arrival packet =>
    have hfaults : (s.network.route packet).2.faults = s.network.faults := by
      rw [Network.route]
      split <;> rfl
    rw [Simulation.pass, Simulation.pass, h.network_eq]
    generalize s.network.route packet = routed at hfaults ⊢
    obtain ⟨outcome, network⟩ := routed
    have hnetwork := h.setNetwork hfaults
    cases outcome with
    | ok id => exact hnetwork
    | error failure =>
      refine (hnetwork.note ..).record packet.source ?_
      simp

variable [DrawSource σ]

/-- A packet is sent by both, has the same fate, and its copies arrive in the same order. -/
theorem sendPacket (h : InStep d stop s t) (packet : Packet) :
    Checked.Both (InStep d stop) (s.sendPacket home packet) (t.sendPacket home packet) := by
  have hlatest := h.latest_lt
  have hnow := h.now_le
  have hsend : s.network.send (s.now + d) packet =
      (s.network.send s.now packet).map (Network.Sent.delay d) :=
    Network.send_delay packet (by omega)
  rw [← h.now_eq, ← h.network_eq] at hsend
  rw [Simulation.sendPacket, Simulation.sendPacket]
  show Checked.Both _ (_ >>= _) (t.network.send t.now packet >>= _)
  rw [hsend, h.network_eq]
  cases hsent : s.network.send s.now packet with
  | error overflow => exact .error
  | ok sent =>
    -- The network goes on, then the trace, and then the copies are put on the agendas.
    have hnetwork := h.setNetwork (Network.faults_of_send hsent)
    have htraces := hnetwork.foldl (l := sent.traces) (f := fun s event ↦ s.record home event)
      (g := fun s event ↦ s.record home event) fun event hevent _ _ h ↦ h.record home (by
        rintro rfl
        exact absurd (Network.isFate_of_send hsent _ hevent) (by simp [Trace.Event.isFate]))
    have hdeliveries := htraces.foldl (l := sent.deliveries)
      (f := fun s delivery ↦ s.schedule delivery)
      (g := fun s delivery ↦ s.schedule (delivery.delay d)) fun delivery _ _ _ h ↦
        h.addAt (.inl rfl) networkActor (.arrival delivery.packet)
    refine .ok ?_
    show InStep d stop _ ((sent.deliveries.map (Network.Delivery.delay d)).foldl _ _)
    rw [List.foldl_map]
    exact hdeliveries

theorem carryOut (h : InStep d stop s t) {effects : Effects}
    (htraces : ∀ event ∈ effects.traces, event ≠ .registered) :
    Checked.Both (InStep d stop) (s.carryOut id home effects) (t.carryOut id home effects) := by
  have hnotes := h.foldl (l := effects.notes) (f := fun s note ↦ s.note (.noted home note))
    (g := fun s note ↦ s.note (.noted home note)) fun _ _ _ _ h ↦ h.note ..
  have hrecords := hnotes.foldl (l := effects.traces) (f := fun s event ↦ s.record home event)
    (g := fun s event ↦ s.record home event) fun event hmem _ _ h ↦
      h.record home (htraces event hmem)
  refine (Checked.Both.foldlM (l := effects.packets) (fun packet _ _ _ h ↦ h.sendPacket packet)
    hrecords).bind fun _ _ _ h ↦ .ok ?_
  exact h.foldl fun alarm _ _ _ h ↦ h.setAlarm id alarm

end InStep

/-! ### What happens -/

/-- The answer, given later. -/
def Answer.delay (d : Nat) (a : Answer Peer) : Answer Peer := { a with host := a.host.delay d }

/-- The hosts are the same, but for when they sent what is in flight. -/
theorem Shows.host?_eq (h : Shows d s t) (id : Nat) :
    t.host? id = (s.host? id).map (Host.delay d) := by
  cases id with
  | zero => rfl
  | succ i =>
    rw [host?, host?, h.hosts_eq]
    exact List.getElem?_map ..

/-- The host whose turn it is answers the same. -/
theorem InStep.answer?_eq (h : InStep d stop s t) :
    t.answer? target happening =
      (s.answer? target happening).map (Option.map (Answer.delay d)) := by
  have hactor : t.actor? target happening = s.actor? target happening := by
    cases happening <;> simp only [actor?, h.network_eq]
  rw [answer?, answer?, hactor]
  cases s.actor? target happening with
  | none => rfl
  | some id =>
    dsimp only
    rw [h.host?_eq id]
    cases s.host? id with
    | none => rfl
    | some host =>
      rw [h.now_eq]
      exact Checked.bind_map (Host.meet_delay happening) fun _ ↦ rfl

variable [DrawSource σ]

/-- What happens is that an answer is followed, if there is one. -/
theorem happen_eq_bind : s.happen target happening =
    s.answer? target happening >>= fun answer ↦ s.follow happening answer :=
  Checked.eq_of_ok_iff fun _ ↦ happen_eq_ok_iff.trans Checked.bind_eq_ok_iff.symm

/-- **From simulations that are in step the same happens.** -/
theorem InStep.happen (h : InStep d stop s t) :
    Checked.Both (InStep d stop) (s.happen target happening) (t.happen target happening) := by
  rw [happen_eq_bind, happen_eq_bind, h.answer?_eq]
  cases hanswer : s.answer? target happening with
  | error overflow => exact .error
  | ok answer =>
    cases answer with
    | none => exact .ok h.pass
    | some a =>
      obtain ⟨host, -, -, hmeet⟩ := exists_host_of_answer? hanswer
      have hevents := (Host.tallies_of_meet hmeet).unregistered
      exact Checked.Both.foldlM (fun effects hmem _ _ h ↦ h.carryOut fun event hevent ↦
        hevents event (List.mem_flatMap.2 ⟨effects, hmem, hevent⟩)) (h.setHost a.id a.host)

/-- A server that starts does nothing but listen, whatever time it is. -/
theorem exists_start_server_eq (now : Nat) (inbox : Bytes) (c : Connection) :
    ∃ c' note, Application.start now (Peer.server inbox) c =
      .ok ⟨.server inbox, c', { notes := [note] }⟩ := by
  dsimp only [Application.start]
  rw [Connection.listen]
  split
  · exact ⟨_, _, rfl⟩
  · exact ⟨_, _, rfl⟩

/-- A server that starts waits. That it does so earlier than the other hosts does not show. -/
theorem Lags.start_server {host : Host Peer} {inbox : Bytes} (h : Lags d stop s t)
    (hhost : s.host? id = some host) (happlication : host.application = .server inbox) :
    Checked.Both (Lags d stop) (s.happen id .start) (t.happen id .start) := by
  obtain ⟨c, note, hstart⟩ := exists_start_server_eq s.now inbox host.connection
  have hstart' : Application.start t.now (Peer.server inbox) (host.connection.delay d) =
      (Application.start s.now (Peer.server inbox) host.connection).map (Peer.late d) := by
    show Application.start (s.now + d) (Peer.server inbox) (host.connection.delay d) = _
    exact Peer.start_delay
  rw [hstart] at hstart'
  rw [Simulation.happen, Simulation.happen, startHost, startHost, h.host?_eq, hhost]
  dsimp only [Option.map_some]
  rw [show (host.delay d).application = host.application from rfl, happlication,
    show (host.delay d).connection = host.connection.delay d from rfl, hstart, hstart']
  have hset : Lags d stop
      ((s.setHost id ⟨c, .server inbox⟩).note (.noted host.connection.home note))
      ((t.setHost id ⟨c.delay d, .server inbox⟩).note (.noted host.connection.home note)) :=
    { h with
      hosts_eq := by
        show t.hosts.set _ (Host.delay d ⟨c, .server inbox⟩) = (s.hosts.set _ _).map _
        rw [List.map_set, h.hosts_eq] }
  exact .ok hset

/-! ### Steps -/

/-- A step of both. Until the end there is an entry, it is the first one of both, and the same
follows from it. -/
theorem Lags.step (h : Lags d stop s t) (hle : k.time ≤ stop)
    (hmem : k ∈ s.agenda.entries) :
    Checked.Both (fun x y ↦ y.1 = x.1 ∧ Shows d x.2 y.2 ∧ (x.1 = true → Lags d stop x.2 y.2))
      s.step t.step := by
  have hcoming : k ∈ s.agenda.comingBy stop := List.mem_filter.2 ⟨hmem, by simpa using hle⟩
  obtain ⟨e, rest, hs⟩ := List.exists_cons_of_ne_nil (List.ne_nil_of_mem hcoming)
  have ht := h.coming_eq
  rw [hs, List.map_cons] at ht
  obtain ⟨htime, a, hnext, ha⟩ := Agenda.next?_of_comingBy hs
  obtain ⟨-, b, hnext', hb⟩ := Agenda.next?_of_comingBy ht
  -- Once the entry is taken the clocks show the delay.
  have hstep : InStep d stop { s with agenda := a } { t with agenda := b } :=
    { h with
      added_eq := by
        rw [Agenda.added_of_next? hnext, Agenda.added_of_next? hnext']
        exact h.added_eq
      coming_eq := by rw [ha, hb]
      now_eq := by
        show b.now = a.now + d
        rw [(Agenda.next?_eq_some hnext).2, (Agenda.next?_eq_some hnext').2]
        rfl
      now_le := Nat.le_trans (Nat.le_of_eq (Agenda.next?_eq_some hnext).2) htime }
  rw [Simulation.step, Simulation.step, hnext, hnext']
  dsimp only
  rw [show (e.delay d).action = e.action from rfl]
  cases e.action with
  | close => exact .ok ⟨rfl, (hstep.note ..).toShows, by simp⟩
  | model happening =>
    exact hstep.happen.bind fun _ _ _ h ↦
      .ok ⟨rfl, h.toShows, fun _ ↦ h.toLags⟩

/-- **Steps of both**, as many as there are until the end. -/
theorem Lags.advance (h : Lags d stop s t) (hclose : k.action = .close) (hle : k.time ≤ stop)
    (hmem : k ∈ s.agenda.entries) (n : Nat) :
    Checked.Both (fun x y ↦ y.1 = x.1 ∧ Shows d x.2 y.2) (s.advance n) (t.advance n) := by
  induction n generalizing s t with
  | zero => exact .ok ⟨rfl, h.toShows⟩
  | succ n ih =>
    rw [Simulation.advance, Simulation.advance]
    refine (h.step hle hmem).bind fun x y hx hboth ↦ ?_
    obtain ⟨hrunning, hshows, hlags⟩ := hboth
    obtain ⟨running, s'⟩ := x
    obtain ⟨running', t'⟩ := y
    obtain rfl : running = running' := hrunning.symm
    have hk : k.time ≤ maxWord := by
      have hlatest := h.latest_lt
      omega
    cases running with
    | false => exact .ok ⟨rfl, hshows⟩
    | true => exact ih (hlags rfl) (lt_of_step hclose hk hmem hx).1

end Simulation

end ReliableStream
