import ReliableStream.Proofs.Simulation.Accounts
import ReliableStream.Proofs.Simulation.Turns

/-!
# Nothing comes before its cause

Whatever is on the agenda of a simulation was put there on some occasion: when a host was added,
when the end was set, or when a step was taken and hosts asked for things. The occasions are written
down beside the simulation (`Chronicle`), one for each entry and in the order in which entries are
added, so that the order of an entry tells on which one it was added.

`Reachable.inOrder` is that in every simulation of clients and servers one can come to time goes
forward only and everybody who is asked for is there: nothing is due before now, a packet arrives
only after the network took its time, the trace is in the order of time, and each entry finds the
host it is for, which is not lost while its answer is carried out. Two hosts may be at the same
place, and hosts may be added at any time.

All changes have the form `Evolves`: time may pass, hosts may join, and what is new on the agenda is
for somebody who is there. So `Caused`, which is what has to hold at every instant, is kept by one
lemma (`Caused.evolve`), and whether it was a step or something else makes no difference to it.
-/

namespace ReliableStream.Simulation

variable {σ α : Type} {initial : Bytes → Prop} {packets : List Packet} {id : Nat}

/-! ### Occasions -/

/-- When something was put on an agenda, and the packets that were sent then. -/
structure Occasion where
  /-- When it was. -/
  instant : Nat
  /-- The packets that were sent. -/
  packets : List Packet

/-- The occasion of each entry that was added from one simulation to another one. -/
def occasions (packets : List Packet) (s s' : Simulation σ α) : List Occasion :=
  List.replicate (s'.agenda.added - s.agenda.added) ⟨s'.now, packets⟩

/-- What one can come to, with the occasions on which the entries of its agenda were added. -/
inductive Chronicle [DrawSource σ] (initial : Bytes → Prop) :
    Simulation σ Peer → List Occasion → Prop
  /-- At the beginning there are none. -/
  | create {faults : Network.Faults} {draws sequences : σ} {s : Simulation σ Peer}
    {journal : Array Entry} (hcreate : create faults draws sequences = .ok s) :
    Chronicle initial { s with journal } []
  /-- A host is added, or refused. -/
  | addHost {s : Simulation σ Peer} {log : List Occasion} {home : Endpoint}
    {settings : Connection.Settings} {peer : Peer} {start : Nat} (h : Chronicle initial s log)
    (hbegins : peer.Begins initial) (hstart : start ≤ maxWord) :
    Chronicle initial (s.addHost home settings peer start).2
      (log ++ occasions [] s (s.addHost home settings peer start).2)
  /-- The end is set. -/
  | closeAt {s : Simulation σ Peer} {log : List Occasion} {time : Nat} (h : Chronicle initial s log)
    (htime : time ≤ maxWord) :
    Chronicle initial (s.closeAt time) (log ++ occasions [] s (s.closeAt time))
  /-- A step is taken. -/
  | step {s s' : Simulation σ Peer} {log : List Occasion} {running : Bool}
    (h : Chronicle initial s log) (hstep : s.step = .ok (running, s')) :
    Chronicle initial s' (log ++ occasions s.asks s s')

/-- Whatever one can come to, one can write down how. -/
theorem Reachable.exists_chronicle [DrawSource σ] {s : Simulation σ Peer}
    (h : s.Reachable initial) : ∃ log, Chronicle initial s log := by
  induction h with
  | create hcreate => exact ⟨_, .create hcreate⟩
  | addHost _ hbegins hstart ih =>
    obtain ⟨log, ih⟩ := ih
    exact ⟨_, .addHost ih hbegins hstart⟩
  | closeAt _ htime ih =>
    obtain ⟨log, ih⟩ := ih
    exact ⟨_, .closeAt ih htime⟩
  | step _ hstep ih =>
    obtain ⟨log, ih⟩ := ih
    exact ⟨_, .step ih hstep⟩

/-! ### Who is there -/

/-- There is a host with this number. -/
def Has (s : Simulation σ α) (id : Nat) : Prop := 1 ≤ id ∧ id ≤ s.hosts.length

/-- An entry is for somebody who is there: an arrival and the end for the network, a start and an
alarm for a host. -/
def Addressed (s : Simulation σ α) (e : Agenda.Entry Happening) : Prop :=
  match e.action with
  | .close | .model (.arrival _) => e.target = networkActor
  | .model .start | .model (.alarm _) => s.Has e.target

/-- What a simulation can go through while an answer of host `id` is carried out: the host changes,
and effects are carried out. -/
inductive Amid [DrawSource σ] (id : Nat) (s : Simulation σ α) : Simulation σ α → Prop
  /-- It is carried out from now on. -/
  | begin : Amid id s s
  /-- The host changes. -/
  | set {mid : Simulation σ α} {host : Host α} (h : Amid id s mid) :
    Amid id s (mid.setHost id host)
  /-- Effects are carried out. -/
  | carry {mid mid' : Simulation σ α} {home : Endpoint} {effects : Effects} (h : Amid id s mid)
    (hcarry : mid.carryOut id home effects = .ok mid') : Amid id s mid'

section

variable {s s' : Simulation σ α}

/-- A host has a number if and only if that is one of those given out so far, of which the first is
1. -/
theorem exists_host_iff_has : (∃ host, s.host? id = some host) ↔ s.Has id := by
  cases id with
  | zero => simp [host?, Has]
  | succ i =>
    rw [host?, ← Option.isSome_iff_exists, isSome_getElem?, Has]
    omega

/-- Who is there stays as long as nobody goes. -/
theorem Has.mono (h : s.Has id) (hlength : s.hosts.length ≤ s'.hosts.length) : s'.Has id :=
  ⟨h.1, Nat.le_trans h.2 hlength⟩

theorem Addressed.mono {e : Agenda.Entry Happening} (h : s.Addressed e)
    (hlength : s.hosts.length ≤ s'.hosts.length) : s'.Addressed e := by
  unfold Addressed at h ⊢
  split at h
  · exact h
  · exact h
  · exact h.mono hlength
  · exact h.mono hlength

/-- Nobody goes while an answer is carried out. Not even the hosts change, but for the one that
answers. -/
theorem Amid.length_eq [DrawSource σ] (h : Amid id s s') :
    s'.hosts.length = s.hosts.length := by
  induction h with
  | begin => rfl
  | set _ ih => exact (List.length_set ..).trans ih
  | carry _ hcarry ih => rw [(enacts_carryOut hcarry).hosts_eq, ih]

/-! ### What is put on the agenda -/

/-- Host `id` puts entries on the agenda: its alarms, and the arrivals of some packets, none of
which arrives before the network took its time. -/
structure Posts (id : Nat) (packets : List Packet) (s s' : Simulation σ α) : Prop where
  /-- No time has passed. -/
  now_eq : s'.now = s.now
  /-- Everybody is where it was. -/
  routes_eq : s'.network.routes = s.network.routes
  /-- The network misbehaves as it did. -/
  faults_eq : s'.network.faults = s.network.faults
  /-- Entries are added. -/
  added_le : s.agenda.added ≤ s'.agenda.added
  /-- What is new is an alarm of the host, or the arrival of a packet. -/
  entries : ∀ e ∈ s'.agenda.entries, e ∈ s.agenda.entries ∨ s.agenda.added ≤ e.order ∧
    ((∃ watch, e.action = .model (.alarm watch) ∧ e.target = id) ∨
      ∃ packet ∈ packets, e.action = .model (.arrival packet) ∧ e.target = networkActor ∧
        s.now + s.network.faults.minDelay ≤ e.time)

namespace Posts

variable {t : Simulation σ α}

/-- The agenda is as it was, and so nothing is posted. -/
theorem of_agenda_eq (hagenda : s'.agenda = s.agenda)
    (hroutes : s'.network.routes = s.network.routes)
    (hfaults : s'.network.faults = s.network.faults) : Posts id packets s s' where
  now_eq := by rw [now, hagenda, now]
  routes_eq := hroutes
  faults_eq := hfaults
  added_le := by rw [hagenda]
  entries e he := .inl (hagenda ▸ he)

theorem refl : Posts id packets s s := of_agenda_eq rfl rfl rfl

/-- What is posted one time after the other. As no time passes, the instants of both are the same.
-/
theorem trans (h : Posts id packets s s') (h' : Posts id packets s' t) :
    Posts id packets s t where
  now_eq := h'.now_eq.trans h.now_eq
  routes_eq := h'.routes_eq.trans h.routes_eq
  faults_eq := h'.faults_eq.trans h.faults_eq
  added_le := Nat.le_trans h.added_le h'.added_le
  entries e he := by
    rcases h'.entries e he with hmid | ⟨hle, hnew⟩
    · exact h.entries e hmid
    · rw [h.now_eq, h.faults_eq] at hnew
      exact .inr ⟨Nat.le_trans h.added_le hle, hnew⟩

/-- It does no harm to name more packets. -/
theorem mono (h : Posts id packets s s') {more : List Packet}
    (hsub : ∀ packet ∈ packets, packet ∈ more) : Posts id more s s' :=
  { h with
    entries := fun e he ↦ (h.entries e he).imp_right fun ⟨hle, hnew⟩ ↦
      ⟨hle, hnew.imp_right fun ⟨packet, hmem, hrest⟩ ↦ ⟨packet, hsub packet hmem, hrest⟩⟩ }

/-- Computations that post, one after the other. -/
theorem foldlM {β : Type} {l : List β} {f : Simulation σ α → β → Checked (Simulation σ α)}
    (hstep : ∀ b ∈ l, ∀ s s', f s b = .ok s' → Posts id packets s s') (h : l.foldlM f s = .ok t) :
    Posts id packets s t := by
  -- Which steps are left matters: only a step of the list is known to post.
  refine Checked.foldlM_induction
    (motive := fun l s t ↦ (∀ b ∈ l, ∀ s s', f s b = .ok s' → Posts id packets s s') →
      Posts id packets s t)
    (fun _ _ ↦ refl) (fun b rest s mid t hmid hrest hall ↦ ?_) h hstep
  have hfirst := hall b (List.mem_cons_self ..) s mid hmid
  exact hfirst.trans (hrest fun b' hb ↦ hall b' (List.mem_cons_of_mem _ hb))

/-- An entry is put on the agenda: an alarm, or an arrival that is late enough. -/
theorem put {time target : Nat} {happening : Happening}
    (hnew : (∃ watch, happening = .alarm watch ∧ target = id) ∨
      ∃ packet ∈ packets, happening = .arrival packet ∧ target = networkActor ∧
        s.now + s.network.faults.minDelay ≤ time) :
    Posts id packets s { s with agenda := s.agenda.addAt time target happening } where
  now_eq := rfl
  routes_eq := rfl
  faults_eq := rfl
  added_le := Nat.le_succ _
  entries e he := by
    rcases Agenda.mem_place.1 he with rfl | hold
    · refine .inr ⟨Nat.le_refl _, hnew.imp ?_ ?_⟩
      · rintro ⟨watch, rfl, htarget⟩
        exact ⟨watch, rfl, htarget⟩
      · rintro ⟨packet, hmem, rfl, htarget, htime⟩
        exact ⟨packet, hmem, rfl, htarget, Nat.le_trans htime (Nat.le_max_left ..)⟩
    · exact .inl hold

theorem setAlarm (alarm : Alarm) (s : Simulation σ α) :
    Posts id packets s (s.setAlarm id alarm) := put (.inl ⟨alarm.watch, rfl, rfl⟩)

end Posts

variable [DrawSource σ] {home : Endpoint}

/-- A packet is sent. Its copies take at least the smallest delay. -/
theorem posts_sendPacket {packet : Packet} (h : s.sendPacket home packet = .ok s') :
    Posts id [packet] s s' := by
  obtain ⟨sent, hsent, h⟩ := Checked.bind_eq_ok_iff.1 h
  obtain rfl := Checked.pure_eq_ok_iff.1 h
  obtain ⟨hroutes, hdeliveries⟩ := Network.send_eq_ok hsent
  have hnetwork : Posts id [packet] s { s with network := sent.network } :=
    .of_agenda_eq rfl hroutes (Network.faults_of_send hsent)
  have htraces := List.foldlRecOn (motive := fun t ↦ Posts id [packet] s t) sent.traces
    (fun s event ↦ s.record home event) hnetwork fun _ h _ _ ↦
      h.trans (.of_agenda_eq rfl rfl rfl)
  refine List.foldlRecOn (motive := fun t ↦ Posts id [packet] s t) sent.deliveries
    (fun s delivery ↦ s.schedule delivery) htraces fun t h delivery hmem ↦ h.trans (.put ?_)
  have htime := Network.le_time_of_send hsent delivery hmem
  rw [← h.now_eq, ← h.faults_eq] at htime
  exact .inr ⟨delivery.packet, List.mem_singleton.2 (hdeliveries delivery hmem).1, rfl, rfl, htime⟩

/-- What a host asks for is carried out. Notes and events post nothing, packets their copies, and
alarms themselves. -/
theorem posts_carryOut {effects : Effects} (h : s.carryOut id home effects = .ok s') :
    Posts id effects.packets s s' := by
  obtain ⟨mid, hmid, h⟩ := Checked.bind_eq_ok_iff.1 h
  obtain rfl := Checked.pure_eq_ok_iff.1 h
  have hnotes := List.foldlRecOn (motive := fun t ↦ Posts id effects.packets s t) effects.notes
    (fun s note ↦ s.note (.noted home note)) .refl fun _ h _ _ ↦ h.trans (.of_agenda_eq rfl rfl rfl)
  have htraces := List.foldlRecOn (motive := fun t ↦ Posts id effects.packets s t) effects.traces
    (fun s event ↦ s.record home event) hnotes fun _ h _ _ ↦ h.trans (.of_agenda_eq rfl rfl rfl)
  have hpackets := htraces.trans (.foldlM (fun packet hmem _ _ hsend ↦
    (posts_sendPacket hsend).mono fun _ h ↦ List.mem_singleton.1 h ▸ hmem) hmid)
  exact List.foldlRecOn (motive := fun t ↦ Posts id effects.packets s t) effects.alarms
    (fun s alarm ↦ s.setAlarm id alarm) hpackets fun t h alarm _ ↦ h.trans (.setAlarm alarm t)

/-- An answer is followed, so the packets are those of the whole answer. -/
theorem posts_of_follow {a : Answer α} {happening : Happening}
    (h : s.follow happening (some a) = .ok s') :
    Posts a.id a.packets (s.setHost a.id a.host) s' :=
  .foldlM (fun _ hmem _ _ hcarry ↦ (posts_carryOut hcarry).mono fun _ hpacket ↦
    List.mem_flatMap.2 ⟨_, hmem, hpacket⟩) h

end

/-! ### How a simulation evolves -/

/-- Time may pass and hosts may join. What is put on the agenda is for somebody who is there, and
packets are sent no earlier than now. -/
structure Evolves (packets : List Packet) (s s' : Simulation σ α) : Prop where
  /-- Time does not go back. -/
  now_le : s.now ≤ s'.now
  /-- Nobody goes. -/
  length_le : s.hosts.length ≤ s'.hosts.length
  /-- The network misbehaves as it did. -/
  faults_eq : s'.network.faults = s.network.faults
  /-- Whoever is newly registered is there. -/
  routed : ∀ route ∈ s'.network.routes, route ∈ s.network.routes ∨ s'.Has route.2
  /-- Entries are added. -/
  added_le : s.agenda.added ≤ s'.agenda.added
  /-- What is new is for somebody who is there, and if it is an arrival then of a packet that was
  sent now. -/
  entries : ∀ e ∈ s'.agenda.entries, e ∈ s.agenda.entries ∨ s.agenda.added ≤ e.order ∧
    s'.Addressed e ∧ ∀ packet, e.action = .model (.arrival packet) →
      packet ∈ packets ∧ s'.now + s.network.faults.minDelay ≤ e.time
  /-- What is told is told now. -/
  written : ∃ records, s'.trace.toList = s.trace.toList ++ records ∧
    ∀ record ∈ records, record.time = s'.now

namespace Evolves

variable {s s' : Simulation σ α}

/-- Only the journal and the source of sequence numbers are not as they were. -/
theorem of_eq (hagenda : s'.agenda = s.agenda) (hhosts : s'.hosts = s.hosts)
    (htrace : s'.trace = s.trace) (hnetwork : s'.network = s.network) : Evolves packets s s' where
  now_le := by rw [now, now, hagenda]
  length_le := by rw [hhosts]
  faults_eq := by rw [hnetwork]
  routed route hroute := .inl (hnetwork ▸ hroute)
  added_le := by rw [hagenda]
  entries e he := .inl (hagenda ▸ he)
  written := ⟨[], by rw [htrace, List.append_nil], fun _ h ↦ absurd h List.not_mem_nil⟩

/-- The end is set. It is for the network, and no arrival. -/
theorem closeAt (time : Nat) (s : Simulation σ α) : Evolves [] s (s.closeAt time) :=
  have hrest : Evolves [] s s := of_eq rfl rfl rfl rfl
  { hrest with
    added_le := Nat.le_succ _
    entries := fun e he ↦ by
      rcases Agenda.mem_place.1 he with rfl | hold
      · exact .inr ⟨Nat.le_refl _, rfl, fun _ haction ↦ absurd haction (by simp)⟩
      · exact .inl hold }

/-- A host joins. It is registered with its own number, and has to start: both are for it, and it is
there. -/
theorem join {home : Endpoint} {host : Host α} {start : Nat}
    (hhosts : s'.hosts = s.hosts ++ [host])
    (hroutes : s'.network.routes =
      (home, s.hosts.length + 1) :: s.network.routes.filter (·.1 ≠ home))
    (hfaults : s'.network.faults = s.network.faults)
    (hagenda : s'.agenda = s.agenda.addAt start (s.hosts.length + 1) .start)
    (htrace : s'.trace = s.trace.push ⟨s.now, home, .registered⟩) : Evolves [] s s' := by
  have hlength : s'.hosts.length = s.hosts.length + 1 := by
    rw [hhosts, List.length_append, List.length_singleton]
  have hnow : s'.now = s.now := by
    rw [now, hagenda]
    rfl
  -- The number that is registered and told to start is that of the new host.
  have hhas : s'.Has (s.hosts.length + 1) := by
    rw [Has, hlength]
    omega
  exact
    { now_le := Nat.le_of_eq hnow.symm
      length_le := hlength ▸ Nat.le_succ _
      faults_eq := hfaults
      routed := fun route hroute ↦ by
        rw [hroutes] at hroute
        rcases List.mem_cons.1 hroute with rfl | hold
        · exact .inr hhas
        · exact .inl (List.mem_filter.1 hold).1
      added_le := hagenda ▸ Nat.le_succ _
      entries := fun e he ↦ by
        rw [hagenda] at he
        rcases Agenda.mem_place.1 he with rfl | hold
        · exact .inr ⟨Nat.le_refl _, hhas, fun _ haction ↦ absurd haction (by simp)⟩
        · exact .inl hold
      written := ⟨[⟨s.now, home, .registered⟩], by rw [htrace, Array.toList_push],
        fun record hmem ↦ by rw [List.mem_singleton.1 hmem, hnow]⟩ }

/-- A host is added, or refused. -/
theorem enter (home : Endpoint) (settings : Connection.Settings) (application : α)
    (start isn : Nat) (s : Simulation σ α) :
    Evolves [] s (s.enter home settings application start isn).2 := by
  rw [Simulation.enter]
  split
  · exact of_eq rfl rfl rfl rfl
  · exact join rfl rfl rfl rfl rfl

/-- It does not matter where sequence numbers are drawn from. -/
theorem of_sequences {sequences : σ} (h : Evolves packets { s with sequences } s') :
    Evolves packets s s' := { h with }

theorem addHost [DrawSource σ] (home : Endpoint) (settings : Connection.Settings) (application : α)
    (start : Nat) (s : Simulation σ α) :
    Evolves [] s (s.addHost home settings application start).2 := by
  rw [Simulation.addHost]
  generalize DrawSource.initialSequence s.sequences = draw
  exact (enter ..).of_sequences

variable {e : Agenda.Entry Happening} {agenda : Agenda Happening}

/-- An entry is taken, and then something happens. No number is given out when an entry is taken. -/
theorem of_take (hnext : s.agenda.next? = some (e, agenda))
    (h : Evolves packets { s with agenda } s') : Evolves packets s s' where
  now_le := Nat.le_trans (now_le_of_next? hnext) h.now_le
  length_le := h.length_le
  faults_eq := h.faults_eq
  routed := h.routed
  added_le := Agenda.added_of_next? hnext ▸ h.added_le
  entries f hf := by
    rcases h.entries f hf with hold | ⟨hle, hnew⟩
    · rw [(Agenda.next?_eq_some hnext).1]
      exact .inl (List.mem_cons_of_mem _ hold)
    · exact .inr ⟨Agenda.added_of_next? hnext ▸ hle, hnew⟩
  written := h.written

/-- Nobody has its turn. If a packet is dropped then that is told, now. -/
theorem pass (happening : Happening) (s : Simulation σ α) :
    Evolves packets s (s.pass happening) := by
  cases happening with
  | start | alarm => exact of_eq rfl rfl rfl rfl
  | arrival packet =>
    rw [Simulation.pass, Network.route]
    cases s.network.actorAt? packet.destination with
    | some id => exact of_eq rfl rfl rfl rfl
    | none =>
      have hrest : Evolves packets s s := of_eq rfl rfl rfl rfl
      exact
        { hrest with
          written := ⟨[⟨s.now, packet.source, .undeliverable packet.destination⟩],
            Array.toList_push, fun record hmem ↦ by
              rw [List.mem_singleton.1 hmem]
              rfl⟩ }

/-- **A host has its turn, and its answer is followed.** What it posts is for itself or for the
network. -/
theorem follow [Application α] [DrawSource σ] {target : Nat} {happening : Happening} {a : Answer α}
    (hanswer : s.answer? target happening = .ok (some a))
    (hfollow : s.follow happening (some a) = .ok s') : Evolves a.packets s s' := by
  obtain ⟨host, hhost, -, -⟩ := exists_host_of_answer? hanswer
  have hposts := posts_of_follow hfollow
  have henacts := enacts_of_follow hfollow
  have hlength : s'.hosts.length = s.hosts.length := by
    rw [henacts.hosts_eq]
    exact List.length_set
  have hnow : s'.now = s.now := henacts.now_eq
  have hhas : s'.Has a.id := (exists_host_iff_has.1 ⟨host, hhost⟩).mono (Nat.le_of_eq hlength.symm)
  obtain ⟨records, htrace, htimes, -⟩ := henacts.written
  exact
    { now_le := Nat.le_of_eq hnow.symm
      length_le := Nat.le_of_eq hlength.symm
      faults_eq := hposts.faults_eq
      routed := fun route hroute ↦ .inl (hposts.routes_eq ▸ hroute)
      added_le := hposts.added_le
      entries := fun e he ↦ (hposts.entries e he).imp_right fun ⟨hle, hnew⟩ ↦ by
        refine ⟨hle, ?_⟩
        -- An alarm is for the host that answers, which is there, and an arrival for the network.
        rcases hnew with ⟨watch, haction, htarget⟩ | ⟨packet, hmem, haction, htarget, htime⟩
        · refine ⟨?_, fun _ hother ↦ absurd (haction.symm.trans hother) (by simp)⟩
          rw [Addressed, haction]
          exact htarget ▸ hhas
        · refine ⟨?_, fun other hother ↦ ?_⟩
          · rw [Addressed, haction]
            exact htarget
          · obtain rfl := Happening.arrival.inj
              (Agenda.Action.model.inj (haction.symm.trans hother))
            exact ⟨hmem, hnow ▸ htime⟩
      written := ⟨records, htrace, fun record hmem ↦ ((htimes record hmem).1).trans hnow.symm⟩ }

end Evolves

/-- A simulation evolves with every step, and the packets are those that are asked for at it. -/
theorem evolves_of_step [DrawSource σ] {s s' : Simulation σ Peer} {running : Bool}
    (h : s.step = .ok (running, s')) : Evolves s.asks s s' := by
  cases steps_of_step h with
  | idle => exact .of_eq rfl rfl rfl rfl
  | close hnext => exact .of_take hnext (.of_eq rfl rfl rfl rfl)
  | happen hnext haction hhappen =>
    obtain ⟨answer, hanswer, hfollow⟩ := happen_eq_ok_iff.1 hhappen
    rw [asks_eq hnext haction hanswer]
    refine .of_take hnext ?_
    cases answer with
    | none =>
      obtain rfl := Checked.pure_eq_ok_iff.1 hfollow
      exact .pass ..
    | some a => exact .follow hanswer hfollow

/-! ### Everything in order -/

/-- What is known of the agenda, the network and the trace at any time. -/
structure Caused (s : Simulation σ α) (log : List Occasion) : Prop where
  /-- Each entry was added on an occasion. -/
  length_eq : log.length = s.agenda.added
  /-- A packet that arrives was sent on that occasion, and takes at least the smallest delay. -/
  arrivals : ∀ e ∈ s.agenda.entries, ∀ packet, e.action = .model (.arrival packet) →
    ∃ occasion, log[e.order]? = some occasion ∧ packet ∈ occasion.packets ∧
      occasion.instant + s.network.faults.minDelay ≤ e.time
  /-- Each entry is for somebody who is there. -/
  addressed : ∀ e ∈ s.agenda.entries, s.Addressed e
  /-- Whoever is registered is there. -/
  routed : ∀ route ∈ s.network.routes, s.Has route.2
  /-- The trace is in the order of time. -/
  ordered : s.trace.toList.Pairwise (·.time ≤ ·.time)
  /-- It tells of nothing that is still to come. -/
  past : ∀ record ∈ s.trace.toList, record.time ≤ s.now

/-- **What is known stays so when a simulation evolves.** Occasions are added at the end, so an
entry that was there has the same one as before, and an entry that is new has one of those that were
added. -/
theorem Caused.evolve {s s' : Simulation σ α} {log : List Occasion} (h : s.Caused log)
    (hevolves : Evolves packets s s') : s'.Caused (log ++ occasions packets s s') where
  length_eq := by
    have hadded := hevolves.added_le
    rw [List.length_append, h.length_eq, occasions, List.length_replicate]
    omega
  arrivals e he packet haction := by
    have hnumbered := s'.agenda.numbered e he
    have hadded := hevolves.added_le
    rw [hevolves.faults_eq]
    rcases hevolves.entries e he with hold | ⟨hle, -, hnew⟩
    · obtain ⟨occasion, hget, hrest⟩ := h.arrivals e hold packet haction
      -- The number of an old entry points into the old occasions, that of a new one behind them.
      have hlt : e.order < log.length := h.length_eq ▸ s.agenda.numbered e hold
      exact ⟨occasion, by rw [List.getElem?_append_left hlt, hget], hrest⟩
    · refine ⟨⟨s'.now, packets⟩, ?_, hnew packet haction⟩
      rw [List.getElem?_append_right (h.length_eq ▸ hle), occasions, List.getElem?_replicate,
        h.length_eq, if_pos (by omega)]
  addressed e he := by
    rcases hevolves.entries e he with hold | ⟨-, hnew, -⟩
    · exact (h.addressed e hold).mono hevolves.length_le
    · exact hnew
  routed route hroute := by
    rcases hevolves.routed route hroute with hold | hnew
    · exact (h.routed route hold).mono hevolves.length_le
    · exact hnew
  ordered := by
    obtain ⟨records, htrace, htimes⟩ := hevolves.written
    rw [htrace, List.pairwise_append]
    refine ⟨h.ordered, List.pairwise_of_forall_mem_list fun a ha b hb ↦ ?_, fun a ha b hb ↦ ?_⟩
    · rw [htimes a ha, htimes b hb]
    · rw [htimes b hb]
      exact Nat.le_trans (h.past a ha) hevolves.now_le
  past record hmem := by
    obtain ⟨records, htrace, htimes⟩ := hevolves.written
    rw [htrace] at hmem
    rcases List.mem_append.1 hmem with hold | hnew
    · exact Nat.le_trans (h.past record hold) hevolves.now_le
    · exact Nat.le_of_eq (htimes record hnew)

/-- So it is known of all that one can come to, with the occasions that are written down. -/
theorem Chronicle.caused [DrawSource σ] {s : Simulation σ Peer} {log : List Occasion}
    (h : Chronicle initial s log) : s.Caused log := by
  induction h with
  | create hcreate =>
    obtain ⟨valid, rfl⟩ := create_eq_ok hcreate
    constructor <;> simp
  | addHost _ _ _ ih => exact ih.evolve (.addHost ..)
  | closeAt _ _ ih => exact ih.evolve (.closeAt ..)
  | step _ hstep ih => exact ih.evolve (evolves_of_step hstep)

/-- Time goes forward only, and everybody who is asked for is there. -/
structure InOrder [DrawSource σ] (s : Simulation σ α) (log : List Occasion) : Prop where
  /-- Nothing is due before now. -/
  ahead : ∀ e ∈ s.agenda.entries, s.now ≤ e.time
  /-- A packet that arrives was sent when its arrival was put on the agenda, and takes at least the
  smallest delay. -/
  arrivals : ∀ e ∈ s.agenda.entries, ∀ packet, e.action = .model (.arrival packet) →
    ∃ occasion, log[e.order]? = some occasion ∧ packet ∈ occasion.packets ∧
      occasion.instant + s.network.faults.minDelay ≤ e.time
  /-- Each entry is for somebody who is there. -/
  addressed : ∀ e ∈ s.agenda.entries, s.Addressed e
  /-- So is everybody to whom a packet can go. -/
  routed : ∀ endpoint id, s.network.actorAt? endpoint = some id → s.Has id
  /-- An arrival that is taken is for the network. -/
  asserted : ∀ e agenda packet, s.agenda.next? = some (e, agenda) →
    e.action = .model (.arrival packet) → e.target = networkActor
  /-- Whoever has its turn when an entry is taken is there, and stays while its answer is carried
  out. -/
  met : ∀ e agenda happening id mid, s.agenda.next? = some (e, agenda) →
    e.action = .model happening → ({ s with agenda } : Simulation σ α).actor? e.target happening =
      some id → Amid id { s with agenda } mid → ∃ host, mid.host? id = some host
  /-- The trace is in the order of time. -/
  ordered : s.trace.toList.Pairwise (·.time ≤ ·.time)
  /-- It tells of nothing that is still to come. -/
  past : ∀ record ∈ s.trace.toList, record.time ≤ s.now

/-- Whoever is registered somewhere has a route there. -/
theorem mem_routes_of_actorAt? {n : Network σ} {endpoint : Endpoint}
    (h : n.actorAt? endpoint = some id) : (endpoint, id) ∈ n.routes := by
  obtain ⟨before, after, heq, -⟩ := List.lookup_eq_some_iff.1 h
  exact heq ▸ List.mem_append_right _ (List.mem_cons_self ..)

/-- Then everything is in order: what is taken from the agenda was on it, and nobody goes amid an
answer. -/
theorem Caused.orders [DrawSource σ] {s : Simulation σ α} {log : List Occasion}
    (h : s.Caused log) : s.InOrder log where
  ahead := s.agenda.ahead
  arrivals := h.arrivals
  addressed := h.addressed
  routed endpoint id hactor := h.routed _ (mem_routes_of_actorAt? hactor)
  asserted e agenda packet hnext haction := by
    have haddressed := h.addressed e ((Agenda.next?_eq_some hnext).1 ▸ List.mem_cons_self ..)
    rw [Addressed, haction] at haddressed
    exact haddressed
  met e agenda happening id mid hnext haction hactor hamid := by
    have haddressed := h.addressed e ((Agenda.next?_eq_some hnext).1 ▸ List.mem_cons_self ..)
    rw [Addressed, haction] at haddressed
    have hhas : s.Has id := by
      cases happening with
      | start | alarm => exact Option.some.inj hactor ▸ haddressed
      | arrival packet => exact h.routed _ (mem_routes_of_actorAt? hactor)
    exact exists_host_iff_has.2 (hhas.mono (Nat.le_of_eq hamid.length_eq.symm))
  ordered := h.ordered
  past := h.past

/-- **Nothing comes before its cause.** However one came to a simulation, everything in it is in
order. -/
theorem Reachable.inOrder [DrawSource σ] {s : Simulation σ Peer} (h : s.Reachable initial) :
    (∃ log, Chronicle initial s log) ∧ ∀ log, Chronicle initial s log → s.InOrder log :=
  ⟨h.exists_chronicle, fun _ hchronicle ↦ hchronicle.caused.orders⟩

/-- A client sends five bytes to a server. In the midst of it another server takes over the place of
that one, another client looks for it, and the end is set for an instant that has passed. -/
def takeover : Option (Simulation Dealt Peer) :=
  (after 5 fiveBytes).bind fun s ↦
    ((((s.addHost ⟨10, 0, 0, 2, 80⟩ {} (.server []) 0).2.addHost ⟨10, 0, 0, 3, 4000⟩ {}
      (.client ⟨10, 0, 0, 2, 80⟩ [6]) 0).2.closeAt 0).advance 2).toOption.map (·.2)

/-- One can come to it: two hosts are added on the way, and the end is set. -/
theorem reachable_takeover {s : Simulation Dealt Peer} (h : takeover = some s) :
    s.Reachable (· = []) := by
  obtain ⟨mid, hmid, h⟩ := Option.bind_eq_some_iff.1 h
  obtain ⟨⟨running, t⟩, hadvance, rfl⟩ := Option.map_eq_some_iff.1 h
  have hreach : mid.Reachable (· = []) := reachable_of_after reachable_fiveBytes hmid
  refine Reachable.advance ?_ (toOption_eq_some_iff.1 hadvance)
  refine ((hreach.addHost (Peer.begins_server rfl) (Nat.zero_le _)).addHost
    Peer.begins_client ?_).closeAt ?_
  · exact Nat.zero_le _
  · exact Nat.zero_le _

/-- The end comes at once, and one packet is under way to the host that was added third. -/
theorem inOrder_takeover :
    ∃ s, takeover = some s ∧ s.now = 300 * Time.millisecond ∧ s.hosts.length = 4 ∧
      s.agenda.nextTime? = some (300 * Time.millisecond) ∧
      s.underway.map (fun packet ↦ s.network.actorAt? packet.destination) = [some 3] ∧
      (∃ log, Chronicle (· = []) s log) ∧ ∀ log, Chronicle (· = []) s log → s.InOrder log := by
  have hrun : takeover.map (fun s ↦ (s.now, s.hosts.length, s.agenda.nextTime?,
      s.underway.map (fun packet ↦ s.network.actorAt? packet.destination))) =
      some (300 * Time.millisecond, 4, some (300 * Time.millisecond), [some 3]) := by
    decide +kernel
  obtain ⟨s, hs, hfacts⟩ := Option.map_eq_some_iff.1 hrun
  obtain ⟨hnow, hfacts⟩ := Prod.mk.inj hfacts
  obtain ⟨hlength, hfacts⟩ := Prod.mk.inj hfacts
  obtain ⟨hnext, hunderway⟩ := Prod.mk.inj hfacts
  exact ⟨s, hs, hnow, hlength, hnext, hunderway, (reachable_takeover hs).inOrder⟩

end ReliableStream.Simulation
