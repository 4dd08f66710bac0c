import ReliableStream.Proofs.Party.Inversion
import ReliableStream.Proofs.Simulation.Enacted

/-!
# What a host answers

When something happens, a host may have its turn: it changes, and asks for effects. All of that is
its `Answer`, which depends on the host, on where everybody is, and on the time, but not on what is
still to come and not on what the network draws. The effects are carried out afterwards.

`happen_eq_ok_iff` takes a simulation apart so: something happens to it just as the answer is
followed. Nothing else about `happen` is used where only the answers and what is done with them
count.

The code carries out what a connection asks for before it asks the application, so what the host
becomes is stored in between. That makes no difference (`carryOut_setHost`), since effects do not
depend on the hosts: the host may be stored first, and all effects be carried out at the end.
-/

namespace ReliableStream.Simulation

variable {σ α : Type} {s s' : Simulation σ α} {id i target : Nat} {home : Endpoint}
  {happening : Happening} {host : Host α}

/-- What a host does when it has its turn. -/
structure Answer (α : Type) where
  /-- Its number. -/
  id : Nat
  /-- Where it is. -/
  home : Endpoint
  /-- What becomes of it. -/
  host : Host α
  /-- What it asks for, in order: its connection, and then its application for each notice. -/
  effects : List Effects

namespace Answer

/-- The packets that it sends. -/
def packets (a : Answer α) : List Packet := a.effects.flatMap (·.packets)

/-- The events that it tells of. -/
def traces (a : Answer α) : List Trace.Event := a.effects.flatMap (·.traces)

end Answer

/-- What a host makes of the reaction of its connection. -/
def Host.heed [Application α] (now : Nat) (outcome : Checked (Connection × Reaction))
    (host : Host α) : Checked (Host α × List Effects) := do
  let (connection, reaction) ← outcome
  let (host, answers) ← Host.tell now reaction.notices { host with connection }
  pure (host, reaction.toEffects :: answers)

/-- What a host makes of something that happens to it. -/
def Host.meet [Application α] (now : Nat) (happening : Happening) (host : Host α) :
    Checked (Host α × List Effects) :=
  match happening with
  | .start => do
    let r ← Application.start now host.application host.connection
    pure (⟨r.connection, r.application⟩, [r.effects])
  | .arrival packet => host.heed now (host.connection.onPacket now packet)
  | .alarm watch => host.heed now (host.connection.onAlarm now watch)

/-- Whose turn it is. -/
def actor? (target : Nat) (happening : Happening) (s : Simulation σ α) : Option Nat :=
  match happening with
  | .start | .alarm _ => some target
  | .arrival packet => s.network.actorAt? packet.destination

/-- The answer of the host whose turn it is, if there is one. -/
def answer? [Application α] (target : Nat) (happening : Happening) (s : Simulation σ α) :
    Checked (Option (Answer α)) :=
  match s.actor? target happening with
  | none => pure none
  | some id =>
    match s.host? id with
    | none => pure none
    | some host => do
      let (host', effects) ← host.meet s.now happening
      pure (some ⟨id, host.connection.home, host', effects⟩)

/-- Nobody has its turn. A packet that arrives where nobody is registered is dropped. -/
def pass (happening : Happening) (s : Simulation σ α) : Simulation σ α :=
  match happening with
  | .start | .alarm _ => s
  | .arrival packet =>
    match s.network.route packet with
    | (.error failure, network) =>
      ({ s with network }.note (.dropped failure packet)).record packet.source
        (.undeliverable packet.destination)
    | (.ok _, network) => { s with network }

/-- Carries out an answer. -/
def follow [DrawSource σ] (happening : Happening) (answer : Option (Answer α))
    (s : Simulation σ α) : Checked (Simulation σ α) :=
  match answer with
  | none => pure (s.pass happening)
  | some a =>
    a.effects.foldlM (fun s effects ↦ s.carryOut a.id a.home effects) (s.setHost a.id a.host)

section

variable [Application α]

/-- Nobody is there to answer: nobody is registered for the packet, or there is no host with that
number. -/
theorem answer?_eq_none (h : ∀ id, s.actor? target happening = some id → s.host? id = none) :
    s.answer? target happening = .ok none := by
  rw [answer?]
  cases hactor : s.actor? target happening with
  | none => rfl
  | some id =>
    dsimp only
    rw [h id hactor]
    rfl

/-- Whoever answers is there, and says what becomes of it. -/
theorem exists_host_of_answer? {a : Answer α}
    (h : s.answer? target happening = .ok (some a)) :
    ∃ host, s.host? a.id = some host ∧ a.home = host.connection.home ∧
      host.meet s.now happening = .ok (a.host, a.effects) := by
  rw [answer?] at h
  split at h
  · exact absurd h (by simp [pure, Except.pure])
  · split at h
    · exact absurd h (by simp [pure, Except.pure])
    · next host hhost =>
      obtain ⟨⟨host', effects⟩, hmeet, hpure⟩ := Checked.bind_eq_ok_iff.1 h
      obtain rfl := Option.some.inj (Checked.pure_eq_ok_iff.1 hpure)
      exact ⟨host, hhost, rfl, hmeet⟩

/-- A host that is there answers with what it makes of what happens. -/
theorem answer?_eq_ok_iff {answer : Option (Answer α)}
    (hactor : s.actor? target happening = some id) (hhost : s.host? id = some host) :
    s.answer? target happening = .ok answer ↔ ∃ meeting, host.meet s.now happening = .ok meeting ∧
      answer = some ⟨id, host.connection.home, meeting.1, meeting.2⟩ := by
  rw [answer?, hactor]
  dsimp only
  rw [hhost]
  constructor
  · intro h
    obtain ⟨⟨host', effects⟩, hmeet, hpure⟩ := Checked.bind_eq_ok_iff.1 h
    exact ⟨_, hmeet, (Checked.pure_eq_ok_iff.1 hpure).symm⟩
  · rintro ⟨⟨host', effects⟩, hmeet, rfl⟩
    exact Checked.bind_eq_ok_iff.2 ⟨_, hmeet, rfl⟩

end

/-- If nobody has its turn then nothing is carried out. At most the network tells of a packet that
it dropped. -/
theorem exists_carries_pass (id : Nat) (happening : Happening) (hs : s.agenda.Timely) :
    ∃ traces, Carries id [] [] traces s (s.pass happening) := by
  cases happening with
  | start | alarm => exact ⟨[], .refl hs⟩
  | arrival packet =>
    rw [pass, Network.route]
    cases s.network.actorAt? packet.destination with
    | some actor => exact ⟨[], .refl hs⟩
    | none =>
      exact ⟨[.undeliverable packet.destination], { Carries.refl hs with
        trace_sub := fun _ hmem ↦
          (mem_trace_record hmem).imp_right fun heq ↦ .inl (List.mem_singleton.2 heq) }⟩

/-! ### Effects do not depend on the hosts -/

/-- What does not depend on a host does not either if it is done several times. -/
theorem foldl_setHost {β : Type} {f : Simulation σ α → β → Simulation σ α} (i : Nat)
    (host : Host α) (h : ∀ s b, f (s.setHost i host) b = (f s b).setHost i host) (l : List β)
    (s : Simulation σ α) : l.foldl f (s.setHost i host) = (l.foldl f s).setHost i host :=
  List.foldl_hom (setHost i host) h

/-- What commutes with each step commutes with all of them. -/
theorem foldlM_hom {β γ : Type} {f : γ → γ} {g : γ → β → Checked γ}
    (h : ∀ c b, g (f c) b = (g c b).map f) (l : List β) (c : γ) :
    l.foldlM g (f c) = (l.foldlM g c).map f := by
  induction l generalizing c with
  | nil => rfl
  | cons b rest ih =>
    rw [List.foldlM_cons, List.foldlM_cons, h]
    cases g c b with
    | error overflow => rfl
    | ok c' => exact ih c'

variable [DrawSource σ]

/-- A packet is sent the same, whatever becomes of a host. -/
theorem sendPacket_setHost (packet : Packet) (s : Simulation σ α) :
    (s.setHost i host).sendPacket home packet =
      (s.sendPacket home packet).map (·.setHost i host) := by
  unfold sendPacket
  show (s.network.send s.now packet >>= _) = _
  cases s.network.send s.now packet with
  | error overflow => rfl
  | ok sent =>
    have hrecord := foldl_setHost i host (f := fun s event ↦ s.record home event)
      (fun _ _ ↦ rfl) sent.traces { s with network := sent.network }
    have hschedule := foldl_setHost i host (f := fun s delivery ↦ s.schedule delivery)
      (fun _ _ ↦ rfl) sent.deliveries (sent.traces.foldl (fun s event ↦ s.record home event)
        { s with network := sent.network })
    rw [← hrecord] at hschedule
    exact congrArg Except.ok hschedule

theorem carryOut_setHost (effects : Effects) (s : Simulation σ α) :
    (s.setHost i host).carryOut id home effects =
      (s.carryOut id home effects).map (·.setHost i host) := by
  unfold carryOut
  dsimp only
  rw [foldl_setHost i host fun _ _ ↦ rfl, foldl_setHost i host fun _ _ ↦ rfl,
    foldlM_hom fun s packet ↦ sendPacket_setHost packet s]
  cases effects.packets.foldlM (fun s packet ↦ s.sendPacket home packet)
    (effects.traces.foldl (fun s event ↦ s.record home event)
      (effects.notes.foldl (fun s note ↦ s.note (.noted home note)) s)) with
  | error overflow => rfl
  | ok mid => exact congrArg Except.ok (foldl_setHost i host (fun _ _ ↦ rfl) effects.alarms mid)

/-- An answer that is followed is enacted, for all of its packets and events at once. -/
theorem enacts_of_follow {a : Answer α} (h : s.follow happening (some a) = .ok s') :
    Enacts a.home a.packets a.traces (s.setHost a.id a.host) s' :=
  .foldlM (·.packets) (·.traces) (fun _ _ _ ↦ enacts_carryOut) h

/-- An answer that is followed is carried out, with all of its alarms. -/
theorem carries_of_follow {a : Answer α} (hs : s.agenda.Timely)
    (h : s.follow happening (some a) = .ok s') :
    Carries a.id a.packets (a.effects.flatMap (·.alarms)) a.traces (s.setHost a.id a.host) s' :=
  Carries.foldlM (s := s.setHost a.id a.host) (l := a.effects) (·.packets) (·.alarms) (·.traces)
    (fun _ _ _ hs h ↦ carries_carryOut hs h) hs h

/-! ### What happens is that an answer is followed -/

variable [Application α]

/-- A host reacts as it says. On the left the effects of the connection are carried out before the
host is stored, and on the right it is stored first. -/
theorem react_eq_ok_iff {connection : Connection} {reaction : Reaction}
    (hhome : connection.home = home) :
    s.react id { host with connection } reaction = .ok s' ↔
      ∃ meeting, host.heed s.now (.ok (connection, reaction)) = .ok meeting ∧
        meeting.2.foldlM (fun s effects ↦ s.carryOut id home effects) (s.setHost id meeting.1) =
          .ok s' := by
  subst hhome
  constructor
  · intro h
    obtain ⟨mid, hfirst, h⟩ := Checked.bind_eq_ok_iff.1 h
    obtain ⟨⟨host', answers⟩, htell, hrest⟩ := Checked.bind_eq_ok_iff.1 h
    rw [(enacts_carryOut hfirst).now_eq] at htell
    refine ⟨_, Checked.bind_eq_ok_iff.2 ⟨_, rfl, Checked.bind_eq_ok_iff.2 ⟨_, htell, rfl⟩⟩, ?_⟩
    -- The host is stored before the first effects instead of after them.
    rw [List.foldlM_cons, carryOut_setHost, hfirst]
    exact hrest
  · rintro ⟨meeting, hheed, hfollow⟩
    obtain ⟨_, houtcome, hheed⟩ := Checked.bind_eq_ok_iff.1 hheed
    obtain rfl := Except.ok.inj houtcome
    obtain ⟨⟨host', answers⟩, htell, hpure⟩ := Checked.bind_eq_ok_iff.1 hheed
    obtain rfl := Checked.pure_eq_ok_iff.1 hpure
    rw [List.foldlM_cons, carryOut_setHost] at hfollow
    cases hfirst : s.carryOut id connection.home reaction.toEffects with
    | error overflow =>
      rw [hfirst] at hfollow
      exact absurd hfollow (by simp [Except.map, bind, Except.bind])
    | ok mid =>
      rw [hfirst] at hfollow
      rw [← (enacts_carryOut hfirst).now_eq] at htell
      exact Checked.bind_eq_ok_iff.2 ⟨mid, hfirst, Checked.bind_eq_ok_iff.2 ⟨_, htell, hfollow⟩⟩

/-- A connection stays where it is, whatever arrives. -/
theorem home_of_onPacket {now : Nat} {packet : Packet} {c c' : Connection} {reaction : Reaction}
    (h : c.onPacket now packet = .ok (c', reaction)) : c'.home = c.home :=
  (Party.moves_of_onPacket (p := { toConnection := c }) h).home_eq

/-- A connection stays where it is, whichever alarm rings. -/
theorem home_of_onAlarm {now : Nat} {watch : Alarm.Watch} {c c' : Connection} {reaction : Reaction}
    (h : c.onAlarm now watch = .ok (c', reaction)) : c'.home = c.home :=
  (Party.moves_of_onAlarm (p := { toConnection := c }) h).home_eq

/-- What a host makes of something that reaches its connection. -/
theorem heed_eq_ok_iff {now : Nat} {outcome : Checked (Connection × Reaction)}
    {meeting : Host α × List Effects} :
    host.heed now outcome = .ok meeting ↔
      ∃ reached, outcome = .ok reached ∧ host.heed now (.ok reached) = .ok meeting :=
  Checked.bind_eq_ok_iff

/-- What happens if nobody is there. A host that does not exist can neither start nor have an alarm.
-/
theorem happen_eq_ok_of_none (h : ∀ id, s.actor? target happening = some id → s.host? id = none) :
    s.happen target happening = .ok (s.pass happening) := by
  cases happening with
  | start =>
    rw [happen, startHost, h target rfl]
    rfl
  | alarm watch =>
    rw [happen, ring, h target rfl]
    rfl
  | arrival packet =>
    rw [happen, arrive, pass, Network.route]
    cases hactor : s.network.actorAt? packet.destination with
    | none => rfl
    | some id =>
      have hnone : ({ s with network := s.network } : Simulation σ α).host? id = none := h id hactor
      dsimp only
      rw [hnone]
      rfl

/-- Something reaches the connection of a host, which reacts. The host stays where it is. -/
theorem reach_eq_ok_iff {outcome : Checked (Connection × Reaction)}
    (hhome : ∀ {connection reaction}, outcome = .ok (connection, reaction) →
      connection.home = home) :
    (outcome >>= fun (connection, reaction) ↦ s.react id { host with connection } reaction) =
        .ok s' ↔
      ∃ meeting, host.heed s.now outcome = .ok meeting ∧
        meeting.2.foldlM (fun s effects ↦ s.carryOut id home effects) (s.setHost id meeting.1) =
          .ok s' := by
  constructor
  · intro h
    obtain ⟨⟨connection, reaction⟩, rfl, hreact⟩ := Checked.bind_eq_ok_iff.1 h
    exact (react_eq_ok_iff (hhome rfl)).1 hreact
  · rintro ⟨meeting, hheed, hfollow⟩
    obtain ⟨⟨connection, reaction⟩, rfl, hheed⟩ := heed_eq_ok_iff.1 hheed
    exact Checked.bind_eq_ok_iff.2 ⟨_, rfl,
      (react_eq_ok_iff (hhome rfl)).2 ⟨meeting, hheed, hfollow⟩⟩

/-- What happens to a host that is there, one case for each thing that can. -/
theorem happen_eq_ok_iff_of_some (hactor : s.actor? target happening = some id)
    (hhost : s.host? id = some host) :
    s.happen target happening = .ok s' ↔ ∃ meeting, host.meet s.now happening = .ok meeting ∧
      meeting.2.foldlM (fun s effects ↦ s.carryOut id host.connection.home effects)
        (s.setHost id meeting.1) = .ok s' := by
  cases happening with
  | start =>
    obtain rfl := Option.some.inj hactor
    rw [happen, startHost, hhost]
    constructor
    · intro h
      obtain ⟨response, hstart, hrest⟩ := Checked.bind_eq_ok_iff.1 h
      exact ⟨_, Checked.bind_eq_ok_iff.2 ⟨_, hstart, rfl⟩, by simpa using hrest⟩
    · rintro ⟨meeting, hmeet, hfollow⟩
      obtain ⟨response, hstart, hpure⟩ := Checked.bind_eq_ok_iff.1 hmeet
      obtain rfl := Checked.pure_eq_ok_iff.1 hpure
      exact Checked.bind_eq_ok_iff.2 ⟨response, hstart, by simpa using hfollow⟩
  | arrival packet =>
    have hroute : s.network.actorAt? packet.destination = some id := hactor
    rw [happen, arrive, Network.route, hroute]
    dsimp only
    rw [hhost]
    exact reach_eq_ok_iff home_of_onPacket
  | alarm watch =>
    obtain rfl := Option.some.inj hactor
    rw [happen, ring, hhost]
    exact reach_eq_ok_iff home_of_onAlarm

/-- **What happens is that an answer is followed.** Either somebody is there to have its turn, or
nothing is answered and nobody acts. -/
theorem happen_eq_ok_iff :
    s.happen target happening = .ok s' ↔
      ∃ answer, s.answer? target happening = .ok answer ∧ s.follow happening answer = .ok s' := by
  by_cases hnone : ∀ id, s.actor? target happening = some id → s.host? id = none
  · rw [happen_eq_ok_of_none hnone, answer?_eq_none hnone]
    constructor
    · intro h
      exact ⟨none, rfl, h⟩
    · rintro ⟨answer, hanswer, hfollow⟩
      obtain rfl := Except.ok.inj hanswer
      exact hfollow
  · simp only [not_forall] at hnone
    obtain ⟨id, hactor, hsome⟩ := hnone
    obtain ⟨host, hhost⟩ := Option.ne_none_iff_exists'.1 hsome
    rw [happen_eq_ok_iff_of_some hactor hhost]
    constructor
    · rintro ⟨meeting, hmeet, hfollow⟩
      exact ⟨_, (answer?_eq_ok_iff hactor hhost).2 ⟨meeting, hmeet, rfl⟩, hfollow⟩
    · rintro ⟨answer, hanswer, hfollow⟩
      obtain ⟨meeting, hmeet, rfl⟩ := (answer?_eq_ok_iff hactor hhost).1 hanswer
      exact ⟨meeting, hmeet, hfollow⟩

end ReliableStream.Simulation
