import ReliableStream.Proofs.Simulation.Stages

/-!
# All handshakes at once

What is known of one handshake rests on the others: a reply is expected because whoever sends it has
heard of the party it goes to. `s.Tracks parties began` says what is known of all handshakes
together, if no two hosts are at the same place. It is kept if nothing happens (`Tracks.rest`), when
a party joins (`Tracks.join`) and when a host acts (`Tracks.takes`).

When a handshake began is not to be read off a simulation. `Recounts initial s began` comes to `s`
step by step and takes note of it. One can do so on the way to any simulation
(`Reachable.exists_recounts`), and `Tracks` holds of all of them (`Recounts.exists_tracks`).

Where several hosts have the same place, the trace does not say whose handshake it tells of. So
nothing is said of such simulations. One may come to them, though, and so what is shown step by step
has always the form that `Tracks` holds if all places are different.
-/

namespace ReliableStream.Simulation

open Party

variable {σ : Type} {initial : Bytes → Prop} {s s' : Simulation σ Peer}
  {parties parties' : List Party} {began began' : Nat → List Nat} {e : Agenda.Entry Happening}
  {agenda : Agenda Happening} {id time : Nat}

/-! ### Nothing happens -/

/-- The simulation goes on, and nothing happens to anybody's handshake. -/
structure Calm (s s' : Simulation σ Peer) : Prop where
  /-- The clock is not set back. -/
  now_le : s.now ≤ s'.now
  /-- Alarms are still to come. -/
  kept : ∀ f ∈ s.agenda.entries, ∀ id, (alarmOf? id f).isSome → f ∈ s'.agenda.entries
  /-- Nothing new arrives. -/
  arrivals : ∀ f ∈ s'.agenda.entries, (arrivalOf? f).isSome → f ∈ s.agenda.entries
  /-- Nothing is told. -/
  outcomes_eq : ∀ home, s'.outcomes home = s.outcomes home

namespace Calm

theorem spares (h : Calm s s') (id : Nat) (p : Party) : Spares id p s s' where
  now_le := h.now_le
  kept _ f hf _ halarm := h.kept f hf id (by simp [halarm])
  arrivals f hf harrival := .inl (h.arrivals f hf harrival)
  outcomes_eq := h.outcomes_eq p.home

theorem underway_sub (h : Calm s s') : ∀ packet ∈ s'.underway, packet ∈ s.underway := by
  intro packet hpacket
  obtain ⟨f, hf, harrival⟩ := List.mem_filterMap.1 hpacket
  exact List.mem_filterMap.2 ⟨f, h.arrivals f hf (by simp [harrival]), harrival⟩

/-- The agenda stays as it is, so all is calm if nothing is told. -/
theorem of_agenda_eq (hagenda : s'.agenda = s.agenda)
    (houtcomes : ∀ home, s'.outcomes home = s.outcomes home) : Calm s s' where
  now_le := Nat.le_of_eq (congrArg Agenda.now hagenda).symm
  kept _ hf _ _ := hagenda ▸ hf
  arrivals _ hf _ := hagenda ▸ hf
  outcomes_eq := houtcomes

/-- Something is put on the agenda that is no arrival: a start, an alarm or an end. -/
theorem of_put {target : Nat} {action : Agenda.Action Happening}
    (hagenda : s'.agenda = s.agenda.put time target action)
    (haction : ∀ packet, action ≠ .model (.arrival packet))
    (houtcomes : ∀ home, s'.outcomes home = s.outcomes home) : Calm s s' where
  now_le := Nat.le_of_eq (congrArg Agenda.now hagenda).symm
  kept f hf _ _ := by
    rw [hagenda]
    exact (s.agenda.entries_put_perm time target action).mem_iff.2 (List.mem_cons_of_mem _ hf)
  arrivals f hf harrival := by
    rw [hagenda] at hf
    refine (Agenda.mem_place.1 hf).resolve_left ?_
    rintro rfl
    obtain ⟨packet, hpacket⟩ := Option.isSome_iff_exists.1 harrival
    exact haction packet (action_of_arrivalOf? hpacket)
  outcomes_eq := houtcomes

/-- An entry is taken that is no alarm, and nothing more happens. -/
theorem of_next (hnext : s.agenda.next? = some (e, agenda)) (halarm : ∀ id, alarmOf? id e = none)
    (hagenda : s'.agenda = agenda) (houtcomes : ∀ home, s'.outcomes home = s.outcomes home) :
    Calm s s' where
  now_le := by
    subst hagenda
    exact (passes_next hnext).now_le_now
  kept f hf id hset := by
    subst hagenda
    refine ((passes_next hnext).kept f hf).resolve_left ?_
    rintro rfl
    exact absurd hset (by simp [halarm])
  arrivals f hf _ := by
    rw [(Agenda.next?_eq_some hnext).1, ← hagenda]
    exact List.mem_cons_of_mem _ hf
  outcomes_eq := houtcomes

end Calm

/-- A packet that arrives where no host is is told of as undeliverable, or not at all. Either way
nothing is told of handshakes. -/
theorem calm_of_unheard [DrawSource σ] {happening : Happening} (h : s.Unheard e)
    (hnext : s.agenda.next? = some (e, agenda)) (haction : e.action = .model happening)
    (hhappen : { s with agenda }.happen e.target happening = .ok s') :
    Calm s s' ∧ s'.hosts = s.hosts ∧ s'.network.routes = s.network.routes := by
  obtain ⟨packet, harrival, hnobody⟩ := h
  have halarm (id : Nat) : alarmOf? id e = none := by simp [alarmOf?, harrival]
  obtain rfl : happening = .arrival packet :=
    Agenda.Action.model.inj (haction.symm.trans harrival)
  rw [happen, Simulation.arrive, Network.route] at hhappen
  cases hroute : s.network.actorAt? packet.destination with
  | none =>
    simp only [hroute] at hhappen
    obtain rfl := Checked.pure_eq_ok_iff.1 hhappen
    exact ⟨.of_next hnext halarm rfl fun home ↦ outcomes_record_of_not _ home rfl _, rfl, rfl⟩
  | some id =>
    have hnone : ({ s with agenda } : Simulation σ Peer).host? id = none := hnobody hroute
    simp only [hroute, hnone] at hhappen
    obtain rfl := Checked.pure_eq_ok_iff.1 hhappen
    exact ⟨.of_next hnext halarm rfl fun home ↦ outcomes_congr rfl home, rfl, rfl⟩

/-! ### All handshakes at once -/

/-- What is known of all handshakes if no two hosts are at the same place. -/
structure Tracks (s : Simulation σ Peer) (parties : List Party) (began : Nat → List Nat) :
    Prop where
  /-- The parties keep their peers. -/
  settled : Settled parties s.underway
  /-- They are registered where they are. -/
  routed : s.Routed parties
  /-- Replies are expected. -/
  expected : Expected parties s.underway
  /-- Nothing is told of places where nobody is. -/
  silent : ∀ home ∉ parties.map (·.home), s.outcomes home = []
  /-- Each handshake is somewhere. -/
  stages : ∀ {i p}, parties[i]? = some p → s.Stage (i + 1) p (began (i + 1))
  /-- Who is not there has not begun. -/
  nobody : ∀ {id}, s.host? id = none → began id = []

namespace Tracks

/-- Nothing happens, and each handshake is where it was. -/
theorem rest (h : s.Tracks parties began) (hcalm : Calm s s')
    (hroutes : s'.network.routes = s.network.routes) (hhosts : s'.hosts = s.hosts) :
    s'.Tracks parties began where
  settled := h.settled.subset hcalm.underway_sub
  routed hmem := by
    rw [hroutes] at hmem
    exact h.routed hmem
  expected := h.expected.subset hcalm.underway_sub
  silent home hhome := (hcalm.outcomes_eq home).trans (h.silent home hhome)
  stages hp := (h.stages hp).spared (hcalm.spares _ _)
  nobody hnone := h.nobody (host?_eq_none (congrArg List.length hhosts) hnone)

/-- **A new party joins.** Its handshake has not begun, and nothing was told of its place, as nobody
was there before. -/
theorem join {home : Endpoint} {settings : Connection.Settings} {valid : settings.Valid}
    {peer : Peer} {start isn : Nat} (h : s.Tracks parties began) (hsound : s.Sound initial parties)
    (hjoins : Joins s s' peer start (Party.create home settings valid isn))
    (hplaced : Settled (parties ++ [Party.create home settings valid isn]) s'.underway ∧
      s'.Routed (parties ++ [Party.create home settings valid isn]))
    (hhome : home ∉ parties.map (·.home)) :
    s'.Tracks (parties ++ [Party.create home settings valid isn]) began := by
  have hcalm : Calm s s' := .of_put hjoins.agenda_eq (by simp) hjoins.outcomes_eq
  have hlength : s'.hosts.length = parties.length + 1 := by
    rw [hjoins.hosts_eq, List.length_append, hsound.length_eq, List.length_singleton]
  have hnobody {id : Nat} (hid : parties.length < id) : began id = [] := by
    obtain ⟨i, rfl⟩ := Nat.exists_eq_add_of_lt hid
    exact h.nobody (List.getElem?_eq_none (by rw [← hsound.length_eq]; omega))
  refine
    { settled := hplaced.1, routed := hplaced.2, silent := ?silent, stages := ?stages
      expected := (h.expected.subset hcalm.underway_sub).join, nobody := ?nobody }
  case silent =>
    intro place hplace
    rw [hcalm.outcomes_eq]
    refine h.silent place fun hmem ↦ hplace ?_
    rw [List.map_append]
    exact List.mem_append_left _ hmem
  case stages =>
    intro i p hp
    rcases cases_of_getElem?_concat hp with hold | ⟨rfl, rfl⟩
    · exact (h.stages hold).spared (hcalm.spares _ _)
    · rw [hnobody (Nat.lt_succ_self _)]
      -- The new party has not begun, and nothing was told of its place.
      exact .waiting (.inl rfl) rfl ((hcalm.outcomes_eq home).trans (h.silent home hhome))
  case nobody =>
    intro id hnone
    cases id with
    | zero => exact h.nobody rfl
    | succ i =>
      have hle : s'.hosts.length ≤ i := List.getElem?_eq_none_iff.1 hnone
      exact hnobody (by omega)

/-- When a host acts, the handshakes of the others stay as they are: no alarm of theirs rings, and
nothing is told of their places. -/
theorem stage_of_other {i j : Nat} {peer : Peer} {input : Input} {p q other : Party} {r : Reaction}
    {dates : List Nat} (h : s.Tracks parties began) (hnodup : (parties.map (·.home)).Nodup)
    (hp : parties[i]? = some p) (hj : parties[j]? = some other) (hij : i ≠ j)
    (hnext : s.agenda.next? = some (e, agenda)) (hreaches : Reaches s e i peer p input)
    (hacts : Acts initial (i + 1) peer input p r q { s with agenda } s')
    (hdates : Dates (j + 1) s s' (began (j + 1)) dates) : s'.Stage (j + 1) other dates := by
  obtain ⟨host', -, -, -, hcarries⟩ := hacts.carries
  have hne : j + 1 ≠ i + 1 := fun heq ↦ hij (Nat.succ.inj heq).symm
  have hhost : s'.host? (j + 1) = s.host? (j + 1) := by
    rw [host?, hcarries.hosts_eq]
    exact List.getElem?_set_ne hij
  have hhome : other.home ≠ p.home :=
    fun heq ↦ hij (index_eq_of_place_eq hnodup hp hj heq.symm)
  rw [hdates.rests (hreaches.not_opens hnext hne hhost)]
  exact (h.stages hj).spared (hacts.spares_other hnext hreaches hne hhome)

/-- **A host acts.** What becomes of its own handshake is `Stage.acts`, which needs to know what is
expected of the others. Theirs stay as they are. -/
theorem takes (h : s.Tracks parties began) (hsound : s.Sound initial parties)
    (hnodup : (parties.map (·.home)).Nodup) (hnext : s.agenda.next? = some (e, agenda))
    (htakes : Takes initial s s' e agenda parties parties')
    (hdates : ∀ id, Dates id s s' (began id) (began' id))
    (hplaced : Settled parties' s'.underway ∧ s'.Routed parties') :
    s'.Tracks parties' began' := by
  cases htakes with
  | @mk i host input p q r hi hp hreaches honce hacts =>
    have hplays := hsound.plays hi hp
    have hlater := hacts.turn.later hplays.sound
    have hhomes := Coherent.map_home_set hp hlater
    have hexpected := h.expected.turn hp hplays.sound honce hacts.turn hplaced.1
      (hacts.underway hnext)
    refine
      { settled := hplaced.1, routed := hplaced.2, expected := hexpected, silent := ?silent
        stages := ?stages, nobody := ?nobody }
    case silent =>
      intro home hhome
      rw [hhomes] at hhome
      have hne : home ≠ p.home := by
        rintro rfl
        exact hhome (List.mem_map_of_mem (List.mem_of_getElem? hp))
      exact (hacts.tells.others home hne).trans (h.silent home hhome)
    case stages =>
      intro j other hj
      rcases cases_of_getElem?_set hj with ⟨rfl, rfl⟩ | ⟨hij, hold⟩
      · exact (h.stages hp).acts hplays hi hp hacts hnext honce hreaches h.expected hnodup h.routed
          (hdates (i + 1))
      · exact h.stage_of_other hnodup hp hold hij hnext hreaches hacts (hdates (j + 1))
    case nobody =>
      intro id hnone
      obtain ⟨host', -, -, -, hcarries⟩ := hacts.carries
      have hold : s.host? id = none :=
        host?_eq_none (by rw [hcarries.hosts_eq]; exact List.length_set) hnone
      rw [(hdates id).rests, h.nobody hold]
      intro hopens
      cases hopens with
      | start _ _ _ hhost | accept _ _ _ hhost => exact absurd (hold.symm.trans hhost) (by simp)

end Tracks

/-! ### Taking note of beginnings -/

/-- Every step can be dated. Whether somebody begins at it is not decided, so it takes a classical
case distinction. -/
theorem exists_dates (s s' : Simulation σ Peer) (began : Nat → List Nat) :
    ∃ began' : Nat → List Nat, ∀ id, Dates id s s' (began id) (began' id) := by
  classical
  exact ⟨fun id ↦ if s.Opens id s' then began id ++ [s'.now] else began id,
    fun id ↦ ⟨fun hopens ↦ if_pos hopens, fun hnot ↦ if_neg hnot⟩⟩

/-- A step at which nobody begins changes no date. -/
theorem eq_of_dates (hdates : ∀ id, Dates id s s' (began id) (began' id))
    (hnot : ∀ id, ¬ s.Opens id s') : began' = began :=
  funext fun id ↦ (hdates id).rests (hnot id)

/-- Nobody begins if no host starts or changes. -/
theorem not_opens_of_hosts_eq (hhosts : s'.hosts = s.hosts)
    (haction : ∀ e agenda, s.agenda.next? = some (e, agenda) → e.action ≠ .model .start)
    (id : Nat) : ¬ s.Opens id s' := by
  intro hopens
  have hhost : s'.host? id = s.host? id := by cases id <;> simp [host?, hhosts]
  obtain ⟨e, agenda, hnext, hstart, -⟩ := hopens.start_of_host_eq hhost
  exact haction e agenda hnext hstart

/-- Parties that have their turns stay where they are. -/
theorem Takes.homes_eq (h : Takes initial s s' e agenda parties parties')
    (hsound : s.Sound initial parties) : parties'.map (·.home) = parties.map (·.home) := by
  obtain ⟨hi, hp, -, -, hacts⟩ := h
  exact Coherent.map_home_set hp (hacts.turn.later (hsound.plays hi hp).sound)

variable [DrawSource σ]

/-- A host that is refused leaves all as it was, but where sequence numbers are drawn from. -/
theorem eq_of_addHost {home : Endpoint} {settings : Connection.Settings} {peer : Peer}
    {start : Nat} {failure : Failure}
    (h : s.addHost home settings peer start = (.error failure, s')) :
    ∃ sequences, s' = { s with sequences } :=
  ⟨_, eq_of_enter h⟩

/-- What one can come to, and when the handshakes of each host began on the way. -/
inductive Recounts (initial : Bytes → Prop) : Simulation σ Peer → (Nat → List Nat) → Prop
  /-- At the beginning none has. -/
  | create {faults : Network.Faults} {draws sequences : σ} {s : Simulation σ Peer}
    {journal : Array Entry} (hcreate : create faults draws sequences = .ok s) :
    Recounts initial { s with journal } fun _ ↦ []
  /-- A host is added, or refused. -/
  | addHost {s : Simulation σ Peer} {began : Nat → List Nat} {home : Endpoint}
    {settings : Connection.Settings} {peer : Peer} {start : Nat} (h : Recounts initial s began)
    (hbegins : peer.Begins initial) (hstart : start ≤ maxWord) :
    Recounts initial (s.addHost home settings peer start).2 began
  /-- The end is set. -/
  | closeAt {s : Simulation σ Peer} {began : Nat → List Nat} {time : Nat}
    (h : Recounts initial s began) (htime : time ≤ maxWord) :
    Recounts initial (s.closeAt time) began
  /-- A step is taken. -/
  | step {s s' : Simulation σ Peer} {began began' : Nat → List Nat} {running : Bool}
    (h : Recounts initial s began) (hstep : s.step = .ok (running, s'))
    (hdates : ∀ id, Dates id s s' (began id) (began' id)) : Recounts initial s' began'

/-- Whatever one can come to, one can tell when the handshakes began. -/
theorem Reachable.exists_recounts (h : s.Reachable initial) :
    ∃ began, Recounts initial s began := by
  induction h with
  | create hcreate => exact ⟨_, .create hcreate⟩
  | addHost _ hbegins hstart ih =>
    obtain ⟨began, ih⟩ := ih
    exact ⟨began, .addHost ih hbegins hstart⟩
  | closeAt _ htime ih =>
    obtain ⟨began, ih⟩ := ih
    exact ⟨began, .closeAt ih htime⟩
  | @step s s' _ _ hstep ih =>
    obtain ⟨began, ih⟩ := ih
    obtain ⟨began', hdates⟩ := exists_dates s s' began
    exact ⟨began', .step ih hstep hdates⟩

/-- **What a step is to everybody's handshakes**: it is idle, the end is reached, a packet is not
heard, or a host acts. In the first three cases nobody begins, so the dates are as they were. -/
theorem Tracks.step {running : Bool} (hsound : s.Sound initial parties)
    (h : (parties.map (·.home)).Nodup → s.Tracks parties began)
    (hstep : s.step = .ok (running, s')) (hdates : ∀ id, Dates id s s' (began id) (began' id)) :
    ∃ parties', s'.Sound initial parties' ∧
      ((parties'.map (·.home)).Nodup → s'.Tracks parties' began') := by
  cases steps_of_step hstep with
  | idle hnext =>
    obtain rfl := eq_of_dates hdates (not_opens_of_hosts_eq rfl fun e agenda hsome ↦
      absurd (hnext.symm.trans hsome) (by simp))
    exact ⟨parties, hsound, h⟩
  | @close e agenda hnext haction =>
    obtain rfl := eq_of_dates hdates (not_opens_of_hosts_eq rfl fun e' agenda' hsome ↦ by
      obtain ⟨rfl, -⟩ := Prod.mk.inj (Option.some.inj (hnext.symm.trans hsome))
      simp [haction])
    have halarm (id : Nat) : alarmOf? id e = none := by simp [alarmOf?, haction]
    have hrest : ({ s with agenda }.note (.ended e.time)).Sound initial parties ∧
        Advance s ({ s with agenda }.note (.ended e.time)) parties parties :=
      hsound.take hnext halarm (by simp [startOf?, haction]) rfl rfl rfl
    refine ⟨parties, hrest.1, fun hnodup ↦ (h hnodup).rest ?_ rfl rfl⟩
    exact .of_next hnext halarm rfl fun home ↦ outcomes_congr rfl home
  | @happen e agenda happening _ hnext haction hhappen =>
    rcases hsound.happen hnext haction hhappen with
      ⟨⟨hrest, -⟩, hunheard⟩ | ⟨parties', hsound', htakes⟩
    · obtain ⟨hcalm, hhosts, hroutes⟩ := calm_of_unheard hunheard hnext haction hhappen
      obtain ⟨packet, harrival, -⟩ := hunheard
      obtain rfl := eq_of_dates hdates (not_opens_of_hosts_eq hhosts fun e' agenda' hsome ↦ by
        obtain ⟨rfl, -⟩ := Prod.mk.inj (Option.some.inj (hnext.symm.trans hsome))
        simp [harrival])
      exact ⟨parties, hrest, fun hnodup ↦ (h hnodup).rest hcalm hroutes hhosts⟩
    · refine ⟨parties', hsound', fun hnodup' ↦ ?_⟩
      have hnodup := hnodup'
      rw [htakes.homes_eq hsound] at hnodup
      -- Nobody moved, so all that is known of different places was known before the step.
      have hplaced := Placed.advance (fun _ ↦ ⟨(h hnodup).settled, (h hnodup).routed⟩) hsound
        (htakes.advance hnext) hnodup'
      exact (h hnodup).takes hsound hnodup hnext htakes hdates hplaced

/-- A host is added to those of whom all handshakes are known, or is refused. -/
theorem Tracks.addHost {home : Endpoint} {settings : Connection.Settings} {peer : Peer}
    {start : Nat} (hsound : s.Sound initial parties)
    (h : (parties.map (·.home)).Nodup → s.Tracks parties began) (hbegins : peer.Begins initial)
    (hstart : start ≤ maxWord) :
    ∃ parties', (s.addHost home settings peer start).2.Sound initial parties' ∧
      ((parties'.map (·.home)).Nodup →
        (s.addHost home settings peer start).2.Tracks parties' began) := by
  generalize hadd : s.addHost home settings peer start = added
  obtain ⟨answer, s'⟩ := added
  cases answer with
  | error failure =>
    obtain ⟨sequences, rfl⟩ := eq_of_addHost hadd
    refine ⟨parties, hsound.rest rfl hsound.timely (fun _ ↦ .refl _) hsound.nodup
      fun _ hmem ↦ hmem, fun hnodup ↦ (h hnodup).rest ?_ rfl rfl⟩
    exact .of_agenda_eq rfl fun home ↦ outcomes_congr rfl home
  | ok id =>
    obtain ⟨-, valid, isn, hisn, hjoins⟩ := exists_joins_of_addHost hadd
    obtain ⟨hsound', hadvance⟩ :=
      hsound.joins hbegins hstart (Nat.lt_trans hisn (by decide)) hjoins
    refine ⟨_, hsound', fun hnodup' ↦ ?_⟩
    obtain ⟨hnodup, hhome⟩ := places_of_concat hnodup'
    have hplaced := Placed.advance
      (fun _ ↦ ⟨(h hnodup).settled, (h hnodup).routed⟩) hsound hadvance hnodup'
    exact (h hnodup).join hsound hjoins hplaced hhome

/-- All handshakes are known, if no two hosts are at the same place. At the beginning there are
none. -/
theorem Recounts.exists_tracks (h : Recounts initial s began) :
    ∃ parties, s.Sound initial parties ∧
      ((parties.map (·.home)).Nodup → s.Tracks parties began) := by
  induction h with
  | @create _ _ _ s journal hcreate =>
    refine ⟨[], sound_create hcreate, fun _ ↦ ?_⟩
    obtain ⟨valid, rfl⟩ := create_eq_ok hcreate
    exact
      { settled := .nil
        routed := fun hmem ↦ absurd hmem List.not_mem_nil
        expected := .nil
        silent := fun _ _ ↦ rfl
        stages := fun hp ↦ absurd hp (by simp)
        nobody := fun _ ↦ rfl }
  | @addHost s began home settings peer start _ hbegins hstart ih =>
    obtain ⟨parties, hsound, htracks⟩ := ih
    exact Tracks.addHost hsound htracks hbegins hstart
  | @closeAt s began time _ htime ih =>
    obtain ⟨parties, hsound, htracks⟩ := ih
    refine ⟨parties, (hsound.closeAt htime).1, fun hnodup ↦ (htracks hnodup).rest ?_ rfl rfl⟩
    exact .of_put rfl (by simp) fun home ↦ outcomes_congr rfl home
  | step _ hstep hdates ih =>
    obtain ⟨parties, hsound, htracks⟩ := ih
    exact Tracks.step hsound htracks hstep hdates

end ReliableStream.Simulation
