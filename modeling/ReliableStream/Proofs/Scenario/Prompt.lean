import ReliableStream.Proofs.Scenario.OnTime

/-!
# Nothing is sent again without need

A scenario is `Prompt` if its network loses nothing and a round trip, with the longest delays there
are, takes less time than any alarm. Then no alarm is ever heeded: no segment is sent a second time
and no handshake fails, whatever is drawn and however often packets are duplicated or overtake each
other (`Comes.no_resends`). All alarms that are set for segments and handshakes still ring, each for
nothing.

Alarms are held within the time there is, so one that is set too near the end of time could ring
before an acknowledgement arrives. `SetsInFull` excludes that; it is not needed in a run that ends
(see `Begins.completes`).
-/

namespace ReliableStream.Scenario

open Party Simulation

variable {σ : Type} {sc : Scenario} {limit : Nat} {s s' : Simulation σ Peer} {v c p q : Party}
  {e : Agenda.Entry Happening} {agenda : Agenda Happening} {input : Input} {r : Reaction}

/-- Nothing is lost, and a round trip takes less time than any alarm. -/
structure Prompt (sc : Scenario) : Prop where
  /-- The server and the client are at different places. -/
  server_ne_client : sc.server ≠ sc.client
  /-- Nothing is lost. -/
  noLoss : sc.faults.loss.isZero
  /-- A round trip takes less time than it takes until a segment is sent again. -/
  lt_rto : 2 * sc.faults.latest < sc.settings.rto
  /-- It takes less time than a handshake may take. -/
  lt_handshakeTimeout : 2 * sc.faults.latest < sc.settings.handshakeTimeout
  /-- The client starts within the time there is. -/
  clientStart_le : sc.clientStart ≤ maxWord

theorem Prompt.lt_delay (h : sc.Prompt) (watch : Alarm.Watch) :
    2 * sc.faults.latest < watch.delay sc.settings := by
  cases watch with
  | segment | handshakeRetry => exact h.lt_rto
  | handshakeDeadline => exact h.lt_handshakeTimeout

/-- No alarm is held back that a step sets: there is an instant at which its delay is over. -/
def SetsInFull (sc : Scenario) (s s' : Simulation σ Peer) : Prop :=
  ∀ id, ∀ x ∈ s'.alarmsOf id, x ∈ s.alarmsOf id ∨ s'.now + x.2.delay sc.settings ≤ maxWord

instance : Decidable (sc.SetsInFull s s') :=
  decidable_of_iff (∀ f ∈ s'.agenda.entries, ∀ x ∈ alarmOf? f.target f,
      x ∈ s.alarmsOf f.target ∨ s'.now + x.2.delay sc.settings ≤ maxWord) <| by
    refine ⟨fun h id x hx ↦ ?_, fun h f hf x hx ↦ h f.target x (List.mem_filterMap.2 ⟨f, hf, hx⟩)⟩
    obtain ⟨f, hf, hx⟩ := List.mem_filterMap.1 hx
    obtain rfl := target_of_alarmOf? hx
    exact h f hf x hx

/-- Alarms ring after more than a round trip if none is held back, or if that is said only of
instants before the last one. -/
theorem Prompt.actsInTime (h : sc.Prompt) {parties : List Party} (hruns : sc.Runs s parties)
    (hp : p ∈ parties) (hnext : s.agenda.next? = some (e, agenda)) {i : Nat} {peer : Peer}
    (hacts : Acts (· = []) (i + 1) peer input p r q { s with agenda } s')
    (hinput : ∀ watch, input ≠ .alarm watch) (hlimit : limit ≤ maxWord ∨ sc.SetsInFull s s') :
    sc.ActsInTime limit s s' e input p r q := by
  have hpasses := hacts.passes hnext
  have hturn : p.Turn e.time input r q := (passes_next hnext).now_eq ▸ hacts.turn
  exact
    { turn := hturn
      passes := hpasses
      due := fun hpacket hP ↦ by
        have hdue := hacts.due hnext (by rw [hruns.faults_eq]; exact h.noLoss) hpacket hP
        rw [hruns.faults_eq] at hdue
        exact hdue
      underway := hacts.underway hnext
      alarms := fun id x hx ↦ by
        rcases hacts.alarms hnext id x hx with hold | ⟨alarm, halarm, rfl⟩
        · exact .inl hold
        have hdelay := (hturn.proceeds (hruns.sound.party hp) hinput).delay_eq alarm halarm
        rw [hruns.settings_eq p hp] at hdelay
        have hlt := h.lt_delay alarm.watch
        rcases hlimit with hlimit | hfull
        · refine .inr ?_
          rw [Outlasts, Alarm.due, saturatingAdd]
          omega
        · -- The alarm is due after its delay, since that ends while there is time.
          refine (hfull id _ hx).imp_right fun hroom ↦ ?_
          have hle : e.time + alarm.watch.delay sc.settings ≤ maxWord := hpasses.now_eq ▸ hroom
          rw [Outlasts, Alarm.due, saturatingAdd]
          omega }

/-- A host acts that is not called by an alarm, and all stays in time: it is the server or the
client, and it starts or gets a packet. -/
theorem OnTime.takes (h : sc.OnTime limit s v c) (hruns : sc.Runs s [v, c])
    (hprompt : sc.Prompt) (hnext : s.agenda.next? = some (e, agenda))
    (hno : ∀ watch, e.action ≠ .model (.alarm watch)) {parties : List Party}
    (hsound : s'.Sound (· = []) parties) (htakes : Takes (· = []) s s' e agenda [v, c] parties)
    (hlimit : limit ≤ maxWord ∨ sc.SetsInFull s s') :
    (∃ v' c', sc.Runs s' [v', c'] ∧ sc.OnTime limit s' v' c') ∧ Grows agenda s'.agenda := by
  have hruns' := hruns.takes hnext hsound htakes hno
  cases htakes with
  | @mk i host input p q r hi hp hreaches honce hacts =>
    obtain ⟨_, -, -, -, hcarries⟩ := hacts.carries
    refine ⟨?_, hcarries.grows⟩
    have hintime := hprompt.actsInTime hruns (List.mem_of_getElem? hp) hnext hacts
      (hreaches.ne_alarm hno) hlimit
    -- The host that acts is the server or the client.
    rcases Runs.eq_or_eq_of_getElem? hp with ⟨rfl, rfl⟩ | ⟨rfl, rfl⟩
    · refine ⟨q, c, hruns', ?_⟩
      cases hreaches with
      | start _ htarget hfresh =>
        obtain ⟨_, inbox, hhost, happlication, -⟩ := hruns.exists_server
        obtain rfl := Option.some.inj (hi.symm.trans hhost)
        rw [happlication] at hintime
        exact h.server_starts hintime htarget hfresh
      | arrival harrival hactor =>
        have hhome := Routed.home_eq hruns.routed hactor hp
        exact h.server_acts hruns hintime harrival (mem_underway_of_next? hnext harrival)
          (hhome.symm.trans hruns.home_eq.1)
      | alarm hring => exact absurd hring (hno _)
    · refine ⟨v, q, hruns', ?_⟩
      cases hreaches with
      | start _ htarget hfresh =>
        obtain ⟨_, hhost, happlication, -⟩ := hruns.exists_client
        obtain rfl := Option.some.inj (hi.symm.trans hhost)
        rw [happlication] at hintime
        exact h.client_starts hruns hintime htarget hfresh
      | arrival harrival hactor =>
        have hhome := Routed.home_eq hruns.routed hactor hp
        exact h.client_acts hruns hintime hruns' harrival (mem_underway_of_next? hnext harrival)
          (hhome.symm.trans hruns.home_eq.2)
      | alarm hring => exact absurd hring (hno _)

/-- An entry is taken other than the end, and something happens. All stays in time. -/
theorem OnTime.happen [DrawSource σ] (h : sc.OnTime limit s v c) (hruns : sc.Runs s [v, c])
    (hprompt : sc.Prompt) (hnext : s.agenda.next? = some (e, agenda)) {happening : Happening}
    (haction : e.action = .model happening)
    (hhappen : { s with agenda }.happen e.target happening = .ok s')
    (htime : ∀ watch, happening = .alarm watch → e.time < limit)
    (hlimit : limit ≤ maxWord ∨ sc.SetsInFull s s') :
    (∃ v' c', sc.Runs s' [v', c'] ∧ sc.OnTime limit s' v' c') ∧ Grows agenda s'.agenda := by
  by_cases halarm : ∃ watch, happening = .alarm watch
  · obtain ⟨watch, rfl⟩ := halarm
    have hquiet := h.quiet hruns hnext haction (htime watch rfl)
    obtain rfl := Except.ok.inj ((ring_of_quiet hquiet).symm.trans hhappen)
    have hrests := rests_next hnext (by simp [startOf?, haction]) (by simp [arrivalOf?, haction])
    exact ⟨⟨v, c, hruns.rest (hruns.sound.quiet hnext haction hquiet) hrests, h.rest hrests⟩,
      .refl _⟩
  · have hno : ∀ watch, e.action ≠ .model (.alarm watch) := fun watch heq ↦
      halarm ⟨watch, Agenda.Action.model.inj (haction.symm.trans heq)⟩
    obtain ⟨hserver, hclient⟩ := h.peers hruns
    rcases hruns.sound.happen hnext haction hhappen with ⟨-, hunheard⟩ | ⟨_, hsound, htakes⟩
    · exact absurd hunheard (hruns.not_unheard hnext hserver hclient)
    · exact h.takes hruns hprompt hnext hno hsound htakes hlimit

/-! ### Any number of steps -/

/-- The simulations that a scenario comes to, as long as no alarm is held back by the end of time.
The end may be set. -/
inductive Comes [DrawSource σ] (sc : Scenario) : Simulation σ Peer → Prop
  /-- It begins. -/
  | begins {s : Simulation σ Peer} (h : sc.Begins s) : Comes sc s
  /-- The end is set. -/
  | closeAt {s : Simulation σ Peer} {time : Nat} (h : Comes sc s) (htime : time ≤ maxWord) :
    Comes sc (s.closeAt time)
  /-- A step is taken. -/
  | step {s s' : Simulation σ Peer} {running : Bool} (h : Comes sc s)
    (hstep : s.step = .ok (running, s')) (hfull : sc.SetsInFull s s') : Comes sc s'

variable [DrawSource σ]

/-- At the beginning all is in time. -/
theorem Begins.exists_onTime (h : sc.Begins s) (hprompt : sc.Prompt) (limit : Nat) :
    ∃ v c, sc.Runs s [v, c] ∧ sc.OnTime limit s v c := by
  obtain ⟨v, c, hruns, hv, hc, hentries⟩ :=
    h.exists_runs hprompt.server_ne_client hprompt.clientStart_le
  have hserver : ⟨0, 0, 1, .model .start⟩ ∈ s.agenda.entries := by simp [hentries]
  have hclient : ⟨sc.clientStart, 1, 2, .model .start⟩ ∈ s.agenda.entries := by simp [hentries]
  exact ⟨v, c, hruns, .fresh hv hc hserver ⟨_, hclient, rfl, rfl, Nat.le_refl _⟩⟩

/-- It stays so. Nothing is to come later than there is time. -/
theorem Comes.exists_onTime (h : sc.Comes s) (hprompt : sc.Prompt) :
    ∃ v c, sc.Runs s [v, c] ∧ sc.OnTime (maxWord + 1) s v c := by
  induction h with
  | begins h => exact h.exists_onTime hprompt _
  | @closeAt s time _ htime ih =>
    obtain ⟨v, c, hruns, hontime⟩ := ih
    have hrests := rests_closeAt (s := s) time
    exact ⟨v, c, hruns.rest (hruns.sound.closeAt htime).1 hrests, hontime.rest hrests⟩
  | step _ hstep hfull ih =>
    obtain ⟨v, c, hruns, hontime⟩ := ih
    cases steps_of_step hstep with
    | idle => exact ⟨v, c, hruns, hontime⟩
    | close hnext haction =>
      obtain ⟨hruns', hrests⟩ := hruns.ends hnext haction _
      exact ⟨v, c, hruns', hontime.rest hrests⟩
    | happen hnext haction hhappen =>
      have hmem := (Agenda.next?_eq_some hnext).1 ▸ List.mem_cons_self ..
      exact (hontime.happen hruns hprompt hnext haction hhappen
        (fun _ _ ↦ Nat.lt_succ_of_le (hruns.sound.timely.time_le _ hmem)) (.inr hfull)).1

/-- **Nothing is sent again without need.** Wherever chance comes from, and after any number of
steps, nobody has sent anything again and no handshake has failed; and if an alarm is the next to
ring, then a step only moves the clock. -/
theorem Comes.no_resends (h : sc.Comes s) (hprompt : sc.Prompt) :
    (∀ host ∈ s.hosts, host.connection.stats.resends = 0 ∧
        ∀ segment ∈ host.connection.inFlight.toList, segment.resends = 0) ∧
      (∀ record ∈ s.trace, record.event ≠ .handshakeFailed) ∧
      ∀ {e agenda watch}, s.agenda.next? = some (e, agenda) → e.action = .model (.alarm watch) →
        s.step = .ok (true, { s with agenda }) := by
  obtain ⟨v, c, hruns, hontime⟩ := h.exists_onTime hprompt
  refine ⟨fun host hhost ↦ ?_, hruns.noFailure, fun {e agenda watch} hnext haction ↦ ?_⟩
  · obtain ⟨i, hi⟩ := List.getElem?_of_mem hhost
    obtain ⟨p, hp, hplays⟩ := hruns.sound.exists_party hi
    rw [hplays.connection_eq]
    exact hruns.resends_eq p (List.mem_of_getElem? hp)
  · have hmem : e ∈ s.agenda.entries := (Agenda.next?_eq_some hnext).1 ▸ List.mem_cons_self ..
    have hquiet := hontime.quiet hruns hnext haction
      (Nat.lt_succ_of_le (hruns.sound.timely.time_le e hmem))
    rw [Simulation.step, hnext]
    dsimp only
    rw [haction]
    dsimp only [happen]
    rw [ring_of_quiet hquiet]
    rfl

/-! ### A run

A client sends five bytes to a server in segments of two, two at a time. Every packet arrives twice,
and every copy is held back.
-/

/-- Takes steps, if none overflows and no alarm is held back. -/
def stepsInFull (sc : Scenario) : Nat → Simulation σ Peer → Option (Simulation σ Peer)
  | 0, s => some s
  | n + 1, s =>
    match s.step with
    | .error _ => none
    | .ok (_, s') => if sc.SetsInFull s s' then sc.stepsInFull n s' else none

theorem Comes.stepsInFull {n : Nat} (h : sc.Comes s) (hsteps : sc.stepsInFull n s = some s') :
    sc.Comes s' := by
  induction n generalizing s with
  | zero =>
    obtain rfl := Option.some.inj hsteps
    exact h
  | succ n ih =>
    rw [Scenario.stepsInFull] at hsteps
    split at hsteps
    · exact absurd hsteps (by simp)
    · next hstep =>
      split at hsteps
      · next hfull => exact ih (h.step hstep hfull) hsteps
      · exact absurd hsteps (by simp)

/-- A scenario in which every packet arrives twice if all draws are zero. -/
def allTwice : Scenario where
  name := "all_twice"
  faults := { Network.Faults.perfect with
    reorder := .ofRatio false 1 2, duplicate := .ofRatio false 1 2,
    minDelay := 100 * Time.millisecond, maxDelay := 300 * Time.millisecond,
    maxExtra := 300 * Time.millisecond }
  settings := { mtu := 2, window := 2 }
  server := ⟨10, 0, 0, 2, 80⟩
  client := ⟨10, 0, 0, 1, 4000⟩
  clientStart := Time.second
  message := [1, 2, 3, 4, 5]
  duration := 5 * Time.second

theorem prompt_allTwice : allTwice.Prompt where
  server_ne_client := by decide
  noLoss := by decide
  lt_rto := by decide +kernel
  lt_handshakeTimeout := by decide +kernel
  clientStart_le := by decide

/-- All is acknowledged, and the alarm of the client's opening is the next one of five that are
still to ring. -/
theorem no_resends_allTwice :
    ∃ s : Simulation Dealt Peer, allTwice.Comes s ∧
      (s.agenda.entries.head?.map (·.action), (s.alarmsOf 2).length) =
        (some (.model (.alarm (.handshakeRetry 1))), 5) ∧
      (∀ host ∈ s.hosts, host.connection.stats.resends = 0 ∧
        ∀ segment ∈ host.connection.inFlight.toList, segment.resends = 0) ∧
      (∀ record ∈ s.trace, record.event ≠ .handshakeFailed) ∧
      ∀ {e agenda watch}, s.agenda.next? = some (e, agenda) → e.action = .model (.alarm watch) →
        s.step = .ok (true, { s with agenda }) := by
  have hrun : (allTwice.setupFrom Dealt.zeros .zeros).toOption.bind (fun setup ↦
      (allTwice.stepsInFull 34 setup.simulation).map fun s ↦
        (s.agenda.entries.head?.map (·.action), (s.alarmsOf 2).length)) =
      some (some (.model (.alarm (.handshakeRetry 1))), 5) := by decide +kernel
  obtain ⟨setup, hsetup, hrest⟩ := Option.bind_eq_some_iff.1 hrun
  obtain ⟨s', hs', hfacts⟩ := Option.map_eq_some_iff.1 hrest
  have hbegins : allTwice.Begins setup.simulation :=
    ⟨_, _, _, setup, toOption_eq_some_iff.1 hsetup, rfl⟩
  have hcomes := (Comes.begins hbegins).stepsInFull hs'
  exact ⟨s', hcomes, hfacts, hcomes.no_resends prompt_allTwice⟩

end ReliableStream.Scenario
