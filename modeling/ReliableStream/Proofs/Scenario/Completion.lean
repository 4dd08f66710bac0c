import ReliableStream.Proofs.Scenario.Prompt

/-!
# A transfer is done in time

If a scenario is `Prompt` then its client needs a round trip for the handshake and one for each
window of its message. So a run that ends later than that has transferred the message, whatever is
drawn and however often packets are duplicated or overtake each other (`Begins.completes`).

The run is followed step by step. Its end stays on the agenda until it is reached, and all alarms
are set after it (`Ends`); so those that ring do so before the last instant there is.

Nothing has to be asked about the end of time here. The run ends before it, and whatever alarm is
held back rings at the last instant or later, which the end comes before.
-/

namespace ReliableStream.Scenario

open Party Simulation

variable {σ : Type} {sc : Scenario} {s s' : Simulation σ Peer} {v c : Party} {stop : Nat}
  {e k : Agenda.Entry Happening} {agenda : Agenda Happening}

/-- An entry is the only end on an agenda, and the alarms were put there after it. -/
structure Ends (k : Agenda.Entry Happening) (a : Agenda Happening) : Prop where
  /-- It is on the agenda. -/
  mem : k ∈ a.entries
  /-- It is an end. -/
  action_eq : k.action = .close
  /-- It is the only one. -/
  eq_of_close : ∀ f ∈ a.entries, f.action = .close → f = k
  /-- Alarms were put on the agenda after it. -/
  order_lt : ∀ f ∈ a.entries, ∀ watch, f.action = .model (.alarm watch) → k.order < f.order

/-- An entry that is taken is not the end, so the end is still to come. -/
theorem Ends.next (h : Ends k s.agenda) (hnext : s.agenda.next? = some (e, agenda))
    (haction : e.action ≠ .close) : Ends k agenda := by
  have hentries := (Agenda.next?_eq_some hnext).1
  have hold {f : Agenda.Entry Happening} (hf : f ∈ agenda.entries) : f ∈ s.agenda.entries :=
    hentries ▸ List.mem_cons_of_mem _ hf
  refine
    { mem := (List.mem_cons.1 (hentries ▸ h.mem)).resolve_left ?_
      action_eq := h.action_eq
      eq_of_close := fun f hf ↦ h.eq_of_close f (hold hf)
      order_lt := fun f hf ↦ h.order_lt f (hold hf) }
  rintro rfl
  exact haction h.action_eq

/-- What is put on the agenda is no end, and was put there after it. -/
theorem Ends.grows {a b : Agenda Happening} (h : Ends k a) (hgrows : Grows a b) : Ends k b where
  mem := hgrows.kept k h.mem
  action_eq := h.action_eq
  eq_of_close f hf hclose := by
    rcases hgrows.added f hf with hold | ⟨-, hnot⟩
    · exact h.eq_of_close f hold hclose
    · exact absurd hclose hnot
  order_lt f hf watch halarm := by
    rcases hgrows.added f hf with hold | ⟨hle, -⟩
    · exact h.order_lt f hold watch halarm
    · exact Nat.lt_of_lt_of_le (a.numbered k h.mem) hle

/-- An alarm that rings does so before the end, since at the instant of the end it would be behind
it. -/
theorem Ends.time_lt (h : Ends k s.agenda) (hnext : s.agenda.next? = some (e, agenda))
    {watch : Alarm.Watch} (haction : e.action = .model (.alarm watch)) : e.time < k.time := by
  have hmem : e ∈ s.agenda.entries := (Agenda.next?_eq_some hnext).1 ▸ List.mem_cons_self ..
  have hlt := h.order_lt e hmem watch haction
  rcases (passes_next hnext).first k h.mem with rfl | hbefore
  · exact absurd rfl (Nat.ne_of_lt hlt)
  · rw [Agenda.Entry.Before] at hbefore
    omega

/-- A client that is established and has nothing in flight has transferred its message: nothing is
pending either, and what it has sent and got acknowledged is all of it. -/
theorem Runs.transferred (hruns : sc.Runs s [v, c]) (hstate : c.state = .established)
    (hpeer : c.peer = some sc.server) (hempty : c.inFlight.toList = []) :
    v.heard = sc.message ∧ c.allAcknowledged = true ∧
      c.stats.bytesSent = sc.message.length := by
  have hpending : c.pending = [] := (hruns.pumped c (by simp)).pending_eq_nil hempty
  have hall : c.allAcknowledged = true := by
    rw [Connection.allAcknowledged, Ascending.isEmpty, hempty, hpending]
    rfl
  have hserver : c.peer = some v.home := hpeer.trans (congrArg some hruns.home_eq.1.symm)
  have hclient : v.peer = some c.home :=
    hruns.settled.reciprocal c (by simp) (.inr hstate) v (by simp) hserver
  have hstream := (hruns.length_pieces_client hstate).1
  refine ⟨?_, hall, ?_⟩
  · rw [← hstream]
    exact hruns.settled.coherent.heard_eq_stream (by simp) (by simp) hstate hserver
      (fun _ ↦ hclient) hall
  · obtain ⟨-, acked, sent, hsends⟩ := hruns.sound_client.sends hstate
    have hsent : c.pieces.length ≤ sent :=
      List.drop_eq_nil_iff.1 (hsends.pending_eq.symm.trans hpending)
    have hbytes := hsends.bytesSent_eq.trans hsends.next_eq
    rw [c.cutAt_eq_add, List.take_of_length_le hsent, c.flatten_pieces, hstream] at hbytes
    exact Nat.add_left_cancel hbytes

/-- The end is set while nothing is to come but starts. -/
theorem ends_closeAt (hstarts : ∀ f ∈ s.agenda.entries, f.action = .model .start) (stop : Nat) :
    Ends ⟨max stop s.now, s.agenda.added, 0, .close⟩ (s.closeAt stop).agenda := by
  have hmem {f : Agenda.Entry Happening} (hf : f ∈ (s.closeAt stop).agenda.entries) :
      f = ⟨max stop s.now, s.agenda.added, 0, .close⟩ ∨ f.action = .model .start :=
    (Agenda.mem_place.1 hf).imp_right (hstarts f)
  exact
    { mem := Agenda.mem_place.2 (.inl rfl)
      action_eq := rfl
      eq_of_close := fun f hf hclose ↦
        (hmem hf).resolve_right fun hstart ↦ absurd (hclose.symm.trans hstart) (by simp)
      order_lt := fun f hf watch halarm ↦ by
        rcases hmem hf with rfl | hstart
        · exact absurd halarm (by simp)
        · exact absurd (halarm.symm.trans hstart) (by simp) }

variable [DrawSource σ]

/-- A scenario that begins has nothing on its agenda but two starts. -/
theorem Begins.ends_closeAt (h : sc.Begins s) (hprompt : sc.Prompt) (stop : Nat) :
    Ends ⟨max stop s.now, s.agenda.added, 0, .close⟩ (s.closeAt stop).agenda := by
  obtain ⟨_, _, -, -, -, hentries⟩ :=
    h.exists_runs hprompt.server_ne_client hprompt.clientStart_le
  exact Scenario.ends_closeAt (by simp [hentries]) stop

/-- A run of which the end lies after the last round. When the end is reached the client is
established and nothing is in flight. -/
theorem OnTime.exists_of_advance (h : sc.OnTime maxWord s v c) (hruns : sc.Runs s [v, c])
    (hprompt : sc.Prompt) (hends : Ends k s.agenda) (hlate : sc.roundStart sc.rounds < k.time)
    {n : Nat} (hadvance : s.advance n = .ok (false, s')) :
    ∃ v' c', sc.Runs s' [v', c'] ∧ c'.state = .established ∧ c'.peer = some sc.server ∧
      c'.inFlight.toList = [] := by
  induction n generalizing s v c with
  | zero => exact absurd (Checked.pure_prod_eq_ok hadvance).1 (by simp)
  | succ n ih =>
    rw [advance] at hadvance
    obtain ⟨⟨running, mid⟩, hstep, hrest⟩ := Checked.bind_eq_ok_iff.1 hadvance
    cases steps_of_step hstep with
    | idle hnext => exact absurd hends.mem (by simp [Agenda.entries_of_next?_eq_none hnext])
    | close hnext haction =>
      obtain ⟨-, rfl⟩ := Checked.pure_prod_eq_ok hrest
      have hmem := (Agenda.next?_eq_some hnext).1 ▸ List.mem_cons_self ..
      obtain rfl := hends.eq_of_close _ hmem haction
      obtain ⟨hstate, hpeer, hempty⟩ := h.done hruns (passes_next hnext) hlate
      exact ⟨v, c, (hruns.ends hnext haction _).1, hstate, hpeer, hempty⟩
    | happen hnext haction hhappen =>
      have hend : k.time ≤ maxWord := hruns.sound.timely.time_le k hends.mem
      obtain ⟨⟨v', c', hruns', h'⟩, hgrows⟩ := h.happen hruns hprompt hnext haction hhappen
        (fun _ heq ↦ Nat.lt_of_lt_of_le (hends.time_lt hnext (heq ▸ haction)) hend)
        (.inl (Nat.le_refl _))
      exact ih h' hruns' ((hends.next hnext (by simp [haction])).grows hgrows) hrest

/-- **A transfer is done in time.** A run lasts longer than it takes the client to shake hands and
to send one window after the other, each in a round trip. When it is over, the client is
established, has sent its message once and has all of it acknowledged, and the inbox of the server
is the message. -/
theorem Begins.completes (h : sc.Begins s) (hprompt : sc.Prompt) (hstop : stop ≤ maxWord)
    (hlate : sc.clientStart + 2 * sc.faults.latest * (1 + sc.rounds) < stop)
    (hrun : s.run stop = .ok s') :
    ∃ server client, s'.host? 1 = some server ∧ s'.host? 2 = some client ∧
      server.application = .server sc.message ∧ client.connection.state = .established ∧
      client.connection.allAcknowledged = true ∧
      client.connection.stats.bytesSent = sc.message.length := by
  obtain ⟨⟨running, last⟩, hadvance, hrest⟩ := Checked.bind_eq_ok_iff.1 hrun
  obtain ⟨v₀, c₀, hruns₀, h₀⟩ := h.exists_onTime hprompt maxWord
  have hrests := rests_closeAt (s := s) stop
  have hends := h.ends_closeAt hprompt stop
  cases running with
  | true => exact absurd hrest (by simp)
  | false =>
    obtain rfl := Checked.pure_eq_ok_iff.1 hrest
    obtain ⟨v, c, hruns, hstate, hpeer, hempty⟩ := (h₀.rest hrests).exists_of_advance
      (hruns₀.rest (hruns₀.sound.closeAt hstop).1 hrests) hprompt hends
      (Nat.lt_of_lt_of_le hlate (Nat.le_max_left ..)) hadvance
    obtain ⟨server, inbox, hserver, happlication, hplays⟩ := hruns.exists_server
    obtain ⟨client, hclient, -, hplays'⟩ := hruns.exists_client
    have hdrives := hplays.drives
    rw [happlication] at hdrives
    obtain ⟨_, rfl, hinbox⟩ := hdrives.exists_inbox_eq
    obtain ⟨hheard, hdone⟩ := hruns.transferred hstate hpeer hempty
    rw [List.nil_append, hheard] at hinbox
    refine ⟨server, client, hserver, hclient, hinbox ▸ happlication, ?_⟩
    rw [hplays'.connection_eq]
    exact ⟨hstate, hdone⟩

/-- Five bytes take three segments and two rounds, after a second and with delays of up to six
tenths of one. -/
theorem completes_allTwice :
    ∃ s s' : Simulation Dealt Peer, allTwice.Begins s ∧ s.run (5 * Time.second) = .ok s' ∧
      allTwice.clientStart + 2 * allTwice.faults.latest * (1 + allTwice.rounds) <
        5 * Time.second ∧
      ∃ server client, s'.host? 1 = some server ∧ s'.host? 2 = some client ∧
        server.application = .server [1, 2, 3, 4, 5] ∧ client.connection.state = .established ∧
        client.connection.allAcknowledged = true ∧ client.connection.stats.bytesSent = 5 := by
  have hrun : (allTwice.setupFrom Dealt.zeros .zeros).toOption.bind (fun setup ↦
      (setup.simulation.run (5 * Time.second)).toOption.map fun s' ↦ s'.now) =
        some (5 * Time.second) := by
    decide +kernel
  obtain ⟨setup, hsetup, hrest⟩ := Option.bind_eq_some_iff.1 hrun
  obtain ⟨s', hs', -⟩ := Option.map_eq_some_iff.1 hrest
  have hbegins : allTwice.Begins setup.simulation :=
    ⟨_, _, _, setup, toOption_eq_some_iff.1 hsetup, rfl⟩
  have hrun := toOption_eq_some_iff.1 hs'
  have hlate : allTwice.clientStart + 2 * allTwice.faults.latest * (1 + allTwice.rounds) <
      5 * Time.second := by decide +kernel
  exact ⟨_, s', hbegins, hrun, hlate,
    hbegins.completes prompt_allTwice (by decide) hlate hrun⟩

end ReliableStream.Scenario
