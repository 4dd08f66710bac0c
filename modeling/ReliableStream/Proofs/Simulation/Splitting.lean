import ReliableStream.Proofs.Simulation.Alike
import ReliableStream.Proofs.Simulation.Sound

/-!
# Splitting a run

To run until one instant and then until a later one is the same as to run until the later one, up to
that instant: the same is told, and the same happens in the same order (`run_run`). It is not the
same at that instant. An end comes before whatever is scheduled for its instant afterwards, so the
two runs may leave different entries of it behind.

Both runs are compared with one that has no ends at all, where things just go on (`GoesOn`). There
is only one such way to go on, so of any two that begin alike one is a continuation of the other
(`GoesOn.comparable`); and what the longer one adds comes after the later end.

Why a detour through simulations without ends? Two runs with ends cannot be compared step by step:
where one of them has an end the other one does not, and the numbers of their entries differ from
there on. Once the ends are out of the way both follow one path, and all that is left to compare is
how far they get.
-/

namespace ReliableStream.Simulation

variable {σ : Type} {s s' t t' m u : Simulation σ Peer} {stop a b target time : Nat}
  {happening : Happening} {log log' : List (Agenda.Entry Happening)} {e : Agenda.Entry Happening}
  {agenda : Agenda Happening} {running : Bool}

/-! ### What happens in a run -/

/-- What happens at the next step, without its number; nothing does if that is an end. -/
def occurring (s : Simulation σ Peer) : List (Agenda.Entry Happening) :=
  match s.agenda.next? with
  | none => []
  | some (e, _) => if e.isModel then [e.unnumbered] else []

/-- What happens in a number of steps, or fewer if the run ends. -/
def happenings [DrawSource σ] : Nat → Simulation σ Peer → List (Agenda.Entry Happening)
  | 0, _ => []
  | n + 1, s =>
    match s.step with
    | .error _ => []
    | .ok (false, _) => s.occurring
    | .ok (true, s') => s.occurring ++ happenings n s'

/-- What happens in a run until an instant. -/
def happeningsUntil [DrawSource σ] (stop : Nat) (s : Simulation σ Peer) :
    List (Agenda.Entry Happening) :=
  (s.closeAt stop).happenings stepLimit

/-- What was told before an instant. -/
def toldBefore (time : Nat) (s : Simulation σ Peer) : List Trace.Record :=
  s.trace.toList.filter (·.time < time)

/-- A run has come to an instant, and what is left comes then or later. -/
structure StandsAt (time : Nat) (s : Simulation σ Peer) : Prop where
  /-- The clock shows the instant. -/
  now_eq : s.now = time
  /-- Nothing before it is left. -/
  time_le : ∀ e ∈ s.agenda.entries, time ≤ e.time

theorem occurring_eq (hnext : s.agenda.next? = some (e, agenda)) :
    s.occurring = if e.isModel then [e.unnumbered] else [] := by
  rw [occurring, hnext]

/-- What is upcoming is what occurs next, and what is upcoming afterwards. -/
theorem upcoming_of_next? (hnext : s.agenda.next? = some (e, agenda)) :
    s.agenda.upcoming = s.occurring ++ agenda.upcoming := by
  rw [occurring_eq hnext, Agenda.upcoming, (Agenda.next?_eq_some hnext).1, List.filter_cons]
  split <;> rfl

/-- What is yet to happen is not before the clock, since nothing on an agenda is. -/
theorem now_le_of_mem_upcoming (he : e ∈ s.agenda.upcoming) : s.now ≤ e.time := by
  obtain ⟨f, hf, rfl⟩ := List.mem_map.1 he
  exact s.agenda.ahead f (List.mem_filter.1 hf).1

/-- Without ends, what is upcoming next is what is taken next, and there are no ends afterwards
either. -/
theorem exists_next_of_upcoming {upcoming : List (Agenda.Entry Happening)} (hends : s.ends = [])
    (h : s.agenda.upcoming = e :: upcoming) :
    ∃ f agenda, s.agenda.next? = some (f, agenda) ∧ f.unnumbered = e ∧
      agenda.upcoming = upcoming ∧ ({ s with agenda } : Simulation σ Peer).ends = [] := by
  cases hnext : s.agenda.next? with
  | none =>
    rw [Agenda.upcoming, Agenda.entries_of_next?_eq_none hnext] at h
    exact absurd h.symm (List.cons_ne_nil _ _)
  | some next =>
    obtain ⟨f, agenda⟩ := next
    rw [ends, (Agenda.next?_eq_some hnext).1, List.filter_eq_nil_iff] at hends
    obtain ⟨hf, hrest⟩ := List.forall_mem_cons.1 hends
    have hmodel : f.isModel = true := by
      cases haction : f.action with
      | model => rw [Agenda.Entry.isModel, haction]
      | close => exact absurd (by simpa using haction) hf
    rw [upcoming_of_next? hnext, occurring_eq hnext, if_pos hmodel] at h
    obtain ⟨hfirst, hothers⟩ := List.cons.inj h
    exact ⟨f, agenda, rfl, hfirst, hothers, List.filter_eq_nil_iff.2 hrest⟩

variable [DrawSource σ]

/-- A simulation is run on, and ends may be set on the way. -/
inductive Goes : Simulation σ Peer → List (Agenda.Entry Happening) → Simulation σ Peer → Prop
  /-- It is left as it is. -/
  | rest (s : Simulation σ Peer) : Goes s [] s
  /-- An end is set. -/
  | closeAt {s t : Simulation σ Peer} {log : List (Agenda.Entry Happening)} (time : Nat)
    (h : Goes (s.closeAt time) log t) : Goes s log t
  /-- A step is taken. -/
  | step {s m t : Simulation σ Peer} {log : List (Agenda.Entry Happening)} {running : Bool}
    (hstep : s.step = .ok (running, m)) (h : Goes m log t) : Goes s (s.occurring ++ log) t

/-- A run that is continued is a run, and what happens in it is what happens in the one and then in
the other. -/
theorem Goes.trans (h : Goes s log m) (h' : Goes m log' t) : Goes s (log ++ log') t := by
  induction h with
  | rest => exact h'
  | closeAt time _ ih => exact .closeAt time (ih h')
  | step hstep _ ih =>
    rw [List.append_assoc]
    exact .step hstep (ih h')

theorem goes_of_advance {n : Nat} (h : s.advance n = .ok (running, t)) :
    Goes s (s.happenings n) t := by
  induction n generalizing s with
  | zero =>
    obtain ⟨-, rfl⟩ := Checked.pure_prod_eq_ok h
    exact .rest s
  | succ n ih =>
    rw [advance] at h
    obtain ⟨⟨going, m⟩, hstep, hrest⟩ := Checked.bind_eq_ok_iff.1 h
    rw [happenings, hstep]
    cases going with
    | false =>
      obtain ⟨-, rfl⟩ := Checked.pure_prod_eq_ok hrest
      rw [← List.append_nil s.occurring]
      exact .step hstep (.rest m)
    | true => exact .step hstep (ih hrest)

/-- A run takes steps until it ends. It would not have a result if it had not. -/
theorem advance_of_run (h : s.run stop = .ok t) :
    (s.closeAt stop).advance stepLimit = .ok (false, t) := by
  obtain ⟨⟨going, u⟩, hadvance, hend⟩ := Checked.bind_eq_ok_iff.1 h
  cases going with
  | true => exact absurd hend (by simp)
  | false =>
    obtain rfl := Checked.pure_eq_ok_iff.1 hend
    exact hadvance

/-- So is running until an instant, for which an end is set first. -/
theorem goes_of_run (h : s.run stop = .ok t) : Goes s (s.happeningsUntil stop) t :=
  .closeAt stop (goes_of_advance (advance_of_run h))

/-! ### Going on without ends -/

/-- What happens when things go on, in a simulation without ends. -/
inductive GoesOn : Simulation σ Peer → List (Agenda.Entry Happening) → Simulation σ Peer → Prop
  /-- Nothing does. -/
  | rest (s : Simulation σ Peer) : GoesOn s [] s
  /-- The next thing happens. -/
  | happen {s m t : Simulation σ Peer} {e : Agenda.Entry Happening} {agenda : Agenda Happening}
    {happening : Happening} {log : List (Agenda.Entry Happening)}
    (hnext : s.agenda.next? = some (e, agenda)) (haction : e.action = .model happening)
    (hhappen : { s with agenda }.happen e.target happening = .ok m) (h : GoesOn m log t) :
    GoesOn s (e.unnumbered :: log) t

/-- **There is one way to go on**, so of two that begin alike one goes on from where the other one
stops. -/
theorem GoesOn.comparable (h : GoesOn s log t) (h' : GoesOn s log' t') :
    (∃ more, log' = log ++ more ∧ GoesOn t more t') ∨
      ∃ more, log = log' ++ more ∧ GoesOn t' more t := by
  induction h generalizing log' with
  | rest => exact .inl ⟨log', rfl, h'⟩
  | @happen s m t e agenda happening log hnext haction hhappen hrest ih =>
    cases h' with
    | rest => exact .inr ⟨_, rfl, .happen hnext haction hhappen hrest⟩
    | happen hnext' haction' hhappen' hrest' =>
      obtain ⟨rfl, rfl⟩ := Prod.mk.inj (Option.some.inj (hnext.symm.trans hnext'))
      obtain rfl := Agenda.Action.model.inj (haction.symm.trans haction')
      obtain rfl := Except.ok.inj (hhappen.symm.trans hhappen')
      rcases ih hrest' with ⟨more, rfl, hmore⟩ | ⟨more, rfl, hmore⟩
      · exact .inl ⟨more, rfl, hmore⟩
      · exact .inr ⟨more, rfl, hmore⟩

/-- What happens takes place at one instant, and sets no ends. Whatever is told of it is told at
that instant. -/
theorem exists_records_of_happen (h : s.happen target happening = .ok s') :
    s'.now = s.now ∧ s'.ends = s.ends ∧ ∃ records, s'.trace.toList = s.trace.toList ++ records ∧
      ∀ record ∈ records, record.time = s.now := by
  obtain ⟨answer, -, hfollow⟩ := happen_eq_ok_iff.1 h
  cases answer with
  | some a =>
    have henacts := enacts_of_follow hfollow
    obtain ⟨records, htrace, hmine, -⟩ := henacts.written
    exact ⟨henacts.now_eq, henacts.ends_eq, records, htrace,
      fun record hmem ↦ (hmine record hmem).1⟩
  | none =>
    obtain rfl := Checked.pure_eq_ok_iff.1 hfollow
    cases happening with
    | start | alarm => exact ⟨rfl, rfl, [], (List.append_nil _).symm, by simp⟩
    | arrival packet =>
      rw [pass, Network.route]
      cases s.network.actorAt? packet.destination with
      | some id => exact ⟨rfl, rfl, [], (List.append_nil _).symm, by simp⟩
      | none =>
        exact ⟨rfl, rfl, [⟨s.now, packet.source, .undeliverable packet.destination⟩],
          Array.toList_push, by simp⟩

/-- If nothing is to happen before an instant, then nothing happens and is told before it, as time
only passes. -/
theorem GoesOn.late (h : GoesOn s log t) (hlate : ∀ e ∈ s.agenda.upcoming, time ≤ e.time) :
    (∀ e ∈ log, time ≤ e.time) ∧ ∃ records, t.trace.toList = s.trace.toList ++ records ∧
      ∀ record ∈ records, time ≤ record.time := by
  induction h with
  | rest => exact ⟨by simp, [], (List.append_nil _).symm, by simp⟩
  | @happen s m t e agenda happening log hnext haction hhappen _ ih =>
    obtain ⟨-, hclock⟩ := Agenda.next?_eq_some hnext
    have hmodel : e.isModel = true := by rw [Agenda.Entry.isModel, haction]
    have hfirst : time ≤ e.time := hlate e.unnumbered (by
      rw [upcoming_of_next? hnext, occurring_eq hnext, if_pos hmodel]
      exact List.mem_cons_self ..)
    obtain ⟨hnow, -, records, htrace, htimes⟩ := exists_records_of_happen hhappen
    have hnow' : ({ s with agenda } : Simulation σ Peer).now = e.time := hclock
    rw [hnow'] at hnow htimes
    obtain ⟨hlog, more, hmore, hlater⟩ := ih fun f hf ↦
      Nat.le_trans hfirst (hnow ▸ now_le_of_mem_upcoming hf)
    refine ⟨List.forall_mem_cons.2 ⟨hfirst, hlog⟩, records ++ more,
      by rw [hmore, htrace, List.append_assoc], fun record hmem ↦ ?_⟩
    rcases List.mem_append.1 hmem with hmem | hmem
    · exact htimes record hmem ▸ hfirst
    · exact hlater record hmem

/-! ### Ends make no difference -/

omit [DrawSource σ] in
/-- What a simulation takes next that may have ends, one that has none takes as well. The two then
show the same time, whatever their clocks showed before. -/
theorem Alike.exists_together (h : Alike s u) (hends : u.ends = [])
    {e : Agenda.Entry Happening} {agenda : Agenda Happening}
    (hnext : s.agenda.next? = some (e, agenda)) (hone : s.occurring = [e.unnumbered]) :
    ∃ f agenda', u.agenda.next? = some (f, agenda') ∧ f.unnumbered = e.unnumbered ∧
      ({ u with agenda := agenda' } : Simulation σ Peer).ends = [] ∧
      Together { s with agenda } { u with agenda := agenda' } := by
  have hupcoming := h.upcoming_eq.trans (upcoming_of_next? hnext)
  rw [hone] at hupcoming
  obtain ⟨f, agenda', hnext', hsame, hrest, hends'⟩ := exists_next_of_upcoming hends hupcoming
  have htime : f.time = e.time := congrArg (·.time) hsame
  refine ⟨f, agenda', hnext', hsame, hends', { h with upcoming_eq := hrest, now_eq := ?_ }⟩
  show agenda'.now = agenda.now
  rw [(Agenda.next?_eq_some hnext').2, (Agenda.next?_eq_some hnext).2, htime]

/-- **Ends make no difference to what happens.** An end that is set is not upcoming, and one that is
taken only moves the clock. Whatever happens moves both clocks to its own instant. -/
theorem Goes.exists_goesOn (h : Goes s log t) (halike : Alike s u) (hends : u.ends = []) :
    ∃ u', GoesOn u log u' ∧ Alike t u' := by
  induction h generalizing u with
  | rest => exact ⟨u, .rest u, halike⟩
  | @closeAt s t log time _ ih =>
    refine ih { halike with upcoming_eq := ?_ } hends
    exact halike.upcoming_eq.trans (s.agenda.upcoming_closeAt time).symm
  | @step s m t log running hstep _ ih =>
    cases steps_of_step hstep with
    | idle hnext =>
      rw [occurring, hnext]
      exact ih halike hends
    | @close e agenda hnext haction =>
      have hnone : s.occurring = [] := by
        rw [occurring_eq hnext, Agenda.Entry.isModel, haction]
        rfl
      have hupcoming := upcoming_of_next? hnext
      rw [hnone] at hupcoming ⊢
      exact ih { halike with upcoming_eq := halike.upcoming_eq.trans hupcoming } hends
    | @happen e agenda happening _ hnext haction hhappen =>
      have hone : s.occurring = [e.unnumbered] := by
        rw [occurring_eq hnext, Agenda.Entry.isModel, haction]
        rfl
      rw [hone]
      -- The other one takes the same entry, perhaps under another number.
      obtain ⟨f, agenda', hnext', hsame, hends', hboth⟩ := halike.exists_together hends hnext hone
      have haction' : f.action = .model happening := (congrArg (·.action) hsame).trans haction
      have htarget : f.target = e.target := congrArg (·.target) hsame
      obtain ⟨m', hm', hafter⟩ := hboth.happen hhappen
      obtain ⟨-, hends'', -⟩ := exists_records_of_happen hm'
      obtain ⟨u', hgoes, halike'⟩ := ih hafter.toAlike (hends''.trans hends')
      rw [← htarget] at hm'
      exact ⟨u', hsame ▸ .happen hnext' haction' hm' hgoes, halike'⟩

/-! ### Where a run stands when it ends -/

/-- A run ends at its only end: everything before it was taken, and what is left comes then or
later. -/
theorem standsAt_of_advance {n : Nat} (hends : s.ends = [e])
    (h : s.advance n = .ok (false, t)) : t.StandsAt e.time ∧ t.ends = [] := by
  induction n generalizing s with
  | zero => exact absurd (Checked.pure_prod_eq_ok h).1 (by simp)
  | succ n ih =>
    rw [advance] at h
    obtain ⟨⟨going, m⟩, hstep, hrest⟩ := Checked.bind_eq_ok_iff.1 h
    cases steps_of_step hstep with
    | idle hnext =>
      rw [ends, Agenda.entries_of_next?_eq_none hnext] at hends
      exact absurd hends.symm (List.cons_ne_nil _ _)
    | @close f agenda hnext haction =>
      obtain ⟨-, rfl⟩ := Checked.pure_prod_eq_ok hrest
      obtain ⟨hentries, hnow⟩ := Agenda.next?_eq_some hnext
      rw [ends, hentries, List.filter_cons_of_pos (by simpa using haction)] at hends
      -- The end that is taken is the only one there was.
      obtain ⟨rfl, hnone⟩ := List.cons.inj hends
      have hahead := agenda.ahead
      rw [hnow] at hahead
      exact ⟨⟨hnow, hahead⟩, hnone⟩
    | @happen f agenda happening _ hnext haction hhappen =>
      obtain ⟨-, hsame, -⟩ := exists_records_of_happen hhappen
      refine ih (hsame.trans ?_) hrest
      rw [ends, (Agenda.next?_eq_some hnext).1,
        List.filter_cons_of_neg (by simp [haction])] at hends
      exact hends

/-- A run ends at its instant, and no end is left. It had none before its own was set. -/
theorem standsAt_of_run (hends : s.ends = []) (hnow : s.now ≤ stop) (h : s.run stop = .ok t) :
    t.StandsAt stop ∧ t.ends = [] := by
  have hone : (s.closeAt stop).ends = [⟨max stop s.agenda.now, s.agenda.added, 0, .close⟩] := by
    show (Agenda.place _ s.agenda.entries).filter (·.action = .close) = _
    rw [Agenda.filter_place (by simp) s.agenda.ordered]
    show Agenda.place _ s.ends = _
    rw [hends]
    rfl
  rw [show max stop s.agenda.now = stop from Nat.max_eq_left hnow] at hone
  exact standsAt_of_advance hone (advance_of_run h)

/-! ### Both runs -/

/-- What the longer of two runs adds comes later, since where the shorter one stands everything
before was taken. -/
theorem GoesOn.same (h : GoesOn s log t) (hstands : u.StandsAt time) (halike : Alike u s) :
    log.filter (·.time < time) = [] ∧ t.toldBefore time = s.toldBefore time := by
  have hupcoming : ∀ e ∈ u.agenda.upcoming, time ≤ e.time := fun e he ↦
    hstands.now_eq ▸ now_le_of_mem_upcoming he
  rw [← halike.upcoming_eq] at hupcoming
  obtain ⟨hlog, records, htrace, htimes⟩ := h.late hupcoming
  refine ⟨List.filter_eq_nil_iff.2 fun e he ↦ by simpa using hlog e he, ?_⟩
  have hnone : records.filter (·.time < time) = [] :=
    List.filter_eq_nil_iff.2 fun record hmem ↦ by simpa using htimes record hmem
  rw [toldBefore, htrace, List.filter_append, hnone, List.append_nil, toldBefore]

/-- **Splitting a run.** To run until `a` and then until `b` is the same as to run until `b`, as far
as what happens before `b` is concerned. -/
theorem run_run (hends : s.ends = []) (hnow : s.now ≤ a) (hle : a ≤ b) (hfirst : s.run a = .ok m)
    (hsecond : m.run b = .ok u) (hwhole : s.run b = .ok t) :
    u.toldBefore b = t.toldBefore b ∧
      (s.happeningsUntil a ++ m.happeningsUntil b).filter (·.time < b) =
        (s.happeningsUntil b).filter (·.time < b) ∧
      u.StandsAt b ∧ t.StandsAt b := by
  obtain ⟨hstands, hends'⟩ := standsAt_of_run hends hnow hfirst
  obtain ⟨hsplit, -⟩ := standsAt_of_run hends' (hstands.now_eq ▸ hle) hsecond
  obtain ⟨hunsplit, -⟩ := standsAt_of_run hends (Nat.le_trans hnow hle) hwhole
  obtain ⟨u', hgoes, halike⟩ :=
    ((goes_of_run hfirst).trans (goes_of_run hsecond)).exists_goesOn (.refl s) hends
  obtain ⟨t', hgoes', halike'⟩ := (goes_of_run hwhole).exists_goesOn (.refl s) hends
  have htold : u'.toldBefore b = u.toldBefore b := by rw [toldBefore, halike.trace_eq, toldBefore]
  have htold' : t'.toldBefore b = t.toldBefore b := by rw [toldBefore, halike'.trace_eq, toldBefore]
  -- Either of the two may have got further, as entries of the last instant may be left by each of
  -- them.
  rcases hgoes.comparable hgoes' with ⟨more, hlog, hmore⟩ | ⟨more, hlog, hmore⟩
  · obtain ⟨hnone, hsame⟩ := hmore.same hsplit halike
    rw [hlog, List.filter_append _ more, hnone, List.append_nil, ← htold, ← htold', hsame]
    exact ⟨rfl, rfl, hsplit, hunsplit⟩
  · obtain ⟨hnone, hsame⟩ := hmore.same hunsplit halike'
    rw [hlog, List.filter_append _ more, hnone, List.append_nil, ← htold, ← htold', hsame]
    exact ⟨rfl, rfl, hsplit, hunsplit⟩

/-- An arrival at the instant of the first end is left to the second run. An alarm at the instant of
the second end, which was set in the first run, rings before it, and after the end of the one long
run. -/
theorem run_run_fiveBytes :
    ∃ s m u t : Simulation Dealt Peer, after 0 fiveBytes = some s ∧
      s.run (200 * Time.millisecond) = .ok m ∧ m.run (2100 * Time.millisecond) = .ok u ∧
      s.run (2100 * Time.millisecond) = .ok t ∧
      (s.happeningsUntil (200 * Time.millisecond)).map (·.time / Time.millisecond) = [0, 0, 100] ∧
      (m.happeningsUntil (2100 * Time.millisecond)).map (·.time / Time.millisecond) =
        [200, 300, 2000, 2100] ∧
      (s.happeningsUntil (2100 * Time.millisecond)).map (·.time / Time.millisecond) =
        [0, 0, 100, 200, 300, 2000] ∧
      u.toldBefore (2100 * Time.millisecond) = t.toldBefore (2100 * Time.millisecond) ∧
      (s.happeningsUntil (200 * Time.millisecond) ++
          m.happeningsUntil (2100 * Time.millisecond)).filter (·.time < 2100 * Time.millisecond) =
        (s.happeningsUntil (2100 * Time.millisecond)).filter
          (·.time < 2100 * Time.millisecond) ∧
      u.StandsAt (2100 * Time.millisecond) ∧ t.StandsAt (2100 * Time.millisecond) := by
  have hrun : (after 0 fiveBytes).bind (fun s ↦
      (s.run (200 * Time.millisecond)).toOption.bind fun m ↦
      (m.run (2100 * Time.millisecond)).toOption.bind fun _ ↦
      (s.run (2100 * Time.millisecond)).toOption.map fun _ ↦
        (s.ends, s.now,
          (s.happeningsUntil (200 * Time.millisecond)).map (·.time / Time.millisecond),
          (m.happeningsUntil (2100 * Time.millisecond)).map (·.time / Time.millisecond),
          (s.happeningsUntil (2100 * Time.millisecond)).map (·.time / Time.millisecond))) =
      some ([], 0, [0, 0, 100], [200, 300, 2000, 2100], [0, 0, 100, 200, 300, 2000]) := by
    decide +kernel
  obtain ⟨s, hs, hrest⟩ := Option.bind_eq_some_iff.1 hrun
  obtain ⟨m, hm, hrest⟩ := Option.bind_eq_some_iff.1 hrest
  obtain ⟨u, hu, hrest⟩ := Option.bind_eq_some_iff.1 hrest
  obtain ⟨t, ht, hfacts⟩ := Option.map_eq_some_iff.1 hrest
  obtain ⟨hends, hfacts⟩ := Prod.mk.inj hfacts
  obtain ⟨hnow, hfacts⟩ := Prod.mk.inj hfacts
  obtain ⟨hfirst, hfacts⟩ := Prod.mk.inj hfacts
  obtain ⟨hsecond, hwhole⟩ := Prod.mk.inj hfacts
  rw [toOption_eq_some_iff] at hm hu ht
  exact ⟨s, m, u, t, hs, hm, hu, ht, hfirst, hsecond, hwhole,
    run_run hends (hnow ▸ Nat.zero_le _) (by decide) hm hu ht⟩

end ReliableStream.Simulation
