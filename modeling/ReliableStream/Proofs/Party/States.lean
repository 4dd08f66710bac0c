import ReliableStream.Proofs.Party.Outcome

/-!
# The state machine of a party

`p.Changes input state peer` is the table of all changes of state: in its present state the party
`p` goes on to `state`, and has `peer` then, when it has `input`. Nothing else ever changes either
(`Moves.enters_or_stays`), and nothing in the table is passed over (`Changes.state_ne_of_perform`).

The application and the trace are told of a change that ends a handshake, once each, and of nothing
else: that is what `outcomeNotices` and `outcomeTraces` say. Two changes never come of one input
(`Changes.done`), so what one move tells is what the whole reaction tells.

Nothing in the table leaves the established state, which is why a party is established at most once
in its life (`Lives.completes_once`). None of it supposes anything of the party.
-/

namespace ReliableStream

/-- Whether a notice tells how a handshake ended. -/
def Notice.isOutcome : Notice → Bool
  | .established | .handshakeFailed _ => true
  | .dataReady _ => false

/-- Whether an event tells how a handshake ended. -/
def Trace.Event.isOutcome : Trace.Event → Bool
  | .established _ | .handshakeFailed => true
  | .registered | .segmentSent .. | .segmentResent .. | .ackReceived .. | .bytesDelivered _
  | .packetLost .. | .packetDuplicated .. | .packetReordered .. | .undeliverable _ => false

namespace Party

/-- A party goes on to another state when it has an input, and has this peer then. -/
inductive Changes (p : Party) : Input → Connection.State → Option Endpoint → Prop
  /-- It opens a connection. -/
  | connect {peer : Endpoint} (hstate : p.state = .closed) :
    Changes p (.connect peer) .synSent (some peer)
  /-- It waits for an opening. -/
  | listen (hstate : p.state = .closed) : Changes p .listen .listening none
  /-- An opening comes, from whoever is its peer from now on. -/
  | accept {packet : Packet} (hstate : p.state = .listening) (hkind : packet.kind = .syn) :
    Changes p (.packet packet) .synReceived (some packet.source)
  /-- Its opening is answered. -/
  | opened {packet : Packet} (hstate : p.state = .synSent) (hkind : packet.kind = .synAck)
    (hpeer : p.peer = some packet.source) (hack : packet.ack = saturatingAdd p.isn 1) :
    Changes p (.packet packet) .established (some packet.source)
  /-- Its answer to an opening is acknowledged, by an acknowledgement or with data. -/
  | complete {packet : Packet} (hstate : p.state = .synReceived)
    (hkind : packet.kind = .ack ∨ packet.kind = .data) (hpeer : p.peer = some packet.source)
    (hack : packet.ack = saturatingAdd p.isn 1) :
    Changes p (.packet packet) .established (some packet.source)
  /-- The deadline of its present handshake passes. -/
  | giveUp (hstate : p.state = .synSent ∨ p.state = .synReceived) :
    Changes p (.alarm (.handshakeDeadline p.attempt)) .closed p.peer

/-- What an application is told of a change of state. -/
def outcomeNotices (before after : Connection.State) : List Notice :=
  if before ≠ .established ∧ after = .established then [.established]
  else if before ≠ .closed ∧ after = .closed then [.handshakeFailed .handshakeTimeout]
  else []

/-- What the trace tells of a change of state, with the peer after it. -/
def outcomeTraces (before after : Connection.State) (peer : Option Endpoint) : List Trace.Event :=
  if before ≠ .established ∧ after = .established then peer.toList.map .established
  else if before ≠ .closed ∧ after = .closed then [.handshakeFailed]
  else []

/-- A party changes its state, and tells so. -/
structure Enters (input : Input) (p : Party) (r : Reaction) (q : Party) : Prop where
  /-- The change is one of the table. -/
  changes : p.Changes input q.state q.peer
  /-- The application is told how the handshake ended, if it did. -/
  notices_eq : r.notices.filter Notice.isOutcome = outcomeNotices p.state q.state
  /-- So is the trace. -/
  traces_eq : r.traces.filter Trace.Event.isOutcome = outcomeTraces p.state q.state q.peer

/-- A party stays in its state, and tells nothing of a handshake. -/
structure Stays (p : Party) (r : Reaction) (q : Party) : Prop where
  /-- The state is the same. -/
  state_eq : q.state = p.state
  /-- So is the peer. -/
  peer_eq : q.peer = p.peer
  /-- So is the initial sequence number. -/
  isn_eq : q.isn = p.isn
  /-- No handshake begins. -/
  attempt_eq : q.attempt = p.attempt
  /-- The application is told of none. -/
  notices_eq : r.notices.filter Notice.isOutcome = []
  /-- Neither is the trace. -/
  traces_eq : r.traces.filter Trace.Event.isOutcome = []

variable {now : Nat} {input : Input} {packet : Packet} {p mid q t : Party} {r s : Reaction}
  {state : Connection.State} {peer : Option Endpoint}

/-! ### Changes -/

/-- Every change is one to another state. -/
theorem Changes.state_ne (h : p.Changes input state peer) : state ≠ p.state := by
  cases h with
  | connect hstate | listen hstate | accept hstate | opened hstate | complete hstate =>
    simp [hstate]
  | giveUp hstate => rcases hstate with hs | hs <;> simp [hs]

/-- The same input does not change the state a second time. -/
theorem Changes.done (h : p.Changes input q.state q.peer) : ¬ q.Changes input state peer := by
  intro h'
  generalize hq : q.state = entered at h
  generalize q.peer = other at h
  cases h with
  | connect | listen => cases h' with | _ hstate => simp [hq] at hstate
  | accept _ hsyn =>
    cases h' with
    | accept hstate | opened hstate => simp [hq] at hstate
    | complete _ hkind => rcases hkind with hkind | hkind <;> simp [hsyn] at hkind
  | opened | complete => cases h' with | _ hstate => simp [hq] at hstate
  | giveUp =>
    generalize hwatch : Alarm.Watch.handshakeDeadline p.attempt = watch at h'
    cases h' with
    | giveUp hstate => rcases hstate with hs | hs <;> simp [hq] at hs

/-- An input changes the state in one way. -/
theorem Changes.eq (h : p.Changes input state peer) (h' : p.Changes input q.state q.peer) :
    q.state = state ∧ q.peer = peer := by
  generalize q.state = entered at h' ⊢
  generalize q.peer = other at h' ⊢
  cases h with
  | connect | listen => cases h' with | _ => exact ⟨rfl, rfl⟩
  | accept hstate =>
    cases h' with
    | accept => exact ⟨rfl, rfl⟩
    | opened hother | complete hother => simp [hstate] at hother
  | opened hstate | complete hstate =>
    cases h' with
    | opened | complete => exact ⟨rfl, rfl⟩
    | accept hother => simp [hstate] at hother
  | giveUp => cases h' with | giveUp => exact ⟨rfl, rfl⟩

/-- What changes the state after it stayed the same would have changed it before. -/
theorem Stays.changes (h : Stays p r q) (hchanges : q.Changes input state peer) :
    p.Changes input state peer := by
  have hstate := h.state_eq
  have hpeer := h.peer_eq
  have hisn := h.isn_eq
  cases hchanges with
  | connect hs => exact .connect (hstate.symm.trans hs)
  | listen hs => exact .listen (hstate.symm.trans hs)
  | accept hs hkind => exact .accept (hstate.symm.trans hs) hkind
  | opened hs hkind hp hack =>
    exact .opened (hstate.symm.trans hs) hkind (hpeer.symm.trans hp) (hisn ▸ hack)
  | complete hs hkind hp hack =>
    exact .complete (hstate.symm.trans hs) hkind (hpeer.symm.trans hp) (hisn ▸ hack)
  | giveUp hs =>
    rw [h.attempt_eq, hpeer]
    exact .giveUp (hstate ▸ hs)

/-! ### What a move does to the state -/

theorem Stays.refl (p : Party) : Stays p {} p := ⟨rfl, rfl, rfl, rfl, rfl, rfl⟩

theorem Stays.trans (h : Stays p r q) (h' : Stays q s t) : Stays p (r ++ s) t where
  state_eq := h'.state_eq.trans h.state_eq
  peer_eq := h'.peer_eq.trans h.peer_eq
  isn_eq := h'.isn_eq.trans h.isn_eq
  attempt_eq := h'.attempt_eq.trans h.attempt_eq
  notices_eq := by
    rw [Reaction.notices_append, List.filter_append, h.notices_eq, h'.notices_eq, List.append_nil]
  traces_eq := by
    rw [Reaction.traces_append, List.filter_append, h.traces_eq, h'.traces_eq, List.append_nil]

theorem Enters.stays (h : Enters input p r q) (h' : Stays q s t) : Enters input p (r ++ s) t where
  changes := by
    rw [h'.state_eq, h'.peer_eq]
    exact h.changes
  notices_eq := by
    rw [Reaction.notices_append, List.filter_append, h.notices_eq, h'.notices_eq, h'.state_eq,
      List.append_nil]
  traces_eq := by
    rw [Reaction.traces_append, List.filter_append, h.traces_eq, h'.traces_eq, h'.state_eq,
      h'.peer_eq, List.append_nil]

theorem Stays.enters (h : Stays p r q) (h' : Enters input q s t) : Enters input p (r ++ s) t where
  changes := h.changes h'.changes
  notices_eq := by
    rw [Reaction.notices_append, List.filter_append, h.notices_eq, h'.notices_eq, h.state_eq,
      List.nil_append]
  traces_eq := by
    rw [Reaction.traces_append, List.filter_append, h.traces_eq, h'.traces_eq, h.state_eq,
      List.nil_append]

/-- A move changes the state as the table says, or leaves it. -/
theorem Move.enters_or_stays (hmove : Move now input p r q) :
    Enters input p r q ∨ Stays p r q := by
  cases hmove with
  | idle | answer | acknowledge | retryOpening | retryAnswer | acknowledged | store | deliver |
    hand | send | resend | read => exact .inr ⟨rfl, rfl, rfl, rfl, rfl, rfl⟩
  | connect hstate =>
    exact .inl ⟨.connect hstate, by simp [outcomeNotices], by simp [outcomeTraces]⟩
  | listen hstate => exact .inl ⟨.listen hstate, by simp [outcomeNotices], by simp [outcomeTraces]⟩
  | accept hkind hstate =>
    exact .inl ⟨.accept hstate hkind, by simp [outcomeNotices], by simp [outcomeTraces]⟩
  | opened hkind hstate hpeer hack =>
    refine .inl ⟨?_, by simp [outcomeNotices, hstate, Notice.isOutcome],
      by simp [outcomeTraces, hstate, hpeer, Trace.Event.isOutcome]⟩
    rw [hpeer]
    exact .opened hstate hkind hpeer hack
  | complete hkind hstate hpeer hack =>
    refine .inl ⟨?_, by simp [outcomeNotices, hstate, Notice.isOutcome],
      by simp [outcomeTraces, hstate, hpeer, Trace.Event.isOutcome]⟩
    rw [hpeer]
    exact .complete hstate hkind hpeer hack
  | giveUp hstate =>
    refine .inl ⟨.giveUp hstate, ?_, ?_⟩ <;>
      rcases hstate with hs | hs <;>
      simp [outcomeNotices, outcomeTraces, hs, Notice.isOutcome, Trace.Event.isOutcome]

/-- **Moves caused by one input change the state once, as the table says, or not at all.** After a
change the same input changes nothing more. -/
theorem Moves.enters_or_stays (hmoves : Moves now input p r q) :
    Enters input p r q ∨ Stays p r q := by
  induction hmoves with
  | none p => exact .inr (.refl p)
  | cons first _ ih =>
    rcases first.enters_or_stays with hfirst | hfirst
    · rcases ih with hrest | hrest
      · exact absurd hrest.changes hfirst.changes.done
      · exact .inl (hfirst.stays hrest)
    · exact ih.imp hfirst.enters hfirst.trans

/-- An answer to an opening is sent by a party that has got one, and it does not go on. -/
theorem Move.synReceived_of_synAck (hmove : Move now input p r q) (hmem : packet ∈ r.packets)
    (hkind : packet.kind = .synAck) :
    q.state = .synReceived ∧ ∀ state peer, ¬ q.Changes input state peer := by
  cases hmove with
  | idle | listen | complete | acknowledged | hand | giveUp | read =>
    exact absurd hmem List.not_mem_nil
  | connect | opened | store | deliver | send | resend =>
    obtain rfl := List.mem_singleton.1 hmem
    exact absurd hkind (by simp [Connection.dataPacket])
  | acknowledge | retryOpening =>
    obtain ⟨peer, -, rfl⟩ := List.mem_map.1 hmem
    exact absurd hkind (by simp)
  | accept hsyn hstate =>
    exact ⟨rfl, fun state peer ↦ (Changes.accept hstate hsyn).done⟩
  | answer hsyn hstate =>
    refine ⟨hstate, fun state peer hchanges ↦ ?_⟩
    cases hchanges with
    | accept hother | opened hother => simp [hstate] at hother
    | complete _ hother => rcases hother with hother | hother <;> simp [hsyn] at hother
  | retryAnswer hstate => exact ⟨hstate, fun state peer hchanges ↦ nomatch hchanges⟩

/-- After moves that send an answer to an opening the party is in the state of having got one. -/
theorem Moves.synReceived_of_synAck (hmoves : Moves now input p r q) (hmem : packet ∈ r.packets)
    (hkind : packet.kind = .synAck) : q.state = .synReceived := by
  induction hmoves with
  | none => exact absurd hmem List.not_mem_nil
  | cons first rest ih =>
    rcases List.mem_append.1 hmem with hfirst | hrest
    · obtain ⟨hstate, hends⟩ := first.synReceived_of_synAck hfirst hkind
      rcases rest.enters_or_stays with henters | hstays
      · exact absurd henters.changes (hends _ _)
      · exact hstays.state_eq.trans hstate
    · exact ih hrest

/-! ### What an input does to the state -/

/-- Nothing changes the state of an established party. -/
theorem not_changes_of_established (hstate : p.state = .established) :
    ¬ p.Changes input state peer := by
  intro h
  cases h with
  | giveUp hother => rcases hother with hs | hs <;> simp [hstate] at hs
  | _ hother => simp [hstate] at hother

/-- An established party stays so. -/
theorem Moves.established (hmoves : Moves now input p r q) (hstate : p.state = .established) :
    q.state = .established :=
  match hmoves.enters_or_stays with
  | .inl henters => absurd henters.changes (not_changes_of_established hstate)
  | .inr hstays => hstays.state_eq.trans hstate

/-- The acknowledgement that a party waits for completes its handshake, on whichever packet. -/
theorem established_of_complete (hstate : p.state = .synReceived)
    (hkind : packet.kind = .ack ∨ packet.kind = .data) (hpeer : p.peer = some packet.source)
    (hack : packet.ack = p.firstByte) (h : p.perform now (.packet packet) = .ok (q, r)) :
    q.state = .established := by
  obtain ⟨c, r', hadmitted, rfl, -⟩ :=
    exists_onAdmitted_eq (dropNote?_eq_none (by simp [hstate]) (.inr hpeer)) h
  let t : Party := { p with sendBase := packet.ack, state := .established }
  have hcomplete : (p.completeHandshake packet.ack).1 = t.toConnection := by
    rw [Connection.completeHandshake_of_synReceived hstate hack]
  rw [Connection.onAdmitted] at hadmitted
  rcases hkind with hkind | hkind <;> rw [hkind] at hadmitted <;>
    dsimp only [Connection.onceEstablished] at hadmitted <;>
    rw [hcomplete, if_pos rfl] at hadmitted <;>
    obtain ⟨⟨c', r''⟩, hnext, hpure⟩ := Checked.bind_eq_ok_iff.1 hadmitted <;>
    obtain ⟨rfl, -⟩ := Checked.pure_prod_eq_ok hpure
  · obtain ⟨⟨c'', effects⟩, honAck, hpure'⟩ := Checked.bind_eq_ok_iff.1 hnext
    obtain ⟨rfl, -⟩ := Checked.pure_prod_eq_ok hpure'
    exact (moves_of_onAck (p := t) hkind rfl hpeer honAck).established rfl
  · have hmoves : Moves now (.packet packet) t _ _ := moves_of_onData hkind rfl hpeer hnext
    exact hmoves.established rfl

/-- The deadline of the present handshake closes a party that is still in it. -/
theorem closed_of_giveUp (hstate : p.state = .synSent ∨ p.state = .synReceived)
    (h : p.perform now (.alarm (.handshakeDeadline p.attempt)) = .ok (q, r)) :
    q.state = .closed := by
  have hdeadline : p.onDeadline p.attempt = ({ p.toConnection with state := .closed }, _) :=
    if_pos ⟨rfl, hstate⟩
  rw [perform, Connection.onAlarm, hdeadline] at h
  obtain ⟨rfl, -⟩ := Checked.pure_prod_eq_ok h
  rfl

/-- What can change the state does. -/
theorem Changes.state_ne_of_perform (h : p.Changes input state peer)
    (hperform : p.perform now input = .ok (q, r)) : q.state ≠ p.state := by
  cases h with
  | connect hstate => simp [(synSent_of_perform hstate hperform).1, hstate]
  | listen hstate => simp [(listening_of_perform hstate hperform).1, hstate]
  | accept hstate hkind => simp [(synReceived_of_perform hstate hkind hperform).1, hstate]
  | opened hstate hkind hpeer hack =>
    simp [(established_of_perform_synAck hstate hpeer hkind hack hperform).1, hstate]
  | complete hstate hkind hpeer hack =>
    simp [established_of_complete hstate hkind hpeer hack hperform, hstate]
  | giveUp hstate =>
    rw [closed_of_giveUp hstate hperform]
    rcases hstate with hs | hs <;> simp [hs]

/-- What an input does to the state of a party, and what is told of it. -/
structure Conforms (input : Input) (p : Party) (r : Reaction) (q : Party) : Prop where
  /-- The state and the peer change as the table says, or not at all. -/
  changes_or_eq : p.Changes input q.state q.peer ∨ q.state = p.state ∧ q.peer = p.peer
  /-- Whatever the table says happens. -/
  obeys : ∀ state peer, p.Changes input state peer → q.state = state ∧ q.peer = peer
  /-- The application is told of a handshake that is done or given up, and of nothing else. -/
  notices_eq : r.notices.filter Notice.isOutcome = outcomeNotices p.state q.state
  /-- So is the trace. -/
  traces_eq : r.traces.filter Trace.Event.isOutcome = outcomeTraces p.state q.state q.peer

@[simp] theorem outcomeNotices_self (state : Connection.State) :
    outcomeNotices state state = [] := by
  cases state <;> rfl

@[simp] theorem outcomeTraces_self (state : Connection.State) (peer : Option Endpoint) :
    outcomeTraces state state peer = [] := by
  cases state <;> rfl

/-- **Every input does to the state what the table says**, and tells so. -/
theorem conforms_of_perform (h : p.perform now input = .ok (q, r)) : Conforms input p r q := by
  rcases (moves_of_perform h).enters_or_stays with henters | hstays
  · exact
      { changes_or_eq := .inl henters.changes
        obeys := fun _ _ hchanges ↦ hchanges.eq henters.changes
        notices_eq := henters.notices_eq
        traces_eq := henters.traces_eq }
  · exact
      { changes_or_eq := .inr ⟨hstays.state_eq, hstays.peer_eq⟩
        obeys := fun _ _ hchanges ↦ absurd hstays.state_eq (hchanges.state_ne_of_perform h)
        notices_eq := by rw [hstays.notices_eq, hstays.state_eq, outcomeNotices_self]
        traces_eq := by rw [hstays.traces_eq, hstays.state_eq, outcomeTraces_self] }

/-- An alarm of a handshake that is not the present one does nothing at all. -/
theorem perform_superseded {attempt : Nat} (h : attempt ≠ p.attempt) :
    p.perform now (.alarm (.handshakeRetry attempt)) = .ok (p, {}) ∧
      p.perform now (.alarm (.handshakeDeadline attempt)) = .ok (p, {}) := by
  have hretry : p.onRetry attempt = {} := if_neg h
  have hdeadline : p.onDeadline attempt = (p.toConnection, {}) := if_neg fun hboth ↦ h hboth.1
  constructor
  · rw [perform, Connection.onAlarm, hretry]
    rfl
  · rw [perform, Connection.onAlarm, hdeadline]
    rfl

/-! ### What a turn does to the state -/

theorem not_changes_of_transfers (hinput : input.transfers = true) :
    ¬ p.Changes input state peer := by
  intro h
  cases h <;> exact absurd hinput (by simp [Input.transfers])

/-- Calls that transfer bytes change no state. -/
theorem Calls.stays (h : Calls now p r q) : Stays p r q := by
  induction h with
  | none p => exact .refl p
  | cons hinput first _ ih =>
    rcases (moves_of_perform first).enters_or_stays with henters | hstays
    · exact absurd henters.changes (not_changes_of_transfers hinput)
    · exact hstays.trans ih

/-- Calls send no answers to openings, but of a party that has got one. -/
theorem Calls.synReceived_of_synAck (h : Calls now p r q) (hmem : packet ∈ r.packets)
    (hkind : packet.kind = .synAck) : q.state = .synReceived := by
  induction h with
  | none => exact absurd hmem List.not_mem_nil
  | cons _ first rest ih =>
    rcases List.mem_append.1 hmem with hfirst | hrest
    · exact rest.stays.state_eq.trans
        ((moves_of_perform first).synReceived_of_synAck hfirst hkind)
    · exact ih hrest

theorem Turn.enters_or_stays (h : p.Turn now input r q) : Enters input p r q ∨ Stays p r q := by
  cases h with
  | mk perform calls =>
    exact (moves_of_perform perform).enters_or_stays.imp (·.stays calls.stays)
      (·.trans calls.stays)

/-- What can change the state does. -/
theorem Turn.enters (h : p.Turn now input r q) (hchanges : p.Changes input state peer) :
    Enters input p r q := by
  refine h.enters_or_stays.resolve_right fun hstays ↦ ?_
  cases h with
  | mk perform calls =>
    exact hchanges.state_ne_of_perform perform (calls.stays.state_eq.symm.trans hstays.state_eq)

/-- After a turn that sends an answer to an opening the party is in the state of having got one. -/
theorem Turn.synReceived_of_synAck (h : p.Turn now input r q) (hmem : packet ∈ r.packets)
    (hkind : packet.kind = .synAck) : q.state = .synReceived := by
  cases h with
  | mk perform calls =>
    rcases List.mem_append.1 hmem with hfirst | hanswers
    · exact calls.stays.state_eq.trans
        ((moves_of_perform perform).synReceived_of_synAck hfirst hkind)
    · exact calls.synReceived_of_synAck hanswers hkind

/-! ### The life of a party -/

/-- A party has inputs one after the other, and reacts to each. -/
inductive Lives : Party → List Reaction → Party → Prop
  | nil (p : Party) : Lives p [] p
  | cons {now : Nat} {input : Input} {p q t : Party} {r : Reaction} {rest : List Reaction}
    (first : p.perform now input = .ok (q, r)) (others : Lives q rest t) : Lives p (r :: rest) t

/-- Inputs that a party has done with are a part of its life. -/
theorem exists_lives_of_performAll {inputs : List (Nat × Input)} {packets : List Packet}
    (hall : p.performAll inputs = .ok (q, packets)) : ∃ reactions, Lives p reactions q := by
  induction inputs generalizing p packets with
  | nil =>
    obtain ⟨rfl, -⟩ := Checked.pure_prod_eq_ok hall
    exact ⟨[], .nil p⟩
  | cons x rest ih =>
    obtain ⟨t, r, more, hfirst, hrest, -⟩ := exists_of_performAll_cons hall
    obtain ⟨reactions, hlives⟩ := ih hrest
    exact ⟨r :: reactions, .cons hfirst hlives⟩

/-- What a whole life does to the handshake. -/
structure Completes (p : Party) (reactions : List Reaction) (q : Party) : Prop where
  /-- An established party stays so, with the same peer. -/
  established : p.state = .established → q.state = .established ∧ q.peer = p.peer
  /-- The application is told once that the handshake is done, if it was done in this life. -/
  count_notices : (reactions.flatMap (·.notices)).count .established =
    if p.state ≠ .established ∧ q.state = .established then 1 else 0
  /-- So is the trace. -/
  count_traces : ∀ peer, (reactions.flatMap (·.traces)).count (.established peer) =
    if p.state ≠ .established ∧ q.state = .established ∧ q.peer = some peer then 1 else 0

theorem Conforms.established (h : Conforms input p r q) (hstate : p.state = .established) :
    q.state = .established ∧ q.peer = p.peer := by
  rcases h.changes_or_eq with hchanges | ⟨hstate', hpeer⟩
  · exact absurd hchanges (not_changes_of_established hstate)
  · exact ⟨hstate'.trans hstate, hpeer⟩

theorem Conforms.count_notices (h : Conforms input p r q) :
    r.notices.count .established =
      if p.state ≠ .established ∧ q.state = .established then 1 else 0 := by
  rw [← List.count_filter (p := Notice.isOutcome) rfl, h.notices_eq]
  cases p.state <;> cases q.state <;> rfl

theorem Conforms.count_traces (h : Conforms input p r q) (peer : Endpoint) :
    r.traces.count (.established peer) =
      if p.state ≠ .established ∧ q.state = .established ∧ q.peer = some peer then 1 else 0 := by
  rw [← List.count_filter (p := Trace.Event.isOutcome) rfl, h.traces_eq]
  rcases q.peer with _ | other
  · cases p.state <;> cases q.state <;> simp [outcomeTraces]
  · cases p.state <;> cases q.state <;> simp [outcomeTraces, List.count_singleton]

/-- **A party is established at most once in its life**, by induction on it: from then on every
input finds it established. -/
theorem Lives.completes_once {reactions : List Reaction} (h : Lives p reactions q) :
    Completes p reactions q := by
  induction h with
  | nil p => exact ⟨fun hstate ↦ ⟨hstate, rfl⟩, by simp, by simp +contextual⟩
  | @cons now input p q t r rest first others ih =>
    have hfirst := conforms_of_perform first
    by_cases hq : q.state = .established
    · obtain ⟨ht, hpeer⟩ := ih.established hq
      refine ⟨fun hp ↦ ⟨ht, hpeer.trans (hfirst.established hp).2⟩, ?_, fun peer ↦ ?_⟩
      · rw [List.flatMap_cons, List.count_append, hfirst.count_notices, ih.count_notices]
        simp [hq, ht]
      · rw [List.flatMap_cons, List.count_append, hfirst.count_traces, ih.count_traces]
        simp [hq, ht, hpeer]
    · have hp : p.state ≠ .established := fun hp ↦ hq (hfirst.established hp).1
      refine ⟨fun hstate ↦ absurd hstate hp, ?_, fun peer ↦ ?_⟩
      · rw [List.flatMap_cons, List.count_append, hfirst.count_notices, ih.count_notices]
        simp [hp, hq]
      · rw [List.flatMap_cons, List.count_append, hfirst.count_traces, ih.count_traces]
        simp [hp, hq]

/-- **The state machine.** In any life of any party, each input changes the state and the peer as
the table says and tells so, the party is established at most once and for good, and an alarm of a
handshake that is not the present one does nothing at all. -/
theorem Lives.conforms {reactions : List Reaction} (h : Lives p reactions q) :
    Completes p reactions q ∧
      (∀ (now : Nat) (input : Input) (r : Reaction) (t : Party),
        q.perform now input = .ok (t, r) → Conforms input q r t) ∧
      ∀ now attempt, attempt ≠ q.attempt →
        q.perform now (.alarm (.handshakeRetry attempt)) = .ok (q, {}) ∧
          q.perform now (.alarm (.handshakeDeadline attempt)) = .ok (q, {}) :=
  ⟨h.completes_once, fun _ _ _ _ ↦ conforms_of_perform, fun _ _ ↦ perform_superseded⟩

/-- A party that gives up its first handshake, begins a second one and completes it: the alarms of
the first one ring too late, and so does the deadline of the second one. -/
def secondTry : List (Nat × Input) :=
  let peer : Endpoint := ⟨10, 0, 0, 2, 80⟩
  let home : Endpoint := ⟨10, 0, 0, 1, 4000⟩
  let answer : Packet := { source := peer, destination := home, kind := .synAck, seq := 900 }
  [(0, .connect peer),
    (1, .packet { answer with ack := 100 }),
    (9, .alarm (.handshakeDeadline 1)),
    (9, .packet { answer with ack := 101 }),
    (10, .connect peer),
    (11, .alarm (.handshakeRetry 1)),
    (11, .alarm (.handshakeDeadline 1)),
    (12, .packet { answer with ack := 101 }),
    (12, .packet { answer with ack := 101 }),
    (20, .alarm (.handshakeDeadline 2))]

/-- The first handshake failed and is told of, the second one is done and is told of once. -/
theorem conforms_secondTry :
    ∃ reactions q,
      Lives (create ⟨10, 0, 0, 1, 4000⟩ {} ⟨by decide, by decide, by decide⟩ 100) reactions q ∧
      (q.state, q.peer, q.attempt) = (.established, some ⟨10, 0, 0, 2, 80⟩, 2) ∧
      Completes (create ⟨10, 0, 0, 1, 4000⟩ {} ⟨by decide, by decide, by decide⟩ 100) reactions q ∧
      (∀ (now : Nat) (input : Input) (r : Reaction) (t : Party),
        q.perform now input = .ok (t, r) → Conforms input q r t) ∧
      ∀ now attempt, attempt ≠ q.attempt →
        q.perform now (.alarm (.handshakeRetry attempt)) = .ok (q, {}) ∧
          q.perform now (.alarm (.handshakeDeadline attempt)) = .ok (q, {}) := by
  have hrun : ((create ⟨10, 0, 0, 1, 4000⟩ {} ⟨by decide, by decide, by decide⟩ 100).performAll
      secondTry).toOption.map (fun x ↦ (x.1.state, x.1.peer, x.1.attempt)) =
        some (.established, some ⟨10, 0, 0, 2, 80⟩, 2) := by
    decide +kernel
  obtain ⟨⟨q, packets⟩, hall, hfacts⟩ := Option.map_eq_some_iff.1 hrun
  obtain ⟨reactions, hlives⟩ := exists_lives_of_performAll (toOption_eq_some_iff.1 hall)
  exact ⟨reactions, q, hlives, hfacts, hlives.conforms⟩

end Party

end ReliableStream
