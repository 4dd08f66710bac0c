import ReliableStream.Proofs.Party.Turn

/-!
# Sending again at a fixed interval

What is told of a segment, event after event, has one form: it is sent, it is sent again, each time
one retransmission interval after the last, and then it is acknowledged. `course` is the first part
of it. `c.Paced told` says that what was told of a connection has this form at every place, and that
the segments in flight are as far in it as they say themselves.

It is kept by every move, as a segment is sent again only when its alarm rings. `RingsOnTime` is
what has to be known of that alarm: that it rings when the segment has to be sent again.

The instants of the past are told by the trace and by nothing else, while a segment in flight tells
only its first instant and how often it was sent. The invariant says that these two give the whole
course.
-/

namespace ReliableStream

namespace Trace.Event

/-- Whether an event is about the segment at a place: it is sent, or acknowledged. -/
def concerns (seq : Nat) : Event → Bool
  | .segmentSent seq' _ | .segmentResent seq' _ _ => seq' = seq
  | .ackReceived ack _ => seq < ack
  | .registered | .established _ | .handshakeFailed | .bytesDelivered _ | .packetLost ..
  | .packetDuplicated .. | .packetReordered .. | .undeliverable _ => false

/-- Whether an event is an acknowledgement. -/
def isAck : Event → Bool
  | .ackReceived .. => true
  | _ => false

end Trace.Event

/-- Events, each with the instant at which it was told. -/
abbrev Telling := List (Nat × Trace.Event)

namespace Telling

/-- What was told of the segment at a place. -/
def about (seq : Nat) (told : Telling) : Telling := told.filter (·.2.concerns seq)

/-- What is told of a segment that is sent at an instant, and then again so many times. -/
def course (rto start seq len resends : Nat) : Telling :=
  (start, .segmentSent seq len) ::
    (List.range resends).map fun j ↦ (start + (j + 1) * rto, .segmentResent seq len (j + 1))

/-- A segment may be sent, and sent again, until it is acknowledged. -/
def Runs (rto seq : Nat) (told : Telling) : Prop :=
  ∃ sends acks, told = sends ++ acks ∧ (∀ x ∈ acks, x.2.isAck = true) ∧
    (sends = [] ∨ ∃ start len resends, sends = course rto start seq len resends)

variable {rto start seq len resends now : Nat} {told more : Telling}

theorem about_append (seq : Nat) (told more : Telling) :
    about seq (told ++ more) = about seq told ++ about seq more := List.filter_append ..

/-- What is told is about the segment. -/
theorem about_concat {event : Trace.Event} (h : event.concerns seq = true) (now : Nat)
    (told : Telling) : about seq (told ++ [(now, event)]) = about seq told ++ [(now, event)] := by
  simp [about, h]

/-- What is told is not about the segment. -/
theorem about_concat_of_not {event : Trace.Event} (h : event.concerns seq = false) (now : Nat)
    (told : Telling) : about seq (told ++ [(now, event)]) = about seq told := by
  simp [about, h]

/-- A segment is sent once more. -/
theorem course_succ (rto start seq len resends : Nat) :
    course rto start seq len (resends + 1) = course rto start seq len resends ++
      [(start + (resends + 1) * rto, .segmentResent seq len (resends + 1))] := by
  rw [course, List.range_succ, List.map_append, ← List.cons_append]
  rfl

theorem runs_nil (rto seq : Nat) : Runs rto seq [] :=
  ⟨[], [], rfl, fun _ h ↦ absurd h List.not_mem_nil, .inl rfl⟩

theorem runs_course (rto start seq len resends : Nat) :
    Runs rto seq (course rto start seq len resends) :=
  ⟨_, [], (List.append_nil _).symm, fun _ h ↦ absurd h List.not_mem_nil, .inr ⟨_, _, _, rfl⟩⟩

/-- It is acknowledged. -/
theorem Runs.acknowledged (h : Runs rto seq told) (hmore : ∀ x ∈ more, x.2.isAck = true) :
    Runs rto seq (told ++ more) := by
  obtain ⟨sends, acks, rfl, hacks, hsends⟩ := h
  exact ⟨sends, acks ++ more, List.append_assoc .., List.forall_mem_append.2 ⟨hacks, hmore⟩, hsends⟩

end Telling

open Telling

/-- Of each place the right things were told, at the right instants. -/
structure Connection.Paced (told : Telling) (c : Connection) : Prop where
  /-- Nothing is sent before the handshake is done. -/
  blank : c.state ≠ .established → ∀ seq, about seq told = []
  /-- Nothing was told of what is not sent yet. -/
  unsent : ∀ seq, c.sendNext ≤ seq → about seq told = []
  /-- What is in flight was sent as often as it says, and not acknowledged. -/
  inFlight : ∀ s ∈ c.inFlight.toList, ∃ start,
    about s.seq told = course c.settings.rto start s.seq s.payload.length s.resends ∧
      s.sentAt = start + s.resends * c.settings.rto
  /-- All else was sent and acknowledged, or no segment starts there. -/
  runs : ∀ seq, Runs c.settings.rto seq (about seq told)

namespace Party

variable {now : Nat} {input : Input} {p mid q : Party} {r s : Reaction} {told more : Telling}

theorem paced_create {home : Endpoint} {settings : Connection.Settings} {valid : settings.Valid}
    {isn : Nat} (htold : ∀ seq, about seq told = []) :
    (create home settings valid isn).Paced told where
  blank _ := htold
  unsent seq _ := htold seq
  inFlight _ h := absurd h List.not_mem_nil
  runs seq := by
    rw [htold]
    exact runs_nil ..

/-- If an alarm rings for a segment, then the segment was sent, and if nothing has happened to it
since then it has to be sent again now. -/
structure RingsOnTime (now : Nat) (input : Input) (p : Party) : Prop where
  /-- The segment was sent. -/
  sent : ∀ {seq generation}, input = .alarm (.segment seq generation) → seq < p.sendNext
  /-- It has to be sent again now. -/
  due : ∀ s ∈ p.inFlight.toList, input = .alarm (.segment s.seq s.resends) →
    now = s.sentAt + p.settings.rto

theorem ringsOnTime_of_ne (h : ∀ watch, input ≠ .alarm watch) : p.RingsOnTime now input :=
  ⟨fun heq ↦ absurd heq (h _), fun _ _ heq ↦ absurd heq (h _)⟩

/-- The alarm has rung for no other segment when a move is done. -/
theorem RingsOnTime.move (h : p.RingsOnTime now input) (hmove : Move now input p r q) :
    q.RingsOnTime now input := by
  cases hmove with
  | idle | answer | acknowledge | opened | complete | retryOpening | retryAnswer | store | deliver |
    hand | read | giveUp => exact ⟨h.sent, h.due⟩
  | connect | accept | listen => exact ringsOnTime_of_ne (by simp)
  | acknowledged =>
    exact ⟨h.sent, fun s hs ↦ h.due s (InFlight.mem_acknowledge_snd.1 hs).1⟩
  | send =>
    refine ⟨fun heq ↦ Nat.lt_of_lt_of_le (h.sent heq) (Nat.le_add_right ..), fun s hs heq ↦ ?_⟩
    rcases Ascending.mem_of_mem_place hs with rfl | hold
    · exact absurd (h.sent heq) (Nat.lt_irrefl _)
    · exact h.due s hold heq
  | resend =>
    refine ⟨h.sent, fun s hs heq ↦ ?_⟩
    rcases Ascending.mem_of_mem_place hs with rfl | hold
    · obtain ⟨-, hgeneration⟩ := Alarm.Watch.segment.inj (Input.alarm.inj heq)
      exact absurd hgeneration (Nat.ne_of_lt (Nat.lt_succ_self _))
    · exact h.due s hold heq

end Party

namespace Connection.Paced

variable {c d : Connection} {told told' more : Telling} {now : Nat}

/-- Nothing is told of what is sent, and what is in flight stays as it is. -/
theorem quiet (h : c.Paced told) (htold : ∀ seq, about seq told' = about seq told)
    (hflight : d.inFlight = c.inFlight) (hsettings : d.settings = c.settings)
    (hnext : c.state = .established → c.sendNext ≤ d.sendNext)
    (hstate : c.state = .established → d.state = .established) : d.Paced told' where
  blank hd seq := by
    rw [htold]
    exact h.blank (fun hc ↦ hd (hstate hc)) seq
  unsent seq hseq := by
    rw [htold]
    by_cases hc : c.state = .established
    · exact h.unsent seq (Nat.le_trans (hnext hc) hseq)
    · exact h.blank hc seq
  inFlight s hs := by
    rw [htold, hsettings]
    rw [hflight] at hs
    exact h.inFlight s hs
  runs seq := by
    rw [htold, hsettings]
    exact h.runs seq

/-- Segments are acknowledged, and go. -/
theorem acknowledged (h : c.Paced told) {ack n : Nat} (hack : ack ≤ c.sendNext)
    (hstate : d.state = .established)
    (hflight : d.inFlight = (c.inFlight.acknowledge ack).2) (hsettings : d.settings = c.settings)
    (hnext : d.sendNext = c.sendNext) : d.Paced (told ++ [(now, .ackReceived ack n)]) := by
  have hlater {seq : Nat} (hseq : ack ≤ seq) :
      about seq (told ++ [(now, .ackReceived ack n)]) = about seq told :=
    about_concat_of_not (by simpa [Trace.Event.concerns] using hseq) ..
  exact
    { blank := fun hd ↦ absurd hstate hd
      unsent := fun seq hseq ↦ by
        rw [hnext] at hseq
        rw [hlater (Nat.le_trans hack hseq)]
        exact h.unsent seq hseq
      inFlight := fun s hs ↦ by
        rw [hflight] at hs
        obtain ⟨hmem, hseq⟩ := InFlight.mem_acknowledge_snd.1 hs
        rw [hlater hseq, hsettings]
        exact h.inFlight s hmem
      runs := fun seq ↦ by
        rw [hsettings, about_append]
        refine (h.runs seq).acknowledged fun x hx ↦ ?_
        obtain rfl := List.mem_singleton.1 (List.mem_filter.1 hx).1
        rfl }

/-- A segment is put in flight, and what was told of it is its course so far. -/
theorem sends (h : c.Paced told) (x : Segment) {event : Trace.Event} {start : Nat}
    (hconcerns : ∀ seq, event.concerns seq = decide (x.seq = seq))
    (hcourse : about x.seq told ++ [(now, event)] =
      course c.settings.rto start x.seq x.payload.length x.resends)
    (hsentAt : x.sentAt = start + x.resends * c.settings.rto) (hstate : d.state = .established)
    (hflight : d.inFlight = c.inFlight.insert x) (hsettings : d.settings = c.settings)
    (hnext : c.sendNext ≤ d.sendNext) (hsent : x.seq < d.sendNext) :
    d.Paced (told ++ [(now, event)]) := by
  have hother {seq : Nat} (hne : seq ≠ x.seq) :
      about seq (told ++ [(now, event)]) = about seq told :=
    about_concat_of_not (by simpa [hconcerns] using hne.symm) ..
  have hown : about x.seq (told ++ [(now, event)]) =
      course c.settings.rto start x.seq x.payload.length x.resends := by
    rw [about_concat (by simp [hconcerns]), hcourse]
  exact
    { blank := fun hd ↦ absurd hstate hd
      unsent := fun seq hseq ↦ by
        rw [hother (by omega)]
        exact h.unsent seq (Nat.le_trans hnext hseq)
      inFlight := fun s hs ↦ by
        rw [hflight] at hs
        rw [hsettings]
        rcases (Ascending.mem_place c.inFlight.ordered).1 hs with rfl | ⟨hold, hne⟩
        · exact ⟨start, hown, hsentAt⟩
        · rw [hother hne]
          exact h.inFlight s hold
      runs := fun seq ↦ by
        rw [hsettings]
        by_cases hseq : seq = x.seq
        · rw [hseq, hown]
          exact runs_course ..
        · rw [hother hseq]
          exact h.runs seq }

/-- A segment is sent for the first time. -/
theorem send (h : c.Paced told) {chunk : Bytes} (hpos : 0 < chunk.length)
    (hstate : d.state = .established)
    (hflight : d.inFlight = c.inFlight.insert ⟨c.sendNext, chunk, now, 0⟩)
    (hsettings : d.settings = c.settings) (hnext : d.sendNext = c.sendNext + chunk.length) :
    d.Paced (told ++ [(now, .segmentSent c.sendNext chunk.length)]) := by
  have hcourse : about c.sendNext told ++ [(now, .segmentSent c.sendNext chunk.length)] =
      course c.settings.rto now c.sendNext chunk.length 0 := by
    rw [h.unsent _ (Nat.le_refl _)]
    rfl
  exact h.sends ⟨c.sendNext, chunk, now, 0⟩ (fun _ ↦ rfl) hcourse (by simp) hstate hflight hsettings
    (by omega) (by dsimp only; omega)

/-- A segment in flight is sent again, when it has to be. -/
theorem resend (h : c.Paced told) {s : Segment} (hmem : s ∈ c.inFlight.toList)
    (hdue : now = s.sentAt + c.settings.rto) (hstate : d.state = .established)
    (hflight : d.inFlight = c.inFlight.insert ⟨s.seq, s.payload, now, s.resends + 1⟩)
    (hsettings : d.settings = c.settings) (hnext : d.sendNext = c.sendNext)
    (hsent : s.seq < c.sendNext) :
    d.Paced (told ++ [(now, .segmentResent s.seq s.payload.length (s.resends + 1))]) := by
  obtain ⟨start, hcourse, hsentAt⟩ := h.inFlight s hmem
  have hnow : now = start + (s.resends + 1) * c.settings.rto := by
    rw [hdue, hsentAt, Nat.succ_mul, Nat.add_assoc]
  have hagain : about s.seq told ++
      [(now, .segmentResent s.seq s.payload.length (s.resends + 1))] =
        course c.settings.rto start s.seq s.payload.length (s.resends + 1) := by
    rw [hcourse, course_succ, ← hnow]
  exact h.sends ⟨s.seq, s.payload, now, s.resends + 1⟩ (fun _ ↦ rfl) hagain hnow hstate hflight
    hsettings (Nat.le_of_eq hnext.symm) (hnext ▸ hsent)

end Connection.Paced

namespace Party

variable {now : Nat} {input : Input} {p q : Party} {r : Reaction} {told : Telling}

/-- What a reaction tells, at an instant. -/
def telling (now : Nat) (r : Reaction) : Telling := r.traces.map (now, ·)

theorem telling_append (now : Nat) (r s : Reaction) :
    telling now (r ++ s) = telling now r ++ telling now s := by
  rw [telling, Reaction.traces_append, List.map_append]
  rfl

/-- **Every move tells the right things**, if its alarm rings when it has to. -/
theorem Move.paced (h : p.Paced told) (hp : p.Sound) (hrings : p.RingsOnTime now input)
    (hmove : Move now input p r q) : q.Paced (told ++ telling now r) := by
  cases hmove with
  | idle | answer | acknowledge | retryOpening | retryAnswer | store | hand | read =>
    exact h.quiet (fun _ ↦ by rw [telling, List.map_nil, List.append_nil]) rfl rfl
      (fun _ ↦ Nat.le_refl _) id
  | connect hstate | listen hstate | accept _ hstate =>
    exact h.quiet (fun _ ↦ by rw [telling, List.map_nil, List.append_nil]) rfl rfl
      (fun hc ↦ absurd (hstate.symm.trans hc) (by simp))
      (fun hc ↦ absurd (hstate.symm.trans hc) (by simp))
  | opened | complete | deliver =>
    exact h.quiet (fun _ ↦ about_concat_of_not rfl ..) rfl rfl (fun _ ↦ Nat.le_refl _)
      (fun _ ↦ by first | rfl | assumption)
  | giveUp hstate =>
    refine h.quiet (fun _ ↦ about_concat_of_not rfl ..) rfl rfl (fun _ ↦ Nat.le_refl _)
      (fun hc ↦ ?_)
    rcases hstate with hstate | hstate <;> exact absurd (hstate.symm.trans hc) (by simp)
  | acknowledged _ hstate _ hack => exact h.acknowledged hack hstate rfl rfl rfl
  | send hstate _ hpending =>
    obtain ⟨-, acked, sent, hsends⟩ := hp.sends hstate
    have hpos := (length_of_mem_pieces (List.mem_of_getElem? (hsends.next_piece hpending).1)).1
    exact h.send hpos hstate rfl rfl rfl
  | resend _ hmem =>
    exact h.resend hmem (hrings.due _ hmem rfl) (hp.established_of_mem hmem) rfl rfl rfl
      (hrings.sent rfl)

/-- So do moves one after the other. The alarm has rung for the first of them that hears it. -/
theorem Moves.paced (h : p.Paced told) (hp : p.Sound) (hrings : p.RingsOnTime now input)
    (hmoves : Moves now input p r q) : q.Paced (told ++ telling now r) := by
  induction hmoves generalizing told with
  | none => simpa [telling] using h
  | cons first _ ih =>
    rw [telling_append, ← List.append_assoc]
    exact ih (first.paced h hp hrings) (hp.move first) (hrings.move first)

theorem Calls.paced (h : p.Paced told) (hp : p.Sound) (hcalls : Calls now p r q) :
    q.Paced (told ++ telling now r) := by
  induction hcalls generalizing told with
  | none => simpa [telling] using h
  | cons hinput first _ ih =>
    have hmoves := moves_of_perform first
    rw [telling_append, ← List.append_assoc]
    refine ih (hmoves.paced h hp ?_) (hp.moves hmoves)
    exact ringsOnTime_of_ne (Input.ne_of_transfers hinput).1

/-- A turn of a party tells the right things, if alarms ring when they have to. -/
theorem Turn.paced (h : p.Paced told) (hp : p.Sound) (hrings : p.RingsOnTime now input)
    (hturn : p.Turn now input r q) : q.Paced (told ++ telling now r) := by
  cases hturn with
  | mk perform calls =>
    have hmoves := moves_of_perform perform
    rw [telling_append, ← List.append_assoc]
    exact calls.paced (hmoves.paced h hp hrings) (hp.moves hmoves)

end Party

end ReliableStream
