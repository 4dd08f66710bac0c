import ReliableStream.Proofs.Party.States
import ReliableStream.Proofs.Simulation.Pending

/-!
# What the trace tells of handshakes

The trace of a simulation tells of much else, so `s.outcomes home` picks out the records by which an
endpoint tells how its handshakes ended. `Tells home events s s'` says what a host at `home` adds to
them: those of its `events` that end a handshake, at the present instant and in order, while all
other endpoints tell nothing. It holds of whatever is carried out for a host (`tells_carryOut`).

A network tells of packets only, under the name of whoever sent them. So sending tells nothing of
handshakes (`tells_sendPacket`), and what a host tells of its own is all that there is.
-/

namespace ReliableStream

/-- What becomes of a packet ends no handshake. -/
theorem Trace.Event.isOutcome_of_isFate {event : Trace.Event} (h : event.isFate = true) :
    event.isOutcome = false := by
  cases event <;> first | rfl | exact absurd h (by simp [isFate])

namespace Simulation

variable {σ α : Type} {s s' t : Simulation σ α} {home : Endpoint} {event : Trace.Event}
  {events events' : List Trace.Event}

/-- What the trace tells of how handshakes of an endpoint ended. -/
def outcomes (home : Endpoint) (s : Simulation σ α) : List Trace.Record :=
  s.trace.toList.filter fun record ↦ record.endpoint = home && record.event.isOutcome

/-- An event that ends a handshake is among the outcomes if and only if the trace tells it. -/
theorem mem_outcomes {time : Nat} (hevent : event.isOutcome = true) :
    ⟨time, home, event⟩ ∈ s.outcomes home ↔ ⟨time, home, event⟩ ∈ s.trace := by
  simp [outcomes, hevent]

/-- The trace tells it, and nothing else does. -/
theorem outcomes_congr (htrace : s'.trace = s.trace) (home : Endpoint) :
    s'.outcomes home = s.outcomes home := by
  rw [outcomes, outcomes, htrace]

/-- One endpoint tells how its handshakes ended, if any did, and no other one tells anything. -/
structure Tells (home : Endpoint) (events : List Trace.Event) (s s' : Simulation σ α) : Prop where
  /-- No time has passed. -/
  now_eq : s'.now = s.now
  /-- It tells what ends a handshake. -/
  own : s'.outcomes home =
    s.outcomes home ++ (events.filter Trace.Event.isOutcome).map (⟨s.now, home, ·⟩)
  /-- The others tell nothing. -/
  others : ∀ other ≠ home, s'.outcomes other = s.outcomes other

namespace Tells

/-- Nothing is told. -/
theorem of_trace_eq (hnow : s'.now = s.now) (htrace : s'.trace = s.trace) :
    Tells home [] s s' where
  now_eq := hnow
  own := by rw [outcomes_congr htrace, List.filter_nil, List.map_nil, List.append_nil]
  others other _ := outcomes_congr htrace other

theorem refl : Tells home [] s s := of_trace_eq rfl rfl

theorem trans (h : Tells home events s s') (h' : Tells home events' s' t) :
    Tells home (events ++ events') s t where
  now_eq := h'.now_eq.trans h.now_eq
  own := by rw [h'.own, h.own, h.now_eq, List.filter_append, List.map_append, List.append_assoc]
  others other hne := (h'.others other hne).trans (h.others other hne)

variable {β : Type} (tells : β → List Trace.Event) {l : List β}

theorem foldl {f : Simulation σ α → β → Simulation σ α}
    (hstep : ∀ b ∈ l, ∀ s, Tells home (tells b) s (f s b)) :
    Tells home (l.flatMap tells) s (l.foldl f s) := by
  induction l generalizing s with
  | nil => exact refl
  | cons b rest ih =>
    exact (hstep b (List.mem_cons_self ..) s).trans
      (ih fun b' hb ↦ hstep b' (List.mem_cons_of_mem _ hb))

/-- Several steps at which nothing is told. -/
theorem foldl_nothing {f : Simulation σ α → β → Simulation σ α}
    (hstep : ∀ b ∈ l, ∀ s, Tells home [] s (f s b)) : Tells home [] s (l.foldl f s) := by
  have htells := foldl (s := s) (fun _ ↦ []) hstep
  rwa [Carries.flatMap_nothing] at htells

theorem foldlM {f : Simulation σ α → β → Checked (Simulation σ α)}
    (hstep : ∀ b s s', f s b = .ok s' → Tells home (tells b) s s') (h : l.foldlM f s = .ok t) :
    Tells home (l.flatMap tells) s t :=
  Checked.foldlM_induction (motive := fun l s t ↦ Tells home (l.flatMap tells) s t)
    (fun _ ↦ refl) (fun b _ s mid _ hmid hrest ↦ (hstep b s mid hmid).trans hrest) h

end Tells

/-- An event is told by whom it happens to, if it ends a handshake. -/
theorem outcomes_record (home other : Endpoint) (event : Trace.Event) (s : Simulation σ α) :
    (s.record home event).outcomes other = s.outcomes other ++
      if home = other ∧ event.isOutcome = true then [⟨s.now, home, event⟩] else [] := by
  have htrace : (s.record home event).trace.toList = s.trace.toList ++ [⟨s.now, home, event⟩] :=
    Array.toList_push
  rw [outcomes, htrace, List.filter_append, outcomes]
  simp [List.filter_cons]

/-- An event that ends no handshake is not counted. -/
theorem outcomes_record_of_not (home other : Endpoint) (hevent : event.isOutcome = false)
    (s : Simulation σ α) : (s.record home event).outcomes other = s.outcomes other := by
  rw [outcomes_record, if_neg (by simp [hevent]), List.append_nil]

/-- A host tells of an event, which counts if it ends a handshake. -/
theorem tells_record (home : Endpoint) (event : Trace.Event) (s : Simulation σ α) :
    Tells home [event] s (s.record home event) where
  now_eq := rfl
  own := by
    rw [outcomes_record]
    cases hevent : event.isOutcome <;> simp [hevent]
  others other hne := by
    rw [outcomes_record, if_neg fun hboth ↦ hne hboth.1.symm, List.append_nil]

/-- Nothing is told by what ends no handshake. -/
theorem tells_record_of_not (home : Endpoint) (hevent : event.isOutcome = false)
    (s : Simulation σ α) : Tells home [] s (s.record home event) where
  now_eq := rfl
  own := by rw [outcomes_record_of_not home home hevent, List.filter_nil, List.map_nil,
    List.append_nil]
  others other _ := outcomes_record_of_not home other hevent s

variable [DrawSource σ]

/-- Nothing is told by sending a packet, since what becomes of one ends no handshake. -/
theorem tells_sendPacket {packet : Packet} (h : s.sendPacket home packet = .ok s') :
    Tells home [] s s' := by
  obtain ⟨sent, hsent, h⟩ := Checked.bind_eq_ok_iff.1 h
  obtain rfl := Checked.pure_eq_ok_iff.1 h
  have hnetwork : Tells home [] s { s with network := sent.network } := .of_trace_eq rfl rfl
  have htraces := hnetwork.trans (.foldl_nothing (l := sent.traces) fun event hevent s ↦
    tells_record_of_not home (Trace.Event.isOutcome_of_isFate
      (Network.isFate_of_send hsent event hevent)) s)
  exact htraces.trans (.foldl_nothing (l := sent.deliveries)
    (f := fun s delivery ↦ s.schedule delivery) fun _ _ _ ↦ .of_trace_eq rfl rfl)

/-- What a host asks for is carried out. Of the four rounds only that of its events tells something.
-/
theorem tells_carryOut {id : Nat} {effects : Effects} (h : s.carryOut id home effects = .ok s') :
    Tells home effects.traces s s' := by
  obtain ⟨mid, hmid, h⟩ := Checked.bind_eq_ok_iff.1 h
  obtain rfl := Checked.pure_eq_ok_iff.1 h
  have hnotes : Tells home [] s _ := .foldl_nothing (l := effects.notes)
    (f := fun s note ↦ s.note (.noted home note)) fun _ _ _ ↦ .of_trace_eq rfl rfl
  have htraces := hnotes.trans (.foldl (l := effects.traces) (fun event ↦ [event])
    fun event _ s ↦ tells_record home event s)
  have hpackets := htraces.trans (.foldlM (fun _ ↦ []) (fun _ _ _ ↦ tells_sendPacket) hmid)
  have halarms := hpackets.trans (.foldl_nothing (l := effects.alarms)
    (f := fun s alarm ↦ s.setAlarm id alarm) fun _ _ _ ↦ .of_trace_eq rfl rfl)
  simpa [Carries.flatMap_nothing] using halarms

end Simulation

end ReliableStream
