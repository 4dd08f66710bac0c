import Mathlib.Tactic.Common
import ReliableStream.InFlight

/-!
# Segments leave once

Segments are put in flight in the order of the stream, alarms ring for them, at any place and in any
generation, and acknowledgements come, in any order. `serveAll` serves such requests one after the
other, and keeps a log of what came of them.

Whatever the requests, what was taken out by the acknowledgements, followed by what is in flight, is
what was sent: each segment once, in order, with the bytes it had. That is an invariant of the log
(`Runs.kept`), together with the alarms that were heard: those of a segment were of the generations
`0`, `1`, `2` and so on, one for each time it was sent again. When a segment leaves can be read off
the log, too: it is in flight as long as no acknowledgement has gone past it since it was sent
(`Runs.holds_iff`).

All of it is proved of one event at a time. A request has one of four outcomes (`Step`), a run is a
log built by such events (`Runs`), and `Kept.step` and `Runs.holds_iff` go by induction on the log
with one case for each of the four. That the segments are sent in the order of the stream is asked
of the log as a whole (`InOrder`), and is inherited by its beginnings.
-/

namespace ReliableStream

/-- A segment that is sent again. -/
def Segment.again (now : Nat) (s : Segment) : Segment :=
  { s with sentAt := now, resends := s.resends + 1 }

/-- What never changes of a segment: its place and its bytes. -/
def Segment.content (s : Segment) : Nat × Bytes := (s.seq, s.payload)

namespace InFlight

/-! ### Requests -/

/-- What can be asked of the segments in flight. -/
inductive Request where
  /-- Put a segment in flight that is sent for the first time. -/
  | send (seq : Nat) (payload : Bytes) (now : Nat)
  /-- Send the segment at a place again, if it is in this generation. -/
  | ring (seq generation now : Nat)
  /-- Take out what starts before a place. -/
  | acknowledge (ack : Nat)
  deriving DecidableEq

/-- The content of a segment that is sent for the first time. -/
def Request.content? : Request → Option (Nat × Bytes)
  | .send seq payload _ => some (seq, payload)
  | _ => none

/-- What came of a request. -/
inductive Event where
  /-- A segment was put in flight. -/
  | sent (s : Segment)
  /-- An alarm rang, and a segment was sent again if the alarm was heard. -/
  | rang (seq generation now : Nat) (again : Option Segment)
  /-- Segments were taken out. -/
  | acknowledged (ack : Nat) (gone : List Segment)
  deriving DecidableEq

/-- What comes of a request, and the segments in flight after it. -/
def serve (request : Request) (f : InFlight) : Checked (Event × InFlight) :=
  match request with
  | .send seq payload now =>
    let s : Segment := { seq, payload, sentAt := now }
    pure (.sent s, f.insert s)
  | .ring seq generation now => do
    match ← f.resend? seq generation now with
    | none => pure (.rang seq generation now none, f)
    | some (s, f) => pure (.rang seq generation now (some s), f)
  | .acknowledge ack => pure (.acknowledged ack (f.acknowledge ack).1, (f.acknowledge ack).2)

/-- What comes of requests one after the other, and the segments in flight after them. -/
def serveAll : List Request → InFlight → Checked (List Event × InFlight)
  | [], f => pure ([], f)
  | request :: rest, f => do
    let (event, f) ← f.serve request
    let (log, f) ← f.serveAll rest
    pure (event :: log, f)

/-- The segments that were sent for the first time, as they were then. -/
def sent (log : List Event) : List Segment :=
  log.filterMap fun
    | .sent s => some s
    | _ => none

/-- The segments that were taken out, as they were then. -/
def gone (log : List Event) : List Segment :=
  log.flatMap fun
    | .acknowledged _ gone => gone
    | _ => []

/-- The generations of the alarms on which the segment at a place was sent again. -/
def heard (seq : Nat) (log : List Event) : List Nat :=
  log.filterMap fun
    | .rang _ generation _ (some s) => if s.seq = seq then some generation else none
    | _ => none

variable {f after : InFlight} {request : Request} {requests : List Request} {event : Event}
  {log : List Event}

/-! ### One request -/

/-- What can come of a request. -/
inductive Step (f : InFlight) : Event → InFlight → Prop
  /-- A segment is put in flight. -/
  | send (seq : Nat) (payload : Bytes) (now : Nat) :
    Step f (.sent { seq, payload, sentAt := now }) (f.insert { seq, payload, sentAt := now })
  /-- An alarm is not heard. -/
  | idle (seq generation now : Nat) : Step f (.rang seq generation now none) f
  /-- The alarm of a segment in flight is heard. -/
  | resend {s : Segment} (hmem : s ∈ f.toList) (now : Nat) :
    Step f (.rang s.seq s.resends now (some (s.again now))) (f.insert (s.again now))
  /-- Segments are taken out. -/
  | acknowledge (ack : Nat) :
    Step f (.acknowledged ack (f.acknowledge ack).1) (f.acknowledge ack).2

/-- A request that is served has one of the four outcomes. -/
theorem step_of_serve (h : f.serve request = .ok (event, after)) : Step f event after := by
  cases request with
  | send seq payload now =>
    obtain ⟨rfl, rfl⟩ := Checked.pure_prod_eq_ok h
    exact .send seq payload now
  | ring seq generation now =>
    obtain ⟨answer, hanswer, h⟩ := Checked.bind_eq_ok_iff.1 h
    cases answer with
    | none =>
      obtain ⟨rfl, rfl⟩ := Checked.pure_prod_eq_ok h
      exact .idle seq generation now
    | some x =>
      obtain ⟨s, f'⟩ := x
      obtain ⟨rfl, rfl⟩ := Checked.pure_prod_eq_ok h
      obtain ⟨t, hmem, rfl, rfl, -, rfl, rfl⟩ := resend?_eq_some hanswer
      exact .resend hmem now
  | acknowledge ack =>
    obtain ⟨rfl, rfl⟩ := Checked.pure_prod_eq_ok h
    exact .acknowledge ack

/-- A segment that starts at a place is in flight. -/
def Holds (f : InFlight) (seq : Nat) : Prop := ∃ s ∈ f.toList, s.seq = seq

/-- A segment that is put in flight is in flight, and so is whatever was. -/
theorem holds_insert {s : Segment} {seq : Nat} :
    Holds (f.insert s) seq ↔ s.seq = seq ∨ Holds f seq := by
  constructor
  · rintro ⟨t, ht, rfl⟩
    rcases Ascending.mem_of_mem_place ht with rfl | ht
    · exact .inl rfl
    · exact .inr ⟨t, ht, rfl⟩
  · intro h
    by_cases hs : s.seq = seq
    · exact ⟨s, (Ascending.mem_place f.ordered).2 (.inl rfl), hs⟩
    · obtain ⟨t, ht, rfl⟩ := h.resolve_left hs
      exact ⟨t, (Ascending.mem_place f.ordered).2 (.inr ⟨ht, Ne.symm hs⟩), rfl⟩

theorem holds_again {s : Segment} (hmem : s ∈ f.toList) {now seq : Nat} :
    Holds (f.insert (s.again now)) seq ↔ Holds f seq := by
  rw [holds_insert]
  exact ⟨fun h ↦ h.elim (fun hs ↦ ⟨s, hmem, hs⟩) id, .inr⟩

theorem holds_acknowledge {ack seq : Nat} :
    Holds (f.acknowledge ack).2 seq ↔ Holds f seq ∧ ack ≤ seq := by
  constructor
  · rintro ⟨t, ht, rfl⟩
    obtain ⟨hmem, hle⟩ := mem_acknowledge_snd.1 ht
    exact ⟨⟨t, hmem, rfl⟩, hle⟩
  · rintro ⟨⟨t, ht, rfl⟩, hle⟩
    exact ⟨t, mem_acknowledge_snd.2 ⟨ht, hle⟩, rfl⟩

/-! ### Runs -/

/-- What is at a place of a longer log was there before, or came last. -/
theorem getElem?_concat_eq_some {α : Type} {l : List α} {last a : α} {i : Nat} :
    (l ++ [last])[i]? = some a ↔ l[i]? = some a ∨ i = l.length ∧ last = a := by
  rcases Nat.lt_trichotomy i l.length with hlt | rfl | hgt
  · rw [List.getElem?_append_left hlt]
    exact ⟨.inl, fun h ↦ h.resolve_right fun h ↦ Nat.ne_of_lt hlt h.1⟩
  · simp
  · have hnone : l[i]? = none := List.getElem?_eq_none (Nat.le_of_lt hgt)
    have hnone' : (l ++ [last])[i]? = none := List.getElem?_eq_none (by simp; omega)
    simp [hnone, hnone', Nat.ne_of_gt hgt]

/-- What comes of requests one after the other, from nothing in flight. -/
inductive Runs : List Event → InFlight → Prop
  /-- Nothing was asked. -/
  | nil : Runs [] ∅
  /-- One request more. -/
  | step {log : List Event} {f after : InFlight} {event : Event} (h : Runs log f)
    (hstep : Step f event after) : Runs (log ++ [event]) after

/-- Serving requests goes on with a run, one event for each of them. -/
theorem Runs.serveAll {more : List Event} (h : Runs log f)
    (hserve : f.serveAll requests = .ok (more, after)) : Runs (log ++ more) after := by
  induction requests generalizing log f more with
  | nil =>
    obtain ⟨rfl, rfl⟩ := Checked.pure_prod_eq_ok hserve
    simpa using h
  | cons request rest ih =>
    obtain ⟨⟨event, mid⟩, hevent, hserve⟩ := Checked.bind_eq_ok_iff.1 hserve
    obtain ⟨⟨events, last⟩, hevents, hserve⟩ := Checked.bind_eq_ok_iff.1 hserve
    obtain ⟨rfl, rfl⟩ := Checked.pure_prod_eq_ok hserve
    simpa using ih (h.step (step_of_serve hevent)) hevents

/-- What was in flight before an event, and after it. This is how a log is opened at a place in the
middle. -/
theorem Runs.exists_step (h : Runs log f) {i : Nat} (hi : log[i]? = some event) :
    ∃ mid later, Runs (log.take i) mid ∧ Step mid event later := by
  induction h with
  | nil => simp at hi
  | @step log f after last hruns hstep ih =>
    rcases getElem?_concat_eq_some.1 hi with hi | ⟨rfl, rfl⟩
    · obtain ⟨hlt, -⟩ := List.getElem?_eq_some_iff.1 hi
      rw [List.take_append_of_le_length (Nat.le_of_lt hlt)]
      exact ih hi
    · rw [List.take_left]
      exact ⟨f, after, hruns, hstep⟩

/-! ### What was sent is what left and what is in flight -/

/-- The segments of a run are sent in the order of the stream. -/
def InOrder (log : List Event) : Prop := (sent log).Pairwise (·.seq < ·.seq)

theorem sent_concat : sent (log ++ [event]) = sent log ++ sent [event] := List.filterMap_append

theorem gone_concat : gone (log ++ [event]) = gone log ++ gone [event] := List.flatMap_append

theorem heard_concat {seq : Nat} :
    heard seq (log ++ [event]) = heard seq log ++ heard seq [event] :=
  List.filterMap_append

/-- Without its last event the segments of a log are still in order. -/
theorem InOrder.before (h : InOrder (log ++ [event])) : InOrder log := by
  rw [InOrder, sent_concat] at h
  exact (List.pairwise_append.1 h).1

/-- What holds of a run: where its segments are, and what was heard of them. -/
structure Kept (log : List Event) (f : InFlight) : Prop where
  /-- What left and what is in flight are what was sent. -/
  content_eq : (gone log ++ f.toList).map Segment.content = (sent log).map Segment.content
  /-- A segment was sent again in one generation after the other. -/
  heard_eq : ∀ s ∈ gone log ++ f.toList, heard s.seq log = List.range s.resends
  /-- Nothing was heard of what was not sent. -/
  heard_nil : ∀ seq, (∀ s ∈ sent log, s.seq ≠ seq) → heard seq log = []

/-- What left and what is in flight starts where the segments that were sent do. -/
theorem Kept.seq_eq (h : Kept log f) :
    (gone log ++ f.toList).map (·.seq) = (sent log).map (·.seq) := by
  have := congrArg (List.map Prod.fst) h.content_eq
  simpa [Segment.content, Function.comp_def] using this

theorem Kept.exists_sent (h : Kept log f) {s : Segment} (hs : s ∈ gone log ++ f.toList) :
    ∃ t ∈ sent log, t.seq = s.seq := by
  have := List.mem_map_of_mem (f := (·.seq)) hs
  rw [h.seq_eq] at this
  exact List.mem_map.1 this

/-- What left comes before what is in flight, and both are in the order of the stream. -/
theorem Kept.pairwise (h : Kept log f) (hlog : InOrder log) :
    (gone log ++ f.toList).Pairwise (·.seq < ·.seq) := by
  have := List.pairwise_map.2 hlog
  rw [← h.seq_eq] at this
  exact List.pairwise_map.1 this

/-- A segment that is sent comes last. No segment was sent from its place before, so nothing was
heard there. -/
theorem Kept.send (h : Kept log f) {s : Segment} (hs : s.resends = 0)
    (hlog : InOrder (log ++ [.sent s])) : Kept (log ++ [.sent s]) (f.insert s) := by
  have hsent : sent (log ++ [.sent s]) = sent log ++ [s] := sent_concat
  have hgone : gone (log ++ [.sent s]) = gone log := gone_concat.trans (List.append_nil _)
  have hheard (seq : Nat) : heard seq (log ++ [.sent s]) = heard seq log :=
    heard_concat.trans (List.append_nil _)
  have hlast : ∀ t ∈ sent log, t.seq < s.seq := fun t ht ↦ by
    rw [InOrder, hsent] at hlog
    exact (List.pairwise_append.1 hlog).2.2 t ht s (List.mem_singleton_self s)
  -- It starts behind all that are in flight, so it is put at the end.
  have hinsert : (f.insert s).toList = f.toList ++ [s] := by
    refine Ascending.place_of_forall_lt fun t ht ↦ ?_
    obtain ⟨u, hu, hseq⟩ := h.exists_sent (List.mem_append_right _ ht)
    exact hseq ▸ hlast u hu
  refine ⟨?_, fun t ht ↦ ?_, fun seq hseq ↦ ?_⟩
  · rw [hgone, hsent, hinsert, ← List.append_assoc, List.map_append, h.content_eq, List.map_append]
  · rw [hgone, hinsert, ← List.append_assoc] at ht
    rw [hheard]
    rcases List.mem_append.1 ht with ht | ht
    · exact h.heard_eq t ht
    · obtain rfl := List.mem_singleton.1 ht
      rw [hs, h.heard_nil _ fun u hu ↦ Nat.ne_of_lt (hlast u hu), List.range_zero]
  · rw [hheard]
    exact h.heard_nil seq fun u hu ↦ hseq u (hsent ▸ List.mem_append_left _ hu)

/-- A segment that is sent again keeps its content, and is one generation further. The alarm that
was heard had the number of times it was sent again so far, which is the next of the generations. -/
theorem Kept.resend (h : Kept log f) (hlog : InOrder log) {s : Segment} (hmem : s ∈ f.toList)
    (now : Nat) : Kept (log ++ [.rang s.seq s.resends now (some (s.again now))])
      (f.insert (s.again now)) := by
  set event : Event := .rang s.seq s.resends now (some (s.again now)) with hevent
  have hsent : sent (log ++ [event]) = sent log := sent_concat.trans (List.append_nil _)
  have hgone : gone (log ++ [event]) = gone log := gone_concat.trans (List.append_nil _)
  have hheard (seq : Nat) : heard seq (log ++ [event]) =
      heard seq log ++ if s.seq = seq then [s.resends] else [] := by
    have hseq : (s.again now).seq = s.seq := rfl
    rw [heard_concat, hevent]
    by_cases hs : s.seq = seq
    · simp [heard, hseq, hs]
    · simp [heard, hseq, hs]
  -- The alarm was for the segment at its own place alone.
  have hother (t : Segment) (ht : t ∈ gone log ++ f.toList) (hne : s.seq ≠ t.seq) :
      heard t.seq (log ++ [event]) = List.range t.resends := by
    rw [hheard, if_neg hne, List.append_nil, h.heard_eq t ht]
  refine ⟨?_, fun t ht ↦ ?_, fun seq hseq ↦ ?_⟩
  · have hcontent : (f.insert (s.again now)).toList.map Segment.content =
        f.toList.map Segment.content := Ascending.map_place f.ordered hmem rfl rfl
    rw [hgone, hsent, List.map_append, hcontent, ← List.map_append, h.content_eq]
  · rw [hgone] at ht
    rcases List.mem_append.1 ht with ht | ht
    · -- What left starts before all that is in flight.
      have hlt := (List.pairwise_append.1 (h.pairwise hlog)).2.2 t ht s hmem
      exact hother t (List.mem_append_left _ ht) (Nat.ne_of_gt hlt)
    · rcases (Ascending.mem_place f.ordered).1 ht with rfl | ⟨ht, hne⟩
      · have hbefore := h.heard_eq s (List.mem_append_right _ hmem)
        have hseq : (s.again now).seq = s.seq := rfl
        have hcount : (s.again now).resends = s.resends + 1 := rfl
        rw [hheard, hseq, if_pos rfl, hbefore, hcount, List.range_succ]
      · exact hother t (List.mem_append_right _ ht) (Ne.symm hne)
  · obtain ⟨u, hu, hseq'⟩ := h.exists_sent (List.mem_append_right _ hmem)
    rw [hsent] at hseq
    have hne : s.seq ≠ seq := hseq' ▸ hseq u hu
    rw [hheard, if_neg hne, h.heard_nil seq hseq, List.append_nil]

/-- Nothing is lost if nothing is sent or heard, and what leaves was in flight. -/
theorem Kept.move (h : Kept log f) {later : List Event} (hsent : sent later = sent log)
    (hheard : ∀ seq, heard seq later = heard seq log)
    (hall : gone later ++ after.toList = gone log ++ f.toList) : Kept later after := by
  refine ⟨?_, fun t ht ↦ ?_, fun seq hseq ↦ ?_⟩
  · rw [hall, hsent, h.content_eq]
  · rw [hheard, h.heard_eq t (hall ▸ ht)]
  · rw [hheard, h.heard_nil seq (hsent ▸ hseq)]

/-- What an acknowledgement takes out was first in flight. -/
theorem Kept.acknowledge (h : Kept log f) (ack : Nat) :
    Kept (log ++ [.acknowledged ack (f.acknowledge ack).1]) (f.acknowledge ack).2 := by
  refine h.move (sent_concat.trans (List.append_nil _))
    (fun _ ↦ heard_concat.trans (List.append_nil _)) ?_
  have hgone : gone [.acknowledged ack (f.acknowledge ack).1] = (f.acknowledge ack).1 :=
    List.append_nil _
  rw [gone_concat, hgone, List.append_assoc, acknowledge_append]

/-- An alarm that is not heard changes nothing. -/
theorem Kept.idle (h : Kept log f) (seq generation now : Nat) :
    Kept (log ++ [.rang seq generation now none]) f := by
  refine h.move (sent_concat.trans (List.append_nil _))
    (fun _ ↦ heard_concat.trans (List.append_nil _)) ?_
  rw [gone_concat.trans (List.append_nil _)]

/-- **Each event keeps account of the segments.** -/
theorem Kept.step (h : Kept log f) (hlog : InOrder (log ++ [event])) (hstep : Step f event after) :
    Kept (log ++ [event]) after := by
  cases hstep with
  | send seq payload now => exact h.send rfl hlog
  | idle seq generation now => exact h.idle seq generation now
  | resend hmem now => exact h.resend hlog.before hmem now
  | acknowledge ack => exact h.acknowledge ack

/-- So does a whole run, if the segments are sent in the order of the stream. -/
theorem Runs.kept (h : Runs log f) (hlog : InOrder log) : Kept log f := by
  induction h with
  | nil => exact ⟨rfl, fun s hs ↦ absurd hs List.not_mem_nil, fun _ _ ↦ rfl⟩
  | step _ hstep ih => exact (ih hlog.before).step hlog hstep

/-! ### When a segment leaves -/

/-- No acknowledgement between two places of a log goes past a place of the stream. -/
def Unpassed (log : List Event) (seq i j : Nat) : Prop :=
  ∀ k ack gone, i < k → k < j → log[k]? = some (.acknowledged ack gone) → ack ≤ seq

theorem unpassed_take {seq i j : Nat} : Unpassed (log.take j) seq i j ↔ Unpassed log seq i j := by
  refine forall₅_congr fun k ack gone _ hk ↦ ?_
  rw [List.getElem?_take_of_lt hk]

/-- With one event more no acknowledgement has gone past a place if none had, and the event is not
one that does. -/
theorem unpassed_concat {seq i : Nat} (hi : i < log.length) :
    Unpassed (log ++ [event]) seq i (log ++ [event]).length ↔
      Unpassed log seq i log.length ∧ ∀ ack gone, event = .acknowledged ack gone → ack ≤ seq := by
  have hlength : (log ++ [event]).length = log.length + 1 := List.length_append
  constructor
  · intro h
    constructor
    · intro k ack gone hik hk hget
      exact h k ack gone hik (by omega) (getElem?_concat_eq_some.2 (.inl hget))
    · intro ack gone hevent
      exact h log.length ack gone hi (by omega) (getElem?_concat_eq_some.2 (.inr ⟨rfl, hevent⟩))
  · rintro ⟨h, hlast⟩ k ack gone hik - hget
    rcases getElem?_concat_eq_some.1 hget with hget | ⟨-, hevent⟩
    · exact h k ack gone hik (List.getElem?_eq_some_iff.1 hget).1 hget
    · exact hlast ack gone hevent

/-- A segment of which the log tells that it was sent was sent. -/
theorem mem_sent_of_getElem? {s : Segment} {i : Nat} (hi : log[i]? = some (.sent s)) :
    s ∈ sent log :=
  List.mem_filterMap.2 ⟨.sent s, List.mem_of_getElem? hi, rfl⟩

/-- **A segment that was sent is in flight as long as no acknowledgement went past it.** The
induction is on the run: an older segment stays or goes as the last event says, and the last one has
just been sent. -/
theorem Runs.holds_iff (h : Runs log f) (hlog : InOrder log) {s : Segment} {i : Nat}
    (hi : log[i]? = some (.sent s)) : Holds f s.seq ↔ Unpassed log s.seq i log.length := by
  induction h with
  | nil => simp at hi
  | @step log f after event hruns hstep ih =>
    rcases getElem?_concat_eq_some.1 hi with hold | ⟨rfl, rfl⟩
    · rw [unpassed_concat (List.getElem?_eq_some_iff.1 hold).1, ← ih hlog.before hold]
      cases hstep with
      | send seq payload now =>
        have hne : seq ≠ s.seq := by
          rw [InOrder, sent_concat] at hlog
          exact Nat.ne_of_gt <| (List.pairwise_append.1 hlog).2.2 s (mem_sent_of_getElem? hold) _
            (List.mem_singleton_self _)
        simp [holds_insert, hne]
      | idle => simp
      | resend hmem now => simp [holds_again hmem]
      | acknowledge ack => simp [holds_acknowledge]
    · -- It was the last to be sent, and nothing came after it.
      have hholds : Holds after s.seq := by
        cases hstep with
        | send => exact holds_insert.2 (.inl rfl)
      have hlength : (log ++ [Event.sent s]).length = log.length + 1 := List.length_append
      exact ⟨fun _ k _ _ hik hk ↦ by omega, fun _ ↦ hholds⟩

theorem InOrder.take (h : InOrder log) (j : Nat) : InOrder (log.take j) :=
  List.Pairwise.sublist ((List.take_sublist j log).filterMap _) h

/-- A segment is not in flight before it is sent, since its place comes behind all that were sent
before. -/
theorem Runs.not_holds {i j : Nat} (h : Runs (log.take j) f) (hlog : InOrder log) {s : Segment}
    (hi : log[i]? = some (.sent s)) (hij : j ≤ i) : ¬ Holds f s.seq := by
  rintro ⟨t, ht, hseq⟩
  obtain ⟨u, hu, hu'⟩ := (h.kept (hlog.take j)).exists_sent (List.mem_append_right _ ht)
  have hs : s ∈ sent (log.drop j) := by
    refine mem_sent_of_getElem? (i := i - j) ?_
    rw [List.getElem?_drop, Nat.add_sub_cancel' hij, hi]
  rw [InOrder, ← List.take_append_drop j log, sent, List.filterMap_append] at hlog
  have hlt := (List.pairwise_append.1 hlog).2.2 u hu s hs
  omega

/-- An acknowledgement takes out a segment if it is the first to go past it. Before it the segment
is in flight, and that is told by the log up to there. -/
theorem Runs.exists_mem_gone_iff (h : Runs log f) (hlog : InOrder log) {s : Segment}
    {gone : List Segment} {i j ack : Nat} (hi : log[i]? = some (.sent s))
    (hj : log[j]? = some (.acknowledged ack gone)) :
    (∃ t ∈ gone, t.seq = s.seq) ↔ i < j ∧ s.seq < ack ∧ Unpassed log s.seq i j := by
  obtain ⟨mid, later, hruns, hstep⟩ := h.exists_step hj
  -- It takes out what is in flight before it, and starts before its place.
  have hgone : (∃ t ∈ gone, t.seq = s.seq) ↔ Holds mid s.seq ∧ s.seq < ack := by
    cases hstep with
    | acknowledge =>
      constructor
      · rintro ⟨t, ht, hseq⟩
        obtain ⟨hmem, hlt⟩ := mem_acknowledge_fst.1 ht
        exact ⟨⟨t, hmem, hseq⟩, hseq ▸ hlt⟩
      · rintro ⟨⟨t, ht, hseq⟩, hlt⟩
        exact ⟨t, mem_acknowledge_fst.2 ⟨ht, hseq ▸ hlt⟩, hseq⟩
  rw [hgone]
  rcases Nat.lt_or_ge i j with hij | hij
  · have hlength : (log.take j).length = j :=
      List.length_take_of_le (Nat.le_of_lt (List.getElem?_eq_some_iff.1 hj).1)
    have hholds := hruns.holds_iff (hlog.take j) ((List.getElem?_take_of_lt hij).trans hi)
    rw [hlength, unpassed_take] at hholds
    rw [hholds]
    exact ⟨fun h ↦ ⟨hij, h.2, h.1⟩, fun h ↦ ⟨h.2.2, h.2.1⟩⟩
  · exact ⟨fun h ↦ absurd h.1 (hruns.not_holds hlog hi hij), fun h ↦ absurd h.1 (by omega)⟩

/-- What is in flight is not before an acknowledgement after which nothing was sent. -/
theorem Runs.le_of_holds (h : Runs log f) {gone : List Segment} {ack seq j : Nat}
    (hj : log[j]? = some (.acknowledged ack gone))
    (hlast : ∀ k s, j < k → log[k]? ≠ some (.sent s)) (hseq : Holds f seq) : ack ≤ seq := by
  induction h with
  | nil => simp at hj
  | @step log f after event hruns hstep ih =>
    rcases getElem?_concat_eq_some.1 hj with hold | ⟨rfl, rfl⟩
    · have hlt : j < log.length := (List.getElem?_eq_some_iff.1 hold).1
      have hbefore : Holds f seq → ack ≤ seq := ih hold fun k s hjk hk ↦
        hlast k s hjk (getElem?_concat_eq_some.2 (.inl hk))
      cases hstep with
      | send seq' payload now =>
        exact absurd (getElem?_concat_eq_some.2 (.inr ⟨rfl, rfl⟩)) (hlast log.length _ hlt)
      | idle => exact hbefore hseq
      | resend hmem now => exact hbefore ((holds_again hmem).1 hseq)
      | acknowledge ack' => exact hbefore (holds_acknowledge.1 hseq).1
    · cases hstep with
      | acknowledge => exact (holds_acknowledge.1 hseq).2

/-! ### All requests -/

/-- An alarm of a generation that no segment at its place has is not heard. -/
theorem serve_ring_of_forall_ne {seq generation now : Nat}
    (h : ∀ s ∈ f.toList, s.seq = seq → s.resends ≠ generation) :
    f.serve (.ring seq generation now) = .ok (.rang seq generation now none, f) := by
  rw [serve, resend?_eq_none_iff.2 h]
  rfl

/-- An alarm changes nothing, or sends the segment of its generation again. -/
theorem serve_ring_eq_ok {seq generation now : Nat}
    (h : f.serve (.ring seq generation now) = .ok (event, after)) :
    event = .rang seq generation now none ∧ after = f ∨
      ∃ s ∈ f.toList, s.seq = seq ∧ s.resends = generation ∧
        event = .rang seq generation now (some (s.again now)) ∧ after = f.insert (s.again now) := by
  obtain ⟨answer, hanswer, h⟩ := Checked.bind_eq_ok_iff.1 h
  cases answer with
  | none =>
    obtain ⟨rfl, rfl⟩ := Checked.pure_prod_eq_ok h
    exact .inl ⟨rfl, rfl⟩
  | some x =>
    obtain ⟨s, f'⟩ := x
    obtain ⟨rfl, rfl⟩ := Checked.pure_prod_eq_ok h
    obtain ⟨t, hmem, hseq, hgeneration, -, rfl, rfl⟩ := resend?_eq_some hanswer
    exact .inr ⟨t, hmem, hseq, hgeneration, rfl, rfl⟩

/-- A request that would count one resend of a segment too many. -/
def Request.Overflows (request : Request) (f : InFlight) : Prop :=
  ∃ s ∈ f.toList, maxHalfWord ≤ s.resends ∧ ∃ now, request = .ring s.seq s.resends now

/-- A request is served, unless it would count too many resends. -/
theorem exists_serve_eq_ok (h : ¬ request.Overflows f) :
    ∃ event after, f.serve request = .ok (event, after) := by
  cases request with
  | send seq payload now => exact ⟨_, _, rfl⟩
  | ring seq generation now =>
    by_cases hs : ∃ s ∈ f.toList, s.seq = seq ∧ s.resends = generation
    · obtain ⟨s, hmem, rfl, rfl⟩ := hs
      have hlt : s.resends < maxHalfWord :=
        Nat.lt_of_not_le fun hle ↦ h ⟨s, hmem, hle, now, rfl⟩
      refine ⟨.rang s.seq s.resends now (some (s.again now)), f.insert (s.again now), ?_⟩
      rw [serve, resend?_of_mem hmem hlt]
      rfl
    · refine ⟨_, _, serve_ring_of_forall_ne fun s hmem hseq hgeneration ↦ ?_⟩
      exact hs ⟨s, hmem, hseq, hgeneration⟩
  | acknowledge ack => exact ⟨_, _, rfl⟩

/-- No count of resends overflows while these requests are served. -/
def NeverOverflows (requests : List Request) (f : InFlight) : Prop :=
  ∀ before request rest log after, requests = before ++ request :: rest →
    f.serveAll before = .ok (log, after) → ¬ request.Overflows after

theorem neverOverflows_of_forall_lt
    (h : ∀ seq generation now, .ring seq generation now ∈ requests → generation < maxHalfWord) :
    NeverOverflows requests f := by
  rintro before request rest log after rfl - ⟨s, -, hle, now, rfl⟩
  have hlt := h s.seq s.resends now (List.mem_append_right _ List.mem_cons_self)
  omega

theorem serveAll_cons {mid : InFlight} (hevent : f.serve request = .ok (event, mid))
    (hrest : mid.serveAll requests = .ok (log, after)) :
    f.serveAll (request :: requests) = .ok (event :: log, after) :=
  Checked.bind_eq_ok_iff.2 ⟨(event, mid), hevent,
    Checked.bind_eq_ok_iff.2 ⟨(log, after), hrest, rfl⟩⟩

/-- Requests are served to the end, if none would count too many resends. -/
theorem exists_serveAll_eq_ok (h : NeverOverflows requests f) :
    ∃ log after, f.serveAll requests = .ok (log, after) := by
  induction requests generalizing f with
  | nil => exact ⟨[], f, rfl⟩
  | cons request rest ih =>
    obtain ⟨event, mid, hevent⟩ := exists_serve_eq_ok (h [] request rest [] f rfl rfl)
    have hrest : NeverOverflows rest mid := by
      rintro before next rest' log after rfl hbefore
      exact h (request :: before) next rest' (event :: log) after rfl (serveAll_cons hevent hbefore)
    obtain ⟨log, after, hlog⟩ := ih hrest
    exact ⟨event :: log, after, serveAll_cons hevent hlog⟩

/-- What is sent is what was asked to be sent. -/
theorem content_sent (h : f.serveAll requests = .ok (log, after)) :
    (sent log).map Segment.content = requests.filterMap Request.content? := by
  induction requests generalizing f log with
  | nil =>
    obtain ⟨rfl, rfl⟩ := Checked.pure_prod_eq_ok h
    rfl
  | cons request rest ih =>
    obtain ⟨⟨event, mid⟩, hevent, h⟩ := Checked.bind_eq_ok_iff.1 h
    obtain ⟨⟨events, last⟩, hevents, h⟩ := Checked.bind_eq_ok_iff.1 h
    obtain ⟨rfl, rfl⟩ := Checked.pure_prod_eq_ok h
    have hrest := ih hevents
    cases request with
    | send seq payload now =>
      obtain ⟨rfl, -⟩ := Checked.pure_prod_eq_ok hevent
      exact congrArg ((seq, payload) :: ·) hrest
    | ring seq generation now =>
      rcases serve_ring_eq_ok hevent with ⟨rfl, -⟩ | ⟨s, -, -, -, rfl, -⟩
      · exact hrest
      · exact hrest
    | acknowledge ack =>
      obtain ⟨rfl, -⟩ := Checked.pure_prod_eq_ok hevent
      exact hrest

/-- What holds when requests were served, with a log of what came of them and the segments that are
in flight in the end. -/
structure LeavesOnce (requests : List Request) (log : List Event) (f : InFlight) : Prop where
  /-- What left and what is in flight are the segments that were sent, in order and intact. -/
  intact : (gone log ++ f.toList).map Segment.content = requests.filterMap Request.content?
  /-- A segment leaves with the first acknowledgement after it was sent that goes past it. -/
  leaves : ∀ (i j : Nat) (s : Segment) (ack : Nat) (taken : List Segment),
    log[i]? = some (Event.sent s) → log[j]? = some (Event.acknowledged ack taken) →
      ((∃ t ∈ taken, t.seq = s.seq) ↔ i < j ∧ s.seq < ack ∧ Unpassed log s.seq i j)
  /-- A segment counts the alarms that were heard, of the generations from `0` on in order. -/
  counted : ∀ s ∈ gone log ++ f.toList, heard s.seq log = List.range s.resends
  /-- One more alarm is heard by the segment of its generation, or changes nothing. -/
  alarm : ∀ (seq generation now : Nat) (event : Event) (after : InFlight),
    f.serve (.ring seq generation now) = .ok (event, after) →
      event = .rang seq generation now none ∧ after = f ∨
        ∃ s ∈ f.toList, s.seq = seq ∧ s.resends = generation ∧
          event = .rang seq generation now (some (s.again now)) ∧ after = f.insert (s.again now)
  /-- One more acknowledgement that is not above one since the last segment was sent changes
  nothing. -/
  covered : ∀ (j highest : Nat) (taken : List Segment),
    log[j]? = some (Event.acknowledged highest taken) →
      (∀ k s, j < k → log[k]? ≠ some (Event.sent s)) → ∀ ack ≤ highest,
        f.serve (.acknowledge ack) = .ok (.acknowledged ack [], f)

/-- **Segments that are sent in the order of the stream leave once**, intact, with the first
acknowledgement that goes past them, whatever alarms ring and in whatever order acknowledgements
come. -/
theorem leavesOnce_serveAll
    (hasc : (requests.filterMap Request.content?).Pairwise (·.1 < ·.1))
    (hcount : NeverOverflows requests ∅) :
    ∃ log f, serveAll requests ∅ = .ok (log, f) ∧ LeavesOnce requests log f := by
  obtain ⟨log, f, hserve⟩ := exists_serveAll_eq_ok hcount
  have hcontent := content_sent hserve
  have hlog : InOrder log := by
    rw [← hcontent, List.pairwise_map] at hasc
    exact hasc
  have hruns : Runs log f := Runs.nil.serveAll hserve
  have hkept : Kept log f := hruns.kept hlog
  refine ⟨log, f, hserve, ?_⟩
  constructor
  case intact => rw [hkept.content_eq, hcontent]
  case leaves => exact fun i j s ack taken hi hj ↦ hruns.exists_mem_gone_iff hlog hi hj
  case counted => exact hkept.heard_eq
  case alarm => exact fun seq generation now event after ↦ serve_ring_eq_ok
  case covered =>
    intro j highest taken hj hlast ack hle
    have hnone : f.acknowledge ack = ([], f) := acknowledge_of_forall_le fun s hs ↦
      Nat.le_trans hle (hruns.le_of_holds hj hlast ⟨s, hs, rfl⟩)
    rw [serve, hnone]
    rfl

/-- Of three segments two are acknowledged, one of them after it was sent again. An alarm that rings
twice, an alarm that rings too late and an acknowledgement that comes late change nothing. -/
theorem leavesOnce_late_alarm :
    let requests : List Request := [.send 100 [1, 2] 5, .ring 100 0 8, .send 102 [3] 9,
      .ring 100 0 10, .acknowledge 101, .acknowledge 100, .ring 100 1 12, .send 103 [4] 13,
      .ring 103 0 20, .acknowledge 103, .ring 103 1 30]
    (requests.filterMap Request.content?).Pairwise (·.1 < ·.1) ∧ NeverOverflows requests ∅ ∧
      ∃ log f, serveAll requests ∅ = .ok (log, f) ∧ f.toList = [⟨103, [4], 30, 2⟩] ∧
        LeavesOnce requests log f := by
  intro requests
  have hasc : (requests.filterMap Request.content?).Pairwise (·.1 < ·.1) := by decide
  have hcount : NeverOverflows requests ∅ := by
    refine neverOverflows_of_forall_lt fun seq generation now h ↦ ?_
    have hle : generation ≤ 1 := by
      simp only [requests, List.mem_cons, List.not_mem_nil, Request.ring.injEq, reduceCtorEq,
        false_or, or_false] at h
      omega
    exact Nat.lt_of_le_of_lt hle (by decide)
  obtain ⟨log, f, hserve, h⟩ := leavesOnce_serveAll hasc hcount
  have hlast : (serveAll requests ∅).map (·.2.toList) = .ok [⟨103, [4], 30, 2⟩] := rfl
  rw [hserve] at hlast
  exact ⟨hasc, hcount, log, f, hserve, Except.ok.inj hlast, h⟩

end InFlight

end ReliableStream
