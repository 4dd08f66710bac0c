import ReliableStream.Ascending
import ReliableStream.Packet
import ReliableStream.Time

/-!
# Segments in flight

The sending side keeps every segment that was sent and is not acknowledged yet, in the order of
the stream. A cumulative acknowledgement takes out everything before it, so each segment leaves
once.

A segment counts how often it was sent again. The count is also the *generation* of the alarm that
watches the latest sending: `resend?` does something only for an alarm of the current generation,
so alarms are never cancelled, and one that rings late finds nothing to do.
-/

namespace ReliableStream

/-- A segment that was sent and is not acknowledged. -/
structure Segment where
  /-- The place of its first byte in the stream. -/
  seq : Nat
  /-- The bytes it carries. -/
  payload : Bytes
  /-- When it was last sent. -/
  sentAt : Nat
  /-- How often it was sent again. -/
  resends : Nat := 0
  deriving DecidableEq

/-- The place after the last byte of a segment. -/
def Segment.stop (s : Segment) : Nat := saturatingAdd s.seq s.payload.length

/-- The text of a segment. -/
def Segment.text (s : Segment) : String := s!"Segment(seq={s.seq}, len={s.payload.length})"

/-- The segments in flight, in the order of the stream. -/
abbrev InFlight := Ascending Segment.seq

namespace InFlight

/-- Takes out every segment that starts before `ack`. -/
def acknowledge (ack : Nat) (f : InFlight) : List Segment × InFlight :=
  (f.toList.filter (·.seq < ack), f.filter (ack ≤ ·.seq))

/-- Sends a segment again at `now`, if it is still in flight and in this generation: the segment as
it then is, and the segments in flight with it. -/
def resend? (seq generation : Nat) (now : Nat) (f : InFlight) :
    Checked (Option (Segment × InFlight)) :=
  match f.find? seq with
  | none => pure none
  | some segment =>
    if segment.resends = generation then do
      let resends ← addWithin maxHalfWord segment.resends 1
      let segment := { segment with sentAt := now, resends }
      pure (some (segment, f.insert segment))
    else pure none

/-- Nothing is lost between what an acknowledgement takes out and what it leaves. -/
theorem acknowledge_append (ack : Nat) (f : InFlight) :
    (f.acknowledge ack).1 ++ (f.acknowledge ack).2.toList = f.toList := by
  obtain ⟨l, ordered⟩ := f
  simp only [acknowledge, Ascending.toList_filter]
  induction l with
  | nil => rfl
  | cons s rest ih =>
    obtain ⟨hs, hrest⟩ := List.pairwise_cons.1 ordered
    by_cases h : s.seq < ack
    · simp [h, ih hrest]
    · have none_before : rest.filter (·.seq < ack) = [] :=
        List.filter_eq_nil_iff.2 fun t ht ↦ by
          have := hs t ht
          simp only [decide_eq_true_eq]
          omega
      have all_after : rest.filter (ack ≤ ·.seq) = rest :=
        List.filter_eq_self.2 fun t ht ↦ by
          have := hs t ht
          simp only [decide_eq_true_eq]
          omega
      simp [h, none_before, all_after, Nat.le_of_not_lt h]

/-- An acknowledgement takes out segments from the front. -/
theorem acknowledge_eq_take_drop (ack : Nat) (f : InFlight) :
    ∃ n ≤ f.size, (f.acknowledge ack).1 = f.toList.take n ∧
      (f.acknowledge ack).2.toList = f.toList.drop n := by
  have happend := f.acknowledge_append ack
  refine ⟨(f.acknowledge ack).1.length, ?_, ?_, ?_⟩
  · rw [Ascending.size, ← happend, List.length_append]
    exact Nat.le_add_right ..
  · rw [← happend, List.take_left]
  · rw [← happend, List.drop_left]

theorem mem_acknowledge_fst {ack : Nat} {f : InFlight} {s : Segment} :
    s ∈ (f.acknowledge ack).1 ↔ s ∈ f.toList ∧ s.seq < ack := by
  simp [acknowledge]

theorem mem_acknowledge_snd {ack : Nat} {f : InFlight} {s : Segment} :
    s ∈ (f.acknowledge ack).2.toList ↔ s ∈ f.toList ∧ ack ≤ s.seq := by
  simp [acknowledge]

/-- An acknowledgement that goes past nothing takes out nothing. -/
theorem acknowledge_of_forall_le {ack : Nat} {f : InFlight} (h : ∀ s ∈ f.toList, ack ≤ s.seq) :
    f.acknowledge ack = ([], f) := by
  refine Prod.ext (List.filter_eq_nil_iff.2 fun s hs ↦ ?_)
    (Ascending.ext (List.filter_eq_self.2 fun s hs ↦ ?_))
  · simpa using h s hs
  · simpa using h s hs

/-- A segment is sent again only in its current generation, and is then the one that was in flight
but for its time and its count. -/
theorem resend?_eq_some {seq generation now : Nat} {f f' : InFlight} {s : Segment}
    (h : f.resend? seq generation now = .ok (some (s, f'))) :
    ∃ t ∈ f.toList, t.seq = seq ∧ t.resends = generation ∧ t.resends + 1 ≤ maxHalfWord ∧
      s = { t with sentAt := now, resends := t.resends + 1 } ∧ f' = f.insert s := by
  rw [resend?] at h
  split at h
  · simp at h
  · next t hfind =>
    obtain ⟨hmem, hseq⟩ := Ascending.find?_eq_some_iff.1 hfind
    split at h
    · next hgen =>
      obtain ⟨resends, hadd, h⟩ := Checked.bind_eq_ok_iff.1 h
      obtain ⟨hle, rfl⟩ := addWithin_eq_ok_iff.1 hadd
      simp only [Checked.pure_eq_ok_iff, Option.some.injEq, Prod.mk.injEq] at h
      obtain ⟨rfl, rfl⟩ := h
      exact ⟨t, hmem, hseq, hgen, hle, rfl, rfl⟩
    · simp at h

/-- Nothing is sent again if no segment in flight is in this generation, and only then. -/
theorem resend?_eq_none_iff {seq generation now : Nat} {f : InFlight} :
    f.resend? seq generation now = .ok none ↔
      ∀ s ∈ f.toList, s.seq = seq → s.resends ≠ generation := by
  constructor
  · rintro h s hmem hseq hgen
    rw [resend?, Ascending.find?_eq_some_iff.2 ⟨hmem, hseq⟩] at h
    dsimp only at h
    rw [if_pos hgen] at h
    obtain ⟨resends, -, h⟩ := Checked.bind_eq_ok_iff.1 h
    exact absurd (Checked.pure_eq_ok_iff.1 h) (by simp)
  · intro h
    rw [resend?]
    split
    · rfl
    · next s hfind =>
      obtain ⟨hmem, hseq⟩ := Ascending.find?_eq_some_iff.1 hfind
      exact if_neg (h s hmem hseq)

/-- A segment in flight is sent again in its current generation. -/
theorem resend?_of_mem {now : Nat} {f : InFlight} {s : Segment} (hmem : s ∈ f.toList)
    (hresends : s.resends + 1 ≤ maxHalfWord) :
    f.resend? s.seq s.resends now = .ok (some (⟨s.seq, s.payload, now, s.resends + 1⟩,
      f.insert ⟨s.seq, s.payload, now, s.resends + 1⟩)) := by
  rw [resend?, Ascending.find?_eq_some_iff.2 ⟨hmem, rfl⟩]
  dsimp only
  rw [if_pos rfl, addWithin_eq_ok_iff.2 ⟨hresends, rfl⟩]
  rfl

end InFlight

end ReliableStream
