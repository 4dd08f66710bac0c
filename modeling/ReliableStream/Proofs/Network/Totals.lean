import ReliableStream.Proofs.Latency

/-!
# The totals of a network

What a network counts is what the trace tells of packets: `stats.Agrees told` says so. Each packet
that is sent has a fate, which is counted and told at once (`Stats.Agrees.count`), and the copies
that arrive are those of its fate (`exists_fate_of_send`). Of a packet that is lost there are none,
and of any other one there is one, or two (`length_copies_add`).

These lemmas are used twice: for a network that is given packets one after the other, and for the
network of a simulation, where what hosts tell stands between what the network tells.
-/

namespace ReliableStream

namespace Trace.Event

/-- Whether the network lost a packet. -/
def isLost : Event → Bool
  | .packetLost .. => true
  | _ => false

/-- Whether the network delivers a packet twice. -/
def isDuplicated : Event → Bool
  | .packetDuplicated .. => true
  | _ => false

/-- Whether the network holds a copy back. -/
def isReordered : Event → Bool
  | .packetReordered .. => true
  | _ => false

/-- Whether a packet arrived where nobody was. -/
def isUndeliverable : Event → Bool
  | .undeliverable _ => true
  | _ => false

/-- Whether an event is told by a host, and not by the network. -/
def isOwn (event : Event) : Bool := !event.isFate && !event.isUndeliverable

end Trace.Event

namespace Network

/-- The totals of a network agree with what is told of packets. -/
structure Stats.Agrees (stats : Stats) (events : List Trace.Event) : Prop where
  /-- Of each packet that was lost. -/
  lost_eq : stats.lost = events.countP (·.isLost)
  /-- Of each that is delivered twice. -/
  duplicated_eq : stats.duplicated = events.countP (·.isDuplicated)
  /-- Of each copy that is held back. -/
  reordered_eq : stats.reordered = events.countP (·.isReordered)
  /-- Of each that arrived where nobody was. -/
  undeliverable_eq : stats.undeliverable = events.countP (·.isUndeliverable)

variable {stats : Stats} {told : List Trace.Event} {fate : Fate} {packet : Packet}

/-- What is told of the fate of a packet, counted: one loss if it is lost, one duplication if it has
two copies, and one delay for each copy that is held back. -/
theorem countP_events (p : Trace.Event → Bool) :
    (fate.events packet).countP p =
      (if fate = .lost ∧ p (.packetLost packet.kind packet.seq) then 1 else 0) +
      (if fate.copies.length = 2 ∧ p (.packetDuplicated packet.kind packet.seq) then 1 else 0) +
      if p (.packetReordered packet.kind packet.seq) then fate.copies.countP (·.extra.isSome)
      else 0 := by
  have hheld (copies : List Transit) : ((copies.filter (·.extra.isSome)).map fun _ ↦
      Trace.Event.packetReordered packet.kind packet.seq).countP p =
        if p (.packetReordered packet.kind packet.seq) then copies.countP (·.extra.isSome)
        else 0 := by
    rw [List.countP_map, List.countP_eq_length_filter (l := copies)]
    split
    · next hp => exact List.countP_eq_length.2 fun _ _ ↦ hp
    · next hp => exact List.countP_eq_zero.2 fun _ _ ↦ hp
  cases fate with
  | lost => simp [Fate.events, Fate.copies, List.countP_singleton]
  | single copy =>
    rw [Fate.events, hheld]
    simp [Fate.copies]
  | double first second =>
    rw [Fate.events, List.countP_cons, hheld]
    simp [Fate.copies, Nat.add_comm]

/-- The fate of a packet is counted as it is told. -/
theorem Stats.Agrees.count (h : stats.Agrees told) :
    (stats.count fate).Agrees (told ++ fate.events packet) := by
  constructor <;>
    simp [Stats.count, countP_events, h.lost_eq, h.duplicated_eq, h.reordered_eq,
      h.undeliverable_eq, Trace.Event.isLost, Trace.Event.isDuplicated, Trace.Event.isReordered,
      Trace.Event.isUndeliverable]

/-- A packet that arrives where nobody is is counted as it is told. -/
theorem Stats.Agrees.drop (h : stats.Agrees told) (destination : Endpoint) :
    ({ stats with undeliverable := stats.undeliverable + 1 } : Stats).Agrees
      (told ++ [.undeliverable destination]) := by
  constructor <;>
    simp [h.lost_eq, h.duplicated_eq, h.reordered_eq, h.undeliverable_eq, Trace.Event.isLost,
      Trace.Event.isDuplicated, Trace.Event.isReordered, Trace.Event.isUndeliverable]

/-- What hosts tell of is not counted by the network. So the trace may be mixed, and the totals are
of the part that the network tells. -/
theorem Stats.Agrees.append (h : stats.Agrees told) {own : List Trace.Event}
    (hown : ∀ event ∈ own, event.isOwn = true) : stats.Agrees (told ++ own) := by
  have hnone {p : Trace.Event → Bool} (hp : ∀ event, event.isOwn = true → p event = false) :
      own.countP p = 0 :=
    List.countP_eq_zero.2 fun event hmem ↦ by simp [hp event (hown event hmem)]
  have hlost : own.countP (·.isLost) = 0 := hnone fun event hevent ↦ by cases event <;> trivial
  have hduplicated : own.countP (·.isDuplicated) = 0 :=
    hnone fun event hevent ↦ by cases event <;> trivial
  have hreordered : own.countP (·.isReordered) = 0 :=
    hnone fun event hevent ↦ by cases event <;> trivial
  have hundeliverable : own.countP (·.isUndeliverable) = 0 :=
    hnone fun event hevent ↦ by cases event <;> trivial
  constructor <;>
    simp [List.countP_append, h.lost_eq, h.duplicated_eq, h.reordered_eq, h.undeliverable_eq,
      hlost, hduplicated, hreordered, hundeliverable]

/-- Of a packet that is lost no copy arrives, of any other one does, or two. -/
theorem length_copies_add (fate : Fate) :
    fate.copies.length + (if fate = .lost then 1 else 0) =
      1 + if fate.copies.length = 2 then 1 else 0 := by
  cases fate <;> rfl

/-- A packet that is sent has a fate, which is counted and told, and the copies arrive that it says.
-/
theorem exists_fate_of_send {σ : Type} [DrawSource σ] {now : Nat} {n : Network σ} {sent : Sent σ}
    (h : n.send now packet = .ok sent) :
    ∃ fate : Fate, sent.traces = fate.events packet ∧
      sent.network.stats = n.stats.count fate ∧
      sent.deliveries.length = fate.copies.length := by
  obtain ⟨deliveries, hdeliveries, h⟩ := Checked.bind_eq_ok_iff.1 h
  obtain rfl := Checked.pure_eq_ok_iff.1 h
  exact ⟨_, rfl, rfl, Checked.length_of_mapM hdeliveries⟩

end Network

end ReliableStream
