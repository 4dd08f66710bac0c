import Mathlib.Data.List.Forall2
import ReliableStream.Proofs.Numbering.Schedule

/-!
# Initial sequence numbers are unobservable

One schedule is carried out twice, by ends that differ in nothing but their initial sequence
numbers. The two runs are then step by step the same, but that each number of a stream in the second
run is as far from the number in the first one as the initial numbers of this stream are from each
other (`Link.run_apart`).

`Apart own other` says this of two values of one type. It is written with the differences that there
are, `own` for the stream that an end sends and `other` for the one that it receives, as either may
be negative. The proof compares neither run with the other but both with a third one, in which both
streams are counted from zero: what two runs are that are this one further ahead, are apart.

Counting from zero is what makes the comparison possible. A shift only adds, and of two initial
numbers either may be the larger one. The third run exists whenever one of the two does, since it
needs less room than either (`run_begin_iff`).
-/

namespace ReliableStream

/-! ### Values that are apart -/

/-- Two segments in flight. -/
structure Segment.Apart (own : Int) (s s' : Segment) : Prop where
  /-- Their places are apart. -/
  seq_sub : (s'.seq : Int) - s.seq = own
  /-- They carry the same bytes. -/
  payload_eq : s'.payload = s.payload
  /-- They were last sent at the same instant. -/
  sentAt_eq : s'.sentAt = s.sentAt
  /-- They were sent again as often. -/
  resends_eq : s'.resends = s.resends

/-- Two chunks that wait. -/
structure Chunk.Apart (other : Int) (chunk chunk' : Chunk) : Prop where
  /-- Their places are apart. -/
  seq_sub : (chunk'.seq : Int) - chunk.seq = other
  /-- Their bytes are the same. -/
  bytes_eq : chunk'.bytes = chunk.bytes

/-- Two packets of one end. -/
structure Packet.Apart (own other : Int) (p p' : Packet) : Prop where
  /-- They come from the same place. -/
  source_eq : p'.source = p.source
  /-- They go to the same place. -/
  destination_eq : p'.destination = p.destination
  /-- They are of one kind. -/
  kind_eq : p'.kind = p.kind
  /-- Their places are apart. -/
  seq_sub : (p'.seq : Int) - p.seq = own
  /-- What they acknowledge of the other stream is apart. -/
  ack_sub : p.kind ≠ .syn → (p'.ack : Int) - p.ack = other
  /-- An opening acknowledges nothing, and tells no number of the other stream. -/
  ack_eq : p.kind = .syn → p'.ack = p.ack
  /-- They advertise the same window. -/
  window_eq : p'.window = p.window
  /-- They carry the same bytes. -/
  payload_eq : p'.payload = p.payload

/-- What two alarms watch. -/
def Alarm.Watch.Apart (own : Int) : Alarm.Watch → Alarm.Watch → Prop
  | .segment seq generation, watch' =>
    ∃ seq' : Nat, watch' = .segment seq' generation ∧ (seq' : Int) - seq = own
  | watch, watch' => watch' = watch

/-- Two alarms. -/
structure Alarm.Apart (own : Int) (alarm alarm' : Alarm) : Prop where
  /-- They ring after the same time. -/
  delay_eq : alarm'.delay = alarm.delay
  /-- What they watch is apart, in the same generation. -/
  watch : alarm.watch.Apart own alarm'.watch

/-- Two events. Those of the network concern the sender of a packet. -/
def Trace.Event.Apart (own : Int) : Trace.Event → Trace.Event → Prop
  | .segmentSent seq len, event' =>
    ∃ seq' : Nat, event' = .segmentSent seq' len ∧ (seq' : Int) - seq = own
  | .segmentResent seq len count, event' =>
    ∃ seq' : Nat, event' = .segmentResent seq' len count ∧ (seq' : Int) - seq = own
  | .ackReceived ack segments, event' =>
    ∃ ack' : Nat, event' = .ackReceived ack' segments ∧ (ack' : Int) - ack = own
  | .packetLost kind seq, event' =>
    ∃ seq' : Nat, event' = .packetLost kind seq' ∧ (seq' : Int) - seq = own
  | .packetDuplicated kind seq, event' =>
    ∃ seq' : Nat, event' = .packetDuplicated kind seq' ∧ (seq' : Int) - seq = own
  | .packetReordered kind seq, event' =>
    ∃ seq' : Nat, event' = .packetReordered kind seq' ∧ (seq' : Int) - seq = own
  | event, event' => event' = event

/-- Two ends. -/
structure Party.Apart (own other : Int) (p p' : Party) : Prop where
  /-- They are at the same place. -/
  home_eq : p'.home = p.home
  /-- They have the same peer, if any. -/
  peer_eq : p'.peer = p.peer
  /-- They behave the same. -/
  settings_eq : p'.settings = p.settings
  /-- They are in the same state. -/
  state_eq : p'.state = p.state
  /-- They began as many handshakes. -/
  attempt_eq : p'.attempt = p.attempt
  /-- Their totals are the same. -/
  stats_eq : p'.stats = p.stats
  /-- The same chunks are in line. -/
  pending_eq : p'.pending = p.pending
  /-- The same bytes can be read. -/
  ready_eq : p'.ready = p.ready
  /-- They were handed the same bytes. -/
  sends_eq : p'.sends = p.sends
  /-- They gave the same bytes. -/
  reads_eq : p'.reads = p.reads
  /-- Their initial sequence numbers are apart. -/
  isn_sub : (p'.isn : Int) - p.isn = own
  /-- The places of their next new bytes are apart. -/
  next_sub : (p'.sendNext : Int) - p.sendNext = own
  /-- The last places acknowledged are apart. -/
  base_sub : (p'.sendBase : Int) - p.sendBase = own
  /-- The same segments are in flight, at places that are apart. -/
  inFlight : List.Forall₂ (Segment.Apart own) p.inFlight.toList p'.inFlight.toList
  /-- Their edges are apart, once a handshake has set them. -/
  edge_sub : p.edge ≠ 0 → (p'.edge : Int) - p.edge = other
  /-- Both are zero before, which they are not once the end was opened. -/
  edge_eq : p.edge = 0 → p'.edge = 0 ∧ p.state ≠ .synReceived ∧ p.state ≠ .established
  /-- The same chunks wait, at places that are apart. -/
  waiting : List.Forall₂ (Chunk.Apart other) p.reassembly.waiting.toList
    p'.reassembly.waiting.toList

namespace Link

/-- Two answers at one end. -/
structure Answer.Apart (offset : Side → Int) (a a' : Answer) : Prop where
  /-- It is the same end. -/
  side_eq : a'.side = a.side
  /-- The call gave the same: a failure, or bytes. -/
  result_eq : a'.result = a.result
  /-- The packets to send are apart. -/
  packets : List.Forall₂ (Packet.Apart (offset a.side) (offset a.side.other)) a.reaction.packets
    a'.reaction.packets
  /-- So are the alarms to set. -/
  alarms : List.Forall₂ (Alarm.Apart (offset a.side)) a.reaction.alarms a'.reaction.alarms
  /-- So are the events for the trace. -/
  traces : List.Forall₂ (Trace.Event.Apart (offset a.side)) a.reaction.traces a'.reaction.traces
  /-- The application is told the same. -/
  notices_eq : a'.reaction.notices = a.reaction.notices

/-- Two scenes. -/
structure Scene.Apart (offset : Side → Int) (s s' : Scene) : Prop where
  /-- The ends are apart. -/
  party : ∀ side, (s.link.party side).Apart (offset side) (offset side.other) (s'.link.party side)
  /-- So are all packets that they ever sent. -/
  sent : ∀ side, List.Forall₂ (Packet.Apart (offset side) (offset side.other)) (s.link.sent side)
    (s'.link.sent side)
  /-- So are all alarms that they ever set. -/
  alarms : ∀ side, List.Forall₂ (Alarm.Apart (offset side)) (s.alarms side) (s'.alarms side)
  /-- So are all answers. -/
  answers : List.Forall₂ (Answer.Apart offset) s.answers s'.answers

end Link

/-! ### One value, counted from two numbers -/

/-- Two images of one list are related element by element if the two functions are. -/
theorem forall₂_map_map {α : Type} {R : α → α → Prop} {f g : α → α} {l : List α}
    (h : ∀ x ∈ l, R (f x) (g x)) : List.Forall₂ R (l.map f) (l.map g) :=
  List.forall₂_map_left_iff.2 (List.forall₂_map_right_iff.2 (List.forall₂_same.2 h))

/-- Two numbers that are one number further ahead differ as the two distances do. -/
theorem add_sub_add (n k k' : Nat) : ((n + k' : Nat) : Int) - (n + k : Nat) = k' - k := by
  omega

variable {own own' other other' : Nat}

theorem Segment.apart_shift (s : Segment) : Apart (own' - own) (s.shift own) (s.shift own') where
  seq_sub := add_sub_add s.seq own own'
  payload_eq := rfl
  sentAt_eq := rfl
  resends_eq := rfl

theorem Chunk.apart_shift (chunk : Chunk) :
    Apart (other' - other) (chunk.shift other) (chunk.shift other') where
  seq_sub := add_sub_add chunk.seq other other'
  bytes_eq := rfl

/-- One packet, counted from two numbers. The acknowledgement on an opening is zero from either. -/
theorem Packet.apart_shift (p : Packet) :
    Apart (own' - own) (other' - other) (p.shift own other) (p.shift own' other') where
  source_eq := rfl
  destination_eq := rfl
  kind_eq := rfl
  seq_sub := add_sub_add p.seq own own'
  ack_sub hkind := by
    have hack (own other : Nat) : (p.shift own other).ack = p.ack + other := if_neg hkind
    rw [hack, hack]
    exact add_sub_add p.ack other other'
  ack_eq hkind := by
    have hack (own other : Nat) : (p.shift own other).ack = p.ack := if_pos hkind
    rw [hack, hack]
  window_eq := rfl
  payload_eq := rfl

theorem Alarm.apart_shift (alarm : Alarm) :
    Apart (own' - own) (alarm.shift own) (alarm.shift own') where
  delay_eq := rfl
  watch := by
    obtain ⟨delay, watch⟩ := alarm
    cases watch with
    | segment seq generation => exact ⟨_, rfl, add_sub_add seq own own'⟩
    | handshakeRetry attempt | handshakeDeadline attempt => rfl

theorem Trace.Event.apart_shift (event : Trace.Event) :
    Apart (own' - own) (event.shift own) (event.shift own') := by
  cases event with
  | segmentSent seq | segmentResent seq | ackReceived seq | packetLost _ seq
  | packetDuplicated _ seq | packetReordered _ seq => exact ⟨_, rfl, add_sub_add seq own own'⟩
  | registered | established | handshakeFailed | bytesDelivered | undeliverable => rfl

/-- One end, counted from two numbers for each of its streams. An edge of zero is none and is the
same in both, which can be only before the end has heard of its peer. -/
theorem Party.apart_shift {p : Party}
    (hmet : p.state = .synReceived ∨ p.state = .established → p.edge ≠ 0) :
    Apart (own' - own) (other' - other) (p.shift own other) (p.shift own' other') where
  home_eq := rfl
  peer_eq := rfl
  settings_eq := rfl
  state_eq := rfl
  attempt_eq := rfl
  stats_eq := rfl
  pending_eq := rfl
  ready_eq := rfl
  sends_eq := rfl
  reads_eq := rfl
  isn_sub := add_sub_add p.isn own own'
  next_sub := add_sub_add p.sendNext own own'
  base_sub := add_sub_add p.sendBase own own'
  inFlight := forall₂_map_map fun s _ ↦ s.apart_shift
  edge_sub hne := by
    have hedge : p.edge ≠ 0 := fun hzero ↦ hne (if_pos hzero)
    have hshift (own other : Nat) : (p.shift own other).edge = p.edge + other := if_neg hedge
    rw [hshift, hshift]
    exact add_sub_add p.edge other other'
  edge_eq hzero := by
    have hedge : p.edge = 0 := by
      by_contra hedge
      have hshift : (p.shift own other).edge = p.edge + other := if_neg hedge
      omega
    exact ⟨if_pos hedge, fun hstate ↦ hmet (.inl hstate) hedge,
      fun hstate ↦ hmet (.inr hstate) hedge⟩
  waiting := forall₂_map_map fun chunk _ ↦ chunk.apart_shift

namespace Link

variable {ahead ahead' : Side → Nat} {setup setup' : Setup}

theorem Answer.apart_shift (a : Answer) :
    Apart (fun side ↦ (ahead' side : Int) - ahead side) (a.shift ahead) (a.shift ahead') where
  side_eq := rfl
  result_eq := rfl
  packets := forall₂_map_map fun packet _ ↦ packet.apart_shift
  alarms := forall₂_map_map fun alarm _ ↦ alarm.apart_shift
  traces := forall₂_map_map fun event _ ↦ event.apart_shift
  notices_eq := rfl

theorem Scene.apart_shift {s : Scene} (h : s.link.Sound setup) :
    Apart (fun side ↦ (ahead' side : Int) - ahead side) (s.shift ahead) (s.shift ahead') where
  party _ := Party.apart_shift fun hstate ↦ (h.follows hstate).1
  sent _ := forall₂_map_map fun packet _ ↦ packet.apart_shift
  alarms _ := forall₂_map_map fun alarm _ ↦ alarm.apart_shift
  answers := forall₂_map_map fun answer _ ↦ answer.apart_shift

/-- The scenes of a schedule are those that there are if both ends count from zero, further ahead.
There they have room, in particular. -/
theorem run_begin_iff {schedule : List (Side × Nat × Deed)} {scenes : List Scene} :
    (begin setup).run schedule = .ok scenes ↔
      ∃ base, (begin setup.fromZero).run schedule = .ok base ∧
        (∀ t ∈ base, t.link.Room setup.isn) ∧ scenes = base.map (Scene.shift setup.isn) := by
  rw [← shift_begin_fromZero]
  refine Scene.run_shift .start (fun side ↦ ?_) fun side ↦ ?_
  · show 0 + 1 + setup.isn side ≤ maxWord
    have := setup.isn_lt side
    omega
  · show 0 + setup.isn side ≤ maxWord
    have := setup.isn_lt side
    omega

/-- **Initial sequence numbers are unobservable.** Of two runs of one schedule, which begin with
different initial numbers, the scenes are the same but for how the numbers of each stream are apart.
And if there is one of the runs then there is the other, unless the next byte of an end would
have no place. -/
theorem run_apart (hhome : setup'.home = setup.home) (hsettings : setup'.settings = setup.settings)
    {schedule : List (Side × Nat × Deed)} {scenes : List Scene}
    (hrun : (begin setup).run schedule = .ok scenes) :
    (∀ scenes', (begin setup').run schedule = .ok scenes' →
      List.Forall₂ (Scene.Apart fun side ↦ (setup'.isn side : Int) - setup.isn side) scenes
        scenes') ∧
    ((∀ s ∈ scenes, ∀ side,
        (s.link.party side).sendNext + setup'.isn side ≤ maxWord + setup.isn side) →
      ∃ scenes', (begin setup').run schedule = .ok scenes') := by
  have hzero : setup'.fromZero = setup.fromZero := by
    simp only [Setup.fromZero, hhome, hsettings]
  obtain ⟨base, hbase, hroom, rfl⟩ := run_begin_iff.1 hrun
  refine ⟨fun scenes' hrun' ↦ ?_, fun hnext ↦ ?_⟩
  · obtain ⟨base', hbase', -, rfl⟩ := run_begin_iff.1 hrun'
    rw [hzero, hbase] at hbase'
    obtain rfl := Except.ok.inj hbase'
    exact forall₂_map_map fun t ht ↦ Scene.apart_shift (Scene.reachable_run .start hbase t ht).sound
  · refine ⟨_, run_begin_iff.2 ⟨base, hzero ▸ hbase, fun t ht side ↦ ?_, rfl⟩⟩
    -- The next byte of the third run is as far ahead in the second run as it is in the first one,
    -- but for the difference.
    have hplace : (t.link.party side).sendNext + setup.isn side + setup'.isn side ≤
        maxWord + setup.isn side := hnext (t.shift setup.isn) (List.mem_map_of_mem ht) side
    omega

/-- The ends with little room, with other initial numbers. -/
def Setup.elsewhere : Setup :=
  { Setup.narrow with
    isn := fun
      | .left => 7000
      | .right => 3
    isn_lt := fun side ↦ by cases side <;> decide }

/-- The left end opens the connection and sends five bytes. The second segment arrives before the
first one, which is sent again; the acknowledgement of both arrives twice. -/
def secondFirst : List (Side × Nat × Deed) :=
  [(.right, 0, .listen),
    (.left, 0, .connect),
    (.right, 1, .arrive 0),
    (.left, 2, .arrive 0),
    (.left, 3, .send [1, 2, 3, 4, 5]),
    (.right, 4, .arrive 3),
    (.left, 5, .ring 2),
    (.right, 6, .arrive 4),
    (.left, 7, .arrive 2),
    (.left, 8, .arrive 2),
    (.right, 9, .read)]

/-- The last place acknowledged at the left end, and the edge of the right one, in each scene. -/
def places (scenes : List Scene) : List (Nat × Nat) :=
  scenes.map fun s ↦ ((s.link.party .left).sendBase, (s.link.party .right).edge)

/-- The stream of the left end begins at 100 in one run and at 7000 in the other one. -/
theorem run_apart_secondFirst :
    ∃ scenes scenes', (begin .narrow).run secondFirst = .ok scenes ∧
      (begin .elsewhere).run secondFirst = .ok scenes' ∧
      (places scenes).getLast? = some (105, 105) ∧ (places scenes').getLast? = some (7005, 7005) ∧
      List.Forall₂ (Scene.Apart fun side ↦ (Setup.elsewhere.isn side : Int) - Setup.narrow.isn side)
        scenes scenes' := by
  have hfirst : ((begin .narrow).run secondFirst).toOption.map (fun scenes ↦
      (places scenes).getLast?) = some (some (105, 105)) := by decide +kernel
  have hsecond : ((begin .elsewhere).run secondFirst).toOption.map (fun scenes ↦
      (places scenes).getLast?) = some (some (7005, 7005)) := by decide +kernel
  obtain ⟨scenes, hrun, hplaces⟩ := Option.map_eq_some_iff.1 hfirst
  obtain ⟨scenes', hrun', hplaces'⟩ := Option.map_eq_some_iff.1 hsecond
  rw [toOption_eq_some_iff] at hrun hrun'
  have happart := (@run_apart .narrow .elsewhere rfl rfl secondFirst scenes hrun).1 scenes' hrun'
  exact ⟨scenes, scenes', hrun, hrun', hplaces, hplaces', happart⟩

end Link

end ReliableStream
