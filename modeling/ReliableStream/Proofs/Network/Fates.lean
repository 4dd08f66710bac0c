import Mathlib.Algebra.Ring.Nat
import Mathlib.Data.List.Forall2
import ReliableStream.Draws.ChaCha
import ReliableStream.Proofs.Network.Totals

/-!
# What a network does to packets

Packets are sent one after the other, each at an instant: `sendAll`. The network does with each of
them what the trace tells, and nothing else (`Treats`): it loses the packet, or one copy arrives, or
two, each within the time that its delay may take, and within that of the extra delay if it is told
to be held back. The totals are those of what was told.

Nothing of this depends on the packets. The fate of a packet is drawn before it is looked at, so a
network that is given other packets at the same instants goes on to be the same network, and its
copies arrive at the same instants (`exists_send_other`).

The proof has two layers. `send_eq_ok_iff` says of one packet that its fate is the one that is
drawn, and that the fate is all there is to it. Everything else is about lists of such packets,
where what one packet adds to the totals is put before what the rest adds (`Adds.cons`).
-/

namespace ReliableStream

/-- The results of computations one after the other are the result of each. -/
theorem Checked.mapM_eq_ok_iff {α β : Type} {f : α → Checked β} {l : List α} {results : List β} :
    l.mapM f = .ok results ↔ List.Forall₂ (fun a b ↦ f a = .ok b) l results := by
  induction l generalizing results with
  | nil =>
    rw [List.mapM_nil, Checked.pure_eq_ok_iff, List.forall₂_nil_left_iff]
    exact eq_comm
  | cons a rest ih =>
    rw [List.mapM_cons, List.forall₂_cons_left_iff]
    constructor
    · intro h
      obtain ⟨first, hfirst, h⟩ := Checked.bind_eq_ok_iff.1 h
      obtain ⟨more, hmore, h⟩ := Checked.bind_eq_ok_iff.1 h
      obtain rfl := Checked.pure_eq_ok_iff.1 h
      exact ⟨first, more, hfirst, ih.1 hmore, rfl⟩
    · rintro ⟨first, more, hfirst, hmore, rfl⟩
      exact Checked.bind_eq_ok_iff.2 ⟨_, hfirst, Checked.bind_eq_ok_iff.2 ⟨_, ih.2 hmore, rfl⟩⟩

namespace Network

/-! ### One packet -/

/-- What may become of a copy that is sent at an instant, and what is told of it. -/
inductive Fares (faults : Faults) (now : Nat) (packet : Packet) :
    Delivery → List Trace.Event → Prop
  /-- It takes its delay. -/
  | prompt {time : Nat} (hle : now + faults.minDelay ≤ time)
    (hle' : time ≤ now + faults.maxDelay) : Fares faults now packet ⟨time, packet⟩ []
  /-- It is held back, and takes an extra delay. -/
  | heldBack {time : Nat} (hle : now + faults.minDelay + faults.minExtra ≤ time)
    (hle' : time ≤ now + faults.maxDelay + faults.maxExtra) :
    Fares faults now packet ⟨time, packet⟩ [.packetReordered packet.kind packet.seq]

/-- What may become of a packet that is sent at an instant, and what is told of it. -/
inductive Treats (faults : Faults) (now : Nat) (packet : Packet) :
    List Delivery → List Trace.Event → Prop
  /-- It is lost. -/
  | lost : Treats faults now packet [] [.packetLost packet.kind packet.seq]
  /-- It arrives. -/
  | once {delivery : Delivery} {told : List Trace.Event}
    (h : Fares faults now packet delivery told) : Treats faults now packet [delivery] told
  /-- It arrives twice. -/
  | twice {first second : Delivery} {told told' : List Trace.Event}
    (h : Fares faults now packet first told) (h' : Fares faults now packet second told') :
    Treats faults now packet [first, second]
      (.packetDuplicated packet.kind packet.seq :: (told ++ told'))

section Send

variable {σ : Type} [DrawSource σ] {faults : Faults} {now : Nat} {packet : Packet} {n : Network σ}
  {sent : Sent σ}

/-- What is told of a copy. -/
def Transit.events (packet : Packet) (t : Transit) : List Trace.Event :=
  if t.extra.isSome then [.packetReordered packet.kind packet.seq] else []

theorem Fate.events_single (copy : Transit) :
    (Fate.single copy).events packet = copy.events packet := by
  cases h : copy.extra <;> simp [Fate.events, Fate.copies, Transit.events, h]

/-- Of two copies it is told first that the packet was duplicated, and then of each. -/
theorem Fate.events_double (first second : Transit) :
    (Fate.double first second).events packet = .packetDuplicated packet.kind packet.seq ::
      (first.events packet ++ second.events packet) := by
  cases h : first.extra <;> cases h' : second.extra <;>
    simp [Fate.events, Fate.copies, Transit.events, h, h']

/-- A copy becomes a delivery. -/
structure Transit.Arrives (now : Nat) (packet : Packet) (t : Transit) (delivery : Delivery) :
    Prop where
  /-- It arrives when its delay has passed. -/
  arrival_eq : t.arrival now = .ok delivery.time
  /-- It is a copy. -/
  packet_eq : delivery.packet = packet

/-- A copy that keeps its delays fares as it may: it is told to be held back if it is, and arrives
in time. -/
theorem Transit.Arrives.fares {copy : Transit} {delivery : Delivery}
    (h : copy.Arrives now packet delivery) (hkeeps : copy.Keeps faults) :
    Fares faults now packet delivery (copy.events packet) := by
  obtain ⟨time, packet'⟩ := delivery
  obtain ⟨harrival, rfl⟩ := h
  obtain rfl : time = now + copy.total := Transit.eq_add_total harrival
  have hle := hkeeps.le_delay
  have hle' := hkeeps.delay_le
  rw [Transit.events, Transit.total]
  cases hextra : copy.extra with
  | none => exact .prompt (by simpa using hle) (by simpa using hle')
  | some extra =>
    obtain ⟨hmin, hmax⟩ := hkeeps.extra extra hextra
    exact .heldBack (by simp; omega) (by simp; omega)

/-- **A packet that is sent has the fate that is drawn for it**, and that is all: its copies arrive,
what is told is told of the fate, and the network counts it and goes on to draw. -/
theorem send_eq_ok_iff : n.send now packet = .ok sent ↔
    List.Forall₂ (Transit.Arrives now packet) (Fate.draw n.faults n.source).1.copies
        sent.deliveries ∧
      sent.traces = (Fate.draw n.faults n.source).1.events packet ∧
      sent.network = { n with
        source := (Fate.draw n.faults n.source).2
        stats := n.stats.count (Fate.draw n.faults n.source).1 } := by
  -- A copy arrives if the clock can still tell when.
  have hcopy (copy : Transit) (delivery : Delivery) :
      (do pure { time := ← copy.arrival now, packet : Delivery }) = .ok delivery ↔
        copy.Arrives now packet delivery := by
    constructor
    · intro h
      obtain ⟨time, htime, hpure⟩ := Checked.bind_eq_ok_iff.1 h
      obtain rfl := Checked.pure_eq_ok_iff.1 hpure
      exact ⟨htime, rfl⟩
    · rintro ⟨htime, rfl⟩
      exact Checked.bind_eq_ok_iff.2 ⟨_, htime, rfl⟩
  have hdeliveries (deliveries : List Delivery) :
      ((Fate.draw n.faults n.source).1.copies.mapM fun copy ↦ do
        pure { time := ← copy.arrival now, packet : Delivery }) = .ok deliveries ↔
      List.Forall₂ (Transit.Arrives now packet) (Fate.draw n.faults n.source).1.copies
        deliveries := by
    simp only [Checked.mapM_eq_ok_iff, hcopy]
  constructor
  · intro h
    obtain ⟨deliveries, hmapM, h⟩ := Checked.bind_eq_ok_iff.1 h
    obtain rfl := Checked.pure_eq_ok_iff.1 h
    exact ⟨(hdeliveries _).1 hmapM, rfl, rfl⟩
  · obtain ⟨deliveries, traces, network⟩ := sent
    rintro ⟨harrive, rfl, rfl⟩
    exact Checked.bind_eq_ok_iff.2 ⟨_, (hdeliveries _).2 harrive, rfl⟩

/-- The network does what it tells. A fate is a loss, one copy or two, and each is told apart. -/
theorem treats_of_send (h : n.send now packet = .ok sent) :
    Treats n.faults now packet sent.deliveries sent.traces := by
  obtain ⟨harrive, htraces, -⟩ := send_eq_ok_iff.1 h
  have hkeeps : ∀ copy ∈ (Fate.draw n.faults n.source).1.copies, copy.Keeps n.faults := fun _ ↦
    Fate.keeps_of_mem n.valid
  rw [htraces]
  generalize (Fate.draw n.faults n.source).1 = fate at harrive hkeeps
  cases fate with
  | lost =>
    rw [List.forall₂_nil_left_iff.1 harrive]
    exact .lost
  | single copy =>
    obtain ⟨delivery, _, hfirst, hrest, hdeliveries⟩ := List.forall₂_cons_left_iff.1 harrive
    obtain rfl := List.forall₂_nil_left_iff.1 hrest
    rw [hdeliveries, Fate.events_single]
    exact .once (hfirst.fares (hkeeps copy (by simp [Fate.copies])))
  | double first second =>
    obtain ⟨delivery, _, hfirst, hrest, hdeliveries⟩ := List.forall₂_cons_left_iff.1 harrive
    obtain ⟨delivery', _, hsecond, hnil, rfl⟩ := List.forall₂_cons_left_iff.1 hrest
    obtain rfl := List.forall₂_nil_left_iff.1 hnil
    rw [hdeliveries, Fate.events_double]
    exact .twice (hfirst.fares (hkeeps first (by simp [Fate.copies])))
      (hsecond.fares (hkeeps second (by simp [Fate.copies])))

/-- Another packet that is sent instead has the same fate, since the fate is drawn before the packet
is looked at. -/
theorem exists_send_other (h : n.send now packet = .ok sent) (other : Packet) :
    ∃ sent', n.send now other = .ok sent' ∧
      sent'.deliveries.map (·.time) = sent.deliveries.map (·.time) ∧
      sent'.network = sent.network := by
  obtain ⟨harrive, -, hnetwork⟩ := send_eq_ok_iff.1 h
  refine ⟨⟨sent.deliveries.map fun delivery ↦ { delivery with packet := other },
    (Fate.draw n.faults n.source).1.events other, sent.network⟩,
    send_eq_ok_iff.2 ⟨?_, rfl, hnetwork⟩, by simp, rfl⟩
  exact List.forall₂_map_right_iff.2 (harrive.imp fun copy delivery h ↦ ⟨h.arrival_eq, rfl⟩)

end Send

/-! ### One packet after the other -/

section SendAll

variable {σ : Type} {faults : Faults} {source : σ} {now : Nat} {packet : Packet}
  {packets : List (Nat × Packet)} {n after : Network σ} {sent : Sent σ} {sents : List (Sent σ)}

/-- When the copies of a packet arrive. -/
def Sent.times (sent : Sent σ) : List Nat := sent.deliveries.map (·.time)

/-- What packets that are sent one after the other add to the totals. -/
structure Adds (packets : List (Nat × Packet)) (sents : List (Sent σ)) (n after : Network σ) :
    Prop where
  /-- The network does what it tells. -/
  treats : List.Forall₂ (fun x (sent : Sent σ) ↦
    Treats n.faults x.1 x.2 sent.deliveries sent.traces) packets sents
  /-- All are counted. -/
  sent_eq : after.stats.sent = n.stats.sent + packets.length
  /-- No more are lost than sent. -/
  lost_le : n.stats.lost ≤ n.stats.sent → after.stats.lost ≤ after.stats.sent
  /-- The copies are counted. -/
  copies_eq : ∀ copies, copies + n.stats.lost = n.stats.sent + n.stats.duplicated →
    copies + (sents.map (·.deliveries.length)).sum + after.stats.lost =
      after.stats.sent + after.stats.duplicated
  /-- What is told is counted. -/
  agrees : ∀ told, n.stats.Agrees told →
    after.stats.Agrees (told ++ sents.flatMap (·.traces))

theorem adds_nil : Adds [] [] n n where
  treats := .nil
  sent_eq := rfl
  lost_le := id
  copies_eq _ h := h
  agrees told h := by simpa using h

variable [DrawSource σ]

/-- One packet more, before all others. Its loss, its second copy and each copy that is held back
are counted once. -/
theorem Adds.cons (h : n.send now packet = .ok sent)
    (hrest : Adds packets sents sent.network after) :
    Adds ((now, packet) :: packets) (sent :: sents) n after := by
  obtain ⟨fate, htraces, hstats, hlength⟩ := exists_fate_of_send h
  have hcopies := length_copies_add fate
  have hfaults : sent.network.faults = n.faults := faults_of_send h
  exact
    { treats := .cons (treats_of_send h) (hfaults ▸ hrest.treats)
      sent_eq := by
        rw [hrest.sent_eq, hstats, List.length_cons]
        simp only [Stats.count]
        omega
      lost_le := fun hle ↦ hrest.lost_le (by
        simp only [hstats, Stats.count]
        split <;> omega)
      copies_eq := fun copies hbefore ↦ by
        have hafter := hrest.copies_eq (copies + sent.deliveries.length) (by
          rw [hstats, hlength]
          simp only [Stats.count]
          omega)
        simpa [Nat.add_assoc] using hafter
      agrees := fun told hagrees ↦ by
        have hafter := hrest.agrees (told ++ sent.traces) (by
          rw [hstats, htraces]
          exact hagrees.count)
        simpa using hafter }

/-- Sends packets one after the other, each at an instant: what that leads to for each of them, and
the network afterwards. -/
def sendAll : List (Nat × Packet) → Network σ → Checked (List (Sent σ) × Network σ)
  | [], n => pure ([], n)
  | (now, packet) :: rest, n => do
    let sent ← n.send now packet
    let (more, n) ← sent.network.sendAll rest
    pure (sent :: more, n)

/-- The first packet is sent, and then the others are. -/
theorem exists_of_sendAll_cons (h : n.sendAll ((now, packet) :: packets) = .ok (sents, after)) :
    ∃ sent more, n.send now packet = .ok sent ∧
      sent.network.sendAll packets = .ok (more, after) ∧ sents = sent :: more := by
  obtain ⟨sent, hsent, h⟩ := Checked.bind_eq_ok_iff.1 h
  obtain ⟨⟨more, after'⟩, hmore, h⟩ := Checked.bind_eq_ok_iff.1 h
  obtain ⟨rfl, rfl⟩ := Checked.pure_prod_eq_ok h
  exact ⟨sent, more, hsent, hmore, rfl⟩

/-- The first packet is sent, and then the others to what that left of the network. -/
theorem sendAll_cons {more : List (Sent σ)} (hfirst : n.send now packet = .ok sent)
    (hrest : sent.network.sendAll packets = .ok (more, after)) :
    n.sendAll ((now, packet) :: packets) = .ok (sent :: more, after) :=
  Checked.bind_eq_ok_iff.2 ⟨_, hfirst, Checked.bind_eq_ok_iff.2 ⟨_, hrest, rfl⟩⟩

/-- Packets one after the other add to the totals what is told of each. -/
theorem adds_sendAll (h : n.sendAll packets = .ok (sents, after)) :
    Adds packets sents n after := by
  induction packets generalizing n sents with
  | nil =>
    obtain ⟨rfl, rfl⟩ := Checked.pure_prod_eq_ok h
    exact adds_nil
  | cons x rest ih =>
    obtain ⟨sent, more, hfirst, hmore, rfl⟩ := exists_of_sendAll_cons h
    exact (ih hmore).cons hfirst

/-- Other packets that are sent at the same instants have the same fates, and leave the same
network. -/
theorem exists_sendAll_others (h : n.sendAll packets = .ok (sents, after))
    {others : List (Nat × Packet)} (htimes : others.map (·.1) = packets.map (·.1)) :
    ∃ sents', n.sendAll others = .ok (sents', after) ∧ sents'.map Sent.times = sents.map Sent.times
    := by
  induction packets generalizing n sents others with
  | nil =>
    obtain rfl : others = [] := by simpa using htimes
    exact ⟨sents, h, rfl⟩
  | cons x rest ih =>
    obtain ⟨sent, more, hfirst, hmore, rfl⟩ := exists_of_sendAll_cons h
    obtain ⟨⟨now, other⟩, others, rfl, hnow, hrest⟩ := List.map_eq_cons_iff.1 htimes
    obtain rfl : now = x.1 := hnow
    obtain ⟨sent', hfirst', htimes', hnetwork⟩ := exists_send_other hfirst other
    obtain ⟨more', hmore', hothers⟩ := ih hmore hrest
    exact ⟨sent' :: more', sendAll_cons hfirst' (hnetwork ▸ hmore'), by
      rw [List.map_cons, List.map_cons, hothers, Sent.times, Sent.times, htimes']⟩

/-! ### On a new network -/

/-- A new network does with packets what it tells, and does not look at them. -/
structure DoesAsTold (n : Network σ) (packets : List (Nat × Packet)) (sents : List (Sent σ))
    (after : Network σ) : Prop where
  /-- It does with each packet what is told of it. -/
  treats : List.Forall₂ (fun x (sent : Sent σ) ↦
    Treats n.faults x.1 x.2 sent.deliveries sent.traces) packets sents
  /-- All are counted. -/
  sent_eq : after.stats.sent = packets.length
  /-- No more are lost than sent. -/
  lost_le : after.stats.lost ≤ after.stats.sent
  /-- One copy arrives of each packet that is not lost, and one more of each that is duplicated. -/
  copies_eq : (sents.map (·.deliveries.length)).sum =
    after.stats.sent - after.stats.lost + after.stats.duplicated
  /-- What is told is counted. -/
  agrees : after.stats.Agrees (sents.flatMap (·.traces))
  /-- Other packets at the same instants are treated in the same way. -/
  blind : ∀ others : List (Nat × Packet), others.map (·.1) = packets.map (·.1) →
    ∃ sents' after', n.sendAll others = .ok (sents', after') ∧
      sents'.map Sent.times = sents.map Sent.times ∧ after'.stats = after.stats

/-- **A network does with packets what it tells, and does not look at them**, whatever it draws. -/
theorem doesAsTold_sendAll (hcreate : create faults source = .ok n)
    (h : n.sendAll packets = .ok (sents, after)) : DoesAsTold n packets sents after := by
  have hadds := adds_sendAll h
  have hstats : n.stats = {} := by
    rw [create] at hcreate
    split at hcreate
    · exact absurd hcreate (by simp)
    · exact Except.ok.inj hcreate ▸ rfl
  -- A new network has counted nothing.
  have hlost : after.stats.lost ≤ after.stats.sent := hadds.lost_le (by simp [hstats])
  refine ⟨hadds.treats, by rw [hadds.sent_eq, hstats, Nat.zero_add], hlost, ?_, ?_,
    fun others htimes ↦ ?_⟩
  · have hcopies := hadds.copies_eq 0 (by simp [hstats])
    omega
  · simpa using hadds.agrees [] (by rw [hstats]; exact ⟨rfl, rfl, rfl, rfl⟩)
  · obtain ⟨sents', hothers, hsame⟩ := exists_sendAll_others h htimes
    exact ⟨sents', after, hothers, hsame, rfl⟩

/-- A network that loses one packet in four, and duplicates and holds back one in two. -/
def moody : Faults :=
  { loss := .ofRatio false 1 4, reorder := .ofRatio false 1 2, duplicate := .ofRatio false 1 2 }

/-- Three packets, at three instants. -/
def threePackets : List (Nat × Packet) :=
  [(0, 1), (5, 2), (9, 3)].map fun (now, seq) ↦
    (now, { source := ⟨10, 0, 0, 1, 4000⟩, destination := ⟨10, 0, 0, 2, 80⟩, kind := .data, seq
            payload := [7] })

/-- The first one arrives twice, each copy late, the second one once, and the third one is lost. -/
theorem doesAsTold_threePackets :
    ∃ n sents after, create moody (ChaCha.ofSeed 10) = .ok n ∧
      n.sendAll threePackets = .ok (sents, after) ∧
      sents.map Sent.times = [[757721710, 641374974], [313585931], []] ∧
      (after.stats.lost, after.stats.duplicated, after.stats.reordered) = (1, 1, 2) ∧
      DoesAsTold n threePackets sents after := by
  have hrun : ((create moody (ChaCha.ofSeed 10)).toOption.bind fun n ↦
      (n.sendAll threePackets).toOption.map fun x ↦ (x.1.map Sent.times,
        (x.2.stats.lost, x.2.stats.duplicated, x.2.stats.reordered))) =
      some ([[757721710, 641374974], [313585931], []], (1, 1, 2)) := by
    decide +kernel
  obtain ⟨n, hcreate, hsend⟩ := Option.bind_eq_some_iff.1 hrun
  obtain ⟨⟨sents, after⟩, hsends, hfacts⟩ := Option.map_eq_some_iff.1 hsend
  rw [toOption_eq_some_iff] at hcreate hsends
  obtain ⟨htimes, hstats⟩ := Prod.mk.inj hfacts
  exact ⟨n, sents, after, hcreate, hsends, htimes, hstats, doesAsTold_sendAll hcreate hsends⟩

end SendAll

end Network

end ReliableStream
