import ReliableStream.Proofs.Link.Delivery
import ReliableStream.Proofs.Party.Round

/-!
# Recovery of a link

From whatever state a link got into, it recovers when the network lets packets through for a while.
In a *round* the alarms of all segments that an end has in flight ring, the other end gets each
packet that is sent then, and the first end gets each answer; each of the three in any order and at
any instants.

`RoundTo side P l` says that such a round can be carried out and leads to links with `P`, whatever
the orders are. After one round everything that was sent before it has been got, and that is known
to the sender (`Reachable.roundTo_recovered`). As the acknowledgements make room for what is
pending, each round leaves less to be sent, and after finitely many there is nothing left
(`Reachable.recovers`).

The proof follows the three steps of a round (`exists_feed_alarms`, `exists_feed_data` and
`exists_feed_acks`), each of which says that its inputs have an outcome and what that is. Then the
end is settled by induction on the number of rounds, with the number of pieces not acknowledged as
what gets less. Nothing is assumed of the orders and instants, since what is carried from one input
to the next depends on neither: that all segments are still in flight, which of them the other end
has, and the highest acknowledgement.
-/

namespace ReliableStream

namespace Link

variable {l l' : Link} {setup : Setup} {side : Side}

/-! ### Inputs one after the other -/

/-- One end has inputs one after the other: the link then, and the packets that were sent. -/
def feed (side : Side) (events : List (Nat × Input)) (l : Link) : Checked (Link × List Packet) := do
  let (p, packets) ← (l.party side).performAll events
  pure (l.become side p packets, packets)

/-- An end that becomes a second party after a first one has become the second one, and has sent for
both. -/
theorem become_become (side : Side) (p q : Party) (packets more : List Packet) (l : Link) :
    (l.become side p packets).become side q more = l.become side q (packets ++ more) := by
  simp only [become, mk.injEq]
  refine ⟨funext fun s ↦ ?_, funext fun s ↦ ?_⟩
  · by_cases hs : s = side
    · simp [hs]
    · simp [hs]
  · by_cases hs : s = side
    · simp [hs]
    · simp [hs]

/-- An end that stays what it is and sends nothing leaves the link as it is. -/
theorem become_self (side : Side) (l : Link) : l.become side (l.party side) [] = l := by
  cases l with
  | mk party sent =>
    simp only [become, mk.injEq]
    refine ⟨funext fun s ↦ ?_, funext fun s ↦ ?_⟩
    · by_cases hs : s = side
      · simp [hs]
      · simp [hs]
    · simp

/-- Inputs that are allowed one by one lead from reachable links to reachable links. They may all be
looked up in the link before the first of them, since the other end sends nothing meanwhile. -/
theorem Reachable.become {events : List (Nat × Input)} {q : Party} {packets : List Packet}
    (h : l.Reachable setup) (hallows : ∀ event ∈ events, l.Allows side event.2)
    (hall : (l.party side).performAll events = .ok (q, packets)) :
    (l.become side q packets).Reachable setup := by
  induction events generalizing l packets with
  | nil =>
    obtain ⟨rfl, rfl⟩ := Checked.pure_prod_eq_ok hall
    rw [become_self]
    exact h
  | cons event rest ih =>
    obtain ⟨now, input⟩ := event
    obtain ⟨p, r, more, hperform, hrest, rfl⟩ := Party.exists_of_performAll_cons hall
    have hstep : l.Step (l.become side p r.packets) :=
      .act (hallows _ (List.mem_cons_self ..)) hperform
    have hlater := (Party.moves_of_perform hperform).later (h.sound.party side)
    have hallows' : ∀ event ∈ rest, (l.become side p r.packets).Allows side event.2 := by
      intro event hevent
      have hold := hallows event (List.mem_cons_of_mem _ hevent)
      -- Only what the other end sends may become more, and where the two are does not change.
      cases hinput : event.2 with
      | connect peer =>
        rw [hinput] at hold
        rw [Allows, party_become_of_ne side.other_ne]
        exact hold
      | packet packet =>
        rw [hinput] at hold
        rw [Allows, sent_become_of_ne side.other_ne, party_become, hlater.home_eq]
        exact hold
      | listen | send | read | alarm => trivial
    have hreach := ih (h.step hstep) hallows' (by rw [party_become]; exact hrest)
    rw [become_become] at hreach
    exact hreach

/-! ### Rounds -/

/-- Whatever the order and the instants, a round of sending again can be carried out, and leads to
links with `P`: the alarms of all segments in flight ring at one end, the other end gets each packet
that is sent, and the first end gets each answer. -/
def RoundTo (side : Side) (P : Link → Prop) (l : Link) : Prop :=
  ∀ ringing : List (Nat × Segment), (ringing.map (·.2)).Perm (l.party side).inFlight.toList →
    ∃ l₁ data, l.feed side (Party.alarms ringing) = .ok (l₁, data) ∧
      ∀ arriving : List (Nat × Packet), (arriving.map (·.2)).Perm data →
        ∃ l₂ answers, l₁.feed side.other (Party.arrivals arriving) = .ok (l₂, answers) ∧
          ∀ returning : List (Nat × Packet), (returning.map (·.2)).Perm answers →
            ∃ l₃ more, l₂.feed side (Party.arrivals returning) = .ok (l₃, more) ∧ P l₃

theorem RoundTo.mono {P Q : Link → Prop} (h : l.RoundTo side P) (hpq : ∀ l', P l' → Q l') :
    l.RoundTo side Q := by
  intro ringing hringing
  obtain ⟨l₁, data, hring, h⟩ := h ringing hringing
  refine ⟨l₁, data, hring, fun arriving harriving ↦ ?_⟩
  obtain ⟨l₂, answers, harrive, h⟩ := h arriving harriving
  refine ⟨l₂, answers, harrive, fun returning hreturning ↦ ?_⟩
  obtain ⟨l₃, more, hreturn, h⟩ := h returning hreturning
  exact ⟨l₃, more, hreturn, hpq l₃ h⟩

/-- What a round achieves. -/
structure Recovered (side : Side) (l l' : Link) : Prop where
  /-- The end still is established. -/
  goes_on : (l'.party side).state = .established
  /-- The other end is, too. -/
  established : (l'.party side.other).state = .established
  /-- No segment that was in flight still is. -/
  gone : ∀ s ∈ (l.party side).inFlight.toList, ∀ t ∈ (l'.party side).inFlight.toList, t.seq ≠ s.seq
  /-- The other end has got everything that was sent. -/
  edge_le : (l.party side).sendNext ≤ (l'.party side.other).edge
  /-- This is acknowledged. -/
  base_le : (l.party side).sendNext ≤ (l'.party side).sendBase
  /-- Nothing was handed over meanwhile. -/
  sends_eq : (l'.party side).sends = (l.party side).sends
  /-- What is in flight was sent once only. -/
  fresh : ∀ s ∈ (l'.party side).inFlight.toList, s.resends = 0
  /-- Fewer pieces are not acknowledged. -/
  outstanding_lt : (l'.party side).outstanding < (l.party side).outstanding

/-- Everything that was handed over has been got, and that is known. -/
def Done (side : Side) (l : Link) : Prop :=
  (l.party side).allAcknowledged = true ∧ (l.party side.other).heard = (l.party side).stream

/-- At most so many rounds lead to the end, whatever the order in each of them. -/
def Settles (side : Side) : Nat → Link → Prop
  | 0, l => l.Done side
  | n + 1, l => l.Done side ∨ l.RoundTo side (Settles side n)

/-! ### The steps of a round -/

/-- An end whose answer to an opening is acknowledged by all that the other end sends. -/
theorem Sound.edge_eq_firstByte (h : l.Sound setup) (hstate : (l.party side).state = .established)
    (hother : (l.party side.other).state = .synReceived) :
    (l.party side).edge = (l.party side.other).firstByte := by
  obtain ⟨i, hfollows⟩ := (h.knows (.inr hstate)).follows hstate
  have hblank := (h.party side.other).blank (by simp [hother])
  have hpieces : (l.party side.other).pieces = [] := by
    rw [Party.pieces, hblank.sends_eq, List.flatMap_nil]
  have hi := hfollows.le_length
  rw [hpieces, List.length_nil, Nat.le_zero] at hi
  rw [Connection.edge, hfollows.edge_eq, hi, Party.cutAt_zero]

/-- The first step of a round: everything in flight is sent again. Each alarm is of the present
generation of its segment, so it is heard, and no other alarm of the round changes that segment. -/
theorem Reachable.exists_feed_alarms (h : l.Reachable setup)
    (hstate : (l.party side).state = .established)
    (hresends : ∀ s ∈ (l.party side).inFlight.toList, s.resends < maxHalfWord)
    {ringing : List (Nat × Segment)}
    (hringing : (ringing.map (·.2)).Perm (l.party side).inFlight.toList) :
    ∃ (inFlight : InFlight) (stats : Connection.Stats) (data : List Packet),
      l.feed side (Party.alarms ringing) =
        .ok (l.become side { l.party side with inFlight, stats } data, data) ∧
      (l.become side { l.party side with inFlight, stats } data).Reachable setup ∧
      (∀ packet ∈ data, packet.kind = .data ∧ packet.ack = (l.party side).edge ∧
        packet.destination = (l.party side.other).home) ∧
      (∀ s ∈ (l.party side).inFlight.toList, ∃ packet ∈ data, packet.seq = s.seq) ∧
      ∀ {acked sent}, (l.party side).Sends acked sent →
        ({ l.party side with inFlight, stats } : Party).Sends acked sent := by
  have hpeer := h.sound.peer_of_met (.inr hstate)
  have hnodup : (ringing.map (·.2.seq)).Nodup := by
    have hperm := hringing.map Segment.seq
    rw [List.map_map] at hperm
    refine hperm.nodup_iff.2 ?_
    exact List.pairwise_map.2 ((l.party side).inFlight.ordered.imp Nat.ne_of_lt)
  have hmem : ∀ x ∈ ringing, x.2 ∈ (l.party side).inFlight.toList ∧
      x.2.resends + 1 ≤ maxHalfWord := by
    intro x hx
    have hin := hringing.mem_iff.1 (List.mem_map_of_mem hx)
    exact ⟨hin, hresends _ hin⟩
  obtain ⟨inFlight, stats, hall, hsends⟩ :=
    Party.exists_performAll_alarms hpeer hnodup hmem
  refine ⟨inFlight, stats, _, ?_, h.become ?_ hall, ?_, ?_, hsends⟩
  · exact Checked.bind_eq_ok_iff.2 ⟨_, hall, rfl⟩
  · intro event hevent
    obtain ⟨x, -, rfl⟩ := List.mem_map.1 hevent
    trivial
  · intro packet hpacket
    obtain ⟨x, -, rfl⟩ := List.mem_map.1 hpacket
    exact ⟨rfl, rfl, rfl⟩
  · intro s hs
    obtain ⟨x, hx, rfl⟩ := List.mem_map.1 (hringing.mem_iff.2 hs)
    exact ⟨_, List.mem_map_of_mem hx, rfl⟩

/-- The second step of a round: the other end gets packets with data, and answers. The first of them
completes its handshake if that is not done. Afterwards it has the place of every packet, and one of
its answers tells where its edge is. -/
theorem Reachable.exists_feed_data (h : l.Reachable setup)
    (hstate : (l.party side).state = .established)
    (hother : (l.party side.other).state = .synReceived ∨
      (l.party side.other).state = .established)
    (hfit : (l.party side).stream.length ≤ maxWord) {data : List Packet} (hne : data ≠ [])
    (hdata : ∀ packet ∈ data, packet ∈ l.sent side ∧ packet.kind = .data ∧
      packet.ack = (l.party side).edge ∧ packet.destination = (l.party side.other).home)
    {arriving : List (Nat × Packet)} (harriving : (arriving.map (·.2)).Perm data) :
    ∃ q answers, l.feed side.other (Party.arrivals arriving) =
        .ok (l.become side.other q answers, answers) ∧
      (l.become side.other q answers).Reachable setup ∧ q.state = .established ∧
      (∀ packet ∈ data, q.reassembly.Has packet.seq) ∧
      (∀ answer ∈ answers, q.Acknowledges (l.party side) answer) ∧
      ∃ answer ∈ answers, answer.ack = q.edge := by
  have hs := h.sound
  have hmem {x : Nat × Packet} (hx : x ∈ arriving) : x.2 ∈ data :=
    harriving.mem_iff.1 (List.mem_map_of_mem hx)
  have hpeer := hs.peer_of_met hother
  have hknows := hs.knows hother
  rw [side.other_other] at hpeer hknows
  -- The acknowledgement that every packet carries completes the handshake of the other end.
  have hready : (l.party side.other).state = .established ∨
      (l.party side.other).state = .synReceived ∧
        (l.party side).edge = (l.party side.other).firstByte :=
    hother.symm.imp_right fun hreceived ↦ ⟨hreceived, hs.edge_eq_firstByte hstate hreceived⟩
  obtain ⟨q, answers, hall, -, hlater, -, hestablished, hhas, hanswers, hlast⟩ :=
    Party.exists_performAll_data (hs.party side.other) (hs.party side) hknows hpeer hready hfit
      fun x (hx : x ∈ arriving) ↦ by
        obtain ⟨hsent, hkind, hack, hdestination⟩ := hdata _ (hmem hx)
        exact ⟨hs.vouched side _ hsent, hkind, hack, hdestination⟩
  have hsome : arriving ≠ [] := by
    rintro rfl
    exact hne (List.nil_perm.1 harriving)
  refine ⟨q, answers, Checked.bind_eq_ok_iff.2 ⟨_, hall, rfl⟩, h.become ?_ hall,
    hestablished (.inl hsome), ?_, ?_, hlast hsome⟩
  · intro event hevent
    obtain ⟨x, hx, rfl⟩ := List.mem_map.1 hevent
    obtain ⟨hsent, -, -, hdestination⟩ := hdata _ (hmem hx)
    refine ⟨?_, hdestination⟩
    rw [side.other_other]
    exact hsent
  · intro packet hpacket
    obtain ⟨x, hx, rfl⟩ := List.mem_map.1 (harriving.mem_iff.2 hpacket)
    exact hhas _ (.inl ⟨x, hx, rfl⟩)
  · intro answer hanswer
    exact { hanswers answer hanswer with
      source_eq := (hanswers answer hanswer).source_eq.trans hlater.home_eq.symm }

/-- When everything in flight has arrived, the other end has got everything that was sent. There is
no gap before the place where the next segment would start. -/
theorem Sound.sendNext_le_edge (h : l.Sound setup) {acked sent : Nat}
    (hsends : (l.party side).Sends acked sent)
    (hother : (l.party side.other).state = .established)
    (hhas : ∀ n, acked ≤ n → n < sent →
      (l.party side.other).reassembly.Has ((l.party side).cutAt n)) :
    (l.party side).sendNext ≤ (l.party side.other).edge := by
  obtain ⟨i, -, -, hedge, hbase⟩ := h.exists_follows side
  have hknows := h.knows (.inr hother)
  rw [side.other_other] at hknows
  obtain ⟨j, hfollows⟩ := hknows.follows hother
  have hcut : (l.party side).cutAt j = (l.party side).cutAt i :=
    hfollows.edge_eq.symm.trans (hedge hother)
  have hacked : acked ≤ j := hsends.acked_le_of_base_le (hcut ▸ hbase)
  rw [hsends.next_eq, Connection.edge, hfollows.edge_eq]
  refine (l.party side).cutAt_le_cutAt ?_
  -- Otherwise the first piece that has not been got is in flight, and so has arrived.
  by_contra hlt
  exact hfollows.ne_of_has (hhas j hacked (Nat.lt_of_not_le hlt)) rfl

/-- The third step of a round: the first end gets acknowledgements. In whatever order they come, the
highest of them counts in the end, and what makes room for pending pieces sends them for the first
time. -/
theorem Reachable.exists_feed_acks (h : l.Reachable setup)
    (hstate : (l.party side).state = .established)
    (hfit : (l.party side).firstByte + (l.party side).stream.length ≤ maxWord) {acked sent : Nat}
    (hsends : (l.party side).Sends acked sent) {answers : List Packet}
    (hanswers : ∀ answer ∈ answers, answer ∈ l.sent side.other ∧
      (l.party side.other).Acknowledges (l.party side) answer)
    {returning : List (Nat × Packet)} (hreturning : (returning.map (·.2)).Perm answers) :
    ∃ q more acked' sent', l.feed side (Party.arrivals returning) =
        .ok (l.become side q more, more) ∧
      (l.become side q more).Reachable setup ∧ (l.party side).Later q ∧
      q.sends = (l.party side).sends ∧ q.Sends acked' sent' ∧
      (∀ answer ∈ answers, answer.ack ≤ (l.party side).cutAt acked') ∧
      (acked < acked' → q.sendBase = (l.party side).cutAt acked') ∧
      ∀ s ∈ q.inFlight.toList, (l.party side).sendNext ≤ s.seq → s.resends = 0 := by
  have hmem {x : Nat × Packet} (hx : x ∈ returning) : x.2 ∈ answers :=
    hreturning.mem_iff.1 (List.mem_map_of_mem hx)
  have hpackets : ∀ x ∈ returning, x.2.kind = .ack ∧ x.2.source = (l.party side.other).home ∧
      ∃ i ≤ sent, x.2.ack = (l.party side).cutAt i := by
    intro x hx
    obtain ⟨-, hanswer⟩ := hanswers _ (hmem hx)
    obtain ⟨i, hi, hack, hnext⟩ := hanswer.ack_eq
    rw [hsends.next_eq] at hnext
    exact ⟨hanswer.kind_eq, hanswer.source_eq, i,
      (l.party side).le_of_cutAt_le_cutAt hi hnext, hack⟩
  -- Nothing in flight starts after what was sent.
  have hfresh : ∀ s ∈ (l.party side).inFlight.toList,
      (l.party side).sendNext ≤ s.seq → s.resends = 0 :=
    fun s hs hle ↦ absurd (hsends.seq_lt_next hs) (Nat.not_lt.2 hle)
  obtain ⟨q, more, acked', sent', hall, hlater, hqsends, hq, -, hacks, hbase, hfresh'⟩ :=
    Party.exists_performAll_acks (h.sound.party side) hsends hstate
      (h.sound.peer_of_met (.inr hstate)) hfit hpackets hfresh
  refine ⟨q, more, acked', sent', Checked.bind_eq_ok_iff.2 ⟨_, hall, rfl⟩, h.become ?_ hall, hlater,
    hqsends, hq, ?_, ?_, hfresh'⟩
  · intro event hevent
    obtain ⟨x, hx, rfl⟩ := List.mem_map.1 hevent
    obtain ⟨hsent, hanswer⟩ := hanswers _ (hmem hx)
    exact ⟨hsent, hanswer.destination_eq⟩
  · intro answer hanswer
    obtain ⟨x, hx, rfl⟩ := List.mem_map.1 (hreturning.mem_iff.2 hanswer)
    exact hacks x hx
  · intro hlt
    rcases hbase with ⟨heq, -⟩ | ⟨-, hbase⟩
    · exact absurd heq (Nat.ne_of_gt hlt)
    · exact hbase

/-! ### A round, and all of them -/

/-- What a round achieves, from how far both ends are. The count of acknowledged pieces rises to
everything that was sent, and each field follows from that. -/
theorem recovered_of_sends {acked sent acked' sent' : Nat}
    (hsends : (l.party side).Sends acked sent) (hsends' : (l'.party side).Sends acked' sent')
    (hlater : (l.party side).Later (l'.party side))
    (heq : (l'.party side).sends = (l.party side).sends) (hlt : acked < sent) (hle : sent ≤ acked')
    (hstate : (l'.party side).state = .established)
    (hestablished : (l'.party side.other).state = .established)
    (hedge : (l.party side).sendNext ≤ (l'.party side.other).edge)
    (hbase : (l'.party side).sendBase = (l.party side).cutAt acked')
    (hfresh : ∀ s ∈ (l'.party side).inFlight.toList,
      (l.party side).sendNext ≤ s.seq → s.resends = 0) :
    Recovered side l l' := by
  have hnext : (l.party side).sendNext ≤ (l.party side).cutAt acked' := by
    rw [hsends.next_eq]
    exact (l.party side).cutAt_le_cutAt hle
  -- What is in flight now starts after all that was sent before.
  have hseq : ∀ s ∈ (l'.party side).inFlight.toList, (l.party side).sendNext ≤ s.seq := by
    intro s hs
    have hstart := hsends'.cutAt_le_seq hs
    rw [hlater.cutAt_eq_of_sends_eq heq] at hstart
    exact Nat.le_trans hnext hstart
  refine
    { goes_on := hstate
      established := hestablished
      gone := ?gone
      edge_le := hedge
      base_le := ?base_le
      sends_eq := heq
      fresh := fun s hs ↦ hfresh s hs (hseq s hs)
      outstanding_lt := ?outstanding_lt }
  case gone =>
    intro s hs t ht
    exact Nat.ne_of_gt (Nat.lt_of_lt_of_le (hsends.seq_lt_next hs) (hseq t ht))
  case base_le =>
    rw [hbase]
    exact hnext
  case outstanding_lt =>
    have hall := hsends.acked_add_outstanding
    have hall' := hsends'.acked_add_outstanding
    rw [hlater.pieces_eq heq] at hall'
    omega

/-- The first two steps of a round are done: the other end has got everything that was sent, and has
answered. -/
structure Answered (setup : Setup) (side : Side) (acked sent : Nat) (l l' : Link)
    (answers : List Packet) : Prop where
  /-- All this can happen. -/
  reachable : l'.Reachable setup
  /-- The end only sent again. -/
  party_eq : ∃ inFlight stats, l'.party side = { l.party side with inFlight, stats }
  /-- It is as far as it was. -/
  sends : (l'.party side).Sends acked sent
  /-- The other end is established. -/
  established : (l'.party side.other).state = .established
  /-- It has got everything that was sent. -/
  edge_le : (l.party side).sendNext ≤ (l'.party side.other).edge
  /-- It has acknowledged nothing else. -/
  acknowledges : ∀ answer ∈ answers, answer ∈ l'.sent side.other ∧
    (l'.party side.other).Acknowledges (l'.party side) answer
  /-- It has acknowledged all of it. -/
  last : ∃ answer ∈ answers, answer.ack = (l'.party side.other).edge

/-- The first two steps of a round. What was sent again arrives, whatever the order, and the answers
tell of all of it. -/
theorem Reachable.exists_answered (h : l.Reachable setup) {acked sent : Nat}
    (hfit : (l.party side).firstByte + (l.party side).stream.length ≤ maxWord)
    (hstate : (l.party side).state = .established)
    (hother : (l.party side.other).state = .synReceived ∨
      (l.party side.other).state = .established)
    (hsends : (l.party side).Sends acked sent) (hne : (l.party side).inFlight.toList ≠ [])
    (hresends : ∀ s ∈ (l.party side).inFlight.toList, s.resends < maxHalfWord)
    {ringing : List (Nat × Segment)}
    (hringing : (ringing.map (·.2)).Perm (l.party side).inFlight.toList) :
    ∃ l₁ data, l.feed side (Party.alarms ringing) = .ok (l₁, data) ∧
      ∀ arriving : List (Nat × Packet), (arriving.map (·.2)).Perm data →
        ∃ l₂ answers, l₁.feed side.other (Party.arrivals arriving) = .ok (l₂, answers) ∧
          Answered setup side acked sent l l₂ answers := by
  -- The alarms ring. Of the first end only what it counts of its segments changes.
  obtain ⟨inFlight, stats, data, hring, hreach₁, hdata, hall, hsends₁⟩ :=
    h.exists_feed_alarms hstate hresends hringing
  refine ⟨_, data, hring, fun arriving harriving ↦ ?_⟩
  generalize hl₁ : l.become side { l.party side with inFlight, stats } data = l₁ at hreach₁
  have hparty₁ : l₁.party side = { l.party side with inFlight, stats } := by
    rw [← hl₁, party_become]
  have hother₁ : l₁.party side.other = l.party side.other := by
    rw [← hl₁, party_become_of_ne side.other_ne]
  have hsent₁ : l₁.sent side = l.sent side ++ data := by rw [← hl₁, sent_become]
  have hstate₁ : (l₁.party side).state = .established := by
    rw [hparty₁]
    exact hstate
  have hne' : data ≠ [] := by
    rintro rfl
    obtain ⟨s, hs⟩ := List.exists_mem_of_ne_nil _ hne
    obtain ⟨packet, hpacket, -⟩ := hall s hs
    exact absurd hpacket List.not_mem_nil
  -- The packets arrive. The second end becomes `q`, and the first one stays as it is.
  obtain ⟨q, answers, harrive, hreach₂, hqstate, hhas, hanswers, hlast⟩ :=
    hreach₁.exists_feed_data hstate₁ (by rw [hother₁]; exact hother)
      (by rw [hparty₁]; exact Nat.le_trans (Nat.le_add_left ..) hfit) hne'
      (fun packet hpacket ↦ by
        rw [hparty₁, hother₁, hsent₁]
        exact ⟨List.mem_append_right _ hpacket, hdata packet hpacket⟩) harriving
  refine ⟨_, answers, harrive, ?_⟩
  generalize hl₂ : l₁.become side.other q answers = l₂ at hreach₂
  have hparty₂ : l₂.party side = { l.party side with inFlight, stats } := by
    rw [← hl₂, party_become_of_ne side.other_ne.symm, hparty₁]
  have hother₂ : l₂.party side.other = q := by rw [← hl₂, party_become]
  have hsent₂ : l₂.sent side.other = l₁.sent side.other ++ answers := by rw [← hl₂, sent_become]
  have hsends₂ : (l₂.party side).Sends acked sent := by
    rw [hparty₂]
    exact hsends₁ hsends
  refine
    { reachable := hreach₂, party_eq := ⟨inFlight, stats, hparty₂⟩, sends := hsends₂
      established := ?established, edge_le := ?edge_le, acknowledges := ?acknowledges
      last := ?last }
  case established =>
    rw [hother₂]
    exact hqstate
  case edge_le =>
    have hle := hreach₂.sound.sendNext_le_edge hsends₂ (by rw [hother₂]; exact hqstate)
      fun n hn hlt ↦ by
        obtain ⟨s, hs, hseq⟩ := hsends.exists_mem_of_lt hn hlt
        obtain ⟨packet, hpacket, hseq'⟩ := hall s hs
        rw [hother₂, hparty₂]
        have hplace := hhas packet hpacket
        rw [hseq', hseq] at hplace
        exact hplace
    rw [hparty₂] at hle
    exact hle
  case acknowledges =>
    intro answer hanswer
    rw [hparty₁] at hanswers
    rw [hparty₂, hother₂, hsent₂]
    exact ⟨List.mem_append_right _ hanswer, hanswers answer hanswer⟩
  case last =>
    rw [hother₂]
    exact hlast

/-- The third step of a round. The last answer acknowledges everything that was sent, so wherever it
comes in the order, the end knows it afterwards. -/
theorem Answered.exists_recovered {acked sent : Nat} {answers : List Packet}
    (h : Answered setup side acked sent l l' answers) (hl : l.Reachable setup)
    (hfit : (l.party side).firstByte + (l.party side).stream.length ≤ maxWord)
    (hstate : (l.party side).state = .established) (hsends : (l.party side).Sends acked sent)
    (hlt : acked < sent) {returning : List (Nat × Packet)}
    (hreturning : (returning.map (·.2)).Perm answers) :
    ∃ l₃ more, l'.feed side (Party.arrivals returning) = .ok (l₃, more) ∧
      l₃.Reachable setup ∧ Recovered side l l₃ := by
  obtain ⟨inFlight, stats, hparty⟩ := h.party_eq
  have hstate' : (l'.party side).state = .established := by
    rw [hparty]
    exact hstate
  obtain ⟨t, more, acked', sent', hreturn, hreach, hlater, htsends, ht, hacks, hbase, hfresh⟩ :=
    h.reachable.exists_feed_acks hstate' (by rw [hparty]; exact hfit) h.sends h.acknowledges
      hreturning
  rw [hparty] at hlater htsends hacks hbase hfresh
  -- One of the answers tells that everything that was sent has been got.
  have hle : sent ≤ acked' := by
    obtain ⟨answer, hanswer, hack⟩ := h.last
    have hlast := hacks answer hanswer
    rw [hack] at hlast
    refine (l.party side).le_of_cutAt_le_cutAt hsends.sent_le ?_
    rw [← hsends.next_eq]
    exact Nat.le_trans h.edge_le hlast
  have hsends' : ((l'.become side t more).party side).Sends acked' sent' := by
    rw [party_become]
    exact ht
  -- An established end stays so with the acknowledgements it gets.
  have hattached : (l.party side).AttachedTo (l.party side.other).home :=
    ⟨hstate, hl.sound.peer_of_met (.inr hstate)⟩
  refine ⟨_, more, hreturn, hreach,
    recovered_of_sends hsends hsends' ?_ ?_ hlt hle ?_ ?_ ?_ ?_ ?_⟩
  · rw [party_become]
    exact { hlater with }
  · rw [party_become]
    exact htsends
  · rw [party_become]
    exact (hlater.attached hattached).1
  · rw [party_become_of_ne side.other_ne]
    exact h.established
  · rw [party_become_of_ne side.other_ne]
    exact h.edge_le
  · rw [party_become]
    exact hbase (by omega)
  · rw [party_become]
    exact hfresh

/-- **One round.** Whatever happened before, a round of sending again delivers everything that was
sent, and the sender knows it afterwards. -/
theorem Reachable.roundTo_recovered (h : l.Reachable setup)
    (hfit : (l.party side).firstByte + (l.party side).stream.length ≤ maxWord)
    (hstate : (l.party side).state = .established)
    (hother : (l.party side.other).state = .synReceived ∨
      (l.party side.other).state = .established)
    (hne : (l.party side).inFlight.toList ≠ [])
    (hresends : ∀ s ∈ (l.party side).inFlight.toList, s.resends < maxHalfWord) :
    l.RoundTo side fun l' ↦ l'.Reachable setup ∧ Recovered side l l' := by
  obtain ⟨-, acked, sent, hsends⟩ := (h.sound.party side).sends hstate
  have hlt : acked < sent := by
    have hpos := List.length_pos_iff.2 hne
    have hsize : (l.party side).inFlight.toList.length = sent - acked := hsends.size_eq
    omega
  intro ringing hringing
  obtain ⟨l₁, data, hring, harrives⟩ :=
    h.exists_answered hfit hstate hother hsends hne hresends hringing
  refine ⟨l₁, data, hring, fun arriving harriving ↦ ?_⟩
  obtain ⟨l₂, answers, harrive, hanswered⟩ := harrives arriving harriving
  refine ⟨l₂, answers, harrive, fun returning hreturning ↦ ?_⟩
  exact hanswered.exists_recovered h hfit hstate hsends hlt hreturning

/-- When nothing is in flight, everything has been got. Nothing can be pending either, since the
window has room for it (`Pumped`). -/
theorem Sound.done (h : l.Sound setup) (hstate : (l.party side).state = .established)
    (hempty : (l.party side).inFlight.toList = []) : l.Done side := by
  have hpending := (h.pumped side).pending_eq_nil hempty
  have hall : (l.party side).allAcknowledged = true := by
    rw [Connection.allAcknowledged, Ascending.isEmpty, hempty, hpending]
    rfl
  refine ⟨hall, h.coherent.heard_eq_stream (l.party_mem_parties side)
    (l.party_mem_parties side.other) hstate (h.peer_of_met (.inr hstate)) ?_ hall⟩
  intro hother
  have hpeer := h.peer_of_met (.inr hother)
  rwa [side.other_other] at hpeer

/-- As many rounds as there are pieces not acknowledged lead to the end. After a round nothing was
sent more than once, so the next round can be carried out without a count that overflows. -/
theorem Reachable.settles {n : Nat} (h : l.Reachable setup)
    (hfit : (l.party side).firstByte + (l.party side).stream.length ≤ maxWord)
    (hstate : (l.party side).state = .established)
    (hother : (l.party side.other).state = .synReceived ∨
      (l.party side.other).state = .established)
    (hresends : ∀ s ∈ (l.party side).inFlight.toList, s.resends < maxHalfWord)
    (hn : (l.party side).outstanding ≤ n) : l.Settles side n := by
  induction n generalizing l with
  | zero =>
    refine h.sound.done hstate (List.length_eq_zero_iff.1 ?_)
    rw [Party.outstanding, Ascending.size] at hn
    omega
  | succ n ih =>
    by_cases hempty : (l.party side).inFlight.toList = []
    · exact .inl (h.sound.done hstate hempty)
    · refine .inr ((h.roundTo_recovered hfit hstate hother hempty hresends).mono ?_)
      rintro l' ⟨hreach, hrecovered⟩
      have hisn : (l'.party side).firstByte = (l.party side).firstByte := by
        rw [Connection.firstByte, Connection.firstByte, (hreach.sound.fixed side).2,
          (h.sound.fixed side).2]
      refine ih hreach ?_ hrecovered.goes_on (.inr hrecovered.established) ?_ ?_
      · rw [hisn, Party.stream, hrecovered.sends_eq]
        exact hfit
      · intro s hs
        rw [hrecovered.fresh s hs]
        decide
      · have hlt := hrecovered.outstanding_lt
        omega

/-- **Recovery from every reachable state.** If an end is established and has something in flight,
the other end has answered its opening or is established, and no segment was sent again too often to
count it, then a round of sending again delivers everything that was sent, and as many rounds as
there are pieces not acknowledged deliver everything that was handed over. That each end is the
peer of the other need not be said, since there is no third one. -/
theorem Reachable.recovers (h : l.Reachable setup)
    (hfit : setup.isn side + 1 + (l.party side).stream.length ≤ maxWord)
    (hstate : (l.party side).state = .established)
    (hother : (l.party side.other).state = .synReceived ∨
      (l.party side.other).state = .established)
    (hne : (l.party side).inFlight.toList ≠ [])
    (hresends : ∀ s ∈ (l.party side).inFlight.toList, s.resends < maxHalfWord) :
    (l.RoundTo side fun l' ↦ l'.Reachable setup ∧ Recovered side l l') ∧
      l.Settles side (l.party side).outstanding := by
  have hfirst : (l.party side).firstByte = setup.isn side + 1 := by
    rw [(h.sound.party side).firstByte_eq, (h.sound.fixed side).2]
  rw [← hfirst] at hfit
  exact ⟨h.roundTo_recovered hfit hstate hother hne hresends,
    h.settles hfit hstate hother hresends (Nat.le_refl _)⟩

/-- A link that recovers from a lost acknowledgement of the handshake and lost data, with a piece
pending that the window had no room for. -/
theorem recovers_lostAck :
    ∃ l, (start .narrow).play lostAck = some l ∧ (l.party .left).outstanding = 3 ∧
      (l.RoundTo .left fun l' ↦ l'.Reachable .narrow ∧ Recovered .left l l') ∧
      l.Settles .left (l.party .left).outstanding := by
  have hfacts : ((start .narrow).play lostAck).any (fun l ↦ decide (
      (l.party .left).outstanding = 3 ∧
      Setup.narrow.isn .left + 1 + (l.party .left).stream.length ≤ maxWord ∧
      (l.party .left).state = .established ∧ (l.party .right).state = .synReceived ∧
      (l.party .left).inFlight.toList ≠ [] ∧
      ∀ s ∈ (l.party .left).inFlight.toList, s.resends < maxHalfWord)) := by decide +kernel
  obtain ⟨l, hplay, hl⟩ := (Option.any_eq_true _ _).1 hfacts
  obtain ⟨hthree, hfit, hstate, hother, hne, hresends⟩ := of_decide_eq_true hl
  exact ⟨l, hplay, hthree,
    (Reachable.start.play hplay).recovers hfit hstate (.inl hother) hne hresends⟩

end Link

end ReliableStream
