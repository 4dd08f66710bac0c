import Mathlib.Logic.Relation
import ReliableStream.Proofs.Link.Delivery
import ReliableStream.Proofs.Party.States

/-!
# Two ends that agree

Packets of earlier handshakes stay under way, and every handshake of an end counts from the same
number, so that an old answer may well complete a new handshake. The ends agree nevertheless. One
that finds its answer acknowledged finds the other one established with it; one that finds its
opening answered was answered by the other one, which had got its opening and had it as its peer
then (`HasAnswered`); and each of them starts to read right after the opening of the other one, and
only goes forward from there (`Agrees`).

That an end was answered is a fact about the past. It is carried along as a step of a link on the
way to the present one, and holds of every end that is answering and of every answer that was ever
sent (`Answers`).

What is carried along is `Answers`, since a handshake is completed by packets of which the sender
may have forgotten everything. What makes an old answer harmless is that an end never changes the
number it counts from: the answer to a first opening says of the stream what the answer to a second
one would say. The rest is read off `Sound`, where each packet is vouched for by its sender.
-/

namespace ReliableStream

namespace Party

variable {now : Nat} {packet : Packet} {p q : Party} {r : Reaction}

/-- The openings and answers that reach an established party are old ones, and change nothing. They
may be replied to, so it is the party that stays, and not the reaction that is empty. -/
theorem eq_of_perform_opening (hstate : p.state = .established)
    (hkind : packet.kind = .syn ∨ packet.kind = .synAck)
    (h : p.perform now (.packet packet) = .ok (q, r)) : q = p := by
  cases hdrop : p.dropNote? packet with
  | some note =>
    rw [perform_of_dropNote? hdrop] at h
    exact (Checked.pure_prod_eq_ok h).1.symm
  | none =>
    obtain ⟨c, r', hadmitted, rfl, -⟩ := exists_onAdmitted_eq hdrop h
    rw [Connection.onAdmitted] at hadmitted
    rcases hkind with hkind | hkind <;> rw [hkind] at hadmitted <;> dsimp only at hadmitted
    · rw [Connection.onSyn, hstate] at hadmitted
      obtain ⟨rfl, -⟩ := Checked.pure_prod_eq_ok hadmitted
      rfl
    · rw [Connection.onSynAck, hstate] at hadmitted
      obtain ⟨rfl, -⟩ := Checked.pure_prod_eq_ok hadmitted
      rfl

end Party

namespace Link

variable {l l' : Link} {setup : Setup} {side : Side}

/-! ### Later links -/

/-- One step leads each end to a later one, and leaves the end that has no input as it was. -/
theorem Step.later (hstep : l.Step l') (h : l.Sound setup) (side : Side) :
    (l.party side).Later (l'.party side) := by
  cases hstep with
  | @act side' now input q r hallows hperform =>
    by_cases hs : side = side'
    · subst hs
      rw [party_become]
      exact (Party.moves_of_perform hperform).later (h.party side)
    · rw [party_become_of_ne hs]
      exact .refl _

/-- Steps one after the other lead to a reachable link, and to later ends. -/
theorem Reachable.steps (h : l.Reachable setup) (hsteps : Relation.ReflTransGen Step l l') :
    l'.Reachable setup ∧ ∀ side, (l.party side).Later (l'.party side) := by
  induction hsteps with
  | refl => exact ⟨h, fun side ↦ .refl _⟩
  | tail _ hstep ih =>
    obtain ⟨hreach, hlater⟩ := ih
    refine ⟨hreach.step hstep, fun side ↦ ?_⟩
    exact (hlater side).trans (hstep.later hreach.sound side) fun hstate ↦
      ((h.sound.party side).sends hstate).1

/-- What an input at one end leads to is one step. -/
theorem step_of_play {side : Side} {now : Nat} {input : Input}
    (hplay : l.play [(side, now, input)] = some l') : l.Step l' := by
  rw [Link.play] at hplay
  split at hplay
  · next hallows =>
    split at hplay
    · next hperform => exact Option.some.inj hplay ▸ .act hallows hperform
    · exact absurd hplay (by simp)
  · exact absurd hplay (by simp)

/-! ### Answers in the past -/

/-- An end was opened by the other one at some time before, and answered it. -/
inductive HasAnswered (setup : Setup) (side : Side) (l : Link) : Prop
  | intro {before : Link} {opening answer : Packet} {now : Nat} {q : Party} {r : Reaction}
    (hreach : before.Reachable setup)
    (hlistening : (before.party side).state = .listening)
    (hopening : opening ∈ before.sent side.other ∧ opening.kind = .syn ∧
      opening.destination = setup.home side)
    (hperform : (before.party side).perform now (.packet opening) = .ok (q, r))
    (hreceived : q.state = .synReceived ∧ q.peer = some (setup.home side.other))
    (hpackets : r.packets = [answer])
    (hanswer : answer.kind = .synAck ∧ answer.destination = setup.home side.other ∧
      answer.seq = setup.isn side ∧ answer.ack = setup.isn side.other + 1)
    (hsteps : Relation.ReflTransGen Step (before.become side q r.packets) l)

/-- What happened in the past has happened: a further step only lengthens the way to the present. -/
theorem HasAnswered.step (h : HasAnswered setup side l) (hstep : l.Step l') :
    HasAnswered setup side l' := by
  obtain ⟨hreach, hlistening, hopening, hperform, hreceived, hpackets, hanswer, hsteps⟩ := h
  exact ⟨hreach, hlistening, hopening, hperform, hreceived, hpackets, hanswer, hsteps.tail hstep⟩

/-- An end that is opened answers. The packet it got is an opening that the other end sent, and its
answer is what its reaction sends. -/
theorem Reachable.hasAnswered (h : l.Reachable setup) {packet : Packet} {now : Nat} {q : Party}
    {r : Reaction} (hallows : l.Allows side (.packet packet)) (hkind : packet.kind = .syn)
    (hstate : (l.party side).state = .listening)
    (hperform : (l.party side).perform now (.packet packet) = .ok (q, r)) :
    HasAnswered setup side (l.become side q r.packets) := by
  have hsound := h.sound
  have hvouches := hsound.vouched side.other packet hallows.1
  have hsource : packet.source = setup.home side.other :=
    hvouches.source_eq.trans (hsound.fixed side.other).1
  have hseq : packet.seq = setup.isn side.other :=
    (hvouches.opening (.inl hkind)).1.trans (hsound.fixed side.other).2
  obtain ⟨rfl, hpackets, -⟩ := Party.accepted_of_perform hstate hkind hperform
  refine ⟨h, hstate, ⟨hallows.1, hkind, hallows.2.trans (hsound.fixed side).1⟩, hperform,
    ⟨rfl, congrArg some hsource⟩, hpackets, ⟨rfl, hsource, (hsound.fixed side).2, ?_⟩, .refl⟩
  rw [hseq]
  exact saturatingAdd_of_le (setup.isn_lt side.other)

/-- Whoever is answering an opening was opened, and so was whoever ever sent an answer. -/
structure Answers (setup : Setup) (l : Link) (side : Side) : Prop where
  /-- An end that is answering. -/
  received : (l.party side).state = .synReceived → HasAnswered setup side l
  /-- An end that sent an answer. -/
  sent : ∀ packet ∈ l.sent side, packet.kind = .synAck → HasAnswered setup side l

/-- **Each step keeps track of the answers.** An end that begins to answer has just been opened, and
a packet that is an answer is either an old one or sent by such an end. -/
theorem Answers.step (h : Answers setup l side) (hreach : l.Reachable setup) (hstep : l.Step l') :
    Answers setup l' side := by
  have hkept (hold : HasAnswered setup side l) : HasAnswered setup side l' := hold.step hstep
  cases hstep with
  | @act side' now input q r hallows hperform =>
    by_cases hs : side = side'
    · subst hs
      have hmoves := Party.moves_of_perform hperform
      have hreceived : q.state = .synReceived →
          HasAnswered setup side (l.become side q r.packets) := by
        intro hq
        rcases hmoves.enters_or_stays with henters | hstays
        · have hchanges := henters.changes
          rw [hq] at hchanges
          generalize q.peer = peer at hchanges
          cases hchanges with
          | accept hlistening hkind => exact hreach.hasAnswered hallows hkind hlistening hperform
        · -- The state is as it was, so the end has answered before.
          exact hkept (h.received (hstays.state_eq.symm.trans hq))
      refine ⟨fun hq ↦ hreceived (by rwa [party_become] at hq), fun packet hmem hkind ↦ ?_⟩
      rw [sent_become] at hmem
      rcases List.mem_append.1 hmem with hold | hnew
      · exact hkept (h.sent packet hold hkind)
      · exact hreceived (hmoves.synReceived_of_synAck hnew hkind)
    · refine ⟨fun hstate ↦ hkept (h.received ?_), fun packet hmem hkind ↦
        hkept (h.sent packet ?_ hkind)⟩
      · rwa [party_become_of_ne hs] at hstate
      · rwa [sent_become_of_ne hs] at hmem

theorem Reachable.answers (h : l.Reachable setup) (side : Side) : Answers setup l side := by
  induction h with
  | start => exact ⟨fun hstate ↦ absurd hstate (by simp [Link.start, Party.create]),
      fun packet hmem ↦ absurd hmem List.not_mem_nil⟩
  | step hreach hstep ih => exact ih.step hreach hstep

/-! ### Agreement -/

/-- What a step that leads to a link tells of the two ends, seen from one of them. -/
structure Agrees (setup : Setup) (l l' : Link) (side : Side) : Prop where
  /-- An end whose answer is acknowledged finds the other one established with it, and reads from
  right after the opening of the other one. -/
  completed : (l.party side).state = .synReceived → (l'.party side).state = .established →
    (l.party side.other).AttachedTo (setup.home side) ∧
      (l.party side).edge = setup.isn side.other + 1
  /-- An end whose opening is answered was answered by the other one, and reads from right after the
  opening of the other one. -/
  opened : (l.party side).state = .synSent → (l'.party side).state = .established →
    HasAnswered setup side.other l ∧ (l'.party side).edge = setup.isn side.other + 1
  /-- No other end gets established. -/
  begins : (l'.party side).state = .established →
    (l.party side).state = .established ∨ (l.party side).state = .synReceived ∨
      (l.party side).state = .synSent
  /-- An established end has read on from there byte after byte. -/
  edge_eq : (l'.party side).state = .established →
    (l'.party side).edge = setup.isn side.other + 1 + (l'.party side).stats.bytesReceived
  /-- It stays established with the other one, and its edge never goes back. -/
  kept : ∀ later, Relation.ReflTransGen Step l' later → (l'.party side).state = .established →
    (later.party side).AttachedTo (setup.home side.other) ∧
      (l'.party side).edge ≤ (later.party side).edge
  /-- No opening and no answer changes it, whoever they come from. -/
  stale : ∀ (packet : Packet) (now : Nat) (q : Party) (r : Reaction),
    (l'.party side).state = .established → packet.kind = .syn ∨ packet.kind = .synAck →
      (l'.party side).perform now (.packet packet) = .ok (q, r) → q = l'.party side

/-- The packet that completes a handshake was sent by an end that is established. Only such an end
acknowledges or sends data, and it stays established with whoever it is. -/
theorem Sound.attachedTo (h : l.Sound setup) {packet : Packet}
    (hallows : l.Allows side (.packet packet))
    (hkind : packet.kind = .ack ∨ packet.kind = .data) :
    (l.party side.other).AttachedTo (setup.home side) := by
  have hattached := ((h.vouched side.other packet hallows.1).transfer hkind).1
  rwa [hallows.2, (h.fixed side).1] at hattached

/-- An end that is answering has read nothing: its edge is where the opening put it. -/
theorem Sound.edge_of_synReceived (h : l.Sound setup)
    (hstate : (l.party side).state = .synReceived) :
    (l.party side).edge = setup.isn side.other + 1 := by
  rw [((h.knows (.inl hstate)).answering hstate).1, (h.party side.other).firstByte_eq,
    (h.fixed side.other).2]

/-- An established end has read on from right after the opening of the other one, one byte at a
time. -/
theorem Reachable.edge_eq (h : l.Reachable setup) (hstate : (l.party side).state = .established) :
    (l.party side).edge = setup.isn side.other + 1 + (l.party side).stats.bytesReceived := by
  obtain ⟨n, hn, -, hedge, hheard, -⟩ := h.heard_eq_take side.other
  rw [side.other_other] at hedge hheard
  rw [hedge hstate, (h.sound.party side).received_eq, Party.heard, hheard, List.length_take,
    Nat.min_eq_left hn]

/-- An end changes its state only when it has an input. -/
theorem Step.exists_changes (hstep : l.Step l')
    (hne : (l'.party side).state ≠ (l.party side).state) :
    ∃ now input r, l.Allows side input ∧
      (l.party side).perform now input = .ok (l'.party side, r) ∧
      (l.party side).Changes input (l'.party side).state (l'.party side).peer := by
  cases hstep with
  | @act side' now input q r hallows hperform =>
    by_cases hs : side = side'
    · subst hs
      rw [party_become] at hne ⊢
      refine ⟨now, input, r, hallows, hperform, ?_⟩
      exact (Party.conforms_of_perform hperform).changes_or_eq.resolve_right fun heq ↦ hne heq.1
    · rw [party_become_of_ne hs] at hne
      exact absurd rfl hne

/-- The acknowledgement that an end waits for comes from one that is established with it. An end in
`SYN_RECEIVED` becomes established by an acknowledgement or by data, and both are sent only by an
established end. -/
theorem Sound.completed (h : l.Sound setup) (hstep : l.Step l')
    (hstate : (l.party side).state = .synReceived)
    (hstate' : (l'.party side).state = .established) :
    (l.party side.other).AttachedTo (setup.home side) ∧
      (l.party side).edge = setup.isn side.other + 1 := by
  obtain ⟨now, input, r, hallows, -, hchanges⟩ :=
    hstep.exists_changes (by rw [hstate, hstate']; simp)
  rw [hstate'] at hchanges
  generalize (l'.party side).peer = peer at hchanges
  cases hchanges with
  | complete _ hkind => exact ⟨h.attachedTo hallows hkind, h.edge_of_synReceived hstate⟩
  | opened hother => exact absurd (hstate.symm.trans hother) (by simp)

/-- The answer that an end waits for was sent by one that had been opened by it. It may be an answer
to an earlier opening, which is why the past is asked (`Answers.sent`) and not the state of the
other end. -/
theorem Reachable.opened (h : l.Reachable setup) (hstep : l.Step l')
    (hstate : (l.party side).state = .synSent) (hstate' : (l'.party side).state = .established) :
    HasAnswered setup side.other l ∧ (l'.party side).edge = setup.isn side.other + 1 := by
  obtain ⟨now, input, r, hallows, hperform, hchanges⟩ :=
    hstep.exists_changes (by rw [hstate, hstate']; simp)
  rw [hstate'] at hchanges
  generalize (l'.party side).peer = peer at hchanges
  cases hchanges with
  | complete hother => exact absurd (hstate.symm.trans hother) (by simp)
  | @opened packet _ hkind hpeer hack =>
    have hseq : packet.seq = setup.isn side.other :=
      ((h.sound.vouched side.other packet hallows.1).opening (.inr hkind)).1.trans
        (h.sound.fixed side.other).2
    refine ⟨(h.answers side.other).sent packet hallows.1 hkind, ?_⟩
    rw [(Party.opened_of_perform hstate hpeer hkind hack hperform).1, Connection.edge, hseq]
    exact saturatingAdd_of_le (setup.isn_lt side.other)

/-- An end gets established only when it waits for an answer or for an acknowledgement. -/
theorem Step.begins (hstep : l.Step l') (hstate' : (l'.party side).state = .established) :
    (l.party side).state = .established ∨ (l.party side).state = .synReceived ∨
      (l.party side).state = .synSent := by
  by_cases heq : (l'.party side).state = (l.party side).state
  · exact .inl (heq ▸ hstate')
  · obtain ⟨now, input, r, -, -, hchanges⟩ := hstep.exists_changes heq
    rw [hstate'] at hchanges
    generalize (l'.party side).peer = peer at hchanges
    cases hchanges with
    | opened hstate => exact .inr (.inr hstate)
    | complete hstate => exact .inr (.inl hstate)

/-- An established end stays so, and reads on. Both hold of every later party, and steps only lead
to later ones. -/
theorem Reachable.kept {later : Link} (h : l.Reachable setup)
    (hsteps : Relation.ReflTransGen Step l later) (hstate : (l.party side).state = .established) :
    (later.party side).AttachedTo (setup.home side.other) ∧
      (l.party side).edge ≤ (later.party side).edge := by
  obtain ⟨-, hlater⟩ := h.steps hsteps
  have hpeer := h.sound.peer_of_met (.inr hstate)
  rw [(h.sound.fixed side.other).1] at hpeer
  exact ⟨(hlater side).attached ⟨hstate, hpeer⟩, (hlater side).edge_le hstate⟩

/-- **The ends agree.** Whatever was lost, repeated and reordered, and however many handshakes
failed before. Each field is one of the facts above. -/
theorem Reachable.agrees (h : l.Reachable setup) (hstep : l.Step l') (side : Side) :
    Agrees setup l l' side where
  completed := h.sound.completed hstep
  opened := h.opened hstep
  begins := hstep.begins
  edge_eq := (h.step hstep).edge_eq
  kept _ := (h.step hstep).kept
  stale _ _ _ _ hstate' := Party.eq_of_perform_opening hstate'

/-- The left end gives up its first handshake, after its opening has arrived, and begins a second
one. The answer to the first opening completes it. -/
def secondHandshake : List (Side × Nat × Input) :=
  [(.right, 0, .listen),
    (.left, 0, .connect ⟨10, 0, 0, 2, 80⟩),
    (.right, 1, .packet ⟨⟨10, 0, 0, 1, 4000⟩, ⟨10, 0, 0, 2, 80⟩, .syn, 100, 0, 65535, []⟩),
    (.left, 2, .alarm (.handshakeDeadline 1)),
    (.left, 3, .connect ⟨10, 0, 0, 2, 80⟩),
    (.left, 4, .packet ⟨⟨10, 0, 0, 2, 80⟩, ⟨10, 0, 0, 1, 4000⟩, .synAck, 900, 101, 65535, []⟩)]

/-- Then the right end is established by an acknowledgement of its answer to the first opening. -/
theorem agrees_secondHandshake :
    ∃ l l', (start .narrow).play secondHandshake = some l ∧ l.Step l' ∧
      ((l.party .left).attempt, (l.party .right).state, (l'.party .right).state) =
        (2, .synReceived, .established) ∧
      Agrees .narrow l l' .right := by
  let acknowledgement : Packet :=
    ⟨⟨10, 0, 0, 1, 4000⟩, ⟨10, 0, 0, 2, 80⟩, .ack, 101, 901, 65535, []⟩
  have hrun : (((start .narrow).play secondHandshake).bind fun l ↦
      (l.play [(.right, 5, .packet acknowledgement)]).map fun l' ↦
        ((l.party .left).attempt, (l.party .right).state, (l'.party .right).state)) =
      some (2, .synReceived, .established) := by decide +kernel
  obtain ⟨l, hplay, hnext⟩ := Option.bind_eq_some_iff.1 hrun
  obtain ⟨l', hlast, hfacts⟩ := Option.map_eq_some_iff.1 hnext
  have hstep := step_of_play hlast
  exact ⟨l, l', hplay, hstep, hfacts, (Reachable.start.play hplay).agrees hstep .right⟩

end Link

end ReliableStream
