import ReliableStream.Proofs.Coherent
import ReliableStream.Proofs.Party.Pump

/-!
# Two ends and the network between them

A link has two ends at different places, and keeps every packet that either of them ever sent. At
each step one end has an input at some instant. Its owner may ask it for anything, but to connect it
to a third place; any alarm may ring at any time; and any packet that the other end sent to it may
arrive, however old it is and however often it has arrived before. So a packet that is lost is one
that does not arrive, and there is no bound on delay, duplication and reordering. Handshakes may
fail and be begun anew from either end.

A step whose counters would overflow does not exist.

Everything that is proved of links rests on `Sound`, which is carried through a step by
`Sound.step`. Its five fields are each about one end and what it sent, or about both ends as members
of a list of parties, so that what `Coherent` says of any number of parties need not be proved of
two once more.
-/

namespace ReliableStream

/-- A party gets no peer but those it was told to connect to or got a packet from. -/
theorem Party.Move.peer_eq {now : Nat} {input : Input} {p q : Party} {r : Reaction}
    (hmove : Move now input p r q) {peers : Endpoint → Prop}
    (hconnect : ∀ peer, input = .connect peer → peers peer)
    (hpacket : ∀ packet, input = .packet packet → peers packet.source)
    (h : ∀ peer, p.peer = some peer → peers peer) : ∀ peer, q.peer = some peer → peers peer := by
  intro peer hq
  cases hmove with
  | idle | answer | acknowledge | retryOpening | retryAnswer | acknowledged | store | deliver |
    hand | send | resend | read | opened | complete | giveUp => exact h peer hq
  | connect => exact Option.some.inj hq ▸ hconnect _ rfl
  | listen => exact absurd hq (by simp)
  | accept => exact Option.some.inj hq ▸ hpacket _ rfl

/-- One of the two ends of a link. -/
inductive Side where
  /-- The one end. -/
  | left
  /-- The other one. -/
  | right
  deriving DecidableEq

/-- The other end. -/
def Side.other : Side → Side
  | .left => .right
  | .right => .left

@[simp] theorem Side.other_other (side : Side) : side.other.other = side := by cases side <;> rfl

theorem Side.other_ne (side : Side) : side.other ≠ side := by cases side <;> simp [other]

/-- The two ends of a connection, and everything they sent to each other. -/
structure Link where
  /-- The ends. -/
  party : Side → Party
  /-- The packets that each of them ever sent. -/
  sent : Side → List Packet

namespace Link

/-- What is fixed of the two ends. -/
structure Setup where
  /-- Where they are. -/
  home : Side → Endpoint
  /-- They are not at the same place. -/
  home_ne : home .left ≠ home .right
  /-- How they behave. -/
  settings : Side → Connection.Settings
  /-- The settings let them make progress. -/
  valid : ∀ side, (settings side).Valid
  /-- Their initial sequence numbers. -/
  isn : Side → Nat
  /-- The first byte after a handshake has a place. -/
  isn_lt : ∀ side, isn side + 1 ≤ maxWord

/-- Two ends that have not begun. -/
def start (setup : Setup) : Link where
  party side := .create (setup.home side) (setup.settings side) (setup.valid side) (setup.isn side)
  sent _ := []

/-- What may be asked of an end, or reach it. -/
def Allows (l : Link) (side : Side) : Input → Prop
  | .connect peer => peer = (l.party side.other).home
  | .packet packet => packet ∈ l.sent side.other ∧ packet.destination = (l.party side).home
  | .listen | .send _ | .read | .alarm _ => True

instance (l : Link) (side : Side) (input : Input) : Decidable (l.Allows side input) := by
  cases input <;> unfold Allows <;> infer_instance

/-- The link after one end became another party and sent packets. -/
def become (side : Side) (p : Party) (packets : List Packet) (l : Link) : Link where
  party s := if s = side then p else l.party s
  sent s := if s = side then l.sent s ++ packets else l.sent s

/-- One end has an input. -/
inductive Step : Link → Link → Prop
  | act {l : Link} {side : Side} {now : Nat} {input : Input} {q : Party} {r : Reaction}
    (hallows : l.Allows side input) (hperform : (l.party side).perform now input = .ok (q, r)) :
    Step l (l.become side q r.packets)

/-- The links that can be reached from the beginning. -/
inductive Reachable (setup : Setup) : Link → Prop
  | start : Reachable setup (start setup)
  | step {l l' : Link} (hreach : Reachable setup l) (hstep : Step l l') : Reachable setup l'

/-- The link after inputs at given ends and instants, if each is allowed and has an outcome. -/
def play : List (Side × Nat × Input) → Link → Option Link
  | [], l => some l
  | (side, now, input) :: rest, l =>
    if l.Allows side input then
      match (l.party side).perform now input with
      | .ok (q, r) => play rest (l.become side q r.packets)
      | .error _ => none
    else none

/-- Two ends with little room: two bytes in a segment, and two segments in flight. -/
def Setup.narrow : Setup where
  home
    | .left => ⟨10, 0, 0, 1, 4000⟩
    | .right => ⟨10, 0, 0, 2, 80⟩
  home_ne := by decide
  settings _ := { mtu := 2, window := 2 }
  valid _ := ⟨by decide, by decide, by decide⟩
  isn
    | .left => 100
    | .right => 900
  isn_lt side := by cases side <;> decide

/-- The left end opens the connection and sends five bytes. The acknowledgement that completes the
handshake of the right end does not arrive, and neither does data. -/
def lostAck : List (Side × Nat × Input) :=
  [(.right, 0, .listen),
    (.left, 0, .connect ⟨10, 0, 0, 2, 80⟩),
    (.right, 1, .packet ⟨⟨10, 0, 0, 1, 4000⟩, ⟨10, 0, 0, 2, 80⟩, .syn, 100, 0, 65535, []⟩),
    (.left, 2, .packet ⟨⟨10, 0, 0, 2, 80⟩, ⟨10, 0, 0, 1, 4000⟩, .synAck, 900, 101, 65535, []⟩),
    (.left, 3, .send [1, 2, 3, 4, 5])]

/-- Then the second segment arrives, and the first one only after it. -/
def reordered : List (Side × Nat × Input) :=
  lostAck ++
    [(.right, 4, .packet ⟨⟨10, 0, 0, 1, 4000⟩, ⟨10, 0, 0, 2, 80⟩, .data, 103, 901, 65535, [3, 4]⟩),
      (.right, 5, .packet ⟨⟨10, 0, 0, 1, 4000⟩, ⟨10, 0, 0, 2, 80⟩, .data, 101, 901, 65535, [1, 2]⟩)]

/-! ### Both ends as parties -/

/-- The two parties. -/
def parties (l : Link) : List Party := [l.party .left, l.party .right]

/-- All packets. -/
def wire (l : Link) : List Packet := l.sent .left ++ l.sent .right

/-- The number of an end. -/
def index : Side → Nat
  | .left => 0
  | .right => 1

variable {l l' : Link} {setup : Setup}

/-- The end that had an input is the party that came out of it. -/
@[simp] theorem party_become (side : Side) (p : Party) (packets : List Packet) (l : Link) :
    (l.become side p packets).party side = p := by simp [become]

theorem party_become_of_ne {side s : Side} (hs : s ≠ side) (p : Party) (packets : List Packet)
    (l : Link) : (l.become side p packets).party s = l.party s := if_neg hs

@[simp] theorem sent_become (side : Side) (p : Party) (packets : List Packet) (l : Link) :
    (l.become side p packets).sent side = l.sent side ++ packets := by simp [become]

theorem sent_become_of_ne {side s : Side} (hs : s ≠ side) (p : Party) (packets : List Packet)
    (l : Link) : (l.become side p packets).sent s = l.sent s := if_neg hs

/-- What holds of both ends still does, if it holds of the one that changed. All fields of `Sound`
but the last are carried through a step in this way. -/
theorem forall_become {P : Side → Party → List Packet → Prop} {side : Side} {p : Party}
    {packets : List Packet} (hside : P side p (l.sent side ++ packets))
    (h : ∀ s, P s (l.party s) (l.sent s)) (s : Side) :
    P s ((l.become side p packets).party s) ((l.become side p packets).sent s) := by
  by_cases hs : s = side
  · subst hs
    rw [party_become, sent_become]
    exact hside
  · rw [party_become_of_ne hs, sent_become_of_ne hs]
    exact h s

theorem parties_getElem? (l : Link) (side : Side) :
    l.parties[index side]? = some (l.party side) := by
  cases side <;> rfl

theorem party_mem_parties (l : Link) (side : Side) : l.party side ∈ l.parties :=
  List.mem_of_getElem? (l.parties_getElem? side)

theorem parties_become (side : Side) (p : Party) (packets : List Packet) (l : Link) :
    (l.become side p packets).parties = l.parties.set (index side) p := by cases side <;> rfl

theorem mem_wire {packet : Packet} : packet ∈ l.wire ↔ ∃ side, packet ∈ l.sent side := by
  rw [wire, List.mem_append]
  constructor
  · rintro (h | h)
    · exact ⟨.left, h⟩
    · exact ⟨.right, h⟩
  · rintro ⟨side, h⟩
    cases side with
    | left => exact .inl h
    | right => exact .inr h

/-- A packet that was sent after a step was sent before, or by the step. -/
theorem mem_wire_become {side : Side} {p : Party} {packets : List Packet} {packet : Packet}
    (h : packet ∈ (l.become side p packets).wire) : packet ∈ l.wire ∨ packet ∈ packets := by
  obtain ⟨s, hmem⟩ := mem_wire.1 h
  by_cases hs : s = side
  · subst hs
    rw [sent_become] at hmem
    exact (List.mem_append.1 hmem).imp_left fun hold ↦ mem_wire.2 ⟨s, hold⟩
  · rw [sent_become_of_ne hs] at hmem
    exact .inl (mem_wire.2 ⟨s, hmem⟩)

/-! ### What holds of every reachable link -/

/-- What holds of every reachable link. -/
structure Sound (setup : Setup) (l : Link) : Prop where
  /-- The ends are where they were, and count from where they counted. -/
  fixed : ∀ side, (l.party side).home = setup.home side ∧ (l.party side).isn = setup.isn side
  /-- An end has no peer but the other one. -/
  peer_eq : ∀ side peer, (l.party side).peer = some peer → peer = setup.home side.other
  /-- Each end answers for what it sent. -/
  vouched : ∀ side, ∀ packet ∈ l.sent side, (l.party side).Vouches packet
  /-- Neither end has room left in its window while something is pending. -/
  pumped : ∀ side, (l.party side).Pumped
  /-- The ends fit together. -/
  coherent : Coherent l.parties l.wire

/-- Two ends that have not begun have no peers, and have sent nothing. -/
theorem sound_start (setup : Setup) : (start setup).Sound setup where
  fixed side := ⟨rfl, rfl⟩
  peer_eq side peer h := absurd h (by simp [start, Party.create])
  vouched side packet h := absurd h List.not_mem_nil
  pumped side := Party.pumped_create
  coherent := by
    refine (Coherent.nil.join ?_ (setup.isn_lt .left)).join ?_ (setup.isn_lt .right)
    · exact List.not_mem_nil
    · simpa [Party.create] using setup.home_ne.symm

/-- The parties of a reachable link are sound, as members of a coherent list. -/
theorem Sound.party (h : l.Sound setup) (side : Side) : (l.party side).Sound :=
  h.coherent.sound _ (l.party_mem_parties side)

/-- **Each step keeps a link sound.** The end that has an input becomes a later party by moves, and
each field holds of it for a reason of its own. -/
theorem Sound.step (h : l.Sound setup) (hstep : l.Step l') : l'.Sound setup := by
  cases hstep with
  | @act side now input q r hallows hperform =>
    have hmoves := Party.moves_of_perform hperform
    have hp : (l.party side).Sound := h.party side
    have hlater := hmoves.later hp
    refine
      { fixed := forall_become
          (P := fun s p _ ↦ p.home = setup.home s ∧ p.isn = setup.isn s) ?fixed h.fixed
        peer_eq := forall_become
          (P := fun s p _ ↦ ∀ peer, p.peer = some peer → peer = setup.home s.other) ?peer_eq
          h.peer_eq
        vouched := forall_become
          (P := fun _ p sent ↦ ∀ packet ∈ sent, p.Vouches packet) ?vouched h.vouched
        pumped := forall_become (P := fun _ p _ ↦ p.Pumped) ?pumped h.pumped
        coherent := ?coherent }
    case fixed =>
      rw [hlater.home_eq, hlater.isn_eq]
      exact h.fixed side
    -- An end gets its peer from a request to connect or from a packet, and both lead to the other
    -- end.
    case peer_eq =>
      refine hmoves.preserves
        (P := fun t ↦ ∀ peer, t.peer = some peer → peer = setup.home side.other)
        (fun ht hmove ↦ hmove.peer_eq ?_ ?_ ht) (h.peer_eq side)
      · rintro peer rfl
        exact Eq.trans hallows (h.fixed side.other).1
      · rintro packet rfl
        rw [(h.vouched side.other packet hallows.1).source_eq, (h.fixed side.other).1]
    case vouched =>
      intro packet hpacket
      rcases List.mem_append.1 hpacket with hold | hnew
      · exact (h.vouched side packet hold).later hlater
      · exact hmoves.vouches hp packet hnew
    case pumped =>
      exact (h.pumped side).perform hp hperform
    case coherent =>
      rw [parties_become]
      refine h.coherent.move (l.parties_getElem? side) hmoves ?_ fun packet ↦ mem_wire_become
      rintro packet rfl
      exact ⟨mem_wire.2 ⟨side.other, hallows.1⟩, hallows.2⟩

/-- An end that has heard of its peer has the other one as its peer. -/
theorem Sound.peer_of_met (h : l.Sound setup) {side : Side}
    (hstate : (l.party side).state = .synReceived ∨ (l.party side).state = .established) :
    (l.party side).peer = some (l.party side.other).home := by
  obtain ⟨peer, -, hsome⟩ := h.coherent.met _ (l.party_mem_parties side) hstate
  rw [hsome, h.peer_eq side peer.home hsome, (h.fixed side.other).1]

/-- An end that has heard of its peer knows the other one. -/
theorem Sound.knows (h : l.Sound setup) {side : Side}
    (hstate : (l.party side).state = .synReceived ∨ (l.party side).state = .established) :
    (l.party side).Knows (l.party side.other) :=
  h.coherent.knows _ (l.party_mem_parties side) _ (l.party_mem_parties side.other)
    (h.peer_of_met hstate)

theorem Reachable.sound (h : Reachable setup l) : l.Sound setup := by
  induction h with
  | start => exact sound_start setup
  | step _ hstep ih => exact ih.step hstep

/-- Inputs that are allowed, one after the other, lead from a reachable link to a reachable one. -/
theorem Reachable.play {events : List (Side × Nat × Input)} (h : l.Reachable setup)
    (hplay : l.play events = some l') : l'.Reachable setup := by
  induction events generalizing l with
  | nil => exact Option.some.inj hplay ▸ h
  | cons event rest ih =>
    obtain ⟨side, now, input⟩ := event
    rw [Link.play] at hplay
    split at hplay
    · next hallows =>
      split at hplay
      · next q r hperform => exact ih (h.step (.act hallows hperform)) hplay
      · exact absurd hplay (by simp)
    · exact absurd hplay (by simp)

end Link

end ReliableStream
