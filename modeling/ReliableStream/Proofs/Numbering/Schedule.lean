import ReliableStream.Proofs.Link.Basic
import ReliableStream.Proofs.Numbering.Commutes

/-!
# Schedules

A schedule says what happens to the two ends of a link without naming a sequence number. A call by
an owner needs none. A packet that arrives is named by its number among the packets that the other
end sent, and an alarm that rings by its number among the alarms that the end set. Whether a packet
is lost, repeated or late is thus up to the schedule, and so is which alarm rings when.

Carrying out a schedule gives a *scene* for each of its deeds (`Scene.run`): the two ends, all that
they sent and set, and all the answers so far. Counted from further ahead, the same schedule gives
the same scenes, shifted (`Scene.run_shift`).

That a deed names its packet or alarm by a number is what makes two runs comparable: the same
schedule says the same of both, and neither of them has to be known to write it down.
-/

namespace ReliableStream

/-- What a call gives: why it is refused, or else the bytes that are read, if there are any. What
reaches a party is never refused. -/
def Party.result (now : Nat) (input : Input) (p : Party) : Except Failure (Option Bytes) :=
  match input with
  | .connect peer => (p.toConnection.connect peer).map fun _ ↦ none
  | .listen => p.toConnection.listen.map fun _ ↦ none
  | .send bytes => (p.toConnection.send now bytes).map fun _ ↦ none
  | .read => p.toConnection.read.map (·.1)
  | .packet _ | .alarm _ => .ok none

/-- What a call gives is the same further ahead. -/
theorem Party.result_shift {own other now : Nat} {input : Input} {p : Party}
    (h : p.toConnection.Fits own other) :
    (p.shift own other).result now (input.shift own other) = p.result now input := by
  have hcall {β : Type} (f : β → β) (answer : Except Failure β) :
      (answer.map f).map (fun _ ↦ (none : Option Bytes)) = answer.map fun _ ↦ none := by
    cases answer <;> rfl
  cases input with
  | connect peer =>
    show ((p.toConnection.shift own other).connect peer).map _ = _
    rw [Connection.connect_shift h.isn_le]
    exact hcall _ _
  | listen =>
    show (p.toConnection.shift own other).listen.map _ = p.toConnection.listen.map _
    rw [Connection.listen, Connection.listen, Connection.state_shift]
    split <;> rfl
  | send bytes =>
    show ((p.toConnection.shift own other).send now bytes).map _ = _
    rw [Connection.send_shift h.next_le fun hstate ↦ h.met (.inr hstate)]
    exact hcall _ _
  | read =>
    show (p.toConnection.shift own other).read.map _ = p.toConnection.read.map _
    rw [Connection.read_shift]
    cases p.toConnection.read <;> rfl
  | packet packet | alarm watch => rfl

namespace Link

/-- What is done at one end of a link. -/
inductive Deed where
  /-- A connection is opened to the other end. -/
  | connect
  /-- An opening is waited for. -/
  | listen
  /-- Bytes are sent. -/
  | send (bytes : Bytes)
  /-- Bytes are read once. -/
  | read
  /-- The `n`-th packet, counted from zero, arrives that the other end sent. -/
  | arrive (n : Nat)
  /-- The `n`-th alarm, counted from zero, rings that was set. -/
  | ring (n : Nat)
  deriving DecidableEq

/-- What a deed is answered with. -/
structure Answer where
  /-- Where it was done. -/
  side : Side
  /-- What the call gave. -/
  result : Except Failure (Option Bytes)
  /-- What there was to do, and what concerned the application. -/
  reaction : Reaction

/-- A link, and what its ends did so far. -/
structure Scene where
  /-- The ends, and everything they sent to each other. -/
  link : Link
  /-- The alarms that each of them ever set. -/
  alarms : Side → List Alarm
  /-- What the deeds so far were answered with. -/
  answers : List Answer

/-- Two ends to which nothing was done. -/
def begin (setup : Setup) : Scene := ⟨start setup, fun _ ↦ [], []⟩

namespace Scene

/-- What a deed means to an end. It may name a packet that was not sent to it, or an alarm that was
not set. -/
def input? (side : Side) (s : Scene) : Deed → Option Input
  | .connect => some (.connect (s.link.party side.other).home)
  | .listen => some .listen
  | .send bytes => some (.send bytes)
  | .read => some .read
  | .arrive n => ((s.link.sent side.other)[n]?.filter
      (·.destination = (s.link.party side).home)).map .packet
  | .ring n => (s.alarms side)[n]?.map (.alarm ·.watch)

/-- The scene after an end acted. -/
def become (side : Side) (result : Except Failure (Option Bytes)) (q : Party) (r : Reaction)
    (s : Scene) : Scene where
  link := s.link.become side q r.packets
  alarms s' := if s' = side then s.alarms s' ++ r.alarms else s.alarms s'
  answers := s.answers ++ [⟨side, result, r⟩]

/-- A deed is done at one end. One that names nothing changes nothing. -/
def act (side : Side) (now : Nat) (deed : Deed) (s : Scene) : Checked Scene :=
  match s.input? side deed with
  | none => pure s
  | some input => do
    let (q, r) ← (s.link.party side).perform now input
    pure (s.become side ((s.link.party side).result now input) q r)

/-- The scenes of a schedule, one for each deed. -/
def run : List (Side × Nat × Deed) → Scene → Checked (List Scene)
  | [], _ => pure []
  | (side, now, deed) :: rest, s => do
    let t ← s.act side now deed
    let scenes ← t.run rest
    pure (t :: scenes)

variable {s t : Scene} {setup : Setup} {side : Side} {now : Nat} {deed : Deed}

/-- What a deed names was sent to the end, or set by it, so it may reach it. -/
theorem allows_of_input? {input : Input} (h : s.input? side deed = some input) :
    s.link.Allows side input := by
  cases deed with
  | connect => exact Option.some.inj h ▸ rfl
  | listen | send | read => exact Option.some.inj h ▸ trivial
  | arrive n =>
    obtain ⟨packet, hpacket, rfl⟩ := Option.map_eq_some_iff.1 h
    obtain ⟨hget, hdestination⟩ := Option.filter_eq_some_iff.1 hpacket
    exact ⟨List.mem_of_getElem? hget, of_decide_eq_true hdestination⟩
  | ring n =>
    obtain ⟨alarm, -, rfl⟩ := Option.map_eq_some_iff.1 h
    trivial

/-- What a deed leads to can be reached. -/
theorem reachable_act (h : s.link.Reachable setup) (hact : s.act side now deed = .ok t) :
    t.link.Reachable setup := by
  rw [act] at hact
  split at hact
  · exact Checked.pure_eq_ok_iff.1 hact ▸ h
  · next input hinput =>
    obtain ⟨⟨q, r⟩, hperform, hpure⟩ := Checked.bind_eq_ok_iff.1 hact
    obtain rfl := Checked.pure_eq_ok_iff.1 hpure
    exact h.step (.act (allows_of_input? hinput) hperform)

/-- So can all scenes of a schedule. -/
theorem reachable_run {schedule : List (Side × Nat × Deed)} {scenes : List Scene}
    (h : s.link.Reachable setup) (hrun : s.run schedule = .ok scenes) :
    ∀ t ∈ scenes, t.link.Reachable setup := by
  induction schedule generalizing s scenes with
  | nil =>
    obtain rfl := Checked.pure_eq_ok_iff.1 hrun
    exact List.forall_mem_nil _
  | cons entry rest ih =>
    obtain ⟨t, hact, hothers⟩ := Checked.bind_eq_ok_iff.1 hrun
    obtain ⟨later, hrest, hpure⟩ := Checked.bind_eq_ok_iff.1 hothers
    obtain rfl := Checked.pure_eq_ok_iff.1 hpure
    have hreach := reachable_act h hact
    exact List.forall_mem_cons.2 ⟨hreach, ih hreach hrest⟩

end Scene

end Link

/-! ### What fits further ahead -/

namespace Link

variable {l : Link} {setup : Setup} {ahead : Side → Nat} {side : Side}

/-- The next bytes of both ends have places further ahead. -/
def Room (ahead : Side → Nat) (l : Link) : Prop :=
  ∀ side, (l.party side).sendNext + ahead side ≤ maxWord

/-- An end that has heard of its peer follows its stream, and so does what waits there. -/
theorem Sound.follows (h : l.Sound setup)
    (hstate : (l.party side).state = .synReceived ∨ (l.party side).state = .established) :
    (l.party side).edge ≠ 0 ∧ ∀ chunk ∈ (l.party side).reassembly.waiting.toList,
      chunk.seq + chunk.bytes.length ≤ (l.party side.other).sendNext := by
  obtain ⟨heard, i, hfollows⟩ := (h.knows hstate).exists_follows (h.party side) hstate
  refine ⟨?_, fun chunk hmem ↦ ?_⟩
  · have hfirst : (l.party side.other).firstByte ≤ (l.party side).edge :=
      Nat.le_trans (start_le_cut i) (Nat.le_of_eq hfollows.edge_eq.symm)
    rw [(h.party side.other).firstByte_eq] at hfirst
    omega
  · obtain ⟨hscript, -, hnext⟩ := hfollows.waiting chunk hmem
    exact (h.party side.other).stop_le_sendNext hscript hnext

/-- An end of a sound link fits further ahead, as long as its next byte does. What has been got
stops at a cut of the stream of the other end, and so before the next byte of that end. -/
theorem Sound.fits (h : l.Sound setup) (hfirst : ∀ side, setup.isn side + 1 + ahead side ≤ maxWord)
    (hroom : l.Room ahead) (side : Side) :
    (l.party side).toConnection.Fits (ahead side) (ahead side.other) where
  isn_le := (h.fixed side).2 ▸ hfirst side
  next_le := hroom side
  edge_le := (h.party side).edge_le
  met hstate := (h.follows hstate).1
  waiting hstate chunk hmem := by
    have hstop := (h.follows hstate).2 chunk hmem
    have hnext := hroom side.other
    omega
  flying hne := by
    by_contra hstate
    exact hne ((h.party side).blank hstate).inFlight_eq

/-- So does whatever it sent, since each packet stops at or before the next byte of its sender. -/
theorem Sound.packet_fits (h : l.Sound setup)
    (hfirst : ∀ side, setup.isn side + 1 + ahead side ≤ maxWord) (hroom : l.Room ahead)
    {packet : Packet} (hmem : packet ∈ l.sent side) : packet.Fits (ahead side) := by
  have hvouches := h.vouched side packet hmem
  refine ⟨fun hkind ↦ ?_, fun hkind ↦ ?_⟩
  · rw [(hvouches.opening hkind).1, (h.fixed side).2]
    exact hfirst side
  · obtain ⟨hscript, hnext⟩ := hvouches.data hkind
    have hstop := (h.party side).stop_le_sendNext hscript hnext
    have hnext := hroom side
    dsimp only at hstop
    omega

/-! ### Scenes further ahead -/

/-- The link, with the stream of each end counted from further ahead. -/
def shift (ahead : Side → Nat) (l : Link) : Link where
  party side := (l.party side).shift (ahead side) (ahead side.other)
  sent side := (l.sent side).map (Packet.shift (ahead side) (ahead side.other))

/-- Shifting a link after one of its ends acted shifts the end and what it sent. -/
theorem shift_become (side : Side) (q : Party) (packets : List Packet) :
    (l.shift ahead).become side (q.shift (ahead side) (ahead side.other))
        (packets.map (Packet.shift (ahead side) (ahead side.other))) =
      (l.become side q packets).shift ahead := by
  refine congrArg₂ Link.mk (funext fun s ↦ ?_) (funext fun s ↦ ?_)
  · show (if s = side then _ else _) = Party.shift _ _ (if s = side then _ else _)
    split
    · next hs => rw [hs]
    · rfl
  · show (if s = side then _ else _) = List.map _ (if s = side then _ else _)
    split
    · next hs => rw [hs, List.map_append]; rfl
    · rfl

/-- After one end acted there is room if there is for this end. -/
theorem room_become (h : l.Room ahead) {q : Party} {packets : List Packet} :
    (l.become side q packets).Room ahead ↔ q.sendNext + ahead side ≤ maxWord := by
  refine ⟨fun hroom ↦ by simpa using hroom side, fun hq ↦ ?_⟩
  exact forall_become (P := fun s p _ ↦ p.sendNext + ahead s ≤ maxWord) hq h

/-- The answer, counted from further ahead. -/
def Answer.shift (ahead : Side → Nat) (a : Answer) : Answer :=
  { a with reaction := a.reaction.shift (ahead a.side) (ahead a.side.other) }

namespace Scene

variable {s t : Scene} {now : Nat} {deed : Deed}

/-- The scene, with the stream of each end counted from further ahead. -/
def shift (ahead : Side → Nat) (s : Scene) : Scene where
  link := s.link.shift ahead
  alarms side := (s.alarms side).map (Alarm.shift (ahead side))
  answers := s.answers.map (Answer.shift ahead)

/-- A deed names the same further ahead. -/
theorem input?_shift (deed : Deed) :
    (s.shift ahead).input? side deed =
      (s.input? side deed).map (Input.shift (ahead side) (ahead side.other)) := by
  cases deed with
  | connect | listen | send | read => rfl
  | arrive n =>
    show (((s.link.sent side.other).map _)[n]?.filter _).map _ = (Option.map _ _).map _
    rw [List.getElem?_map, side.other_other]
    cases (s.link.sent side.other)[n]? with
    | none => rfl
    | some packet =>
      simp only [Option.map_some, Option.filter_some]
      show Option.map _
        (if decide (packet.destination = (s.link.party side).home) then _ else _) = _
      split <;> rfl
  | ring n =>
    show (((s.alarms side).map _)[n]?).map _ = (Option.map _ _).map _
    rw [List.getElem?_map, Option.map_map, Option.map_map]
    rfl

/-- So does shifting a scene, with what the end was answered. -/
theorem shift_become (side : Side) (result : Except Failure (Option Bytes)) (q : Party)
    (r : Reaction) :
    (s.shift ahead).become side result (q.shift (ahead side) (ahead side.other))
        (r.shift (ahead side) (ahead side.other)) =
      (s.become side result q r).shift ahead := by
  show Scene.mk _ _ _ = Scene.mk _ _ _
  congr 1
  · exact Link.shift_become side q r.packets
  · funext s'
    show (if s' = side then _ else _) = List.map _ (if s' = side then _ else _)
    split
    · next hs => rw [hs, List.map_append]; rfl
    · rfl
  · show _ ++ [_] = List.map _ (_ ++ [_])
    rw [List.map_append]
    rfl

/-- A deed is done further ahead as it is done here, as long as there is room. The equivalence also
tells of failures: there is a shifted scene after it only if there is one here. -/
theorem act_shift (h : s.link.Sound setup)
    (hfirst : ∀ side, setup.isn side + 1 + ahead side ≤ maxWord) (hroom : s.link.Room ahead)
    {t' : Scene} :
    (s.shift ahead).act side now deed = .ok t' ↔
      ∃ t, s.act side now deed = .ok t ∧ t.link.Room ahead ∧ t' = t.shift ahead := by
  rw [act, input?_shift, act]
  cases hinput : s.input? side deed with
  | none =>
    simp only [Option.map_none, Checked.pure_eq_ok_iff]
    constructor
    · rintro rfl
      exact ⟨s, rfl, hroom, rfl⟩
    · rintro ⟨t, rfl, -, rfl⟩
      rfl
  | some input =>
    have hallows := allows_of_input? hinput
    have hfits := h.fits hfirst hroom side
    have hperform : ((s.shift ahead).link.party side).perform now
        (input.shift (ahead side) (ahead side.other)) = _ :=
      Party.perform_shift hfits fun packet heq ↦ by
        subst heq
        exact h.packet_fits hfirst hroom hallows.1
    have hresult : ((s.shift ahead).link.party side).result now
        (input.shift (ahead side) (ahead side.other)) = _ := Party.result_shift hfits
    simp only [Option.map_some]
    rw [hperform, hresult]
    simp only [Checked.bind_eq_ok_iff, Checked.pure_eq_ok_iff]
    constructor
    · rintro ⟨_, ⟨⟨q, r⟩, hqr, hcarry⟩, rfl⟩
      obtain ⟨hq, rfl⟩ := Party.carry_eq_ok_iff.1 hcarry
      exact ⟨_, ⟨(q, r), hqr, rfl⟩, (room_become hroom).2 hq, shift_become ..⟩
    · rintro ⟨_, ⟨⟨q, r⟩, hqr, rfl⟩, hroom', rfl⟩
      have hq := (room_become hroom).1 hroom'
      exact ⟨_, ⟨(q, r), hqr, Party.carry_eq_ok_iff.2 ⟨hq, rfl⟩⟩, shift_become ..⟩

/-- **A schedule is carried out further ahead as it is here**, as long as there is room. The
induction is on the schedule, and each scene is a reachable one, as `act_shift` asks. -/
theorem run_shift {schedule : List (Side × Nat × Deed)} (h : s.link.Reachable setup)
    (hfirst : ∀ side, setup.isn side + 1 + ahead side ≤ maxWord) (hroom : s.link.Room ahead)
    {scenes' : List Scene} :
    (s.shift ahead).run schedule = .ok scenes' ↔
      ∃ scenes, s.run schedule = .ok scenes ∧ (∀ t ∈ scenes, t.link.Room ahead) ∧
        scenes' = scenes.map (shift ahead) := by
  induction schedule generalizing s scenes' with
  | nil =>
    simp only [run, Checked.pure_eq_ok_iff]
    constructor
    · rintro rfl
      exact ⟨[], rfl, List.forall_mem_nil _, rfl⟩
    · rintro ⟨scenes, rfl, -, rfl⟩
      rfl
  | cons entry rest ih =>
    obtain ⟨side, now, deed⟩ := entry
    rw [run, run]
    constructor
    · intro hrun
      obtain ⟨t', hact, hothers⟩ := Checked.bind_eq_ok_iff.1 hrun
      obtain ⟨scenes', hrest, hpure⟩ := Checked.bind_eq_ok_iff.1 hothers
      obtain ⟨t, hact', hroom', rfl⟩ := (act_shift h.sound hfirst hroom).1 hact
      obtain ⟨scenes, hrest', hrooms, rfl⟩ := (ih (reachable_act h hact') hroom').1 hrest
      refine ⟨t :: scenes, ?_, ?_, (Checked.pure_eq_ok_iff.1 hpure).symm⟩
      · exact Checked.bind_eq_ok_iff.2 ⟨t, hact', Checked.bind_eq_ok_iff.2 ⟨scenes, hrest', rfl⟩⟩
      · exact List.forall_mem_cons.2 ⟨hroom', hrooms⟩
    · rintro ⟨scenes, hrun, hrooms, rfl⟩
      obtain ⟨t, hact, hothers⟩ := Checked.bind_eq_ok_iff.1 hrun
      obtain ⟨later, hrest, hpure⟩ := Checked.bind_eq_ok_iff.1 hothers
      obtain rfl := Checked.pure_eq_ok_iff.1 hpure
      obtain ⟨hroom', hrooms⟩ := List.forall_mem_cons.1 hrooms
      have hact' := (act_shift h.sound hfirst hroom).2 ⟨t, hact, hroom', rfl⟩
      have hrest' := (ih (reachable_act h hact) hroom').2 ⟨later, hrest, hrooms, rfl⟩
      exact Checked.bind_eq_ok_iff.2 ⟨_, hact', Checked.bind_eq_ok_iff.2 ⟨_, hrest', rfl⟩⟩

end Scene

/-! ### Counting from zero -/

/-- The same two ends, both counting from zero. -/
def Setup.fromZero (setup : Setup) : Setup :=
  { setup with isn := fun _ ↦ 0, isn_lt := fun _ ↦ by decide }

/-- Two ends that have not begun are ends that count from zero, further ahead. -/
theorem shift_begin_fromZero (setup : Setup) :
    (begin setup.fromZero).shift setup.isn = begin setup := by
  show Scene.mk _ _ _ = Scene.mk _ _ _
  congr 1
  refine congrArg₂ Link.mk (funext fun side ↦ ?_) rfl
  show Party.shift _ _ (Party.create _ _ _ 0) = Party.create _ _ _ _
  simp only [Party.shift, Party.create, Connection.shift, Nat.zero_add]
  rfl

end Link

end ReliableStream
