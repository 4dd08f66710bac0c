import ReliableStream.Proofs.Party.Later
import ReliableStream.Proofs.Party.Pump
import ReliableStream.Proofs.Party.Watched

/-!
# The turn of a party

Something reaches a party, and then its owner asks it for transfers in answer: that is a `Turn`. The
answers are `Calls`, any number of them, and cause no further answers; without a notice there are
none. What every sequence of moves keeps, a turn keeps; the lemmas here say so for what holds of a
party that is opened once.

A turn is what one event of a simulation does to a party, so each lemma here is what the
corresponding one on moves says of an event.
-/

namespace ReliableStream

/-- Whether an input is a call that transfers bytes. -/
def Input.transfers : Input → Bool
  | .send _ | .read => true
  | .connect _ | .listen | .packet _ | .alarm _ => false

theorem Input.opens_of_transfers {input : Input} (h : input.transfers = true) :
    input.opens = false := by
  cases input <;> first | rfl | exact absurd h (by simp [transfers])

theorem Input.ne_of_transfers {input : Input} (h : input.transfers = true) :
    (∀ watch, input ≠ .alarm watch) ∧ ∀ packet, input ≠ .packet packet := by
  refine ⟨?_, ?_⟩
  · rintro watch rfl
    exact absurd h (by simp [transfers])
  · rintro packet rfl
    exact absurd h (by simp [transfers])

namespace Party

variable {now : Nat} {input : Input} {p mid q t : Party} {r s : Reaction}
  {alarms : List (Nat × Alarm.Watch)}

/-- Calls that transfer bytes, one after the other, with everything they cause. -/
inductive Calls (now : Nat) : Party → Reaction → Party → Prop
  | none (p : Party) : Calls now p {} p
  | cons {input : Input} {p q t : Party} {r s : Reaction} (hinput : input.transfers = true)
    (first : p.perform now input = .ok (q, r)) (rest : Calls now q s t) : Calls now p (r ++ s) t

/-- Something reaches a party, and its owner answers if there is a notice. -/
inductive Turn (now : Nat) (input : Input) (p : Party) : Reaction → Party → Prop
  | mk {mid q : Party} {first answers : Reaction}
    (perform : p.perform now input = .ok (mid, first)) (calls : Calls now mid answers q)
    (quiet : first.notices = [] → answers = {} ∧ q = mid) : Turn now input p (first ++ answers) q

/-! ### Calls -/

namespace Calls

theorem single (hinput : input.transfers = true) (h : p.perform now input = .ok (q, r)) :
    Calls now p r q := by
  simpa using cons hinput h (none q)

theorem append (h : Calls now p r q) (h' : Calls now q s t) : Calls now p (r ++ s) t := by
  induction h with
  | none p => simpa using h'
  | cons hinput first _ ih =>
    rw [Reaction.append_assoc]
    exact cons hinput first (ih h')

/-- What moves caused by transfers keep is kept by calls. -/
theorem preserves {P : Party → Prop}
    (hmoves : ∀ {input p q r}, input.transfers = true → P p → Moves now input p r q → P q)
    (h : Calls now p r q) (hp : P p) : P q := by
  induction h with
  | none => exact hp
  | cons hinput first _ ih => exact ih (hmoves hinput hp (moves_of_perform first))

theorem sound (h : Calls now p r q) (hp : p.Sound) : q.Sound :=
  h.preserves (fun _ hp first ↦ hp.moves first) hp

theorem waitsFirst (h : Calls now p r q) (hp : p.WaitsFirst) : q.WaitsFirst :=
  h.preserves (fun hinput hp first ↦
    ((hp.once (Input.opens_of_transfers hinput)).moves first).waits) hp

/-- Nobody can transfer anything before the party is opened. -/
theorem eq_of_fresh (h : Calls now p r q) (hfresh : p.Fresh) (hp : p.Sound) : q = p := by
  induction h with
  | none => rfl
  | cons hinput first _ ih =>
    obtain ⟨rfl, -, -⟩ :=
      hfresh.eq_of_moves hp (moves_of_perform first) (Input.opens_of_transfers hinput)
    exact ih hfresh hp

theorem watched (h : Calls now p r q) (hwatched : p.Watched alarms) (hp : p.Sound)
    (hwaits : p.WaitsFirst) : q.Watched (r.alarms.map (Alarm.due now) ++ alarms) := by
  induction h generalizing alarms with
  | none => exact hwatched
  | cons hinput first _ ih =>
    have hmoves := moves_of_perform first
    have honce := hwaits.once (Input.opens_of_transfers hinput)
    have hmid := hwatched.moves hp honce hmoves (Input.ne_of_transfers hinput).1
    refine (ih hmid (hp.moves hmoves) (honce.moves hmoves).waits).perm ?_
    rw [Reaction.alarms_append, List.map_append, ← List.append_assoc]
    exact List.perm_append_comm.append_right alarms

theorem pumped (h : Calls now p r q) (hp : p.Sound) (hpumped : p.Pumped) : q.Pumped := by
  induction h with
  | none => exact hpumped
  | cons _ first _ ih => exact ih (hp.perform first) (hpumped.perform hp first)

theorem later (h : Calls now p r q) (hp : p.Sound) : p.Later q := by
  induction h with
  | none => exact .refl _
  | cons _ first _ ih =>
    exact ((moves_of_perform first).later hp).trans (ih (hp.perform first)) fun hs ↦ (hp.sends hs).1

theorem vouches (h : Calls now p r q) (hp : p.Sound) : ∀ packet ∈ r.packets, q.Vouches packet := by
  induction h with
  | none => exact fun _ hpacket ↦ absurd hpacket List.not_mem_nil
  | cons _ first rest ih =>
    intro packet hpacket
    have hmid := hp.perform first
    rcases List.mem_append.1 hpacket with hfirst | hrest
    · exact ((moves_of_perform first).vouches hp packet hfirst).later (rest.later hmid)
    · exact ih hmid packet hrest

theorem peer_eq (h : Calls now p r q) (hwaits : p.WaitsFirst) {peer : Endpoint}
    (hpeer : p.peer = some peer) : q.peer = some peer := by
  induction h with
  | none => exact hpeer
  | cons hinput first _ ih =>
    have hmoves := moves_of_perform first
    have honce := hwaits.once (Input.opens_of_transfers hinput)
    exact ih (honce.moves hmoves).waits (honce.peer_eq_of_moves hmoves hpeer)

end Calls

/-! ### Turns -/

namespace Turn

/-- A turn without answers. -/
theorem single (h : p.perform now input = .ok (q, r)) : p.Turn now input r q := by
  simpa using mk h (.none q) fun _ ↦ ⟨rfl, rfl⟩

theorem sound (h : p.Turn now input r q) (hp : p.Sound) : q.Sound := by
  cases h with
  | mk perform calls => exact calls.sound (hp.perform perform)

theorem later (h : p.Turn now input r q) (hp : p.Sound) : p.Later q := by
  cases h with
  | mk perform calls =>
    have hmoves := moves_of_perform perform
    exact (hmoves.later hp).trans (calls.later (hp.moves hmoves)) fun hs ↦ (hp.sends hs).1

/-- Whatever is sent in a turn, the party answers for. -/
theorem vouches (h : p.Turn now input r q) (hp : p.Sound) :
    ∀ packet ∈ r.packets, q.Vouches packet := by
  cases h with
  | mk perform calls =>
    intro packet hpacket
    have hmoves := moves_of_perform perform
    rcases List.mem_append.1 hpacket with hfirst | hrest
    · exact (hmoves.vouches hp packet hfirst).later (calls.later (hp.moves hmoves))
    · exact calls.vouches (hp.moves hmoves) packet hrest

/-- It sends from where it is. -/
theorem source_eq (h : p.Turn now input r q) (hp : p.Sound) :
    ∀ packet ∈ r.packets, packet.source = p.home := fun packet hpacket ↦
  (h.vouches hp packet hpacket).source_eq.trans (h.later hp).home_eq

theorem peer_eq (h : p.Turn now input r q) (honce : p.Once input) {peer : Endpoint}
    (hpeer : p.peer = some peer) : q.peer = some peer := by
  cases h with
  | mk perform calls =>
    have hmoves := moves_of_perform perform
    exact calls.peer_eq (honce.moves hmoves).waits (honce.peer_eq_of_moves hmoves hpeer)

/-- Without a notice there are no answers. -/
theorem perform_eq (h : p.Turn now input r q)
    (hquiet : ∀ {mid first}, p.perform now input = .ok (mid, first) → first.notices = []) :
    p.perform now input = .ok (q, r) := by
  cases h with
  | mk perform calls quiet =>
    obtain ⟨rfl, rfl⟩ := quiet (hquiet perform)
    rw [Reaction.append_empty]
    exact perform

/-- A party that waits for its first opening has neither had a handshake nor a peer after a turn,
either. -/
theorem waitsFirst (h : p.Turn now input r q) (honce : p.Once input) : q.WaitsFirst := by
  cases h with
  | mk perform calls => exact calls.waitsFirst (honce.moves (moves_of_perform perform)).waits

theorem pumped (h : p.Turn now input r q) (hp : p.Sound) (hpumped : p.Pumped) : q.Pumped := by
  cases h with
  | mk perform calls => exact calls.pumped (hp.perform perform) (hpumped.perform hp perform)

theorem eq_of_fresh (h : p.Turn now input r q) (hfresh : p.Fresh) (hp : p.Sound)
    (hinput : input.opens = false) : q = p := by
  cases h with
  | mk perform calls =>
    obtain ⟨rfl, -, -⟩ := hfresh.eq_of_moves hp (moves_of_perform perform) hinput
    exact calls.eq_of_fresh hfresh hp

/-- A turn that is not due to an alarm adds the alarms that it sets, and they are those that are
needed. -/
theorem watched (h : p.Turn now input r q) (hwatched : p.Watched alarms) (hp : p.Sound)
    (honce : p.Once input) (hinput : ∀ watch, input ≠ .alarm watch) :
    q.Watched (r.alarms.map (Alarm.due now) ++ alarms) := by
  cases h with
  | @mk mid _ first answers perform calls =>
    have hmoves := moves_of_perform perform
    have hmid := hwatched.moves hp honce hmoves hinput
    refine (calls.watched hmid (hp.moves hmoves) (honce.moves hmoves).waits).perm ?_
    rw [Reaction.alarms_append, List.map_append, ← List.append_assoc]
    exact List.perm_append_comm.append_right alarms

end Turn

end Party

end ReliableStream
