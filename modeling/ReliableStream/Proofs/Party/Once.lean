import ReliableStream.Proofs.Party.Sound

/-!
# Parties that are opened once

An owner who asks its party only once to connect or to listen has a party of a simpler kind: it is
`Fresh` until then, it has no peer while it waits, and a peer that it got it keeps. In general
neither holds, since a handshake that failed may be begun anew with somebody else.

A scenario opens each of its parties once. The theorems on links do not ask for it, and so cover
owners who open a party again and again.
-/

namespace ReliableStream

/-- Whether an input is a call that opens. -/
def Input.opens : Input → Bool
  | .connect _ | .listen => true
  | .send _ | .read | .packet _ | .alarm _ => false

theorem Input.ne_of_opens {input : Input} (h : input.opens = true) :
    (∀ watch, input ≠ .alarm watch) ∧ ∀ packet, input ≠ .packet packet := by
  refine ⟨?_, ?_⟩
  · rintro watch rfl
    exact absurd h (by simp [opens])
  · rintro packet rfl
    exact absurd h (by simp [opens])

namespace Party

variable {now : Nat} {input : Input} {p q : Party} {r : Reaction}

/-- The party was never opened. -/
structure Fresh (p : Party) : Prop where
  /-- It is closed. -/
  state_eq : p.state = .closed
  /-- There was no handshake. -/
  attempt_eq : p.attempt = 0
  /-- It has no peer. -/
  peer_eq : p.peer = none

/-- While it waits for an opening, the party has neither had a handshake nor a peer. -/
def WaitsFirst (p : Party) : Prop := p.state = .listening → p.attempt = 0 ∧ p.peer = none

/-- A party that was never opened has neither had a handshake nor a peer. -/
theorem Fresh.waitsFirst (h : p.Fresh) : p.WaitsFirst := fun _ ↦ ⟨h.attempt_eq, h.peer_eq⟩

theorem fresh_create {home : Endpoint} {settings : Connection.Settings} {valid : settings.Valid}
    {isn : Nat} : (create home settings valid isn).Fresh :=
  ⟨rfl, rfl, rfl⟩

/-- Nothing happens to a party that was never opened, whatever reaches it. -/
theorem Fresh.eq_of_move (h : p.Fresh) (hp : p.Sound) (hmove : Move now input p r q)
    (hinput : input.opens = false) : q = p ∧ r.packets = [] ∧ r.alarms = [] := by
  have hstate := h.state_eq
  cases hmove with
  | idle => exact ⟨rfl, rfl, rfl⟩
  | connect | listen => exact absurd hinput (by simp [Input.opens])
  | resend _ hmem => exact absurd (hp.established_of_mem hmem) (by simp [hstate])
  | giveUp hs => rcases hs with hs | hs <;> exact absurd (hstate.symm.trans hs) (by simp)
  | accept _ hs | answer _ hs | opened _ hs | complete _ hs | acknowledge _ hs | acknowledged _ hs
    | store _ hs | deliver _ hs | hand hs | send hs | retryOpening hs | retryAnswer hs | read hs =>
    exact absurd (hstate.symm.trans hs) (by simp)

theorem Fresh.eq_of_moves (h : p.Fresh) (hp : p.Sound) (hmoves : Moves now input p r q)
    (hinput : input.opens = false) : q = p ∧ r.packets = [] ∧ r.alarms = [] := by
  induction hmoves with
  | none => exact ⟨rfl, rfl, rfl⟩
  | cons first _ ih =>
    obtain ⟨rfl, hpackets, halarms⟩ := h.eq_of_move hp first hinput
    obtain ⟨rfl, hpackets', halarms'⟩ := ih h hp
    refine ⟨rfl, ?_, ?_⟩
    · rw [Reaction.packets_append, hpackets, hpackets']
      rfl
    · rw [Reaction.alarms_append, halarms, halarms']
      rfl

/-- An owner who opens a party does so once. -/
structure Once (input : Input) (p : Party) : Prop where
  /-- What is opened was never opened before. -/
  fresh : input.opens = true → p.state = .closed → p.Fresh
  /-- What waits was never opened before either. -/
  waits : p.WaitsFirst

/-- All other inputs may come at any time. -/
theorem WaitsFirst.once (h : p.WaitsFirst) (hinput : input.opens = false) : p.Once input :=
  ⟨fun hopens ↦ absurd (hinput.symm.trans hopens) (by simp), h⟩

theorem Fresh.once (h : p.Fresh) : p.Once input := ⟨fun _ _ ↦ h, h.waitsFirst⟩

/-- An owner who opened a party once has still opened it once after any move. -/
theorem Once.move (h : p.Once input) (hmove : Move now input p r q) : q.Once input := by
  cases hmove with
  | idle | answer | acknowledge | retryOpening | retryAnswer | acknowledged | store | deliver |
    hand | send | resend | read =>
    exact { h with fresh := fun hopens hs ↦ { h.fresh hopens hs with } }
  | connect => exact ⟨fun _ hs ↦ absurd hs (by simp), fun hs ↦ absurd hs (by simp)⟩
  | listen hstate =>
    have hattempt := (h.fresh rfl hstate).attempt_eq
    exact ⟨fun _ hs ↦ absurd hs (by simp), fun _ ↦ ⟨hattempt, rfl⟩⟩
  | accept | opened | complete =>
    exact ⟨fun _ hs ↦ absurd hs (by simp), fun hs ↦ absurd hs (by simp)⟩
  | giveUp =>
    exact ⟨fun hopens ↦ absurd hopens (by simp [Input.opens]), fun hs ↦ absurd hs (by simp)⟩

theorem Once.moves (h : p.Once input) (hmoves : Moves now input p r q) : q.Once input :=
  hmoves.preserves Once.move h

/-- A peer is kept. -/
theorem Once.peer_eq_of_move (h : p.Once input) (hmove : Move now input p r q) {peer : Endpoint}
    (hpeer : p.peer = some peer) : q.peer = some peer := by
  cases hmove with
  | idle | answer | acknowledge | retryOpening | retryAnswer | acknowledged | store | deliver |
    hand | send | resend | read | opened | complete | giveUp => exact hpeer
  | connect hstate | listen hstate =>
    exact absurd ((h.fresh rfl hstate).peer_eq.symm.trans hpeer) (by simp)
  | accept _ hstate => exact absurd ((h.waits hstate).2.symm.trans hpeer) (by simp)

theorem Once.peer_eq_of_moves (h : p.Once input) (hmoves : Moves now input p r q) {peer : Endpoint}
    (hpeer : p.peer = some peer) : q.peer = some peer := by
  induction hmoves with
  | none => exact hpeer
  | cons first _ ih => exact ih (h.move first) (h.peer_eq_of_move first hpeer)

/-- Whatever a party sends goes to its peer. -/
theorem Move.destination_eq (hmove : Move now input p r q) :
    ∀ packet ∈ r.packets, q.peer = some packet.destination := by
  intro packet hpacket
  cases hmove with
  | idle | listen | complete | acknowledged | hand | giveUp | read =>
    exact absurd hpacket List.not_mem_nil
  | connect | accept =>
    obtain rfl := List.mem_singleton.1 hpacket
    rfl
  | answer | retryOpening | retryAnswer | acknowledge =>
    obtain ⟨peer, hmem, rfl⟩ := List.mem_map.1 hpacket
    exact Option.mem_toList.1 hmem
  | opened _ _ hpeer | store _ _ hpeer | deliver _ _ hpeer | send _ hpeer | resend hpeer =>
    obtain rfl := List.mem_singleton.1 hpacket
    exact hpeer

/-- Whatever a party sends goes to the peer that it has in the end. -/
theorem Once.destination_eq (h : p.Once input) (hmoves : Moves now input p r q) :
    ∀ packet ∈ r.packets, q.peer = some packet.destination := by
  induction hmoves with
  | none => exact fun packet hpacket ↦ absurd hpacket List.not_mem_nil
  | cons first rest ih =>
    intro packet hpacket
    rw [Reaction.packets_append] at hpacket
    rcases List.mem_append.1 hpacket with hfirst | hrest
    · exact (h.move first).peer_eq_of_moves rest (first.destination_eq packet hfirst)
    · exact ih (h.move first) packet hrest

end Party

end ReliableStream
