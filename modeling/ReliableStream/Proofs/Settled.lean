import ReliableStream.Proofs.Coherent
import ReliableStream.Proofs.Party.Turn

/-!
# Parties that keep their peers

If every party is opened once then a peer, once known, stays the same. So whatever is under way goes
to the present peer of its sender, and a party that has heard of its peer is the peer of its peer:
two parties that talk to each other talk to nobody else. `Settled parties wire` is `Coherent` with
these two facts, and kept in the same way, when a party has its turn (`Settled.turn`) and when a new
one joins (`Settled.join`).

A peer can change only where an opening is got or a handshake is begun. If each happens once, what
was known is still known, and both facts are carried through a move by cases on which of the two
parties that they speak of has moved.
-/

namespace ReliableStream

open Party

/-- What holds of parties that keep their peers, and of the packets under way between them. -/
structure Settled (parties : List Party) (wire : List Packet) : Prop where
  /-- They are coherent. -/
  coherent : Coherent parties wire
  /-- A packet goes to the peer of its sender. -/
  faithful : ∀ packet ∈ wire, ∀ p ∈ parties, packet.source = p.home →
    p.peer = some packet.destination
  /-- A party that has heard of its peer is the peer of its peer. -/
  reciprocal : ∀ p ∈ parties, p.state = .synReceived ∨ p.state = .established →
    ∀ peer ∈ parties, p.peer = some peer.home → peer.peer = some p.home

namespace Settled

variable {parties : List Party} {wire wire' : List Packet} {now : Nat} {input : Input}
  {p q : Party} {r : Reaction} {i : Nat}

theorem nil : Settled [] [] where
  coherent := .nil
  faithful _ h := absurd h List.not_mem_nil
  reciprocal _ h := absurd h List.not_mem_nil

/-- Packets may be lost: the facts are about those that are under way. -/
theorem subset (h : Settled parties wire) (hwire : ∀ packet ∈ wire', packet ∈ wire) :
    Settled parties wire' where
  coherent := { h.coherent with
    vouched := fun packet hmem ↦ h.coherent.vouched packet (hwire packet hmem) }
  faithful packet hmem := h.faithful packet (hwire packet hmem)
  reciprocal := h.reciprocal

/-- **One of the parties moves.** A party that hears of somebody by a packet is the peer of whoever
sent it, because what is under way goes to the peer of its sender. -/
theorem move (h : Settled parties wire) (hi : parties[i]? = some p) (honce : p.Once input)
    (hmoves : Moves now input p r q)
    (hinput : ∀ packet, input = .packet packet → packet ∈ wire ∧ packet.destination = p.home) :
    Settled (parties.set i q) (wire ++ r.packets) := by
  have hmem : p ∈ parties := List.mem_of_getElem? hi
  have hp : p.Sound := h.coherent.sound p hmem
  have hhome : q.home = p.home := (hmoves.later hp).home_eq
  obtain ⟨hlt, -⟩ := List.getElem?_eq_some_iff.1 hi
  have hcoherent := h.coherent.move hi hmoves hinput fun packet ↦ List.mem_append.1
  have hkept {peer : Endpoint} (hpeer : p.peer = some peer) : q.peer = some peer :=
    honce.peer_eq_of_moves hmoves hpeer
  -- Whom it has heard of has it as its peer.
  have hheard (packet : Packet) (heq : input = .packet packet) :
      ∀ party ∈ parties, party.home = packet.source → party.peer = some p.home := by
    intro party hparty hsource
    obtain ⟨hpacket, hdestination⟩ := hinput packet heq
    rw [← hdestination]
    exact h.faithful packet hpacket party hparty hsource.symm
  have hbefore (hstate : p.state = .synReceived ∨ p.state = .established) :
      ∃ peer, (∀ party ∈ parties, party.home = peer → party.peer = some p.home) ∧
        p.peer = some peer := by
    obtain ⟨peer, -, hpeer⟩ := h.coherent.met p hmem hstate
    refine ⟨peer.home, ?_, hpeer⟩
    intro party hparty heq
    exact h.reciprocal p hmem hstate party hparty (hpeer.trans (congrArg some heq.symm))
  refine { coherent := hcoherent, faithful := ?faithful, reciprocal := ?reciprocal }
  case faithful =>
    intro packet hpacket party hparty hsource
    -- The packet was under way before or is sent now, and its sender is the one that moved or
    -- another.
    rcases List.mem_append.1 hpacket with hold | hnew
    · rcases List.mem_or_eq_of_mem_set hparty with hparty' | rfl
      · exact h.faithful packet hold party hparty' hsource
      · exact hkept (h.faithful packet hold p hmem (hsource.trans hhome))
    · have hsource' := (hmoves.vouches hp packet hnew).source_eq
      have hq : q ∈ parties.set i q := List.mem_set hlt q
      obtain rfl := hcoherent.eq_of_home hparty hq (hsource.symm.trans hsource')
      exact honce.destination_eq hmoves packet hnew
  case reciprocal =>
    intro party hparty hstate peer hpeer hsome
    -- Each of the two may be the one that moved.
    rcases List.mem_or_eq_of_mem_set hparty with hparty' | rfl
    · rcases List.mem_or_eq_of_mem_set hpeer with hpeer' | rfl
      · exact h.reciprocal party hparty' hstate peer hpeer' hsome
      · exact hkept (h.reciprocal party hparty' hstate p hmem (hsome.trans (congrArg some hhome)))
    · obtain ⟨place, hall, hplace⟩ := hmoves.met hheard hbefore hstate
      obtain rfl : peer.home = place := Option.some.inj (hsome.symm.trans hplace)
      rw [hhome]
      rcases List.mem_or_eq_of_mem_set hpeer with hpeer' | rfl
      · exact hall peer hpeer' rfl
      · exact hkept (hall p hmem hhome.symm)

/-- The owner of one of them asks it for transfers. These are no openings, so they begin nothing a
second time. -/
theorem calls (h : Settled parties wire) (hi : parties[i]? = some p) (hwaits : p.WaitsFirst)
    (hcalls : Calls now p r q) : Settled (parties.set i q) (wire ++ r.packets) := by
  induction hcalls generalizing parties wire with
  | none p =>
    obtain ⟨hlt, rfl⟩ := List.getElem?_eq_some_iff.1 hi
    rw [List.set_getElem_self]
    simpa using h
  | @cons _ p mid _ _ _ hinput first _ ih =>
    have hmoves := moves_of_perform first
    have honce := hwaits.once (Input.opens_of_transfers hinput)
    have hmid := h.move hi honce hmoves fun packet heq ↦
      absurd heq ((Input.ne_of_transfers hinput).2 packet)
    obtain ⟨hlt, -⟩ := List.getElem?_eq_some_iff.1 hi
    have hrest := ih hmid (List.getElem?_set_self hlt) (honce.moves hmoves).waits
    rwa [List.set_set, List.append_assoc, ← Reaction.packets_append] at hrest

/-- **One of the parties has its turn**: the input, and then what its owner asks for. -/
theorem turn (h : Settled parties wire) (hi : parties[i]? = some p) (honce : p.Once input)
    (hturn : p.Turn now input r q)
    (hinput : ∀ packet, input = .packet packet → packet ∈ wire ∧ packet.destination = p.home) :
    Settled (parties.set i q) (wire ++ r.packets) := by
  cases hturn with
  | mk perform calls =>
    have hmoves := moves_of_perform perform
    obtain ⟨hlt, -⟩ := List.getElem?_eq_some_iff.1 hi
    have hmid := h.move hi honce hmoves hinput
    have hrest := hmid.calls (List.getElem?_set_self hlt) (honce.moves hmoves).waits calls
    rwa [List.set_set, List.append_assoc, ← Reaction.packets_append] at hrest

/-- A new party joins, somewhere else than the others. It has no peer, and nothing under way comes
from it. -/
theorem join (h : Settled parties wire) {home : Endpoint} {settings : Connection.Settings}
    {valid : settings.Valid} {isn : Nat} (hhome : home ∉ parties.map (·.home))
    (hisn : isn < maxWord) : Settled (parties ++ [create home settings valid isn]) wire where
  coherent := h.coherent.join hhome hisn
  faithful packet hpacket p hp hsource := by
    rcases List.mem_append.1 hp with hp | hp
    · exact h.faithful packet hpacket p hp hsource
    · -- It has sent nothing yet.
      obtain rfl := List.mem_singleton.1 hp
      obtain ⟨sender, hsender, hvouches⟩ := h.coherent.vouched packet hpacket
      have heq : sender.home = home := hvouches.source_eq.symm.trans hsource
      exact absurd (heq ▸ List.mem_map_of_mem hsender) hhome
  reciprocal p hp hstate peer hpeer hsome := by
    rcases List.mem_append.1 hp with hp | hp
    · rcases List.mem_append.1 hpeer with hpeer | hpeer
      · exact h.reciprocal p hp hstate peer hpeer hsome
      · -- Nobody has heard of it yet.
        obtain rfl := List.mem_singleton.1 hpeer
        obtain ⟨met, hmet, hsome'⟩ := h.coherent.met p hp hstate
        have heq : met.home = home := Option.some.inj (hsome'.symm.trans hsome)
        exact absurd (heq ▸ List.mem_map_of_mem hmet) hhome
    · obtain rfl := List.mem_singleton.1 hp
      rcases hstate with hs | hs <;> exact absurd hs (by simp [create])

end Settled

end ReliableStream
