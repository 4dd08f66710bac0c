import ReliableStream.Proofs.Party.States
import ReliableStream.Proofs.Settled

/-!
# Replies are expected

A reply, anything but an opening, is only sent by a party that has heard of its peer. So it goes to
a party that has the sender as its peer in turn, which keeps it: `Expected parties wire` says so of
all packets under way. Its use is at the beginning of a handshake. A party that has no peer yet has
no reply under way to it (`Expected.not_isReply`), so what completes the handshake is sent later.
-/

namespace ReliableStream

/-- Whether a packet is sent in reply to another one. -/
def Packet.Kind.isReply : Packet.Kind → Bool
  | .synAck | .ack | .data => true
  | .syn | .fin | .finAck => false

open Party

/-- A reply under way goes to a party that has its sender as its peer. -/
def Expected (parties : List Party) (wire : List Packet) : Prop :=
  ∀ packet ∈ wire, packet.kind.isReply = true →
    ∃ p ∈ parties, p.home = packet.destination ∧ p.peer = some packet.source

namespace Party

/-- A party that replies has heard of its peer, and is established unless it answers an opening. So
after its turn it has the peer that it replied to. -/
theorem Turn.state_of_isReply {now : Nat} {input : Input} {p q : Party} {r : Reaction}
    {packet : Packet} (h : p.Turn now input r q) (hp : p.Sound) (hmem : packet ∈ r.packets)
    (hkind : packet.kind.isReply = true) :
    packet.kind = .synAck ∧ q.state = .synReceived ∨
      (packet.kind = .ack ∨ packet.kind = .data) ∧ q.state = .established := by
  have htransfer := (h.vouches hp packet hmem).transfer
  have hanswer := h.synReceived_of_synAck hmem
  cases hk : packet.kind with
  | synAck => exact .inl ⟨rfl, hanswer hk⟩
  | ack => exact .inr ⟨.inl rfl, (htransfer (.inl hk)).1.1⟩
  | data => exact .inr ⟨.inr rfl, (htransfer (.inr hk)).1.1⟩
  | syn | fin | finAck => exact absurd hkind (by simp [hk, Packet.Kind.isReply])

end Party

namespace Expected

variable {parties : List Party} {wire wire' : List Packet} {now : Nat} {input : Input}
  {p q : Party} {r : Reaction} {i : Nat}

theorem nil : Expected [] [] := fun _ hmem ↦ absurd hmem List.not_mem_nil

/-- Packets may be lost, or arrive: those that stay under way are expected as they were. -/
theorem subset (h : Expected parties wire) (hwire : ∀ packet ∈ wire', packet ∈ wire) :
    Expected parties wire' := fun packet hmem ↦ h packet (hwire packet hmem)

/-- A new party joins. Nobody who was there stops expecting anything. -/
theorem join (h : Expected parties wire) : Expected (parties ++ [p]) wire := by
  intro packet hmem hkind
  obtain ⟨party, hparty, heq⟩ := h packet hmem hkind
  exact ⟨party, List.mem_append_left _ hparty, heq⟩

/-- **One of the parties has its turn.** A reply that it sends is expected, since whoever it goes to
had sent it a packet and so has it as its peer. -/
theorem turn (h : Expected parties wire) (hi : parties[i]? = some p) (hp : p.Sound)
    (honce : p.Once input) (hturn : p.Turn now input r q)
    (hsettled : Settled (parties.set i q) wire')
    (hwire : ∀ packet ∈ wire', packet ∈ wire ∨ packet ∈ r.packets) :
    Expected (parties.set i q) wire' := by
  obtain ⟨hlt, -⟩ := List.getElem?_eq_some_iff.1 hi
  have hq : q ∈ parties.set i q := List.mem_set hlt q
  intro packet hmem hkind
  rcases hwire packet hmem with hold | hnew
  · -- Whom it goes to has kept its peer.
    obtain ⟨party, hparty, hhome, hpeer⟩ := h packet hold hkind
    obtain ⟨j, hj⟩ := List.getElem?_of_mem hparty
    rcases cases_of_replace hi hj q with ⟨-, rfl, -⟩ | ⟨-, hstill⟩
    · exact ⟨q, hq, (hturn.later hp).home_eq.trans hhome, hturn.peer_eq honce hpeer⟩
    · exact ⟨party, List.mem_of_getElem? hstill, hhome, hpeer⟩
  · have hsource : packet.source = q.home := (hturn.vouches hp packet hnew).source_eq
    have hstate : q.state = .synReceived ∨ q.state = .established :=
      (hturn.state_of_isReply hp hnew hkind).imp And.right And.right
    obtain ⟨peer, hpeer, hsome⟩ := hsettled.coherent.met q hq hstate
    have hhome : some peer.home = some packet.destination :=
      hsome.symm.trans (hsettled.faithful packet hmem q hq hsource)
    refine ⟨peer, hpeer, Option.some.inj hhome, ?_⟩
    rw [hsource]
    exact hsettled.reciprocal q hq hstate peer hpeer hsome

/-- No reply is under way to a party that has no peer yet. -/
theorem not_isReply (h : Expected parties wire) (hnodup : (parties.map (·.home)).Nodup)
    (hp : p ∈ parties) (hpeer : p.peer = none) {packet : Packet} (hmem : packet ∈ wire)
    (hdestination : packet.destination = p.home) : packet.kind.isReply = false := by
  refine Bool.eq_false_iff.2 fun hkind ↦ ?_
  obtain ⟨party, hparty, hhome, hsome⟩ := h packet hmem hkind
  obtain rfl := List.inj_on_of_nodup_map hnodup hparty hp (hhome.trans hdestination)
  exact absurd (hpeer.symm.trans hsome) (by simp)

end Expected

end ReliableStream
