import Mathlib.Data.List.Nodup
import ReliableStream.Proofs.Party.Knows

/-!
# Parties and the packets between them

Any number of parties at different places, and any number of packets that some of them sent. Nothing
is said of how packets travel: a packet under way may arrive, again and again or never.

`Coherent parties wire` is what holds of them together. Each party is sound, each packet is one that
its sender answers for, and a party that is past the first half of a handshake knows its peer. It is
kept when one of the parties moves (`Coherent.move`), as long as nothing arrives that was not under
way, and when a new party joins (`Coherent.join`). What is said of two ends of one connection, and
of a whole simulation, rests on these two.

The difficulty is that all of this has to be kept at once. A party that moves gets something from a
packet, which its sender answers for as it was when it sent it, and meanwhile the sender may have
moved on. So a party after a move is always compared with its peer as a *later* party, and whatever
was known stays known of later ones.
-/

namespace ReliableStream

open Party

/-! ### Different places

What is at different places is a list in which no place is repeated. The lemmas are of lists of
anything that has one, since they serve for parties as well as for the hosts of a simulation. The
first ones say who is found after one of a list was replaced or one more came, which is all that
ever happens to either list.
-/

section Places

variable {α β : Type} {place : α → β} {l : List α} {a b c : α} {i j : Nat}

/-- Whoever is found after one was replaced is the new one, or was found there before. -/
theorem cases_of_getElem?_set (h : (l.set i b)[j]? = some c) :
    i = j ∧ c = b ∨ i ≠ j ∧ l[j]? = some c := by
  by_cases hij : i = j
  · subst hij
    obtain ⟨hlt, rfl⟩ := List.getElem?_eq_some_iff.1 h
    exact .inl ⟨rfl, List.getElem_set_self ..⟩
  · rw [List.getElem?_set_ne hij] at h
    exact .inr ⟨hij, h⟩

/-- Whoever is found before one is replaced is this one, or is found there afterwards. -/
theorem cases_of_replace (hi : l[i]? = some a) (hj : l[j]? = some c) (b : α) :
    i = j ∧ c = a ∧ (l.set i b)[j]? = some b ∨ i ≠ j ∧ (l.set i b)[j]? = some c := by
  by_cases hij : i = j
  · subst hij
    obtain ⟨hlt, -⟩ := List.getElem?_eq_some_iff.1 hi
    exact .inl ⟨rfl, Option.some.inj (hj.symm.trans hi), List.getElem?_set_self hlt⟩
  · exact .inr ⟨hij, (List.getElem?_set_ne hij).trans hj⟩

/-- Whoever is found after one more came is the new one at the end, or was found there before. -/
theorem cases_of_getElem?_concat (h : (l ++ [a])[j]? = some c) :
    l[j]? = some c ∨ j = l.length ∧ c = a := by
  obtain ⟨hle, -⟩ := List.getElem?_eq_some_iff.1 h
  rw [List.length_append, List.length_singleton] at hle
  rcases Nat.lt_or_eq_of_le (Nat.le_of_lt_succ hle) with hlt | rfl
  · rw [List.getElem?_append_left hlt] at h
    exact .inl h
  · rw [List.getElem?_concat_length] at h
    exact .inr ⟨rfl, (Option.some.inj h).symm⟩

/-- Whoever is at the same place is the same one. -/
theorem index_eq_of_place_eq (hnodup : (l.map place).Nodup) (hi : l[i]? = some a)
    (hj : l[j]? = some b) (heq : place a = place b) : i = j := by
  obtain ⟨hlt, -⟩ := List.getElem?_eq_some_iff.1 hi
  have hlt' : i < (l.map place).length := by rwa [List.length_map]
  refine (List.getElem?_inj hlt' hnodup).1 ?_
  rw [List.getElem?_map, List.getElem?_map, hi, hj, Option.map_some, Option.map_some, heq]

/-- If one is replaced by another one at the same place then all places are as they were. -/
theorem map_place_set (hi : l[i]? = some a) (hplace : place b = place a) :
    (l.set i b).map place = l.map place := by
  obtain ⟨hlt, rfl⟩ := List.getElem?_eq_some_iff.1 hi
  have hlt' : i < (l.map place).length := by rwa [List.length_map]
  have hget : (l.map place)[i] = place l[i] := List.getElem_map ..
  rw [List.map_set, hplace, ← hget, List.set_getElem_self]

/-- If all are at different places with a new one then so were they before, and it is somewhere
else. -/
theorem places_of_concat (hnodup : ((l ++ [a]).map place).Nodup) :
    (l.map place).Nodup ∧ place a ∉ l.map place := by
  rw [List.map_append] at hnodup
  obtain ⟨hold, -, hdisjoint⟩ := List.nodup_append.1 hnodup
  exact ⟨hold, fun hmem ↦ hdisjoint _ hmem _ (List.mem_singleton.2 rfl) rfl⟩

end Places

/-- What holds of parties and of the packets under way between them. -/
structure Coherent (parties : List Party) (wire : List Packet) : Prop where
  /-- No two parties are at the same place. -/
  nodup : (parties.map (·.home)).Nodup
  /-- Each of them is sound. -/
  sound : ∀ p ∈ parties, p.Sound
  /-- Each packet was sent by one of them. -/
  vouched : ∀ packet ∈ wire, ∃ p ∈ parties, p.Vouches packet
  /-- Each of them knows its peer. -/
  knows : ∀ p ∈ parties, ∀ peer ∈ parties, p.peer = some peer.home → p.Knows peer
  /-- A party that has heard of its peer has one. -/
  met : ∀ p ∈ parties, p.state = .synReceived ∨ p.state = .established →
    ∃ peer ∈ parties, p.peer = some peer.home

namespace Party

/-- A party is past the first half of a handshake only if it has got a packet, and then its peer is
where that packet came from. -/
theorem Move.met {now : Nat} {input : Input} {p q : Party} {r : Reaction}
    (hmove : Move now input p r q) {peers : Endpoint → Prop}
    (hinput : ∀ packet, input = .packet packet → peers packet.source)
    (h : p.state = .synReceived ∨ p.state = .established →
      ∃ peer, peers peer ∧ p.peer = some peer) :
    q.state = .synReceived ∨ q.state = .established →
      ∃ peer, peers peer ∧ q.peer = some peer := by
  intro hq
  cases hmove with
  | idle | answer | acknowledge | retryOpening | retryAnswer | acknowledged | store | deliver |
    hand | send | resend | read => exact h hq
  | connect | listen | giveUp => rcases hq with hq | hq <;> exact absurd hq (by simp)
  | @accept packet => exact ⟨packet.source, hinput packet rfl, rfl⟩
  | @opened packet _ _ hkind hstate hpeer => exact ⟨packet.source, hinput packet rfl, hpeer⟩
  | complete hkind hstate => exact h (.inl hstate)

theorem Moves.met {now : Nat} {input : Input} {p q : Party} {r : Reaction}
    (hmoves : Moves now input p r q) {peers : Endpoint → Prop}
    (hinput : ∀ packet, input = .packet packet → peers packet.source)
    (h : p.state = .synReceived ∨ p.state = .established →
      ∃ peer, peers peer ∧ p.peer = some peer) :
    q.state = .synReceived ∨ q.state = .established →
      ∃ peer, peers peer ∧ q.peer = some peer :=
  hmoves.preserves (P := fun t ↦ t.state = .synReceived ∨ t.state = .established →
    ∃ peer, peers peer ∧ t.peer = some peer) (fun ht hmove ↦ hmove.met hinput ht) h

end Party

namespace Coherent

variable {parties : List Party} {wire wire' : List Packet} {now : Nat} {input : Input}
  {p q : Party} {r : Reaction} {i : Nat}

/-- A party is known by its place, since no two are at the same one. -/
theorem eq_of_home (h : Coherent parties wire) {peer peer' : Party} (hpeer : peer ∈ parties)
    (hpeer' : peer' ∈ parties) (heq : peer.home = peer'.home) : peer = peer' :=
  List.inj_on_of_nodup_map h.nodup hpeer hpeer' heq

/-- Whoever is there after a party moved is there before, as an earlier party. -/
theorem exists_earlier (hi : parties[i]? = some p) (hlater : p.Later q) {peer : Party}
    (hpeer : peer ∈ parties.set i q) : ∃ earlier ∈ parties, earlier.Later peer := by
  rcases List.mem_or_eq_of_mem_set hpeer with hmem | rfl
  · exact ⟨peer, hmem, .refl peer⟩
  · exact ⟨p, List.mem_of_getElem? hi, hlater⟩

/-- Whoever is there before is there afterwards, as a later party. -/
theorem exists_later (hi : parties[i]? = some p) (hlater : p.Later q) {peer : Party}
    (hpeer : peer ∈ parties) : ∃ later ∈ parties.set i q, peer.Later later := by
  obtain ⟨j, hj⟩ := List.getElem?_of_mem hpeer
  rcases cases_of_replace hi hj q with ⟨-, rfl, hq⟩ | ⟨-, hstill⟩
  · exact ⟨q, List.mem_of_getElem? hq, hlater⟩
  · exact ⟨peer, List.mem_of_getElem? hstill, .refl peer⟩

/-- Nobody changes places by moving. -/
theorem map_home_set (hi : parties[i]? = some p) (hlater : p.Later q) :
    (parties.set i q).map (·.home) = parties.map (·.home) :=
  map_place_set hi hlater.home_eq

/-- The sender of a packet under way that comes from where a party is, is this party. -/
theorem vouches_of_source (h : Coherent parties wire) {packet : Packet} (hpacket : packet ∈ wire)
    {peer : Party} (hpeer : peer ∈ parties) (hsource : packet.source = peer.home) :
    peer.Vouches packet := by
  obtain ⟨sender, hsender, hvouches⟩ := h.vouched packet hpacket
  obtain rfl := h.eq_of_home hsender hpeer (hvouches.source_eq.symm.trans hsource)
  exact hvouches

/-- How far a party is with the stream of another one, in pieces, if each has the other one as its
peer once it is established: it has got so many, and no more are acknowledged. -/
theorem exists_follows (h : Coherent parties wire) {sender receiver : Party}
    (hsender : sender ∈ parties) (hreceiver : receiver ∈ parties)
    (hto : sender.state = .established → sender.peer = some receiver.home)
    (hfrom : receiver.state = .established → receiver.peer = some sender.home) :
    ∃ i, receiver.heard = (sender.pieces.take i).flatten ∧
      (receiver.state ≠ .established → i = 0) ∧
      (receiver.state = .established → receiver.edge = sender.cutAt i) ∧
      sender.sendBase ≤ sender.cutAt i := by
  have hp : sender.Sound := h.sound sender hsender
  have hq : receiver.Sound := h.sound receiver hreceiver
  -- Nothing is acknowledged but what the receiver has got.
  have hbase : sender.sendBase ≤ sender.firstByte ∨
      receiver.state = .established ∧ sender.sendBase ≤ receiver.edge := by
    by_cases hstate : sender.state = .established
    · have hknows := h.knows sender hsender receiver hreceiver (hto hstate)
      exact (hknows.acked hstate).imp_right fun hacked ↦ ⟨hacked.1.1, hacked.2⟩
    · rw [(hp.blank hstate).base_eq, hp.firstByte_eq]
      exact .inl (Nat.le_succ _)
  by_cases hstate : receiver.state = .established
  · have hknows := h.knows receiver hreceiver sender hsender (hfrom hstate)
    obtain ⟨i, hfollows⟩ := hknows.follows hstate
    refine ⟨i, hfollows.heard_eq, fun hne ↦ absurd hstate hne, fun _ ↦ hfollows.edge_eq, ?_⟩
    rcases hbase with hfirst | ⟨-, hedge⟩
    · exact Nat.le_trans hfirst (start_le_cut i)
    · exact Nat.le_trans hedge (Nat.le_of_eq hfollows.edge_eq)
  · refine ⟨0, (hq.blank hstate).heard_eq, fun _ ↦ rfl, fun hyes ↦ absurd hyes hstate, ?_⟩
    rcases hbase with hfirst | ⟨hyes, -⟩
    · exact Nat.le_trans hfirst (start_le_cut 0)
    · exact absurd hyes hstate

/-- **What a party has got is the beginning of the stream of its peer.** It has a peer at all, since
otherwise it would have got nothing. -/
theorem exists_heard_prefix (h : Coherent parties wire) (hp : p ∈ parties) (hne : p.heard ≠ []) :
    ∃ peer ∈ parties, p.peer = some peer.home ∧ p.heard <+: peer.stream := by
  have hstate : p.state = .established := by
    by_contra hstate
    exact hne ((h.sound p hp).blank hstate).heard_eq
  obtain ⟨peer, hpeer, hsome⟩ := h.met p hp (.inr hstate)
  obtain ⟨i, hfollows⟩ := (h.knows p hp peer hpeer hsome).follows hstate
  refine ⟨peer, hpeer, hsome, ?_⟩
  rw [hfollows.heard_eq, Party.flatten_take_pieces]
  exact List.take_prefix ..

/-- If everything is acknowledged that a party was handed, then its peer has got all of it. What is
acknowledged is a beginning of the stream that the peer has got, and it is all of the stream. -/
theorem heard_eq_stream (h : Coherent parties wire) {sender receiver : Party}
    (hsender : sender ∈ parties) (hreceiver : receiver ∈ parties)
    (hstate : sender.state = .established) (hto : sender.peer = some receiver.home)
    (hfrom : receiver.state = .established → receiver.peer = some sender.home)
    (hall : sender.allAcknowledged = true) : receiver.heard = sender.stream := by
  obtain ⟨-, acked, sent, hsends⟩ := (h.sound sender hsender).sends hstate
  obtain ⟨i, hheard, -, -, hbase⟩ := h.exists_follows hsender hreceiver (fun _ ↦ hto) hfrom
  have hacked := hsends.acked_le_of_base_le hbase
  have hlength := hsends.acked_add_outstanding
  rw [outstanding_eq_zero_iff.2 hall] at hlength
  rw [hheard, List.take_of_length_le (by omega), Party.flatten_pieces]

/-- What a party that moves knows of someone as they were before: what it is given of theirs, they
vouch for. -/
theorem knows_of_moves (h : Coherent parties wire) (hp : p ∈ parties)
    (hmoves : Moves now input p r q)
    (hinput : ∀ packet, input = .packet packet → packet ∈ wire ∧ packet.destination = p.home) :
    ∀ peer ∈ parties, q.peer = some peer.home → q.Knows peer := by
  intro peer hpeer hq
  refine Knows.moves hmoves (h.sound p hp) (h.sound peer hpeer) (fun packet heq hsource ↦ ?_)
    (h.knows p hp peer hpeer) hq
  obtain ⟨hpacket, hdestination⟩ := hinput packet heq
  exact ⟨h.vouches_of_source hpacket hpeer hsource, hdestination⟩

/-- A party that moves and is in a handshake or past it has heard of somebody who is there: of
whoever sent the packet that made it so. -/
theorem met_of_moves (h : Coherent parties wire) (hp : p ∈ parties)
    (hmoves : Moves now input p r q)
    (hinput : ∀ packet, input = .packet packet → packet ∈ wire)
    (hstate : q.state = .synReceived ∨ q.state = .established) :
    ∃ peer ∈ parties, q.peer = some peer.home := by
  have hsource (packet : Packet) (heq : input = .packet packet) :
      ∃ peer ∈ parties, peer.home = packet.source := by
    obtain ⟨sender, hsender, hvouches⟩ := h.vouched packet (hinput packet heq)
    exact ⟨sender, hsender, hvouches.source_eq.symm⟩
  have hbefore (hp' : p.state = .synReceived ∨ p.state = .established) :
      ∃ place, (∃ peer ∈ parties, peer.home = place) ∧ p.peer = some place := by
    obtain ⟨peer, hpeer, hsome⟩ := h.met p hp hp'
    exact ⟨peer.home, ⟨peer, hpeer, rfl⟩, hsome⟩
  obtain ⟨-, ⟨peer, hpeer, rfl⟩, hsome⟩ := hmoves.met hsource hbefore hstate
  exact ⟨peer, hpeer, hsome⟩

/-- **One of the parties moves.** It may be given any packet that was under way, and what it sends
may be under way from then on. -/
theorem move (h : Coherent parties wire) (hi : parties[i]? = some p)
    (hmoves : Moves now input p r q)
    (hinput : ∀ packet, input = .packet packet → packet ∈ wire ∧ packet.destination = p.home)
    (hwire : ∀ packet ∈ wire', packet ∈ wire ∨ packet ∈ r.packets) :
    Coherent (parties.set i q) wire' := by
  have hmem : p ∈ parties := List.mem_of_getElem? hi
  have hp : p.Sound := h.sound p hmem
  have hlater : p.Later q := hmoves.later hp
  obtain ⟨hlt, -⟩ := List.getElem?_eq_some_iff.1 hi
  refine { nodup := ?nodup, sound := ?sound, vouched := ?vouched, knows := ?knows, met := ?met }
  case nodup =>
    rw [map_home_set hi hlater]
    exact h.nodup
  case sound =>
    intro party hparty
    rcases List.mem_or_eq_of_mem_set hparty with hold | rfl
    · exact h.sound party hold
    · exact hp.moves hmoves
  case vouched =>
    intro packet hpacket
    rcases hwire packet hpacket with hold | hnew
    · obtain ⟨sender, hsender, hvouches⟩ := h.vouched packet hold
      obtain ⟨sender', hsender', hlater'⟩ := exists_later hi hlater hsender
      exact ⟨sender', hsender', hvouches.later hlater'⟩
    · exact ⟨q, List.mem_set hlt q, hmoves.vouches hp packet hnew⟩
  case knows =>
    intro party hparty peer hpeer hsome
    obtain ⟨peer', hpeer', hlater'⟩ := exists_earlier hi hlater hpeer
    rw [hlater'.home_eq] at hsome
    rcases List.mem_or_eq_of_mem_set hparty with hold | rfl
    · exact (h.knows party hold peer' hpeer' hsome).later hlater'
    · exact (h.knows_of_moves hmem hmoves hinput peer' hpeer' hsome).later hlater'
  case met =>
    intro party hparty hstate
    have hpeer : ∃ peer ∈ parties, party.peer = some peer.home := by
      rcases List.mem_or_eq_of_mem_set hparty with hold | rfl
      · exact h.met party hold hstate
      · exact h.met_of_moves hmem hmoves (fun packet heq ↦ (hinput packet heq).1) hstate
    obtain ⟨peer, hold, hsome⟩ := hpeer
    obtain ⟨peer', hpeer', hlater'⟩ := exists_later hi hlater hold
    exact ⟨peer', hpeer', hsome.trans (congrArg some hlater'.home_eq.symm)⟩

/-- At the beginning there is nobody. -/
theorem nil : Coherent [] [] where
  nodup := List.nodup_nil
  sound _ h := absurd h List.not_mem_nil
  vouched _ h := absurd h List.not_mem_nil
  knows _ h := absurd h List.not_mem_nil
  met _ h := absurd h List.not_mem_nil

/-- A new party joins, somewhere else than the others. It knows nobody yet, and nobody can have
heard of it. -/
theorem join (h : Coherent parties wire) {home : Endpoint} {settings : Connection.Settings}
    {valid : settings.Valid} {isn : Nat} (hhome : home ∉ parties.map (·.home))
    (hisn : isn < maxWord) : Coherent (parties ++ [create home settings valid isn]) wire where
  nodup := by
    rw [List.map_append]
    refine List.Nodup.append h.nodup (List.nodup_singleton _) ?_
    intro place hmem hnew
    obtain rfl : place = home := List.mem_singleton.1 hnew
    exact hhome hmem
  sound p hp := by
    rcases List.mem_append.1 hp with hp | hp
    · exact h.sound p hp
    · obtain rfl := List.mem_singleton.1 hp
      exact sound_create hisn
  vouched packet hpacket := by
    obtain ⟨p, hp, hvouches⟩ := h.vouched packet hpacket
    exact ⟨p, List.mem_append_left _ hp, hvouches⟩
  knows p hp peer hpeer hsome := by
    rcases List.mem_append.1 hp with hp | hp
    · rcases List.mem_append.1 hpeer with hpeer | hpeer
      · exact h.knows p hp peer hpeer hsome
      · -- Nobody has heard of the new party yet.
        obtain rfl := List.mem_singleton.1 hpeer
        have hunknown : ¬ (p.state = .synReceived ∨ p.state = .established) := by
          intro hstate
          obtain ⟨met, hmet, hsome'⟩ := h.met p hp hstate
          have hhome' : met.home = home := Option.some.inj (hsome'.symm.trans hsome)
          exact hhome (hhome' ▸ List.mem_map_of_mem hmet)
        exact Knows.of_state (fun hs ↦ hunknown (.inl hs)) (fun hs ↦ hunknown (.inr hs))
    · obtain rfl := List.mem_singleton.1 hp
      exact Knows.of_state (by simp [create]) (by simp [create])
  met p hp hstate := by
    rcases List.mem_append.1 hp with hp | hp
    · obtain ⟨peer, hpeer, hsome⟩ := h.met p hp hstate
      exact ⟨peer, List.mem_append_left _ hpeer, hsome⟩
    · obtain rfl := List.mem_singleton.1 hp
      rcases hstate with hs | hs <;> exact absurd hs (by simp [create])

end Coherent

end ReliableStream
