import ReliableStream.Proofs.Link.Basic

/-!
# Delivery over a link

However packets are lost, repeated and reordered, and however handshakes fail and are begun anew:
what an end has got is at any time the beginning of the stream that the other end was handed, each
byte once and in order. The edge tells how many bytes that are. And the other end still holds all
the rest: it lets go of a byte only when that has been got (`Reachable.heard_eq_take`).

The count is made in pieces first, since segments are sent, stored and acknowledged whole, and only
then in bytes. What ties the two ends together is `Coherent.knows`: the one end is at the same cut
of the stream with everything it has got, and the other end has nothing acknowledged behind that
cut.
-/

namespace ReliableStream

namespace Party

variable {p peer : Party}

/-- What a party holds of its stream: what is in flight, and what is pending. -/
def held (p : Party) : Bytes := (p.inFlight.toList.map (·.payload)).flatten ++ p.pending.flatten

/-! ### What is held -/

/-- Everything is held that is not acknowledged: the pieces in flight and the ones that wait, in
that order. -/
theorem Sends.held_eq {acked sent : Nat} (h : p.Sends acked sent) :
    p.held = (p.pieces.drop acked).flatten := by
  have hpayloads : p.inFlight.toList.map (·.payload) = (p.pieces.take sent).drop acked := by
    have hchunks := congrArg (List.map (·.bytes)) h.inFlight_eq
    rw [List.map_map, List.map_drop, List.map_take, script, map_bytes_layOut] at hchunks
    exact hchunks
  have hsplit : p.pieces.drop acked = (p.pieces.take sent).drop acked ++ p.pieces.drop sent := by
    conv_lhs => rw [← List.take_append_drop sent p.pieces]
    rw [List.drop_append_of_le_length]
    rw [List.length_take, Nat.min_eq_left h.sent_le]
    exact h.acked_le
  rw [held, hpayloads, h.pending_eq, hsplit, List.flatten_append]

/-- No piece is let go of after the last place acknowledged. -/
theorem Sound.exists_held_eq (h : p.Sound) {i : Nat} (hbase : p.sendBase ≤ p.cutAt i) :
    ∃ acked ≤ i, p.held = (p.pieces.drop acked).flatten := by
  by_cases hstate : p.state = .established
  · obtain ⟨-, acked, sent, hsends⟩ := h.sends hstate
    exact ⟨acked, hsends.acked_le_of_base_le hbase, hsends.held_eq⟩
  · have hblank := h.blank hstate
    refine ⟨0, Nat.zero_le _, ?_⟩
    rw [held, pieces, hblank.sends_eq, hblank.inFlight_eq, hblank.pending_eq]
    rfl

end Party

namespace Link

variable {l : Link} {setup : Setup}

/-- How far an end is with the stream of the other one, in pieces: it has got so many, and the other
one counts no more as acknowledged. -/
theorem Sound.exists_follows (h : l.Sound setup) (side : Side) :
    ∃ i, (l.party side.other).heard = ((l.party side).pieces.take i).flatten ∧
      ((l.party side.other).state ≠ .established → i = 0) ∧
      ((l.party side.other).state = .established →
        (l.party side.other).edge = (l.party side).cutAt i) ∧
      (l.party side).sendBase ≤ (l.party side).cutAt i := by
  refine h.coherent.exists_follows (l.party_mem_parties side) (l.party_mem_parties side.other)
    (fun hstate ↦ h.peer_of_met (.inr hstate)) fun hstate ↦ ?_
  have hpeer := h.peer_of_met (.inr hstate)
  rwa [side.other_other] at hpeer

/-- **Delivery, exactly once and in order.** What one end has got of the stream of the other, read
and not read, is its first `n` bytes, where `n` is zero before the end is established and counts
from the first byte to the edge afterwards. No byte but these is acknowledged, and all others are
still held. So no byte is lost, none is got twice and none is got before the ones that precede it,
at whatever point of a run the two ends are looked at. -/
theorem Reachable.heard_eq_take (h : l.Reachable setup) (side : Side) :
    ∃ n ≤ (l.party side).stream.length,
      ((l.party side.other).state ≠ .established → n = 0) ∧
      ((l.party side.other).state = .established →
        (l.party side.other).edge = setup.isn side + 1 + n) ∧
      (l.party side.other).reads.flatten ++ (l.party side.other).ready.flatten =
        (l.party side).stream.take n ∧
      (l.party side).sendBase ≤ setup.isn side + 1 + n ∧
      ∃ k ≤ n, (l.party side).held = (l.party side).stream.drop k := by
  have hsound := h.sound
  have hp : (l.party side).Sound := hsound.party side
  have hfirst : (l.party side).firstByte = setup.isn side + 1 := by
    rw [hp.firstByte_eq, (hsound.fixed side).2]
  obtain ⟨i, hheard, hzero, hedge, hbase⟩ := hsound.exists_follows side
  obtain ⟨acked, hacked, hheld⟩ := hp.exists_held_eq hbase
  have hcut := (l.party side).cutAt_eq_add i
  have hle := (l.party side).cutAt_le_cutAt hacked
  rw [Party.cutAt_eq_add, Party.cutAt_eq_add] at hle
  rw [hfirst] at hcut
  rw [hcut] at hedge hbase
  refine ⟨((l.party side).pieces.take i).flatten.length, (l.party side).length_flatten_take_le i,
    fun hstate ↦ ?_, hedge, ?_, hbase, ((l.party side).pieces.take acked).flatten.length,
    Nat.le_of_add_le_add_left hle, ?_⟩
  · rw [hzero hstate]
    rfl
  · rw [← Party.flatten_take_pieces]
    exact hheard
  · rw [hheld, Party.flatten_drop_pieces]

/-- Segments that arrive in the wrong order, the first of them completing the handshake. Both are
read at once when the gap is closed. -/
theorem heard_eq_take_reordered :
    ∃ l, (start .narrow).play reordered = some l ∧ (l.party .right).ready = [[1, 2, 3, 4]] ∧
      ∃ n ≤ (l.party .left).stream.length,
        ((l.party .right).state ≠ .established → n = 0) ∧
        ((l.party .right).state = .established →
          (l.party .right).edge = Setup.narrow.isn .left + 1 + n) ∧
        (l.party .right).reads.flatten ++ (l.party .right).ready.flatten =
          (l.party .left).stream.take n ∧
        (l.party .left).sendBase ≤ Setup.narrow.isn .left + 1 + n ∧
        ∃ k ≤ n, (l.party .left).held = (l.party .left).stream.drop k := by
  have hready : ((start .narrow).play reordered).map (fun l ↦ (l.party .right).ready) =
      some [[1, 2, 3, 4]] := by decide +kernel
  obtain ⟨l, hplay, hl⟩ := Option.map_eq_some_iff.1 hready
  exact ⟨l, hplay, hl, (Reachable.start.play hplay).heard_eq_take .left⟩

end Link

end ReliableStream
