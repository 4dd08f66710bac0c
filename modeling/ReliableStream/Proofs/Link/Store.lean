import Mathlib.Data.List.Perm.Subperm
import ReliableStream.Proofs.Link.Delivery

/-!
# What waits out of order

An end keeps whatever arrives ahead of its edge, and its store has no bound of its own. It has one
all the same: what waits was sent and comes after the edge, and no acknowledgement is ahead of the
edge, so that the other end still has all of it in flight (`Party.Follows.chunk_mem_inFlight`). The
piece at the edge does not wait, and it is in flight as well. So one place in the window of the
other end is taken by a piece that does not wait (`Reachable.waits_in_window`).

The argument is one of lists that ascend: what waits is a part of what is in flight, in the same
order, and the piece at the edge is in flight and does not wait. So the bound needs no counting of
arrivals, and holds whatever the order and the repetitions were.
-/

namespace ReliableStream

namespace Party

variable {p q sender : Party} {acked sent i : Nat} {r : Reassembly} {heard : Bytes}

/-- A party keeps nothing out of order before its handshake is done. -/
def KeepsNothing (p : Party) : Prop := p.state ≠ .established → p.reassembly.waiting.toList = []

theorem keepsNothing_create {home : Endpoint} {settings : Connection.Settings}
    {valid : settings.Valid} {isn : Nat} : (create home settings valid isn).KeepsNothing :=
  fun _ ↦ rfl

theorem KeepsNothing.move {now : Nat} {input : Input} {r : Reaction} (h : p.KeepsNothing)
    (hmove : Move now input p r q) : q.KeepsNothing := by
  intro hstate
  cases hmove with
  | idle | answer | acknowledge | retryOpening | retryAnswer | acknowledged | hand | send | resend |
    read => exact h hstate
  | connect hclosed | listen hclosed => exact h (by simp [hclosed])
  | giveUp hopening => exact h (by rcases hopening with hopening | hopening <;> simp [hopening])
  | accept => rfl
  | opened | complete => exact absurd rfl hstate
  | store _ hestablished | deliver _ hestablished => exact absurd hestablished hstate

/-! ### What waits is in flight -/

/-- The pieces that wait are among those that were sent and come after the one at the edge. So they
are at most those in flight but the first. -/
theorem Follows.waiting_subset (h : Follows r heard sender i) (hsends : sender.Sends acked sent) :
    r.waiting.toList ⊆ (sender.script.take sent).drop (i + 1) := by
  intro chunk hmem
  obtain ⟨hscript, hedge, hnext⟩ := h.waiting chunk hmem
  obtain ⟨n, hn, hsent, rfl⟩ := hsends.exists_number hscript hnext
  have hlt : i < n := by
    by_contra hle
    have hcut := sender.cutAt_le_cutAt (Nat.le_of_not_lt hle)
    rw [h.edge_eq] at hedge
    exact Nat.not_lt_of_le hcut hedge
  have hlength : n < (sender.script.take sent).length := by
    rw [List.length_take, length_script]
    exact Nat.lt_min.2 ⟨hsent, hn⟩
  refine List.mem_drop_iff_getElem.2 ⟨n - (i + 1), by omega, ?_⟩
  have hget := sender.getElem?_script n
  rw [List.getElem?_eq_getElem hn, Option.map_some] at hget
  simp only [Nat.add_sub_cancel' (Nat.succ_le_of_lt hlt), List.getElem_take]
  exact (List.getElem?_eq_some_iff.1 hget).2

/-- A piece that waits is in flight, if the peer counts nothing after the edge as acknowledged. -/
theorem Follows.chunk_mem_inFlight (h : Follows r heard sender i)
    (hsends : sender.Sends acked sent) (hacked : acked ≤ i) {chunk : Chunk}
    (hmem : chunk ∈ r.waiting.toList) :
    ∃ segment ∈ sender.inFlight.toList, segment.chunk = chunk := by
  have hlater := h.waiting_subset hsends hmem
  have hsplit : i + 1 = acked + (i + 1 - acked) := by omega
  rw [hsplit, ← List.drop_drop, ← hsends.inFlight_eq] at hlater
  exact List.mem_map.1 (List.mem_of_mem_drop hlater)

/-- Fewer pieces wait than are in flight, if any do. -/
theorem Follows.size_waiting_le (h : Follows r heard sender i) (hsends : sender.Sends acked sent)
    (hacked : acked ≤ i) : r.waiting.size ≤ sender.inFlight.size - 1 := by
  have hnodup : r.waiting.toList.Nodup := r.waiting.ordered.imp fun hlt heq ↦ by
    rw [heq] at hlt
    exact Nat.lt_irrefl _ hlt
  have hlength := (List.subperm_of_subset hnodup (h.waiting_subset hsends)).length_le
  rw [List.length_drop, List.length_take, length_script, Nat.min_eq_left hsends.sent_le] at hlength
  rw [Ascending.size, hsends.size_eq]
  omega

/-- Nothing waits that a party without a connection would have sent. -/
theorem Follows.waiting_eq_nil (h : Follows r heard sender i) (hsender : sender.Sound)
    (hstate : sender.state ≠ .established) : r.waiting.toList = [] := by
  refine List.eq_nil_iff_forall_not_mem.2 fun chunk hmem ↦ ?_
  have hscript := (h.waiting chunk hmem).1
  rw [script, pieces, (hsender.blank hstate).sends_eq] at hscript
  exact List.not_mem_nil hscript

/-- What waits is in flight, and is less than the window, if the sender counts nothing after the
edge as acknowledged. -/
theorem Follows.waiting_fits (h : Follows r heard sender i) (hsender : sender.Sound)
    (hbase : sender.sendBase ≤ r.edge) :
    (∀ chunk ∈ r.waiting.toList, r.edge < chunk.seq ∧ ∃ segment ∈ sender.inFlight.toList,
      segment.seq = chunk.seq ∧ segment.payload = chunk.bytes) ∧
      r.waiting.size < sender.settings.window := by
  by_cases hstate : sender.state = .established
  · obtain ⟨-, acked, sent, hsends⟩ := hsender.sends hstate
    have hacked : acked ≤ i := hsends.acked_le_of_base_le (h.edge_eq ▸ hbase)
    refine ⟨fun chunk hmem ↦ ⟨(h.waiting chunk hmem).2.1, ?_⟩, ?_⟩
    · obtain ⟨segment, hsegment, rfl⟩ := h.chunk_mem_inFlight hsends hacked hmem
      exact ⟨segment, hsegment, rfl, rfl⟩
    · have hsize := h.size_waiting_le hsends hacked
      have hroom := hsends.size_le
      have hwindow := sender.valid.window_pos
      omega
  · have hnil := h.waiting_eq_nil hsender hstate
    rw [Ascending.size, hnil]
    exact ⟨fun _ hmem ↦ absurd hmem List.not_mem_nil, sender.valid.window_pos⟩

end Party

namespace Link

variable {l : Link} {setup : Setup}

theorem Reachable.settings_eq (h : l.Reachable setup) (side : Side) :
    (l.party side).settings = setup.settings side := by
  induction h generalizing side with
  | start => rfl
  | step _ hstep ih =>
    cases hstep with
    | act hallows hperform =>
      refine forall_become (P := fun s p _ ↦ p.settings = setup.settings s) ?_ ih side
      rw [(Party.moves_of_perform hperform).settings_eq]
      exact ih _

theorem Reachable.keepsNothing (h : l.Reachable setup) (side : Side) :
    (l.party side).KeepsNothing := by
  induction h generalizing side with
  | start => exact Party.keepsNothing_create
  | step _ hstep ih =>
    cases hstep with
    | act hallows hperform =>
      refine forall_become (P := fun _ p _ ↦ p.KeepsNothing) ?_ ih side
      exact (Party.moves_of_perform hperform).preserves (fun h hmove ↦ h.move hmove) (ih _)

/-- **What waits fits in the window of the other end.** Whatever an end keeps out of order starts
after its edge, and the other end still has it in flight, at the same place and with the same bytes.
And it is fewer segments than fit in the window of the other end. -/
theorem Reachable.waits_in_window (h : l.Reachable setup) (side : Side) :
    (∀ chunk ∈ (l.party side.other).reassembly.waiting.toList,
      (l.party side.other).edge < chunk.seq ∧
        ∃ segment ∈ (l.party side).inFlight.toList,
          segment.seq = chunk.seq ∧ segment.payload = chunk.bytes) ∧
      (l.party side.other).reassembly.waiting.size < (setup.settings side).window := by
  have hsound := h.sound
  rw [← h.settings_eq side]
  by_cases hstate : (l.party side.other).state = .established
  · obtain ⟨i, -, -, hedge, hbase⟩ := hsound.exists_follows side
    have hknows := hsound.knows (.inr hstate)
    rw [side.other_other] at hknows
    obtain ⟨j, hfollows⟩ := hknows.follows hstate
    rw [← hedge hstate] at hbase
    exact hfollows.waiting_fits (hsound.party side) hbase
  · rw [Ascending.size, h.keepsNothing _ hstate]
    exact ⟨fun _ hmem ↦ absurd hmem List.not_mem_nil, (l.party side).valid.window_pos⟩

/-- The second segment arrives, and the first one has not: it takes all the room that there is. -/
theorem waits_in_window_secondFirst :
    ∃ l, (start .narrow).play reordered.dropLast = some l ∧
      (l.party .right).reassembly.waiting.toList = [⟨103, [3, 4]⟩] ∧
      (∀ chunk ∈ (l.party .right).reassembly.waiting.toList,
        (l.party .right).edge < chunk.seq ∧
          ∃ segment ∈ (l.party .left).inFlight.toList,
            segment.seq = chunk.seq ∧ segment.payload = chunk.bytes) ∧
        (l.party .right).reassembly.waiting.size < (Setup.narrow.settings .left).window := by
  have hwaiting : ((start .narrow).play reordered.dropLast).map
      (fun l ↦ (l.party .right).reassembly.waiting.toList) = some [⟨103, [3, 4]⟩] := by
    decide +kernel
  obtain ⟨l, hplay, hl⟩ := Option.map_eq_some_iff.1 hwaiting
  exact ⟨l, hplay, hl, (Reachable.start.play hplay).waits_in_window .left⟩

end Link

end ReliableStream
