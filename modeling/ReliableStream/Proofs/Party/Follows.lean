import ReliableStream.Proofs.Party.Later

/-!
# Following a stream

A reassembly that is fed with pieces of one stream only. `Follows r heard sender i` says that `r`
has got the first `i` pieces of the stream of `sender`, handed over `heard` for it, and keeps
nothing but pieces that come later and were sent.

The one thing to be shown is that this stays so when a piece arrives (`Follows.receive`), in any
order and any number of times. It comes down to draining: as all chunks that wait start at cuts,
draining from a cut ends at a cut, and the first piece that is missing is where it ends
(`exists_drainFrom_eq`).

Repetitions and reordering are no special cases of this. A piece that arrives again is stale, or
takes the place of its copy, and a piece that arrives early waits until draining gets to it.
-/

namespace ReliableStream

namespace Party

/-- A reassembly has got the first `i` pieces of the stream of a sender, and keeps later ones. -/
structure Follows (r : Reassembly) (heard : Bytes) (sender : Party) (i : Nat) : Prop where
  /-- There are so many pieces. -/
  le_length : i ≤ sender.pieces.length
  /-- The edge is where they stop. -/
  edge_eq : r.edge = sender.cutAt i
  /-- They were sent. -/
  edge_le : sender.cutAt i ≤ sender.sendNext
  /-- They were handed over. -/
  heard_eq : heard = (sender.pieces.take i).flatten
  /-- What waits are pieces that come later, and were sent. -/
  waiting : ∀ chunk ∈ r.waiting.toList,
    chunk ∈ sender.script ∧ r.edge < chunk.seq ∧ chunk.seq < sender.sendNext

variable {sender : Party} {acked sent : Nat}

/-- A piece that was sent, by its place. -/
theorem Sends.exists_number (h : sender.Sends acked sent) {chunk : Chunk}
    (hmem : chunk ∈ sender.script) (hnext : chunk.seq < sender.sendNext) :
    ∃ (n : Nat) (hn : n < sender.pieces.length), n < sent ∧
      chunk = ⟨sender.cutAt n, sender.pieces[n]⟩ := by
  obtain ⟨n, hn, rfl⟩ := mem_layOut.1 hmem
  exact ⟨n, hn, h.lt_sent_of_cutAt_lt hnext, rfl⟩

/-- A piece that was sent stops at the next byte or before it. -/
theorem Sends.stop_le (h : sender.Sends acked sent) {chunk : Chunk} (hmem : chunk ∈ sender.script)
    (hnext : chunk.seq < sender.sendNext) :
    chunk.seq + chunk.bytes.length ≤ sender.sendNext := by
  obtain ⟨n, hn, hsent, rfl⟩ := h.exists_number hmem hnext
  have hstop : sender.cutAt (n + 1) = sender.cutAt n + sender.pieces[n].length := cut_succ hn
  show sender.cutAt n + sender.pieces[n].length ≤ sender.sendNext
  rw [← hstop, h.next_eq]
  exact sender.cutAt_le_cutAt hsent

/-- A piece that starts before the next byte stops there or before it, since it was sent as a whole.
-/
theorem Sound.stop_le_sendNext {p : Party} {chunk : Chunk} (h : p.Sound)
    (hmem : chunk ∈ p.script) (hnext : chunk.seq < p.sendNext) :
    chunk.seq + chunk.bytes.length ≤ p.sendNext := by
  by_cases hstate : p.state = .established
  · obtain ⟨-, acked, sent, hsends⟩ := h.sends hstate
    exact hsends.stop_le hmem hnext
  · -- Nothing was handed over yet, so there is no piece.
    rw [script, pieces, (h.blank hstate).sends_eq] at hmem
    exact absurd hmem List.not_mem_nil

/-- Draining pieces of a stream, from a cut. It ends at a cut, gives all pieces up to there, and
leaves those that come later. How far it gets is the number of pieces in a row that have come. -/
theorem exists_drainFrom_eq (h : sender.Sends acked sent) {i : Nat} (hi : i ≤ sent)
    {chunks : List Chunk} (hsorted : chunks.Pairwise (·.seq < ·.seq))
    (hchunks : ∀ chunk ∈ chunks, chunk ∈ sender.script ∧ sender.cutAt i ≤ chunk.seq ∧
      chunk.seq < sender.sendNext) :
    ∃ j, i ≤ j ∧ j ≤ sent ∧
      (Reassembly.drainFrom (sender.cutAt i) chunks).edge = sender.cutAt j ∧
      (Reassembly.drainFrom (sender.cutAt i) chunks).bytes =
        ((sender.pieces.take j).drop i).flatten ∧
      (∀ chunk ∈ (Reassembly.drainFrom (sender.cutAt i) chunks).rest, sender.cutAt j < chunk.seq) ∧
      ∀ chunk ∈ chunks, chunk.seq < sender.cutAt j ∨
        chunk ∈ (Reassembly.drainFrom (sender.cutAt i) chunks).rest := by
  -- The chunks are the pieces from the cut on, some left out.
  have hscript : (sender.script.drop i).filter (· ∈ chunks) = chunks := by
    refine eq_of_pairwise_of_mem_iff
      (((pairwise_layOut sender.ne_nil_of_mem_pieces).drop).filter _) hsorted fun chunk ↦ ?_
    rw [List.mem_filter, script, mem_drop_layOut sender.ne_nil_of_mem_pieces, decide_eq_true_iff]
    exact ⟨And.right, fun hmem ↦ ⟨⟨(hchunks chunk hmem).1, (hchunks chunk hmem).2.1⟩, hmem⟩⟩
  have hstops : ∀ chunk ∈ chunks, chunk.seq + chunk.bytes.length ≤ sender.sendNext :=
    fun chunk hmem ↦ h.stop_le (hchunks chunk hmem).1 (hchunks chunk hmem).2.2
  have hlayOut : layOut (sender.cutAt i) (sender.pieces.drop i) = sender.script.drop i :=
    (drop_layOut i).symm
  generalize hn : ((sender.script.drop i).takeWhile (· ∈ chunks)).length = n
  -- It stops at the first piece that has not come.
  have hdrain : Reassembly.drainFrom (sender.cutAt i) chunks =
      ⟨((sender.pieces.drop i).take n).flatten, sender.cutAt (i + n),
        (sender.script.drop (i + n)).filter (· ∈ chunks)⟩ := by
    have hfilter := Reassembly.drainFrom_filter_layOut
      (fun piece hmem ↦ sender.ne_nil_of_mem_pieces piece (List.mem_of_mem_drop hmem))
      (fun chunk _ hmem ↦ Nat.le_trans (hstops chunk (by simpa using hmem)) h.next_le)
      (hlayOut ▸ hn)
    rwa [hlayOut, hscript, List.drop_drop, cutAt, cut_cut] at hfilter
  have hedge : sender.cutAt (i + n) ≤ sender.cutAt sent := by
    have hle : (Reassembly.drainFrom (sender.cutAt i) chunks).edge ≤ sender.cutAt sent :=
      Reassembly.drainFrom_induction (motive := fun _ edge ↦ edge ≤ sender.cutAt sent)
        (sender.cutAt_le_cutAt hi) fun _ chunk hmem _ _ ↦
          Nat.le_trans (Nat.min_le_left ..) (h.next_eq ▸ hstops chunk hmem)
    rwa [hdrain] at hle
  -- No more come in a row than there are.
  have hlength : i + n ≤ sender.pieces.length := by
    have hprefix : (sender.script.drop i).takeWhile (· ∈ chunks) <+: sender.script.drop i :=
      List.takeWhile_prefix _
    have hle := hprefix.length_le
    have hsent := h.sent_le
    rw [hn, List.length_drop, length_script] at hle
    omega
  refine ⟨i + n, Nat.le_add_right .., sender.le_of_cutAt_le_cutAt hlength hedge, by rw [hdrain],
    by rw [hdrain, List.drop_take, Nat.add_sub_cancel_left], fun chunk hmem ↦ ?_,
    fun chunk hmem ↦ ?_⟩
  · -- What is left comes later, and none of it continues the stream.
    have hne := Reassembly.ne_edge_of_mem_rest (Nat.le_trans (sender.cutAt_le_cutAt hi)
      (h.next_eq ▸ h.next_le)) hsorted chunk hmem
    rw [hdrain] at hne hmem
    have hle := ((mem_drop_layOut sender.ne_nil_of_mem_pieces).1 (List.mem_filter.1 hmem).1).2
    exact Nat.lt_of_le_of_ne hle hne.symm
  · rw [hdrain]
    refine (Nat.lt_or_ge chunk.seq (sender.cutAt (i + n))).imp_right fun hle ↦ ?_
    exact List.mem_filter.2 ⟨(mem_drop_layOut sender.ne_nil_of_mem_pieces).2
      ⟨(hchunks chunk hmem).1, hle⟩, by simpa using hmem⟩

namespace Follows

variable {r : Reassembly} {heard : Bytes} {i : Nat}

/-- At the beginning of the stream nothing has been got and nothing waits. -/
theorem begin {edge : Nat} {waiting : Ascending Chunk.seq} (hedge : edge = sender.firstByte)
    (hwaiting : waiting.toList = []) (hnext : sender.firstByte ≤ sender.sendNext) :
    Follows ⟨edge, waiting⟩ [] sender 0 where
  le_length := Nat.zero_le _
  edge_eq := hedge.trans sender.cutAt_zero.symm
  edge_le := Nat.le_trans (Nat.le_of_eq sender.cutAt_zero) hnext
  heard_eq := rfl
  waiting chunk hmem := by
    rw [hwaiting] at hmem
    exact absurd hmem List.not_mem_nil

/-- It stays true when the sender goes on, as what was cut stays where it was cut. -/
theorem later (h : Follows r heard sender i) {sender' : Party} (hlater : sender.Later sender') :
    Follows r heard sender' i where
  le_length := Nat.le_trans h.le_length hlater.pieces_prefix.length_le
  edge_eq := h.edge_eq.trans (hlater.cutAt_eq h.le_length).symm
  edge_le := by
    rw [hlater.cutAt_eq h.le_length]
    exact Nat.le_trans h.edge_le hlater.next_le
  heard_eq := by rw [hlater.take_pieces h.le_length, h.heard_eq]
  waiting chunk hmem := by
    obtain ⟨hscript, hedge, hnext⟩ := h.waiting chunk hmem
    exact ⟨hlater.mem_script hscript, hedge, Nat.lt_of_lt_of_le hnext hlater.next_le⟩

/-- Only pieces that were sent have arrived. -/
theorem le_sent (h : Follows r heard sender i) (hsends : sender.Sends acked sent) : i ≤ sent :=
  sender.le_of_cutAt_le_cutAt h.le_length (hsends.next_eq ▸ h.edge_le)

/-- **A piece of the stream arrives**: it is handed over or waits, and so is everything that waited.
No place that was covered is forgotten. -/
theorem receive (h : Follows r heard sender i) (hsends : sender.Sends acked sent) {chunk : Chunk}
    (hscript : chunk ∈ sender.script) (hedge : r.edge ≤ chunk.seq)
    (hnext : chunk.seq < sender.sendNext) :
    ∃ j, i ≤ j ∧ Follows (r.add chunk).drain.2 (heard ++ (r.add chunk).drain.1) sender j ∧
      ∀ seq, seq = chunk.seq ∨ r.Has seq → (r.add chunk).drain.2.Has seq := by
  have hadd : r.add chunk = ⟨r.edge, r.waiting.insert chunk⟩ := by
    rw [Reassembly.add, Reassembly.isStale, if_neg (by simpa using hedge)]
  -- What waits now are pieces at the edge or later, and so it can be drained.
  have hchunks : ∀ c ∈ (r.waiting.insert chunk).toList, c ∈ sender.script ∧
      sender.cutAt i ≤ c.seq ∧ c.seq < sender.sendNext := by
    intro c hc
    rcases Ascending.mem_of_mem_place hc with rfl | hc
    · exact ⟨hscript, h.edge_eq ▸ hedge, hnext⟩
    · obtain ⟨hscript', hedge', hnext'⟩ := h.waiting c hc
      exact ⟨hscript', h.edge_eq ▸ Nat.le_of_lt hedge', hnext'⟩
  obtain ⟨j, hij, hj, hedge', hbytes, hleft, hkept⟩ :=
    exists_drainFrom_eq hsends (h.le_sent hsends) (r.waiting.insert chunk).ordered hchunks
  rw [← h.edge_eq] at hedge' hbytes hleft hkept
  have hlength : j ≤ sender.pieces.length := Nat.le_trans hj hsends.sent_le
  rw [hadd]
  refine ⟨j, hij, ?_, fun seq hseq ↦ ?_⟩
  · refine
      { le_length := hlength, edge_eq := hedge', edge_le := ?edge_le, heard_eq := ?heard_eq,
        waiting := ?waiting }
    case edge_le =>
      rw [hsends.next_eq]
      exact sender.cutAt_le_cutAt hj
    case heard_eq =>
      show heard ++ (Reassembly.drainFrom r.edge (r.waiting.insert chunk).toList).bytes = _
      rw [hbytes, h.heard_eq, ← List.flatten_append]
      congr 1
      rw [← Nat.min_eq_left hij, ← List.take_take, Nat.min_eq_left hij, List.take_append_drop]
    case waiting =>
      intro c hc
      have hmem := (Reassembly.rest_drainFrom_sublist ..).subset hc
      refine ⟨(hchunks c hmem).1, ?_, (hchunks c hmem).2.2⟩
      show (Reassembly.drainFrom r.edge (r.waiting.insert chunk).toList).edge < c.seq
      rw [hedge']
      exact hleft c hc
  · have hcovered : (r.add chunk).Has seq := Reassembly.has_add hseq
    rw [hadd] at hcovered
    rcases hcovered with hlt | ⟨c, hc, rfl⟩
    · refine .inl (Nat.lt_of_lt_of_le hlt ?_)
      show r.edge ≤ (Reassembly.drainFrom r.edge (r.waiting.insert chunk).toList).edge
      rw [hedge', h.edge_eq]
      exact sender.cutAt_le_cutAt hij
    · rcases hkept c hc with hlt | hrest
      · rw [← hedge'] at hlt
        exact .inl hlt
      · exact .inr ⟨c, hrest, rfl⟩

/-- The piece after those that were handed over has not arrived. Otherwise it would have been handed
over. -/
theorem ne_of_has (h : Follows r heard sender i) {n : Nat} (hhas : r.Has (sender.cutAt n)) :
    n ≠ i := by
  rintro rfl
  rcases hhas with hlt | ⟨c, hc, heq⟩
  · rw [h.edge_eq] at hlt
    exact Nat.lt_irrefl _ hlt
  · have hlt := (h.waiting c hc).2.1
    rw [h.edge_eq, heq] at hlt
    exact Nat.lt_irrefl _ hlt

end Follows

end Party

end ReliableStream
