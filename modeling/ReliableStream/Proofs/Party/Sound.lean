import ReliableStream.Proofs.Party.Inversion

/-!
# What holds of every party

Facts about a party alone, whatever its owner asks for and whatever reaches it. They are stated as a
structure `Sound`, kept by every move (`Sound.move`) and so by every input (`Sound.perform`).

* Before it is established a party is `Blank`: it was handed nothing and has got nothing.
* Once it is established, `Sends p acked sent` says how far it is with its stream in numbers of
  pieces: the first `sent` pieces were sent and the others are pending, and of those sent the first
  `acked` are acknowledged and the others in flight. A peer may acknowledge in the middle of a
  piece, so that `sendBase` need not be a cut; but it is after every acknowledged piece starts and
  not after the first one in flight does.

`Sends` is what most of the theory rests on. It turns every question about places into one about
numbers of pieces, where a window is a range of numbers and an acknowledgement raises its lower end.
Each move of a sender has a lemma of its own that says what becomes of the two numbers.
-/

namespace ReliableStream

/-- The part of the stream that a segment carries. -/
def Segment.chunk (s : Segment) : Chunk := ⟨s.seq, s.payload⟩

namespace Party

open Ascending (place)

/-- Nothing was handed over or got so far. -/
structure Blank (p : Party) : Prop where
  /-- Nothing was handed over. -/
  sends_eq : p.sends = []
  /-- Nothing was read. -/
  reads_eq : p.reads = []
  /-- Nothing can be read. -/
  ready_eq : p.ready = []
  /-- Nothing is in line. -/
  pending_eq : p.pending = []
  /-- Nothing is in flight. -/
  inFlight_eq : p.inFlight.toList = []
  /-- Nothing was acknowledged, not even an opening. -/
  base_eq : p.sendBase = p.isn
  /-- Nothing but an opening was sent. -/
  next_le : p.sendNext ≤ p.firstByte
  /-- No byte was sent. -/
  bytesSent_eq : p.stats.bytesSent = 0
  /-- No byte was handed over for reading. -/
  bytesReceived_eq : p.stats.bytesReceived = 0

/-- The first `sent` pieces of the stream were sent, and the first `acked` of them are acknowledged.
-/
structure Sends (p : Party) (acked sent : Nat) : Prop where
  /-- Only what was sent is acknowledged. -/
  acked_le : acked ≤ sent
  /-- Only what was handed over is sent. -/
  sent_le : sent ≤ p.pieces.length
  /-- What was sent and is not acknowledged is in flight. -/
  inFlight_eq : p.inFlight.toList.map Segment.chunk = (p.script.take sent).drop acked
  /-- What was not sent is pending. -/
  pending_eq : p.pending = p.pieces.drop sent
  /-- The next new byte is the one after all that were sent. -/
  next_eq : p.sendNext = p.cutAt sent
  /-- Places are words. -/
  next_le : p.sendNext ≤ maxWord
  /-- The opening is acknowledged. -/
  first_le : p.firstByte ≤ p.sendBase
  /-- No piece in flight starts before the last place acknowledged. -/
  base_le : p.sendBase ≤ p.cutAt acked
  /-- Every acknowledged piece does. -/
  lt_base : ∀ n < acked, p.cutAt n < p.sendBase
  /-- The bytes sent are counted. -/
  bytesSent_eq : p.firstByte + p.stats.bytesSent = p.sendNext
  /-- The window is kept. -/
  size_le : p.inFlight.size ≤ p.settings.window

/-- What holds of every party. -/
structure Sound (p : Party) : Prop where
  /-- The first byte has a place. -/
  isn_lt : p.isn < maxWord
  /-- Edges are words. -/
  edge_le : p.edge ≤ maxWord
  /-- Nothing is transferred before the handshake is done. -/
  blank : p.state ≠ .established → p.Blank
  /-- During a handshake the opening is sent, and goes to someone. -/
  opening : p.state = .synSent ∨ p.state = .synReceived →
    p.sendNext = p.firstByte ∧ ∃ peer, p.peer = some peer
  /-- Nothing waits ahead of a stream that has not begun. -/
  waiting : p.state = .synReceived → p.reassembly.waiting.toList = []
  /-- Every byte that was handed over for reading is counted. -/
  received_eq : p.stats.bytesReceived = p.heard.length
  /-- Once the handshake is done the transfer goes on from piece to piece. -/
  sends : p.state = .established → (∃ peer, p.peer = some peer) ∧ ∃ acked sent, p.Sends acked sent

/-- The first byte has a place, and it comes right after the opening. -/
theorem Sound.firstByte_eq {p : Party} (h : p.Sound) : p.firstByte = p.isn + 1 :=
  saturatingAdd_of_le h.isn_lt

theorem sound_create {home : Endpoint} {settings : Connection.Settings} {valid : settings.Valid}
    {isn : Nat} (hisn : isn < maxWord) : (create home settings valid isn).Sound where
  isn_lt := hisn
  edge_le := Nat.zero_le _
  blank _ :=
    { sends_eq := rfl, reads_eq := rfl, ready_eq := rfl, pending_eq := rfl, inFlight_eq := rfl,
      base_eq := rfl, next_le := le_saturatingAdd 1 (Nat.le_of_lt hisn), bytesSent_eq := rfl,
      bytesReceived_eq := rfl }
  opening h := by rcases h with h | h <;> exact absurd h (by simp [create])
  waiting h := absurd h (by simp [create])
  received_eq := rfl
  sends h := absurd h (by simp [create])

/-! ### Pieces by their numbers -/

theorem cutAt_zero (p : Party) : p.cutAt 0 = p.firstByte := cut_zero

theorem cutAt_le_cutAt (p : Party) {m n : Nat} (h : m ≤ n) : p.cutAt m ≤ p.cutAt n := cut_le_cut h

theorem cutAt_lt_cutAt (p : Party) {m n : Nat} (h : m < n) (hn : n ≤ p.pieces.length) :
    p.cutAt m < p.cutAt n :=
  cut_lt_cut p.ne_nil_of_mem_pieces h hn

theorem le_of_cutAt_le_cutAt (p : Party) {m n : Nat} (hm : m ≤ p.pieces.length)
    (h : p.cutAt m ≤ p.cutAt n) : m ≤ n :=
  le_of_cut_le_cut p.ne_nil_of_mem_pieces hm h

theorem getElem?_script (p : Party) (n : Nat) :
    p.script[n]? = p.pieces[n]?.map (⟨p.cutAt n, ·⟩) :=
  getElem?_layOut n

/-! ### Pieces and bytes -/

theorem stream_eq_append (p : Party) (n : Nat) :
    p.stream = (p.pieces.take n).flatten ++ (p.pieces.drop n).flatten := by
  rw [← p.flatten_pieces, ← List.flatten_append, List.take_append_drop]

/-- The first pieces are the beginning of the stream. -/
theorem flatten_take_pieces (p : Party) (n : Nat) :
    (p.pieces.take n).flatten = p.stream.take (p.pieces.take n).flatten.length := by
  rw [p.stream_eq_append n, List.take_left]

/-- The other pieces are the rest of it. -/
theorem flatten_drop_pieces (p : Party) (n : Nat) :
    (p.pieces.drop n).flatten = p.stream.drop (p.pieces.take n).flatten.length := by
  rw [p.stream_eq_append n, List.drop_left]

theorem length_flatten_take_le (p : Party) (n : Nat) :
    (p.pieces.take n).flatten.length ≤ p.stream.length := by
  rw [p.stream_eq_append n, List.length_append]
  exact Nat.le_add_right ..

/-- A cut is as far from the first byte as the pieces before it are long. -/
theorem cutAt_eq_add (p : Party) (n : Nat) :
    p.cutAt n = p.firstByte + (p.pieces.take n).flatten.length := rfl

/-! ### How far a party is -/

/-- How many pieces of its stream are not acknowledged. -/
def outstanding (p : Party) : Nat := p.inFlight.size + p.pending.length

theorem outstanding_eq_zero_iff {p : Party} :
    p.outstanding = 0 ↔ p.allAcknowledged = true := by
  rw [outstanding, Ascending.size, Connection.allAcknowledged, Ascending.isEmpty, Bool.and_eq_true,
    List.isEmpty_iff, List.isEmpty_iff, Nat.add_eq_zero_iff, List.length_eq_zero_iff,
    List.length_eq_zero_iff]

namespace Sends

variable {p : Party} {acked sent : Nat}

theorem size_eq (h : p.Sends acked sent) : p.inFlight.size = sent - acked := by
  have hlen := congrArg List.length h.inFlight_eq
  rw [List.length_map, List.length_drop, List.length_take, length_script,
    Nat.min_eq_left h.sent_le] at hlen
  exact hlen

theorem acked_add_outstanding (h : p.Sends acked sent) :
    acked + p.outstanding = p.pieces.length := by
  have hacked := h.acked_le
  have hsent := h.sent_le
  rw [outstanding, h.size_eq, h.pending_eq, List.length_drop]
  omega

/-- The segments in flight, by their numbers: the first one carries the first piece that is not
acknowledged. -/
theorem seq_getElem (h : p.Sends acked sent) {n : Nat} (hn : n < p.inFlight.toList.length) :
    p.inFlight.toList[n].seq = p.cutAt (acked + n) := by
  have hsize : p.inFlight.toList.length = sent - acked := h.size_eq
  have hget := congrArg (·[n]?) h.inFlight_eq
  have hsent := h.sent_le
  rw [List.getElem?_map, List.getElem?_eq_getElem hn, List.getElem?_drop, List.getElem?_take,
    if_pos (by omega), getElem?_script, List.getElem?_eq_getElem (by omega)] at hget
  simp only [Option.map_some, Option.some.injEq, Segment.chunk, Chunk.mk.injEq] at hget
  exact hget.1

theorem cutAt_le_seq (h : p.Sends acked sent) {s : Segment} (hs : s ∈ p.inFlight.toList) :
    p.cutAt acked ≤ s.seq := by
  obtain ⟨n, hn, rfl⟩ := List.getElem_of_mem hs
  rw [h.seq_getElem hn]
  exact p.cutAt_le_cutAt (Nat.le_add_right ..)

theorem seq_lt_next (h : p.Sends acked sent) {s : Segment} (hs : s ∈ p.inFlight.toList) :
    s.seq < p.sendNext := by
  obtain ⟨n, hn, rfl⟩ := List.getElem_of_mem hs
  have hsize : p.inFlight.toList.length = sent - acked := h.size_eq
  rw [h.seq_getElem hn, h.next_eq]
  exact p.cutAt_lt_cutAt (by omega) h.sent_le

/-- A piece that lies before the next place was sent. -/
theorem lt_sent_of_cutAt_lt (h : p.Sends acked sent) {n : Nat} (hn : p.cutAt n < p.sendNext) :
    n < sent := by
  by_contra hge
  have hle : p.cutAt sent ≤ p.cutAt n := p.cutAt_le_cutAt (Nat.le_of_not_lt hge)
  rw [h.next_eq] at hn
  omega

/-- Every acknowledged piece lies before the last place acknowledged. -/
theorem acked_le_of_base_le (h : p.Sends acked sent) {n : Nat} (hbase : p.sendBase ≤ p.cutAt n) :
    acked ≤ n := by
  by_contra hlt
  have hlast := h.lt_base n (Nat.lt_of_not_le hlt)
  omega

/-- Every piece that was sent and is not acknowledged is in flight. -/
theorem exists_mem_of_lt (h : p.Sends acked sent) {n : Nat} (hacked : acked ≤ n)
    (hsent : n < sent) :
    ∃ s ∈ p.inFlight.toList, s.seq = p.cutAt n := by
  have hsize : p.inFlight.toList.length = sent - acked := h.size_eq
  have hlt : n - acked < p.inFlight.toList.length := by omega
  refine ⟨p.inFlight.toList[n - acked], List.getElem_mem hlt, ?_⟩
  rw [h.seq_getElem hlt, Nat.add_sub_cancel' hacked]

/-- A segment in flight carries a piece of the stream. -/
theorem chunk_mem (h : p.Sends acked sent) {s : Segment} (hs : s ∈ p.inFlight.toList) :
    s.chunk ∈ p.script := by
  have hmem : s.chunk ∈ p.inFlight.toList.map Segment.chunk := List.mem_map_of_mem hs
  rw [h.inFlight_eq] at hmem
  exact List.mem_of_mem_take (List.mem_of_mem_drop hmem)

/-- Before the first byte: nothing was sent. -/
theorem of_blank (hblank : p.Blank) (hnext : p.sendNext = p.firstByte)
    (hfirst : p.firstByte ≤ maxWord) :
    ({ p with sendBase := p.firstByte, state := .established } : Party).Sends 0 0 := by
  have hpieces : p.pieces = [] := by rw [pieces, hblank.sends_eq, List.flatMap_nil]
  refine
    { acked_le := Nat.le_refl _, sent_le := Nat.zero_le _, inFlight_eq := ?_, pending_eq := ?_,
      next_eq := ?_, next_le := ?_, first_le := Nat.le_refl _, base_le := ?_,
      lt_base := fun n hn ↦ absurd hn (Nat.not_lt_zero n), bytesSent_eq := ?_, size_le := ?_ }
  · show p.inFlight.toList.map Segment.chunk = _
    rw [hblank.inFlight_eq, List.take_zero, List.drop_nil, List.map_nil]
  · show p.pending = p.pieces.drop 0
    rw [hblank.pending_eq, hpieces, List.drop_nil]
  · show p.sendNext = p.cutAt 0
    rw [hnext, cutAt_zero]
  · show p.sendNext ≤ maxWord
    rw [hnext]
    exact hfirst
  · exact Nat.le_of_eq (cutAt_zero p).symm
  · show p.firstByte + p.stats.bytesSent = p.sendNext
    rw [hblank.bytesSent_eq, hnext, Nat.add_zero]
  · show p.inFlight.toList.length ≤ p.settings.window
    rw [hblank.inFlight_eq]
    exact Nat.zero_le _

/-! ### The moves of a sender -/

/-- An acknowledgement that takes out segments goes past the start of the last of them. -/
theorem cutAt_lt_of_acknowledge (h : p.Sends acked sent) {ack n : Nat} (hpos : 0 < n)
    (hn : n ≤ p.inFlight.toList.length)
    (hgone : (p.inFlight.acknowledge ack).1 = p.inFlight.toList.take n) :
    p.cutAt (acked + (n - 1)) < ack := by
  have hlt : n - 1 < p.inFlight.toList.length := by omega
  have hmem : p.inFlight.toList[n - 1] ∈ (p.inFlight.acknowledge ack).1 := by
    rw [hgone]
    exact List.mem_take_iff_getElem.2 ⟨n - 1, by omega, rfl⟩
  rw [← h.seq_getElem hlt]
  exact (InFlight.mem_acknowledge_fst.1 hmem).2

/-- It does not go past the start of the first one that stays, nor past the next byte if none does.
-/
theorem le_cutAt_of_acknowledge (h : p.Sends acked sent) {ack n : Nat} (hack : ack ≤ p.sendNext)
    (hn : n ≤ p.inFlight.toList.length)
    (hleft : (p.inFlight.acknowledge ack).2.toList = p.inFlight.toList.drop n) :
    ack ≤ p.cutAt (acked + n) := by
  have hsize : p.inFlight.toList.length = sent - acked := h.size_eq
  have hle := h.acked_le
  rcases Nat.lt_or_ge n p.inFlight.toList.length with hlt | hge
  · have hmem : p.inFlight.toList[n] ∈ (p.inFlight.acknowledge ack).2.toList := by
      rw [hleft]
      exact List.mem_drop_iff_getElem.2 ⟨0, by simpa using hlt, by simp⟩
    rw [← h.seq_getElem hlt]
    exact (InFlight.mem_acknowledge_snd.1 hmem).2
  · rw [show acked + n = sent by omega, ← h.next_eq]
    exact hack

/-- **Segments leave from the front when they are acknowledged.** The number of acknowledged pieces
rises by as many as leave. The acknowledgement itself may lie anywhere in the last of them. -/
theorem acknowledged (h : p.Sends acked sent) {ack : Nat} (hack : ack ≤ p.sendNext)
    (hsome : (p.inFlight.acknowledge ack).1 ≠ []) :
    ∃ acked', acked < acked' ∧
      ({ p with inFlight := (p.inFlight.acknowledge ack).2, sendBase := ack } : Party).Sends
        acked' sent := by
  obtain ⟨n, hn, hfst, hsnd⟩ := p.inFlight.acknowledge_eq_take_drop ack
  have hsize : p.inFlight.toList.length = sent - acked := h.size_eq
  have hle := h.acked_le
  rw [Ascending.size] at hn
  have hpos : 0 < n := by
    refine Nat.pos_of_ne_zero fun hzero ↦ hsome ?_
    rw [hfst, hzero, List.take_zero]
  -- The acknowledgement lies behind the start of the last segment that leaves, and not behind the
  -- start of the first one that stays.
  have hlast := h.cutAt_lt_of_acknowledge hpos hn hfst
  have hbase := h.le_cutAt_of_acknowledge hack hn hsnd
  have hstart : p.cutAt acked ≤ p.cutAt (acked + (n - 1)) := p.cutAt_le_cutAt (by omega)
  refine ⟨acked + n, by omega,
    { acked_le := by omega, sent_le := h.sent_le, inFlight_eq := ?_, pending_eq := h.pending_eq,
      next_eq := h.next_eq, next_le := h.next_le, first_le := ?_, base_le := hbase,
      lt_base := fun m hm ↦ ?_, bytesSent_eq := h.bytesSent_eq, size_le := ?_ }⟩
  · show (p.inFlight.acknowledge ack).2.toList.map Segment.chunk =
      (p.script.take sent).drop (acked + n)
    rw [hsnd, List.map_drop, h.inFlight_eq, List.drop_drop]
  · have hfirst := h.first_le
    have := h.base_le
    show p.firstByte ≤ ack
    omega
  · show p.cutAt m < ack
    have : p.cutAt m ≤ p.cutAt (acked + (n - 1)) := p.cutAt_le_cutAt (by omega)
    omega
  · have hwindow : p.inFlight.toList.length ≤ p.settings.window := h.size_le
    show (p.inFlight.acknowledge ack).2.toList.length ≤ p.settings.window
    rw [hsnd, List.length_drop]
    omega

/-- The chunk at the front of the line is the next piece of the stream. -/
theorem next_piece (h : p.Sends acked sent) {chunk : Bytes} {rest : List Bytes}
    (hpending : p.pending = chunk :: rest) :
    p.pieces[sent]? = some chunk ∧ rest = p.pieces.drop (sent + 1) := by
  have hdrop := h.pending_eq.symm.trans hpending
  constructor
  · rw [← List.head?_drop, hdrop, List.head?_cons]
  · rw [← List.tail_drop, hdrop, List.tail_cons]

/-- A piece goes from the line into flight, behind all the others. -/
theorem send (h : p.Sends acked sent) (now : Nat) {chunk : Bytes} {rest : List Bytes}
    (hpending : p.pending = chunk :: rest) (hroom : p.inFlight.size < p.settings.window)
    (hnext : p.sendNext + chunk.length ≤ maxWord) :
    ({ p with sendNext := p.sendNext + chunk.length
              inFlight := p.inFlight.insert ⟨p.sendNext, chunk, now, 0⟩
              pending := rest
              stats := { p.stats with bytesSent := p.stats.bytesSent + chunk.length } } :
      Party).Sends acked (sent + 1) := by
  obtain ⟨hpiece, hrest⟩ := h.next_piece hpending
  obtain ⟨hlt, hget⟩ := List.getElem?_eq_some_iff.1 hpiece
  have hle := h.acked_le
  -- It comes behind all the others, since they start before the next byte.
  have hinsert : place Segment.seq ⟨p.sendNext, chunk, now, 0⟩ p.inFlight.toList =
      p.inFlight.toList ++ [⟨p.sendNext, chunk, now, 0⟩] :=
    Ascending.place_of_forall_lt fun s hs ↦ h.seq_lt_next hs
  have hcut : p.cutAt (sent + 1) = p.sendNext + chunk.length := by
    rw [h.next_eq, ← hget]
    exact cut_succ hlt
  refine
    { acked_le := by omega, sent_le := hlt, inFlight_eq := ?_, pending_eq := hrest,
      next_eq := hcut.symm, next_le := hnext, first_le := h.first_le, base_le := h.base_le,
      lt_base := h.lt_base, bytesSent_eq := ?_, size_le := ?_ }
  · show (place Segment.seq ⟨p.sendNext, chunk, now, 0⟩ p.inFlight.toList).map Segment.chunk =
      (p.script.take (sent + 1)).drop acked
    have hscript : p.script[sent]? = some ⟨p.sendNext, chunk⟩ := by
      rw [getElem?_script, hpiece, h.next_eq, Option.map_some]
    rw [hinsert, List.map_append, h.inFlight_eq, List.take_add_one, hscript,
      List.drop_append_of_le_length]
    · rfl
    · rw [List.length_take, length_script]
      omega
  · have hsum := h.bytesSent_eq
    show p.firstByte + (p.stats.bytesSent + chunk.length) = p.sendNext + chunk.length
    omega
  · show (place Segment.seq ⟨p.sendNext, chunk, now, 0⟩ p.inFlight.toList).length ≤
      p.settings.window
    rw [Ascending.size] at hroom
    rw [hinsert, List.length_append, List.length_singleton]
    omega

/-- What is handed over is cut and gets in line. The pieces that there were stay as they are, so
nothing that was sent is cut anew. -/
theorem hand (h : p.Sends acked sent) (bytes : Bytes) :
    ({ p with pending := p.pending ++ chunks p.settings.mtu bytes, sends := p.sends ++ [bytes] } :
      Party).Sends acked sent := by
  have hle := h.acked_le
  have hsent := h.sent_le
  -- The cuts between the pieces that there were are where they have been.
  have hcut {n : Nat} (hn : n ≤ p.pieces.length) :
      cut p.firstByte (p.pieces ++ chunks p.settings.mtu bytes) n = p.cutAt n := cut_append hn
  have hpieces : (p.sends ++ [bytes]).flatMap (chunks p.settings.mtu) =
      p.pieces ++ chunks p.settings.mtu bytes := by
    rw [List.flatMap_append, List.flatMap_singleton, pieces]
  refine
    { acked_le := hle, sent_le := ?_, inFlight_eq := ?_, pending_eq := ?_, next_eq := ?_,
      next_le := h.next_le, first_le := h.first_le, base_le := ?_, lt_base := fun n hn ↦ ?_,
      bytesSent_eq := h.bytesSent_eq, size_le := h.size_le }
  · show sent ≤ ((p.sends ++ [bytes]).flatMap (chunks p.settings.mtu)).length
    rw [hpieces, List.length_append]
    omega
  · show _ = ((layOut p.firstByte ((p.sends ++ [bytes]).flatMap
      (chunks p.settings.mtu))).take sent).drop acked
    rw [hpieces, layOut_append, List.take_append_of_le_length (by rwa [length_layOut])]
    exact h.inFlight_eq
  · show p.pending ++ chunks p.settings.mtu bytes =
      ((p.sends ++ [bytes]).flatMap (chunks p.settings.mtu)).drop sent
    rw [hpieces, List.drop_append_of_le_length hsent, h.pending_eq]
  · show p.sendNext = cut p.firstByte ((p.sends ++ [bytes]).flatMap (chunks p.settings.mtu)) sent
    rw [hpieces, hcut hsent, h.next_eq]
  · show p.sendBase ≤ cut p.firstByte ((p.sends ++ [bytes]).flatMap (chunks p.settings.mtu)) acked
    rw [hpieces, hcut (Nat.le_trans hle hsent)]
    exact h.base_le
  · show cut p.firstByte ((p.sends ++ [bytes]).flatMap (chunks p.settings.mtu)) n < p.sendBase
    rw [hpieces, hcut (by omega)]
    exact h.lt_base n hn

/-- A segment that is sent again carries what it carried, at its place among those in flight. -/
theorem resend (h : p.Sends acked sent) {segment : Segment} (hmem : segment ∈ p.inFlight.toList)
    (again : Segment) (hagain : again.chunk = segment.chunk) (resends : Nat) :
    ({ p with inFlight := p.inFlight.insert again, stats := { p.stats with resends } } :
      Party).Sends acked sent := by
  have hmap : (place Segment.seq again p.inFlight.toList).map Segment.chunk =
      p.inFlight.toList.map Segment.chunk :=
    Ascending.map_place p.inFlight.ordered hmem (congrArg Chunk.seq hagain).symm hagain
  refine { h with inFlight_eq := hmap.trans h.inFlight_eq, size_le := ?_ }
  have hlen := congrArg List.length hmap
  rw [List.length_map, List.length_map] at hlen
  exact Nat.le_trans (Nat.le_of_eq hlen) h.size_le

/-- Receiving does not touch what is sent. -/
theorem receive (h : p.Sends acked sent) (reassembly : Reassembly) (ready reads : List Bytes)
    (received : Nat) :
    ({ p with reassembly, ready, reads, stats := { p.stats with bytesReceived := received } } :
      Party).Sends acked sent :=
  { h with }

end Sends

/-! ### Every move keeps a party sound -/

/-- The handshake is done: nothing was sent, so the transfer begins with the first piece. -/
theorem Sound.establish {p : Party} (h : p.Sound) {ack : Nat} {reassembly : Reassembly}
    (hstate : p.state = .synSent ∨ p.state = .synReceived) (hack : ack = p.firstByte)
    (hedge : reassembly.edge ≤ maxWord) :
    ({ p with reassembly, sendBase := ack, state := .established } : Party).Sound := by
  obtain ⟨hnext, hpeer⟩ := h.opening hstate
  have hblank : p.Blank := h.blank (by rcases hstate with hs | hs <;> simp [hs])
  have hsends := Sends.of_blank hblank hnext (saturatingAdd_le ..)
  subst hack
  exact
    { isn_lt := h.isn_lt
      edge_le := hedge
      blank := fun hne ↦ absurd rfl hne
      opening := fun hs ↦ by rcases hs with hs | hs <;> exact absurd hs (by simp)
      waiting := fun hs ↦ absurd hs (by simp)
      received_eq := h.received_eq
      sends := fun _ ↦
        ⟨hpeer, 0, 0, hsends.receive reassembly p.ready p.reads p.stats.bytesReceived⟩ }

/-- An established party stays sound when it goes on with its transfer. -/
theorem Sound.transfer {p q : Party} (h : p.Sound) (hstate : p.state = .established)
    (hstate' : q.state = p.state) (hpeer : q.peer = p.peer) (hisn : q.isn = p.isn)
    (hedge : q.edge ≤ maxWord) (hreceived : q.stats.bytesReceived = q.heard.length)
    (hsends : ∀ {acked sent}, p.Sends acked sent → ∃ acked' sent', q.Sends acked' sent') :
    q.Sound := by
  obtain ⟨⟨peer, hsome⟩, acked, sent, hs⟩ := h.sends hstate
  have hq : q.state = .established := hstate'.trans hstate
  exact
    { isn_lt := hisn ▸ h.isn_lt
      edge_le := hedge
      blank := fun hne ↦ absurd hq hne
      opening := fun hs ↦ by rw [hq] at hs; rcases hs with hs | hs <;> exact absurd hs (by simp)
      waiting := fun hs ↦ by rw [hq] at hs; exact absurd hs (by simp)
      received_eq := hreceived
      sends := fun _ ↦ ⟨⟨peer, hpeer.trans hsome⟩, hsends hs⟩ }

/-- Only an established party has anything in flight. -/
theorem Sound.established_of_mem {p : Party} (h : p.Sound) {s : Segment}
    (hs : s ∈ p.inFlight.toList) : p.state = .established := by
  by_contra hne
  rw [(h.blank hne).inFlight_eq] at hs
  exact absurd hs List.not_mem_nil

/-- A party that closes, or waits for an opening, has only to be blank. -/
theorem Sound.withdraw {p : Party} (h : p.Sound) (hne : p.state ≠ .established)
    {peer : Option Endpoint} {state : Connection.State}
    (hstate : state = .closed ∨ state = .listening) : ({ p with peer, state } : Party).Sound := by
  have hblank : p.Blank := h.blank hne
  rcases hstate with rfl | rfl
  all_goals exact
    { isn_lt := h.isn_lt
      edge_le := h.edge_le
      blank := fun _ ↦ { hblank with }
      opening := fun hs ↦ by rcases hs with hs | hs <;> exact absurd hs (by simp)
      waiting := fun hs ↦ absurd hs (by simp)
      received_eq := h.received_eq
      sends := fun hs ↦ absurd hs (by simp) }

/-- A party that begins a handshake sends its opening, and nothing of its stream. It knows where the
stream of its peer starts if it answers, and then nothing waits of that stream. -/
theorem Sound.begin {p : Party} (h : p.Sound) (hne : p.state ≠ .established) {peer : Endpoint}
    {reassembly : Reassembly} {attempt : Nat} {state : Connection.State}
    (hstate : state = .synSent ∨ state = .synReceived) (hedge : reassembly.edge ≤ maxWord)
    (hwaiting : state = .synReceived → reassembly.waiting.toList = []) :
    ({ p with peer := some peer, reassembly, state, attempt, sendBase := p.isn,
              sendNext := p.firstByte } : Party).Sound := by
  have hblank : p.Blank := h.blank hne
  have hother : state ≠ .established := by rcases hstate with rfl | rfl <;> simp
  exact
    { isn_lt := h.isn_lt
      edge_le := hedge
      blank := fun _ ↦ { hblank with base_eq := rfl, next_le := Nat.le_refl _ }
      opening := fun _ ↦ ⟨rfl, _, rfl⟩
      waiting := hwaiting
      received_eq := h.received_eq
      sends := fun hs ↦ absurd hs hother }

/-- **Every move keeps a party sound.** A move of a handshake leads from one blank party to another,
the two that end a handshake begin the transfer, and all others go on with it. -/
theorem Sound.move {now : Nat} {input : Input} {p q : Party} {r : Reaction} (h : p.Sound)
    (hmove : Move now input p r q) : q.Sound := by
  cases hmove with
  | idle | answer | acknowledge | retryOpening | retryAnswer => exact h
  | connect hstate =>
    exact h.begin (by simp [hstate]) (.inl rfl) h.edge_le fun hs ↦ absurd hs (by simp)
  | listen hstate => exact h.withdraw (by simp [hstate]) (.inr rfl)
  | accept hkind hstate =>
    exact h.begin (by simp [hstate]) (.inr rfl) (saturatingAdd_le ..) fun _ ↦ rfl
  | giveUp hstate =>
    exact h.withdraw (by rcases hstate with hs | hs <;> simp [hs]) (.inl rfl)
  | opened hkind hstate hpeer hack => exact h.establish (.inl hstate) hack (saturatingAdd_le ..)
  | complete hkind hstate hpeer hack => exact h.establish (.inr hstate) hack h.edge_le
  | acknowledged hkind hstate hpeer hack hsome =>
    refine h.transfer hstate rfl rfl rfl h.edge_le h.received_eq fun hsends ↦ ?_
    obtain ⟨acked', -, hsends'⟩ := hsends.acknowledged hack hsome
    exact ⟨acked', _, hsends'⟩
  | store hkind hstate =>
    refine h.transfer hstate rfl rfl rfl ?_ h.received_eq fun hsends ↦ ⟨_, _, hsends.receive ..⟩
    exact Reassembly.drain_edge_le (by rw [Reassembly.edge_add]; exact h.edge_le)
  | @deliver _ _ bytes _ hkind hstate =>
    refine h.transfer hstate rfl rfl rfl ?_ ?_ fun hsends ↦ ⟨_, _, hsends.receive ..⟩
    · exact Reassembly.drain_edge_le (by rw [Reassembly.edge_add]; exact h.edge_le)
    · rw [heard_ready p, List.length_append, ← h.received_eq]
  | hand hstate =>
    exact h.transfer hstate rfl rfl rfl h.edge_le h.received_eq fun hsends ↦ ⟨_, _, hsends.hand _⟩
  | send hstate hpeer hpending hroom hnext =>
    exact h.transfer hstate rfl rfl rfl h.edge_le h.received_eq fun hsends ↦
      ⟨_, _, hsends.send _ hpending hroom hnext⟩
  | @resend _ _ segment _ hpeer hmem =>
    exact h.transfer (h.established_of_mem hmem) rfl rfl rfl h.edge_le h.received_eq fun hsends ↦
      ⟨_, _, hsends.resend hmem ⟨segment.seq, segment.payload, now, segment.resends + 1⟩ rfl _⟩
  | read hstate hready =>
    refine h.transfer hstate rfl rfl rfl h.edge_le ?_ fun hsends ↦ ⟨_, _, hsends.receive ..⟩
    rw [heard_read hready, ← h.received_eq]

theorem Sound.moves {now : Nat} {input : Input} {p q : Party} {r : Reaction} (h : p.Sound)
    (hmoves : Moves now input p r q) : q.Sound :=
  hmoves.preserves Sound.move h

theorem Sound.perform {now : Nat} {input : Input} {p q : Party} {r : Reaction} (h : p.Sound)
    (hperform : p.perform now input = .ok (q, r)) : q.Sound :=
  h.moves (moves_of_perform hperform)

end Party

end ReliableStream
