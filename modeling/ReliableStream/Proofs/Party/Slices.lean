import ReliableStream.Proofs.Party.Window

/-!
# Packets with data are slices of the stream

A party cuts the stream that it is handed into pieces and sends each of them, some more than once.
Whatever is asked of it and whatever reaches it, a packet with data carries one of the pieces, at
its place. The chunks that its packets carry, each taken where it occurs first, are the pieces in
their order as far as they were sent (`Sound.eraseDups_performAll`): a move that sends data sends
the next piece or repeats an earlier one (`Move.launches`).

The edge that a packet with data acknowledges is the one of the party when the input comes, and also
when it is done with. Only what brings data moves the edge, and nothing is sent in answer to that
but acknowledgements, as there is never anything pending that the window has room for (`Pumped`).

Since no two pieces are at the same place, a chunk tells which piece it is, and repetitions can be
struck out with `List.eraseDups`.
-/

namespace ReliableStream

/-- The chunks of a stream that packets carry, in order. -/
def dataChunks (packets : List Packet) : List Chunk :=
  (packets.filter (·.kind = .data)).map fun packet ↦ ⟨packet.seq, packet.payload⟩

theorem dataChunks_append (packets more : List Packet) :
    dataChunks (packets ++ more) = dataChunks packets ++ dataChunks more := by
  simp [dataChunks]

theorem dataChunks_singleton {packet : Packet} (h : packet.kind = .data) :
    dataChunks [packet] = [⟨packet.seq, packet.payload⟩] := by
  simp [dataChunks, h]

/-- Packets without data carry nothing. -/
theorem dataChunks_eq_nil {packets : List Packet} (h : ∀ packet ∈ packets, packet.kind ≠ .data) :
    dataChunks packets = [] := by
  rw [dataChunks, List.filter_eq_nil_iff.2 fun packet hmem ↦ by simpa using h packet hmem,
    List.map_nil]

/-- The first pieces of a stream lie where they lie in the whole of it. -/
theorem take_layOut {start : Nat} {pieces : List Bytes} (n : Nat) :
    (layOut start pieces).take n = layOut start (pieces.take n) := by
  rcases Nat.le_total n pieces.length with hle | hge
  · conv_lhs => rw [← List.take_append_drop n pieces, layOut_append]
    rw [List.take_append_of_le_length (by simp [hle]),
      List.take_of_length_le (length_layOut.trans_le (List.length_take_le ..))]
  · rw [List.take_of_length_le (by simpa), List.take_of_length_le hge]

/-- A piece is what the whole of the pieces has at its place. -/
theorem take_drop_flatten {pieces : List Bytes} {n : Nat} (h : n < pieces.length) :
    (pieces.flatten.drop (pieces.take n).flatten.length).take pieces[n].length = pieces[n] := by
  have hsplit : pieces.flatten = (pieces.take n).flatten ++ (pieces.drop n).flatten := by
    rw [← List.flatten_append, List.take_append_drop]
  rw [hsplit, List.drop_left, List.drop_eq_getElem_cons h, List.flatten_cons, List.take_left]

namespace Party

variable {now : Nat} {input : Input} {p q : Party} {r : Reaction} {acked sent : Nat}
  {sofar : List Chunk}

/-! ### What was sent of the stream -/

/-- The chunks of its stream that a party has sent. -/
def launched (p : Party) : List Chunk := p.script.take (p.pieces.length - p.pending.length)

theorem Sends.launched_eq (h : p.Sends acked sent) : p.launched = p.script.take sent := by
  have hle := h.sent_le
  rw [launched, h.pending_eq, List.length_drop, Nat.sub_sub_self hle]

/-- What is in flight was sent. -/
theorem Sends.mem_launched (h : p.Sends acked sent) {s : Segment} (hs : s ∈ p.inFlight.toList) :
    s.chunk ∈ p.launched := by
  have hmem : s.chunk ∈ p.inFlight.toList.map Segment.chunk := List.mem_map_of_mem hs
  rw [h.inFlight_eq] at hmem
  exact h.launched_eq ▸ List.mem_of_mem_drop hmem

/-- What was sent lies before the next new byte. -/
theorem Sends.seq_lt_of_mem_launched (h : p.Sends acked sent) {chunk : Chunk}
    (hmem : chunk ∈ p.launched) : chunk.seq < p.sendNext := by
  rw [h.launched_eq] at hmem
  obtain ⟨n, hn, rfl⟩ := List.mem_take_iff_getElem.1 hmem
  have hlt : n < sent := by omega
  have hpieces : n < p.pieces.length := Nat.lt_of_lt_of_le hlt h.sent_le
  rw [show p.script[n] = _ from getElem_layOut hpieces _, h.next_eq]
  exact p.cutAt_lt_cutAt hlt h.sent_le

/-- The stream is what was sent of it, and what is pending. -/
theorem Sound.stream_eq (h : p.Sound) : ∃ slices, p.launched = layOut (p.isn + 1) slices ∧
    p.stream = slices.flatten ++ p.pending.flatten := by
  refine ⟨p.pieces.take (p.pieces.length - p.pending.length), ?_, ?_⟩
  · rw [launched, script, take_layOut, h.firstByte_eq]
  · have hpending : p.pending = p.pieces.drop (p.pieces.length - p.pending.length) := by
      by_cases hstate : p.state = .established
      · obtain ⟨-, acked, sent, hsends⟩ := h.sends hstate
        have hle := hsends.sent_le
        rw [hsends.pending_eq, List.length_drop, Nat.sub_sub_self hle]
      · have hblank := h.blank hstate
        rw [pieces, hblank.sends_eq, hblank.pending_eq, List.flatMap_nil, List.drop_nil]
    conv_lhs => rw [p.stream_eq_append (p.pieces.length - p.pending.length), ← hpending]

/-! ### What a move sends -/

/-- What is sent of the stream by a move. -/
inductive Launches (p : Party) (r : Reaction) (q : Party) : Prop
  /-- Nothing is. -/
  | quiet (hchunks : dataChunks r.packets = []) (heq : q.launched = p.launched)
  /-- A chunk that was sent before. -/
  | again {chunk : Chunk} (hchunks : dataChunks r.packets = [chunk]) (hmem : chunk ∈ p.launched)
    (heq : q.launched = p.launched)
  /-- The next chunk. -/
  | next {chunk : Chunk} (hchunks : dataChunks r.packets = [chunk]) (hnot : chunk ∉ p.launched)
    (heq : q.launched = p.launched ++ [chunk])

/-- What was sent, each chunk once, goes on with what is sent for the first time. The next piece is
not among the earlier ones, because it starts where they stop. -/
theorem Launches.eraseDups_eq (h : Launches p r q) (hsofar : sofar.eraseDups = p.launched) :
    (sofar ++ dataChunks r.packets).eraseDups = q.launched := by
  have hiff (chunk : Chunk) : chunk ∈ sofar ↔ chunk ∈ p.launched := by
    rw [← hsofar, List.mem_eraseDups]
  cases h with
  | quiet hchunks heq => rw [hchunks, List.append_nil, hsofar, heq]
  | again hchunks hmem heq =>
    have hold := (hiff _).2 hmem
    rw [hchunks, List.eraseDups_append, hsofar, heq]
    simp [List.removeAll, hold]
  | next hchunks hnot heq =>
    have hnew := mt (hiff _).1 hnot
    rw [hchunks, List.eraseDups_append, hsofar, heq]
    simp [List.removeAll, hnew, List.eraseDups_cons]

/-- **A move sends nothing of the stream, or the next piece, or an earlier one again.** -/
theorem Move.launches (hmove : Move now input p r q) (h : p.Sound) : Launches p r q := by
  cases hmove with
  | idle | listen | complete | acknowledged | giveUp | read | connect | accept | opened | store |
    deliver =>
    exact .quiet rfl rfl
  | answer | acknowledge | retryOpening | retryAnswer =>
    refine .quiet (dataChunks_eq_nil fun packet hpacket ↦ ?_) rfl
    obtain ⟨peer, -, rfl⟩ := List.mem_map.1 hpacket
    simp
  | @hand bytes _ hstate =>
    obtain ⟨-, acked, sent, hsends⟩ := h.sends hstate
    refine .quiet rfl ?_
    rw [(hsends.hand bytes).launched_eq, hsends.launched_eq]
    -- The script grows at its end, and what was sent is the part before that.
    have hscript : layOut p.firstByte ((p.sends ++ [bytes]).flatMap (chunks p.settings.mtu)) =
        p.script ++
          layOut (p.firstByte + p.pieces.flatten.length) (chunks p.settings.mtu bytes) := by
      rw [List.flatMap_append, List.flatMap_singleton, layOut_append]
      rfl
    show (layOut p.firstByte ((p.sends ++ [bytes]).flatMap (chunks p.settings.mtu))).take sent = _
    rw [hscript, List.take_append_of_le_length (by rw [length_script]; exact hsends.sent_le)]
  | @send _ _ _ chunk rest hstate hpeer hpending hroom hnext =>
    obtain ⟨-, acked, sent, hsends⟩ := h.sends hstate
    obtain ⟨hpiece, -⟩ := hsends.next_piece hpending
    have hscript : p.script[sent]? = some ⟨p.sendNext, chunk⟩ := by
      rw [getElem?_script, hpiece, hsends.next_eq, Option.map_some]
    refine .next (dataChunks_singleton rfl) (fun hmem ↦ ?_) ?_
    · exact absurd (hsends.seq_lt_of_mem_launched hmem) (Nat.lt_irrefl _)
    · rw [(hsends.send now hpending hroom hnext).launched_eq, hsends.launched_eq]
      show p.script.take (sent + 1) = _
      rw [List.take_add_one, hscript]
      rfl
  | resend hpeer hmem =>
    obtain ⟨-, acked, sent, hsends⟩ := h.sends (h.established_of_mem hmem)
    have hlaunched := hsends.mem_launched hmem
    exact .again (dataChunks_singleton rfl) hlaunched rfl

/-- Moves one after the other send the pieces in their order, each chunk counted once. -/
theorem Moves.eraseDups_eq (hmoves : Moves now input p r q) (h : p.Sound)
    (hsofar : sofar.eraseDups = p.launched) :
    (sofar ++ dataChunks r.packets).eraseDups = q.launched := by
  induction hmoves generalizing sofar with
  | none =>
    rw [show dataChunks (({} : Reaction)).packets = [] from rfl, List.append_nil, hsofar]
  | cons first _ ih =>
    rw [Reaction.packets_append, dataChunks_append, ← List.append_assoc]
    exact ih (h.move first) ((first.launches h).eraseDups_eq hsofar)

/-- What a party sends, each chunk once, are the pieces of its stream in order. -/
theorem Sound.eraseDups_performAll {inputs : List (Nat × Input)} {packets : List Packet}
    (h : p.Sound) (hsofar : sofar.eraseDups = p.launched)
    (hall : p.performAll inputs = .ok (q, packets)) :
    (sofar ++ dataChunks packets).eraseDups = q.launched := by
  induction inputs generalizing p sofar packets with
  | nil =>
    obtain ⟨rfl, rfl⟩ := Checked.pure_prod_eq_ok hall
    rw [show dataChunks [] = [] from rfl, List.append_nil, hsofar]
  | cons x rest ih =>
    obtain ⟨t, r, more, hfirst, hrest, rfl⟩ := exists_of_performAll_cons hall
    have hmoves := moves_of_perform hfirst
    rw [dataChunks_append, ← List.append_assoc]
    exact ih (h.moves hmoves) (hmoves.eraseDups_eq h hsofar) hrest

/-- A party answers for all the packets that it has sent. -/
theorem Sound.vouches_performAll {inputs : List (Nat × Input)} {packets : List Packet}
    (h : p.Sound) (hall : p.performAll inputs = .ok (q, packets)) :
    ∀ packet ∈ packets, q.Vouches packet := by
  induction inputs generalizing p packets with
  | nil =>
    obtain ⟨-, rfl⟩ := Checked.pure_prod_eq_ok hall
    exact fun _ hmem ↦ absurd hmem List.not_mem_nil
  | cons x rest ih =>
    obtain ⟨t, r, more, hfirst, hrest, rfl⟩ := exists_of_performAll_cons hall
    have hmoves := moves_of_perform hfirst
    have ht := h.moves hmoves
    intro packet hmem
    rcases List.mem_append.1 hmem with hnew | hlater
    · exact (hmoves.vouches h packet hnew).later (ht.performAll hrest).2.1
    · exact ih ht hrest packet hlater

/-! ### What is acknowledged with data -/

/-- Only what brings something of the peer's stream moves the edge. -/
theorem Move.edge_eq (hmove : Move now input p r q)
    (hinput : ∀ packet, input = .packet packet → packet.kind = .ack) : q.edge = p.edge := by
  cases hmove with
  | idle | connect | listen | answer | complete | acknowledge | acknowledged | hand | send |
    resend |
    retryOpening | retryAnswer | giveUp | read => rfl
  | @accept packet _ _ hkind | @opened packet _ _ hkind | @store packet _ _ hkind
  | @deliver packet _ _ _ hkind =>
    exact absurd (hkind.symm.trans (hinput packet rfl)) (by simp)

/-- A packet with data acknowledges all that has come. -/
theorem Move.ack_eq (hmove : Move now input p r q) :
    ∀ packet ∈ r.packets, packet.kind = .data → packet.ack = p.edge := by
  intro packet hpacket hkind
  cases hmove with
  | idle | listen | complete | acknowledged | hand | giveUp | read =>
    exact absurd hpacket List.not_mem_nil
  | connect | accept | opened | store | deliver =>
    obtain rfl := List.mem_singleton.1 hpacket
    exact absurd hkind (by simp)
  | answer | acknowledge | retryOpening | retryAnswer =>
    obtain ⟨peer, -, rfl⟩ := List.mem_map.1 hpacket
    exact absurd hkind (by simp)
  | send | resend =>
    obtain rfl := List.mem_singleton.1 hpacket
    rfl

/-- The edge stays where it is if no data comes, and no handshake begins. -/
theorem Moves.edge_eq (hmoves : Moves now input p r q)
    (hinput : ∀ packet, input = .packet packet → packet.kind = .ack) : q.edge = p.edge := by
  induction hmoves with
  | none => rfl
  | cons first _ ih => exact ih.trans (first.edge_eq hinput)

theorem Moves.ack_eq (hmoves : Moves now input p r q)
    (hinput : ∀ packet, input = .packet packet → packet.kind = .ack) :
    ∀ packet ∈ r.packets, packet.kind = .data → packet.ack = p.edge := by
  induction hmoves with
  | none => exact fun _ hmem ↦ absurd hmem List.not_mem_nil
  | cons first _ ih =>
    intro packet hmem hkind
    rw [Reaction.packets_append] at hmem
    rcases List.mem_append.1 hmem with hnow | hlater
    · exact first.ack_eq packet hnow hkind
    · exact (ih packet hlater hkind).trans (first.edge_eq hinput)

/-- Nothing of the stream is sent in answer to a packet that is no acknowledgement, as what is
pending finds no room. Only an acknowledgement makes room. -/
theorem Pumped.kind_ne_data {arrived : Packet} (h : p.Pumped) (hp : p.Sound)
    (hmoves : Moves now (.packet arrived) p r q) (hack : arrived.kind ≠ .ack) :
    ∀ packet ∈ r.packets, packet.kind ≠ .data := by
  generalize hinput : Input.packet arrived = input at hmoves
  induction hmoves with
  | none => exact fun _ hmem ↦ absurd hmem List.not_mem_nil
  | @cons p t _ s _ first _ ih =>
    subst hinput
    have ht := h.move hp first (fun _ heq ↦ absurd heq (by simp)) fun packet heq ↦
      Input.packet.inj heq ▸ hack
    have hfirst : ∀ packet ∈ s.packets, packet.kind ≠ .data := by
      intro packet hpacket
      cases first with
      | idle | complete | acknowledged => exact absurd hpacket List.not_mem_nil
      | accept | opened | store | deliver =>
        obtain rfl := List.mem_singleton.1 hpacket
        simp
      | answer | acknowledge =>
        obtain ⟨peer, -, rfl⟩ := List.mem_map.1 hpacket
        simp
      | send _ _ hpending hroom =>
        -- Nothing is pending or the window is full, so nothing is sent.
        rcases h with hnil | hfull
        · exact absurd (hnil.symm.trans hpending) (by simp)
        · exact absurd hroom (Nat.not_lt.2 hfull)
    intro packet hmem
    rw [Reaction.packets_append] at hmem
    rcases List.mem_append.1 hmem with hnow | hlater
    · exact hfirst packet hnow
    · exact ih ht (hp.move first) packet hlater

/-- A packet with data goes to the peer with which the party is established, and acknowledges the
edge at that moment. -/
theorem Sound.data_perform (h : p.Sound) (hpumped : p.Pumped)
    (hperform : p.perform now input = .ok (q, r)) :
    ∀ packet ∈ r.packets, packet.kind = .data →
      q.AttachedTo packet.destination ∧ packet.ack = p.edge ∧ q.edge = p.edge := by
  intro packet hmem hkind
  have hmoves := moves_of_perform hperform
  have hinput : ∀ arrived, input = .packet arrived → arrived.kind = .ack := by
    rintro arrived rfl
    by_contra hack
    exact hpumped.kind_ne_data h hmoves hack packet hmem hkind
  exact ⟨((hmoves.vouches h packet hmem).transfer (.inr hkind)).1,
    hmoves.ack_eq hinput packet hmem hkind, hmoves.edge_eq hinput⟩

/-! ### After any inputs -/

/-- What a party has sent is its stream. -/
structure Faithful (p : Party) (packets : List Packet) : Prop where
  /-- What was sent first are slices of the stream, in order and without gaps. The rest of the
  stream is pending. -/
  slices : ∃ slices : List Bytes, (dataChunks packets).eraseDups = layOut (p.isn + 1) slices ∧
    p.stream = slices.flatten ++ p.pending.flatten
  /-- A packet with data carries something, and no more than a packet may. -/
  length_payload : ∀ packet ∈ packets, packet.kind = .data →
    1 ≤ packet.payload.length ∧ packet.payload.length ≤ p.settings.mtu
  /-- That is what the stream has at its place. -/
  payload_eq : ∀ packet ∈ packets, packet.kind = .data → p.isn + 1 ≤ packet.seq ∧
    packet.payload = (p.stream.drop (packet.seq - (p.isn + 1))).take packet.payload.length
  /-- It goes to the peer with which the party is established. -/
  attached : ∀ packet ∈ packets, packet.kind = .data → p.AttachedTo packet.destination
  /-- Two packets with data at the same place carry the same. -/
  unique : ∀ packet ∈ packets, ∀ other ∈ packets, packet.kind = .data → other.kind = .data →
    packet.seq = other.seq → packet.payload = other.payload

/-- A party that answers for its packets, and has sent its stream in order, has sent its stream. -/
theorem Sound.faithful {packets : List Packet} (h : p.Sound)
    (hvouches : ∀ packet ∈ packets, p.Vouches packet)
    (heraseDups : (dataChunks packets).eraseDups = p.launched) : p.Faithful packets := by
  have hfirst := h.firstByte_eq
  have hpiece (packet : Packet) (hmem : packet ∈ packets) (hkind : packet.kind = .data) :
      ∃ (n : Nat) (hn : n < p.pieces.length), packet.seq = p.cutAt n ∧
        packet.payload = p.pieces[n] := by
    obtain ⟨n, hn, hchunk⟩ := mem_layOut.1 ((hvouches packet hmem).data hkind).1
    exact ⟨n, hn, (Chunk.mk.inj hchunk).1, (Chunk.mk.inj hchunk).2⟩
  refine
    { slices := heraseDups ▸ h.stream_eq
      length_payload := fun packet hmem hkind ↦ ?_
      payload_eq := fun packet hmem hkind ↦ ?_
      attached := fun packet hmem hkind ↦ ((hvouches packet hmem).transfer (.inr hkind)).1
      unique := fun packet hmem other hother hkind hkind' hseq ↦ ?_ }
  · obtain ⟨n, hn, -, hpayload⟩ := hpiece packet hmem hkind
    exact hpayload ▸ length_of_mem_pieces (List.getElem_mem hn)
  · obtain ⟨n, hn, hseq, hpayload⟩ := hpiece packet hmem hkind
    rw [cutAt_eq_add, hfirst] at hseq
    refine ⟨hseq ▸ Nat.le_add_right .., ?_⟩
    rw [hseq, Nat.add_sub_cancel_left, hpayload, ← p.flatten_pieces, take_drop_flatten hn]
  · obtain ⟨n, hn, hseq₁, hpayload₁⟩ := hpiece packet hmem hkind
    obtain ⟨m, hm, hseq₂, hpayload₂⟩ := hpiece other hother hkind'
    -- Pieces that start at one place are one piece, since none is empty.
    have hcut : p.cutAt n = p.cutAt m := by rw [← hseq₁, hseq, hseq₂]
    have heq : n = m := Nat.le_antisymm
      (p.le_of_cutAt_le_cutAt (Nat.le_of_lt hn) (Nat.le_of_eq hcut))
      (p.le_of_cutAt_le_cutAt (Nat.le_of_lt hm) (Nat.le_of_eq hcut.symm))
    subst heq
    rw [hpayload₁, hpayload₂]

/-- **Packets with data are slices of the stream.** After any inputs whatsoever a party has sent its
stream as far as it is not pending, each piece at its place whenever it was sent; and whatever comes
next, packets with data go to the established peer and acknowledge the edge at that moment. -/
theorem faithful_of_performAll {home : Endpoint} {settings : Connection.Settings}
    {valid : settings.Valid} {isn : Nat} (hisn : isn + 1 ≤ maxWord)
    {inputs : List (Nat × Input)} {packets : List Packet}
    (hall : (create home settings valid isn).performAll inputs = .ok (p, packets)) :
    p.settings = settings ∧ p.isn = isn ∧ p.Faithful packets ∧
      ∀ (now : Nat) (input : Input) (q : Party) (r : Reaction),
        p.perform now input = .ok (q, r) → ∀ packet ∈ r.packets, packet.kind = .data →
          q.AttachedTo packet.destination ∧ packet.ack = p.edge ∧ q.edge = p.edge := by
  have hcreate : (create home settings valid isn).Sound := sound_create hisn
  obtain ⟨hp, hlater, hpumped, -⟩ := hcreate.performAll hall
  have heraseDups : ([] ++ dataChunks packets).eraseDups = p.launched :=
    hcreate.eraseDups_performAll rfl hall
  rw [List.nil_append] at heraseDups
  exact ⟨hlater.settings_eq, hlater.isn_eq,
    hp.faithful (hcreate.vouches_performAll hall) heraseDups,
    fun now input q r hperform ↦ hp.data_perform (hpumped pumped_create) hperform⟩

/-- Of what the hostile peer gets the second chunk comes twice. -/
theorem faithful_hostile :
    ∃ p packets,
      (create ⟨10, 0, 0, 1, 4000⟩ { mtu := 2, window := 2 } ⟨by decide, by decide, by decide⟩
        100).performAll hostile = .ok (p, packets) ∧
      dataChunks packets = [⟨101, [1, 2]⟩, ⟨103, [3, 4]⟩, ⟨105, [5, 6]⟩, ⟨103, [3, 4]⟩] ∧
      p.stream = [1, 2, 3, 4, 5, 6, 7] ∧ p.pending = [[7]] ∧
      p.settings = { mtu := 2, window := 2 } ∧ p.isn = 100 ∧ p.Faithful packets ∧
      ∀ (now : Nat) (input : Input) (q : Party) (r : Reaction),
        p.perform now input = .ok (q, r) → ∀ packet ∈ r.packets, packet.kind = .data →
          q.AttachedTo packet.destination ∧ packet.ack = p.edge ∧ q.edge = p.edge := by
  have hrun : ((create ⟨10, 0, 0, 1, 4000⟩ { mtu := 2, window := 2 }
      ⟨by decide, by decide, by decide⟩ 100).performAll hostile).toOption.map (fun x ↦
        (dataChunks x.2, x.1.stream, x.1.pending)) =
      some ([⟨101, [1, 2]⟩, ⟨103, [3, 4]⟩, ⟨105, [5, 6]⟩, ⟨103, [3, 4]⟩],
        [1, 2, 3, 4, 5, 6, 7], [[7]]) := by
    decide +kernel
  obtain ⟨⟨p, packets⟩, hall, hfacts⟩ := Option.map_eq_some_iff.1 hrun
  rw [toOption_eq_some_iff] at hall
  obtain ⟨hchunks, hfacts⟩ := Prod.mk.inj hfacts
  obtain ⟨hstream, hpending⟩ := Prod.mk.inj hfacts
  exact ⟨p, packets, hall, hchunks, hstream, hpending, faithful_of_performAll (by decide) hall⟩

end Party

end ReliableStream
