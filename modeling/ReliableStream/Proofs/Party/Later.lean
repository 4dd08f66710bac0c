import ReliableStream.Proofs.Party.Sound

/-!
# What stays true of a party

A packet may arrive at any time after it was sent, and more than once. What it tells of its sender
has to be something that does not change any more.

`Later p q` says that `q` may be what became of `p`: the home, the settings and the initial sequence
number are the same, an established party stays so and keeps its peer, and the edge and the stream
only grow. Every move of a sound party leads to a later one (`Move.later`).

`Vouches p packet` is what a party answers for when a packet has left it. It holds of every packet
when it is sent (`Move.vouches`), and for ever after (`Vouches.later`).

That this suffices is the reason why nothing has to be said of the order in which packets arrive: an
old packet is as true as a new one, only less informative.
-/

namespace ReliableStream.Party

/-- The second party may be what became of the first one. -/
structure Later (p q : Party) : Prop where
  /-- It stays where it is. -/
  home_eq : q.home = p.home
  /-- The initial sequence number is fixed. -/
  isn_eq : q.isn = p.isn
  /-- The settings are fixed. -/
  settings_eq : q.settings = p.settings
  /-- Once established it stays so, with the same peer. -/
  attached : ∀ {peer}, p.AttachedTo peer → q.AttachedTo peer
  /-- What it has got it keeps. -/
  edge_le : p.state = .established → p.edge ≤ q.edge
  /-- What it was handed stays in its stream. -/
  sends_prefix : p.sends <+: q.sends
  /-- What was sent was sent. -/
  next_le : p.sendNext ≤ q.sendNext

namespace Later

variable {p q t : Party}

theorem refl (p : Party) : p.Later p where
  home_eq := rfl
  isn_eq := rfl
  settings_eq := rfl
  attached h := h
  edge_le _ := Nat.le_refl _
  sends_prefix := List.prefix_rfl
  next_le := Nat.le_refl _

theorem established (h : p.Later q) (hpeer : ∃ peer, p.peer = some peer)
    (hstate : p.state = .established) : q.state = .established := by
  obtain ⟨peer, hsome⟩ := hpeer
  exact (h.attached ⟨hstate, hsome⟩).1

/-- The stream may have grown at its end, and nowhere else. -/
theorem pieces_prefix (h : p.Later q) : p.pieces <+: q.pieces := by
  obtain ⟨more, hmore⟩ := h.sends_prefix
  rw [pieces, pieces, h.settings_eq, ← hmore, List.flatMap_append]
  exact List.prefix_append ..

theorem firstByte_eq (h : p.Later q) : q.firstByte = p.firstByte := by
  rw [Connection.firstByte, Connection.firstByte, h.isn_eq]

/-- The stream begins with the same pieces. -/
theorem take_pieces (h : p.Later q) {n : Nat} (hn : n ≤ p.pieces.length) :
    q.pieces.take n = p.pieces.take n := by
  obtain ⟨more, hmore⟩ := h.pieces_prefix
  rw [← hmore, List.take_append_of_le_length hn]

/-- The stream is cut into the same pieces if nothing was handed over meanwhile. -/
theorem pieces_eq (h : p.Later q) (hsends : q.sends = p.sends) : q.pieces = p.pieces := by
  rw [pieces, pieces, hsends, h.settings_eq]

/-- Then all of them stop where they stopped. -/
theorem cutAt_eq_of_sends_eq (h : p.Later q) (hsends : q.sends = p.sends) (n : Nat) :
    q.cutAt n = p.cutAt n := by
  rw [cutAt, cutAt, h.pieces_eq hsends, h.firstByte_eq]

/-- The pieces it had stop where they stopped. -/
theorem cutAt_eq (h : p.Later q) {n : Nat} (hn : n ≤ p.pieces.length) : q.cutAt n = p.cutAt n := by
  rw [cutAt, cutAt, cut, cut, h.firstByte_eq, h.take_pieces hn]

theorem mem_script (h : p.Later q) {chunk : Chunk} (hmem : chunk ∈ p.script) :
    chunk ∈ q.script := by
  obtain ⟨more, hmore⟩ := h.pieces_prefix
  rw [script, h.firstByte_eq, ← hmore, layOut_append]
  exact List.mem_append_left _ hmem

end Later

/-- What is later than a later party is later. An established party keeps its peer in both steps, if
it has one. -/
theorem Later.trans {p q t : Party} (h : p.Later q) (h' : q.Later t)
    (hpeer : p.state = .established → ∃ peer, p.peer = some peer) : p.Later t where
  home_eq := h'.home_eq.trans h.home_eq
  isn_eq := h'.isn_eq.trans h.isn_eq
  settings_eq := h'.settings_eq.trans h.settings_eq
  attached hattached := h'.attached (h.attached hattached)
  edge_le hstate := Nat.le_trans (h.edge_le hstate)
    (h'.edge_le (h.established (hpeer hstate) hstate))
  sends_prefix := h.sends_prefix.trans h'.sends_prefix
  next_le := Nat.le_trans h.next_le h'.next_le

/-! ### Moves lead to later parties -/

/-- Whatever happens to a party in a handshake, nothing was handed over and nothing got. So there is
little that could change. -/
theorem Later.of_not_established {p q : Party} (hstate : p.state ≠ .established)
    (hhome : q.home = p.home) (hisn : q.isn = p.isn) (hsettings : q.settings = p.settings)
    (hsends : q.sends = p.sends) (hnext : p.sendNext ≤ q.sendNext) : p.Later q where
  home_eq := hhome
  isn_eq := hisn
  settings_eq := hsettings
  attached h := absurd h.1 hstate
  edge_le h := absurd h hstate
  sends_prefix := hsends ▸ List.prefix_rfl
  next_le := hnext

/-- **Every move leads to a later party.** -/
theorem Move.later {now : Nat} {input : Input} {p q : Party} {r : Reaction}
    (hmove : Move now input p r q) (h : p.Sound) : p.Later q := by
  have hnext (hstate : p.state ≠ .established) : p.sendNext ≤ p.firstByte :=
    (h.blank hstate).next_le
  cases hmove with
  | idle | answer | acknowledge | retryOpening | retryAnswer => exact .refl p
  | connect hstate | accept _ hstate =>
    have hne : p.state ≠ .established := by simp [hstate]
    exact .of_not_established hne rfl rfl rfl rfl (hnext hne)
  | listen hstate | opened _ hstate | complete _ hstate =>
    exact .of_not_established (by simp [hstate]) rfl rfl rfl rfl (Nat.le_refl _)
  | giveUp hstate =>
    exact .of_not_established (by rcases hstate with hs | hs <;> simp [hs]) rfl rfl rfl rfl
      (Nat.le_refl _)
  | acknowledged | resend | read => exact { Later.refl p with }
  | @store packet | @deliver packet =>
    -- Draining moves the edge forward, whether or not it gives something out.
    have hedge : p.edge ≤ (p.reassembly.add ⟨packet.seq, packet.payload⟩).drain.2.edge := by
      rw [Connection.edge, ← Reassembly.edge_add ⟨packet.seq, packet.payload⟩]
      exact Reassembly.le_drain_edge (by rw [Reassembly.edge_add]; exact h.edge_le)
    exact { Later.refl p with edge_le := fun _ ↦ hedge }
  | hand => exact { Later.refl p with sends_prefix := List.prefix_append .. }
  | send => exact { Later.refl p with next_le := Nat.le_add_right .. }

theorem Moves.later {now : Nat} {input : Input} {p q : Party} {r : Reaction}
    (hmoves : Moves now input p r q) (h : p.Sound) : p.Later q := by
  induction hmoves with
  | none p => exact .refl p
  | cons first _ ih => exact (first.later h).trans (ih (h.move first)) fun hs ↦ (h.sends hs).1

/-! ### What a packet tells of its sender -/

/-- What a party answers for when a packet has left it. -/
structure Vouches (p : Party) (packet : Packet) : Prop where
  /-- It was sent from where the party is. -/
  source_eq : packet.source = p.home
  /-- A packet that opens a stream tells where the stream starts. -/
  opening : packet.kind = .syn ∨ packet.kind = .synAck →
    packet.seq = p.isn ∧ p.firstByte ≤ p.sendNext
  /-- A packet of an established party goes to its peer, and acknowledges what the party has got. -/
  transfer : packet.kind = .ack ∨ packet.kind = .data →
    p.AttachedTo packet.destination ∧ packet.ack ≤ p.edge
  /-- A packet with data carries a piece of the stream, one of those sent. -/
  data : packet.kind = .data →
    ⟨packet.seq, packet.payload⟩ ∈ p.script ∧ packet.seq < p.sendNext

theorem Vouches.later {p q : Party} {packet : Packet} (h : p.Vouches packet) (hlater : p.Later q) :
    q.Vouches packet where
  source_eq := h.source_eq.trans hlater.home_eq.symm
  opening hkind := by
    obtain ⟨hseq, hnext⟩ := h.opening hkind
    rw [hlater.isn_eq, hlater.firstByte_eq]
    exact ⟨hseq, Nat.le_trans hnext hlater.next_le⟩
  transfer hkind := by
    obtain ⟨hattached, hack⟩ := h.transfer hkind
    exact ⟨hlater.attached hattached, Nat.le_trans hack (hlater.edge_le hattached.1)⟩
  data hkind := by
    obtain ⟨hmem, hseq⟩ := h.data hkind
    exact ⟨hlater.mem_script hmem, Nat.lt_of_lt_of_le hseq hlater.next_le⟩

variable {p : Party} {peer : Endpoint}

/-- A packet of a handshake. -/
theorem vouches_opening {kind : Packet.Kind} {ack : Nat} {window : UInt16}
    (hkind : kind = .syn ∨ kind = .synAck) (hnext : p.firstByte ≤ p.sendNext) :
    p.Vouches ⟨p.home, peer, kind, p.isn, ack, window, []⟩ where
  source_eq := rfl
  opening _ := ⟨rfl, hnext⟩
  transfer h := by rcases hkind with rfl | rfl <;> rcases h with h | h <;> exact absurd h (by simp)
  data h := by rcases hkind with rfl | rfl <;> exact absurd h (by simp)

/-- An acknowledgement. -/
theorem vouches_ack {seq ack : Nat} {window : UInt16} (hattached : p.AttachedTo peer)
    (hack : ack ≤ p.edge) : p.Vouches ⟨p.home, peer, .ack, seq, ack, window, []⟩ where
  source_eq := rfl
  opening h := by rcases h with h | h <;> exact absurd h (by simp)
  transfer _ := ⟨hattached, hack⟩
  data h := absurd h (by simp)

/-- A packet with a piece of the stream. -/
theorem vouches_data {seq ack : Nat} {window : UInt16} {payload : Bytes}
    (hattached : p.AttachedTo peer) (hack : ack ≤ p.edge) (hmem : ⟨seq, payload⟩ ∈ p.script)
    (hseq : seq < p.sendNext) : p.Vouches ⟨p.home, peer, .data, seq, ack, window, payload⟩ where
  source_eq := rfl
  opening h := by rcases h with h | h <;> exact absurd h (by simp)
  transfer _ := ⟨hattached, hack⟩
  data _ := ⟨hmem, hseq⟩

/-- **A party answers for every packet when it is sent.** There is one case for each move that sends
something, and it is of one of three kinds: of the handshake, an acknowledgement, or a piece of the
stream. -/
theorem Move.vouches {now : Nat} {input : Input} {p q : Party} {r : Reaction}
    (hmove : Move now input p r q) (h : p.Sound) : ∀ packet ∈ r.packets, q.Vouches packet := by
  intro packet hpacket
  have hq : q.Sound := h.move hmove
  cases hmove with
  | idle | listen | complete | acknowledged | hand | giveUp | read =>
    exact absurd hpacket List.not_mem_nil
  | connect =>
    obtain rfl := List.mem_singleton.1 hpacket
    exact vouches_opening (.inl rfl) (Nat.le_refl _)
  | accept =>
    obtain rfl := List.mem_singleton.1 hpacket
    exact vouches_opening (.inr rfl) (Nat.le_refl _)
  | answer _ hstate | retryAnswer hstate =>
    obtain ⟨peer, -, rfl⟩ := List.mem_map.1 hpacket
    exact vouches_opening (.inr rfl) (Nat.le_of_eq (h.opening (.inr hstate)).1.symm)
  | retryOpening hstate =>
    obtain ⟨peer, -, rfl⟩ := List.mem_map.1 hpacket
    exact vouches_opening (.inl rfl) (Nat.le_of_eq (h.opening (.inl hstate)).1.symm)
  | opened hkind hstate hpeer =>
    obtain rfl := List.mem_singleton.1 hpacket
    exact vouches_ack ⟨rfl, hpeer⟩ (Nat.le_refl _)
  | acknowledge hkind hstate hpeer =>
    obtain ⟨peer, hmem, rfl⟩ := List.mem_map.1 hpacket
    exact vouches_ack ⟨hstate, Option.mem_toList.1 hmem⟩ (Nat.le_refl _)
  | store hkind hstate hpeer | deliver hkind hstate hpeer =>
    obtain rfl := List.mem_singleton.1 hpacket
    exact vouches_ack ⟨hstate, hpeer⟩ (Nat.le_refl _)
  | @send _ _ _ chunk rest hstate hpeer hpending hroom hnext =>
    obtain rfl := List.mem_singleton.1 hpacket
    obtain ⟨-, acked, sent, hsends⟩ := h.sends hstate
    obtain ⟨hpiece, -⟩ := hsends.next_piece hpending
    -- The packet carries the piece that comes next in the script.
    have hscript : p.script[sent]? = some ⟨p.sendNext, chunk⟩ := by
      rw [getElem?_script, hpiece, hsends.next_eq, Option.map_some]
    have hpos : 0 < chunk.length := (length_of_mem_pieces (List.mem_of_getElem? hpiece)).1
    exact vouches_data ⟨hstate, hpeer⟩ (Nat.le_refl _) (List.mem_of_getElem? hscript)
      (Nat.lt_add_of_pos_right hpos)
  | resend hpeer hmem =>
    obtain rfl := List.mem_singleton.1 hpacket
    have hstate : p.state = .established := h.established_of_mem hmem
    obtain ⟨-, acked, sent, hsends⟩ := h.sends hstate
    have hscript := hsends.chunk_mem hmem
    have hseq := hsends.seq_lt_next hmem
    exact vouches_data ⟨hstate, hpeer⟩ (Nat.le_refl _) hscript hseq

/-- So it does for all that it sends by moves one after the other, with the party at the end. -/
theorem Moves.vouches {now : Nat} {input : Input} {p q : Party} {r : Reaction}
    (hmoves : Moves now input p r q) (h : p.Sound) : ∀ packet ∈ r.packets, q.Vouches packet := by
  induction hmoves with
  | none => exact fun packet hpacket ↦ absurd hpacket List.not_mem_nil
  | cons first rest ih =>
    intro packet hpacket
    rw [Reaction.packets_append] at hpacket
    rcases List.mem_append.1 hpacket with hfirst | hrest
    · exact (first.vouches h packet hfirst).later (rest.later (h.move first))
    · exact ih (h.move first) packet hrest

end ReliableStream.Party
