import Mathlib.Data.List.Chain
import ReliableStream.Proofs.Party.Later
import ReliableStream.Proofs.Party.Pump

/-!
# The window of a sender

Whatever is asked of a party and whatever reaches it, in any order: the segments in flight lie one
after the other, up to the next new byte and not before the last place acknowledged; there are no
more of them than the window allows, and exactly as many while anything is pending. The last place
acknowledged never goes back (`Moves.base_le`), however old an acknowledgement is that arrives.

Most of it follows from `Sends`, which counts pieces: the segments in flight are a run of pieces,
and a run of pieces has no gaps.

That the last place acknowledged never goes back is of another kind, as it compares two
instants. It is shown of single moves, and holds of an established party only: a new handshake
begins anew.
-/

namespace ReliableStream.Party

variable {now : Nat} {input : Input} {p q : Party} {r : Reaction} {acked sent : Nat}

/-! ### The segments in flight -/

/-- The segments in flight, by the numbers of the pieces that they carry. -/
theorem Sends.chunk_getElem (h : p.Sends acked sent) {n : Nat} (hn : n < p.inFlight.toList.length) :
    ∃ hlt : acked + n < p.pieces.length,
      p.inFlight.toList[n].chunk = ⟨p.cutAt (acked + n), p.pieces[acked + n]⟩ := by
  have hsize : p.inFlight.toList.length = sent - acked := h.size_eq
  have hget := congrArg (·[n]?) h.inFlight_eq
  have hsent := h.sent_le
  have hlt : acked + n < p.pieces.length := by omega
  rw [List.getElem?_map, List.getElem?_eq_getElem hn, List.getElem?_drop, List.getElem?_take,
    if_pos (by omega), getElem?_script, List.getElem?_eq_getElem hlt] at hget
  exact ⟨hlt, by simpa using hget⟩

/-- A segment in flight stops where the piece that it carries stops. -/
theorem Sends.stop_getElem (h : p.Sends acked sent) {n : Nat}
    (hn : n < p.inFlight.toList.length) :
    p.inFlight.toList[n].stop = p.cutAt (acked + n + 1) := by
  obtain ⟨hlt, hchunk⟩ := h.chunk_getElem hn
  obtain ⟨hseq, hpayload⟩ := Chunk.mk.inj hchunk
  have hcut : p.cutAt (acked + n + 1) = p.cutAt (acked + n) + p.pieces[acked + n].length :=
    cut_succ hlt
  have hword : p.cutAt (acked + n + 1) ≤ maxWord := by
    have hsize : p.inFlight.toList.length = sent - acked := h.size_eq
    have hle : p.cutAt (acked + n + 1) ≤ p.cutAt sent := p.cutAt_le_cutAt (by omega)
    exact Nat.le_trans hle (h.next_eq ▸ h.next_le)
  rw [Segment.stop, hseq, hpayload, saturatingAdd_of_le (hcut ▸ hword), hcut]

/-- One segment in flight stops where the next one starts. -/
theorem Sends.isChain (h : p.Sends acked sent) :
    p.inFlight.toList.IsChain fun s t ↦ s.stop = t.seq := by
  refine List.isChain_iff_getElem.2 fun n hn ↦ ?_
  rw [h.stop_getElem (Nat.lt_of_succ_lt hn), h.seq_getElem hn, Nat.add_assoc]

/-- The last segment in flight stops where the next new byte comes. -/
theorem Sends.stop_getLast? (h : p.Sends acked sent) :
    ∀ s ∈ p.inFlight.toList.getLast?, s.stop = p.sendNext := by
  intro s hs
  have hsize : p.inFlight.toList.length = sent - acked := h.size_eq
  rw [List.getLast?_eq_getElem?, Option.mem_def] at hs
  obtain ⟨hn, rfl⟩ := List.getElem?_eq_some_iff.1 hs
  rw [h.stop_getElem hn, h.next_eq, show acked + (p.inFlight.toList.length - 1) + 1 = sent by omega]

/-- No segment in flight starts before the last place acknowledged. -/
theorem Sends.base_le_seq (h : p.Sends acked sent) {s : Segment} (hs : s ∈ p.inFlight.toList) :
    p.sendBase ≤ s.seq :=
  Nat.le_trans h.base_le (h.cutAt_le_seq hs)

/-- Only what was sent is acknowledged. -/
theorem Sends.base_le_next (h : p.Sends acked sent) : p.sendBase ≤ p.sendNext := by
  rw [h.next_eq]
  exact Nat.le_trans h.base_le (p.cutAt_le_cutAt h.acked_le)

/-! ### The last place acknowledged -/

/-- An acknowledgement that takes something out of flight is a later one. -/
theorem Move.base_le (hmove : Move now input p r q) (h : p.Sound)
    (hstate : p.state = .established) : p.sendBase ≤ q.sendBase := by
  cases hmove with
  | idle | answer | acknowledge | store | deliver | hand | send | resend | retryOpening |
    retryAnswer | giveUp | read => exact Nat.le_refl _
  | connect hother | listen hother | accept _ hother | opened _ hother | complete _ hother =>
    exact absurd (hstate.symm.trans hother) (by simp)
  | @acknowledged packet _ _ _ _ _ hsome =>
    obtain ⟨-, acked, sent, hsends⟩ := h.sends hstate
    obtain ⟨s, hs⟩ := List.exists_mem_of_ne_nil _ hsome
    obtain ⟨hmem, hlt⟩ := InFlight.mem_acknowledge_fst.1 hs
    exact Nat.le_trans (hsends.base_le_seq hmem) (Nat.le_of_lt hlt)

theorem Moves.base_le (hmoves : Moves now input p r q) (h : p.Sound)
    (hstate : p.state = .established) : p.sendBase ≤ q.sendBase := by
  induction hmoves with
  | none => exact Nat.le_refl _
  | cons first _ ih =>
    have hstate' := (first.later h).established (h.sends hstate).1 hstate
    exact Nat.le_trans (first.base_le h hstate) (ih (h.move first) hstate')

/-! ### After any inputs -/

/-- The window of a sender is in order. -/
structure KeepsWindow (p : Party) : Prop where
  /-- Only what was sent is acknowledged. -/
  base_le : p.sendBase ≤ p.sendNext
  /-- No more is in flight than the window allows. -/
  size_le : p.inFlight.size ≤ p.settings.window
  /-- Before the handshake is done nothing is in flight or in line. -/
  blank : p.state ≠ .established → p.inFlight.toList = [] ∧ p.pending = []
  /-- Afterwards the next new byte follows all the bytes sent. -/
  next_eq : p.state = .established → p.sendNext = p.isn + 1 + p.stats.bytesSent
  /-- One segment in flight stops where the next one starts. -/
  isChain : p.inFlight.toList.IsChain fun s t ↦ s.stop = t.seq
  /-- The last one stops where the next new byte comes. -/
  stop_last : ∀ s ∈ p.inFlight.toList.getLast?, s.stop = p.sendNext
  /-- The first one does not start before the last place acknowledged. -/
  base_le_first : ∀ s ∈ p.inFlight.toList.head?, p.sendBase ≤ s.seq
  /-- Each carries something, and no more than a packet may. -/
  length_payload : ∀ s ∈ p.inFlight.toList,
    1 ≤ s.payload.length ∧ s.payload.length ≤ p.settings.mtu
  /-- While anything is pending the window is full. -/
  full : p.pending ≠ [] → p.inFlight.size = p.settings.window

/-- The window of a party that has done with its inputs is in order. -/
theorem Sound.keepsWindow (h : p.Sound) (hpumped : p.Pumped) (hnext : p.isn ≤ p.sendNext) :
    p.KeepsWindow := by
  by_cases hstate : p.state = .established
  · obtain ⟨-, acked, sent, hsends⟩ := h.sends hstate
    have hfirst := h.firstByte_eq
    have hbytes := hsends.bytesSent_eq
    exact
      { base_le := hsends.base_le_next
        size_le := hsends.size_le
        blank := fun hne ↦ absurd hstate hne
        next_eq := fun _ ↦ by omega
        isChain := hsends.isChain
        stop_last := hsends.stop_getLast?
        base_le_first := fun s hs ↦ hsends.base_le_seq (List.mem_of_mem_head? hs)
        length_payload := fun s hs ↦ by
          obtain ⟨n, hlt, hchunk⟩ := mem_layOut.1 (hsends.chunk_mem hs)
          rw [(Chunk.mk.inj hchunk).2]
          exact length_of_mem_pieces (List.getElem_mem hlt)
        full := fun hne ↦ Nat.le_antisymm hsends.size_le (hpumped.resolve_left hne) }
  · -- Before a party is established nothing is in flight and nothing waits, so most of it says
    -- nothing.
    have hblank : p.Blank := h.blank hstate
    have hnone : p.inFlight.toList = [] := hblank.inFlight_eq
    exact
      { base_le := hblank.base_eq ▸ hnext
        size_le := by
          rw [Ascending.size, hnone]
          exact Nat.zero_le _
        blank := fun _ ↦ ⟨hnone, hblank.pending_eq⟩
        next_eq := fun hs ↦ absurd hs hstate
        isChain := hnone ▸ List.IsChain.nil
        stop_last := fun s hs ↦ by simp [hnone] at hs
        base_le_first := fun s hs ↦ by simp [hnone] at hs
        length_payload := fun s hs ↦ absurd (hnone ▸ hs) List.not_mem_nil
        full := fun hne ↦ absurd hblank.pending_eq hne }

/-- What every input keeps, given that the party is sound, is kept by inputs one after the other. -/
theorem Sound.performAll {inputs : List (Nat × Input)} {packets : List Packet} (h : p.Sound)
    (hall : p.performAll inputs = .ok (q, packets)) :
    q.Sound ∧ p.Later q ∧ (p.Pumped → q.Pumped) ∧
      (p.state = .established → p.sendBase ≤ q.sendBase) := by
  induction inputs generalizing p packets with
  | nil =>
    obtain ⟨rfl, -⟩ := Checked.pure_prod_eq_ok hall
    exact ⟨h, .refl p, id, fun _ ↦ Nat.le_refl _⟩
  | cons x rest ih =>
    obtain ⟨t, r, more, hfirst, hrest, -⟩ := exists_of_performAll_cons hall
    have hmoves := moves_of_perform hfirst
    have hlater := hmoves.later h
    obtain ⟨hq, hlater', hpumped, hbase⟩ := ih (h.moves hmoves) hrest
    refine ⟨hq, hlater.trans hlater' fun hs ↦ (h.sends hs).1,
      fun hp ↦ hpumped (hp.perform h hfirst), fun hs ↦ ?_⟩
    exact Nat.le_trans (hmoves.base_le h hs) (hbase (hlater.established (h.sends hs).1 hs))

/-- **The window of a sender.** After any inputs whatsoever the window is in order, with no room
while anything is pending; and from when the party is established on, the last place acknowledged
never goes back. -/
theorem keepsWindow_of_performAll {home : Endpoint} {settings : Connection.Settings}
    {valid : settings.Valid} {isn : Nat} (hisn : isn + 1 ≤ maxWord)
    {inputs : List (Nat × Input)} {packets : List Packet}
    (hall : (create home settings valid isn).performAll inputs = .ok (p, packets)) :
    p.settings = settings ∧ p.isn = isn ∧ p.KeepsWindow ∧
      ∀ (more : List (Nat × Input)) (q : Party) (packets' : List Packet),
        p.state = .established → p.performAll more = .ok (q, packets') →
          q.state = .established ∧ p.sendBase ≤ q.sendBase := by
  obtain ⟨hp, hlater, hpumped, -⟩ := (sound_create hisn).performAll hall
  have hnext : p.isn ≤ p.sendNext := hlater.isn_eq ▸ hlater.next_le
  refine ⟨hlater.settings_eq, hlater.isn_eq, hp.keepsWindow (hpumped pumped_create) hnext,
    fun more q packets' hstate hmore ↦ ?_⟩
  obtain ⟨-, hlater', -, hbase⟩ := hp.performAll hmore
  exact ⟨hlater'.established (hp.sends hstate).1 hstate, hbase hstate⟩

/-- A party that opens a connection and sends seven bytes, with acknowledgements in the middle of a
segment, of nothing new and of what was not sent, and with an opening and an alarm that come too
late. -/
def hostile : List (Nat × Input) :=
  let peer : Endpoint := ⟨10, 0, 0, 2, 80⟩
  let home : Endpoint := ⟨10, 0, 0, 1, 4000⟩
  [(0, .connect peer),
    (1, .packet { source := peer, destination := home, kind := .synAck, seq := 900, ack := 101 }),
    (1, .send [1, 2, 3, 4, 5, 6, 7]),
    (2, .packet { source := peer, destination := home, kind := .ack, ack := 102 }),
    (2, .packet { source := peer, destination := home, kind := .ack, ack := 101 }),
    (3, .packet { source := peer, destination := home, kind := .ack, ack := 5000 }),
    (3, .packet { source := peer, destination := home, kind := .syn, seq := 7 }),
    (4, .alarm (.segment 101 0)),
    (4, .alarm (.segment 103 0))]

/-- The acknowledgement in the middle of the first segment takes it out of flight, and the third one
goes out in its place; the fourth one stays pending. -/
theorem keepsWindow_hostile :
    ∃ p packets,
      (create ⟨10, 0, 0, 1, 4000⟩ { mtu := 2, window := 2 } ⟨by decide, by decide, by decide⟩
        100).performAll hostile = .ok (p, packets) ∧
      (p.state, p.sendBase, p.inFlight.toList.map fun s ↦ (s.seq, s.resends), p.pending) =
        (.established, 102, [(103, 1), (105, 0)], [[7]]) ∧
      p.settings = { mtu := 2, window := 2 } ∧ p.isn = 100 ∧ p.KeepsWindow ∧
      ∀ (more : List (Nat × Input)) (q : Party) (packets' : List Packet),
        p.state = .established → p.performAll more = .ok (q, packets') →
          q.state = .established ∧ p.sendBase ≤ q.sendBase := by
  have hrun : ((create ⟨10, 0, 0, 1, 4000⟩ { mtu := 2, window := 2 }
      ⟨by decide, by decide, by decide⟩ 100).performAll hostile).toOption.map (fun x ↦
        (x.1.state, x.1.sendBase, x.1.inFlight.toList.map fun s ↦ (s.seq, s.resends),
          x.1.pending)) = some (.established, 102, [(103, 1), (105, 0)], [[7]]) := by
    decide +kernel
  obtain ⟨⟨p, packets⟩, hall, hfacts⟩ := Option.map_eq_some_iff.1 hrun
  rw [toOption_eq_some_iff] at hall
  exact ⟨p, packets, hall, hfacts, keepsWindow_of_performAll (by decide) hall⟩

end ReliableStream.Party
