import ReliableStream.Proofs.Party.Sound

/-!
# The window stays full

Whenever a party has done with an input, either nothing is pending or the window is full
(`Pumped.perform`). This is no invariant of single moves: what is handed over is pending first, and
an acknowledgement makes room first. It holds since both run the pump at their end.

The pump only fails if some piece has no place in the stream (`Sends.exists_pump_eq_ok`), and it
changes nothing but how many pieces are sent (`Sends.pump`).

It is the statement that lets `KeepsWindow` say that exactly as many segments are in flight as the
window allows while anything is pending, and it rules out that data is sent in answer to data.
-/

namespace ReliableStream.Party

variable {now : Nat} {input : Input} {p q : Party} {r : Reaction} {acked sent : Nat}

/-- Nothing is pending that the window has room for. -/
def Pumped (p : Party) : Prop := p.pending = [] ∨ p.settings.window ≤ p.inFlight.size

/-- If nothing is in flight then nothing is pending. -/
theorem Pumped.pending_eq_nil (h : p.Pumped) (hempty : p.inFlight.toList = []) :
    p.pending = [] := by
  refine h.resolve_right fun hfull ↦ ?_
  have hpos := p.valid.window_pos
  rw [Ascending.size, hempty, List.length_nil] at hfull
  omega

/-! ### What the pump does -/

/-- Sending from a line raises the number of pieces sent, and stops when the line is empty or the
window is full. -/
theorem Sends.sendChunks {peer : Endpoint} {line : List Bytes} {c : Connection} {effects : Effects}
    (h : ({ p with pending := line } : Party).Sends acked sent)
    (hsend : Connection.sendChunks now peer line p.toConnection = .ok (c, effects)) :
    ∃ sent', sent ≤ sent' ∧ ({ p with toConnection := c } : Party).Sends acked sent' ∧
      c.state = p.state ∧ c.peer = p.peer ∧ c.sendBase = p.sendBase := by
  induction line generalizing p sent effects with
  | nil =>
    obtain ⟨rfl, rfl⟩ := Checked.pure_prod_eq_ok hsend
    exact ⟨sent, Nat.le_refl _, h, rfl, rfl, rfl⟩
  | cons chunk rest ih =>
    rw [Connection.sendChunks] at hsend
    split at hsend
    · next hroom =>
      obtain ⟨⟨c₁, first⟩, hfirst, hrest⟩ := Checked.bind_eq_ok_iff.1 hsend
      obtain ⟨⟨c₂, more⟩, hmore, hpure⟩ := Checked.bind_eq_ok_iff.1 hrest
      obtain ⟨rfl, rfl⟩ := Checked.pure_prod_eq_ok hpure
      obtain ⟨hnext, -, rfl, -⟩ := Connection.sendChunk_eq_ok hfirst
      -- The first piece is in flight, and the line is shorter by it.
      have hsent := h.send now rfl hroom hnext
      obtain ⟨sent', hle, hsends, hstate, hpeer, hbase⟩ := ih (p := { p with
        sendNext := p.sendNext + chunk.length
        inFlight := p.inFlight.insert ⟨p.sendNext, chunk, now, 0⟩
        stats := { p.stats with bytesSent := p.stats.bytesSent + chunk.length } }) hsent hmore
      exact ⟨sent', Nat.le_of_succ_le hle, hsends, hstate, hpeer, hbase⟩
    · obtain ⟨rfl, rfl⟩ := Checked.pure_prod_eq_ok hsend
      exact ⟨sent, Nat.le_refl _, h, rfl, rfl, rfl⟩

/-- The pump changes nothing but how many pieces are sent. -/
theorem Sends.pump {c : Connection} {effects : Effects} (h : p.Sends acked sent)
    (hpump : p.pump now = .ok (c, effects)) :
    ∃ sent', sent ≤ sent' ∧ ({ p with toConnection := c } : Party).Sends acked sent' ∧
      c.state = p.state ∧ c.peer = p.peer ∧ c.sendBase = p.sendBase := by
  rw [Connection.pump] at hpump
  split at hpump
  · exact h.sendChunks hpump
  · obtain ⟨rfl, rfl⟩ := Checked.pure_prod_eq_ok hpump
    exact ⟨sent, Nat.le_refl _, h, rfl, rfl, rfl⟩

/-- The pump does not fail if every byte handed over has a place in the stream. -/
theorem Sends.exists_pump_eq_ok (now : Nat) (h : p.Sends acked sent)
    (hfit : p.firstByte + p.stream.length ≤ maxWord) :
    ∃ c effects, p.pump now = .ok (c, effects) := by
  have hline : p.sendNext + p.pending.flatten.length = p.firstByte + p.stream.length := by
    rw [h.next_eq, h.pending_eq, cutAt_eq_add, p.stream_eq_append sent, List.length_append,
      Nat.add_assoc]
  have hsent := h.bytesSent_eq
  rw [Connection.pump]
  split
  · exact Connection.exists_sendChunks_eq_ok (by omega) (by omega)
  · exact ⟨_, _, rfl⟩

theorem pumped_of_pump {c : Connection} {effects : Effects} (hpeer : ∃ peer, p.peer = some peer)
    (h : p.pump now = .ok (c, effects)) : ({ p with toConnection := c } : Party).Pumped := by
  obtain ⟨peer, hsome⟩ := hpeer
  rw [Connection.pump, hsome] at h
  exact Connection.sendChunks_full h

/-! ### After every input -/

/-- Moves that neither hand bytes over nor acknowledge any leave the window as it is. -/
theorem Pumped.move (h : p.Pumped) (hp : p.Sound) (hmove : Move now input p r q)
    (hsend : ∀ bytes, input ≠ .send bytes)
    (hack : ∀ packet, input = .packet packet → packet.kind ≠ .ack) : q.Pumped := by
  cases hmove with
  | idle | connect | listen | accept | answer | opened | complete | acknowledge | store | deliver |
    retryOpening | retryAnswer | giveUp | read => exact h
  | @acknowledged packet _ hkind => exact absurd hkind (hack packet rfl)
  | @hand bytes => exact absurd rfl (hsend bytes)
  | send hstate hpeer hpending hroom =>
    -- The window has no room while something is pending.
    rcases h with hnil | hfull
    · exact absurd (hnil.symm.trans hpending) (by simp)
    · exact absurd hroom (Nat.not_lt.2 hfull)
  | @resend _ _ segment _ hpeer hmem =>
    refine h.imp_right fun hfull ↦ Nat.le_trans hfull (Nat.le_of_eq ?_)
    obtain ⟨-, acked, sent, hsends⟩ := hp.sends (hp.established_of_mem hmem)
    have hagain := hsends.resend hmem
      ⟨segment.seq, segment.payload, now, segment.resends + 1⟩ rfl (p.stats.resends + 1)
    exact hsends.size_eq.trans hagain.size_eq.symm

/-- So it is after moves of which none hands bytes over or takes any out of flight. -/
theorem Pumped.moves (h : p.Pumped) (hp : p.Sound) (hmoves : Moves now input p r q)
    (hsend : ∀ bytes, input ≠ .send bytes)
    (hack : ∀ packet, input = .packet packet → packet.kind ≠ .ack) : q.Pumped := by
  induction hmoves with
  | none => exact h
  | cons first _ ih => exact ih (h.move hp first hsend hack) (hp.move first)

/-- Bytes that are handed over are sent as far as the window has room. -/
theorem Pumped.perform_send {bytes : Bytes} (h : p.Pumped) (hp : p.Sound)
    (hperform : p.perform now (.send bytes) = .ok (q, r)) : q.Pumped := by
  rw [perform, Connection.send] at hperform
  by_cases hstate : p.state = .established
  · rw [if_pos hstate] at hperform
    obtain ⟨⟨c, effects⟩, hpump, hpure⟩ := Checked.bind_eq_ok_iff.1 hperform
    obtain ⟨rfl, -⟩ := Checked.pure_prod_eq_ok hpure
    exact pumped_of_pump (p := { p with pending := p.pending ++ chunks p.settings.mtu bytes })
      (hp.sends hstate).1 hpump
  · rw [if_neg hstate] at hperform
    obtain ⟨rfl, -⟩ := Checked.pure_prod_eq_ok hperform
    exact h

/-- The room that an acknowledgement makes is used. -/
theorem Pumped.onAck {ack : Nat} {c : Connection} {effects : Effects} (h : p.Pumped)
    (hpeer : ∃ peer, p.peer = some peer) (hack : p.onAck now ack = .ok (c, effects)) :
    ({ p with toConnection := c } : Party).Pumped := by
  rcases Connection.onAck_eq_ok hack with ⟨rfl, -⟩ | ⟨-, -, sent, hpump, -⟩
  · exact h
  · exact pumped_of_pump (p := { p with
      inFlight := (p.inFlight.acknowledge ack).2, sendBase := ack }) hpeer hpump

theorem pumped_completeHandshake (h : p.Pumped) (ack : Nat) :
    ({ p with toConnection := (p.completeHandshake ack).1 } : Party).Pumped := by
  rw [Connection.completeHandshake]
  split
  · split
    · exact h
    · exact h
  · exact h

/-- An acknowledgement completes the handshake first, if that is not done, and then makes room,
which is used. -/
theorem Pumped.perform_ack {packet : Packet} (h : p.Pumped) (hp : p.Sound)
    (hkind : packet.kind = .ack) (hperform : p.perform now (.packet packet) = .ok (q, r)) :
    q.Pumped := by
  obtain ⟨⟨c, reaction⟩, hpacket, hpure⟩ := Checked.bind_eq_ok_iff.1 hperform
  obtain ⟨rfl, -⟩ := Checked.pure_prod_eq_ok hpure
  rw [Connection.onPacket] at hpacket
  split at hpacket
  · obtain ⟨rfl, -⟩ := Checked.pure_prod_eq_ok hpacket
    exact h
  · next hdrop =>
    obtain ⟨⟨c', read⟩, hadmitted, hpure'⟩ := Checked.bind_eq_ok_iff.1 hpacket
    obtain ⟨rfl, -⟩ := Checked.pure_prod_eq_ok hpure'
    rw [Connection.onAdmitted, hkind] at hadmitted
    dsimp only [Connection.onceEstablished] at hadmitted
    split at hadmitted
    · next hstate =>
      obtain ⟨⟨c₁, reaction₁⟩, hnext, hpure₁⟩ := Checked.bind_eq_ok_iff.1 hadmitted
      obtain ⟨⟨c₂, effects⟩, hack, hpure₂⟩ := Checked.bind_eq_ok_iff.1 hnext
      obtain ⟨rfl, -⟩ := Checked.pure_prod_eq_ok hpure₁
      obtain ⟨rfl, -⟩ := Checked.pure_prod_eq_ok hpure₂
      -- By now the handshake is done, and the acknowledgement makes room.
      refine Pumped.onAck (p := { p with toConnection := (p.completeHandshake packet.ack).1 })
        (pumped_completeHandshake h packet.ack) ?_ hack
      have hmoves : Moves now (.packet packet) p _ _ :=
        moves_completeHandshake (.inl hkind) (admitted_of_dropNote? hdrop)
      exact ((hp.moves hmoves).sends hstate).1
    · obtain ⟨rfl, -⟩ := Checked.pure_prod_eq_ok hadmitted
      exact pumped_completeHandshake h packet.ack

/-- **The window stays full.** After any input nothing is pending that the window has room for, if
that was so before. -/
theorem Pumped.perform (h : p.Pumped) (hp : p.Sound) (hperform : p.perform now input = .ok (q, r)) :
    q.Pumped := by
  by_cases hsend : ∃ bytes, input = .send bytes
  · obtain ⟨bytes, rfl⟩ := hsend
    exact h.perform_send hp hperform
  by_cases hack : ∃ packet, input = .packet packet ∧ packet.kind = .ack
  · obtain ⟨packet, rfl, hkind⟩ := hack
    exact h.perform_ack hp hkind hperform
  · exact h.moves hp (moves_of_perform hperform) (fun bytes heq ↦ hsend ⟨bytes, heq⟩)
      fun packet heq hkind ↦ hack ⟨packet, heq, hkind⟩

theorem pumped_create {home : Endpoint} {settings : Connection.Settings} {valid : settings.Valid}
    {isn : Nat} : (create home settings valid isn).Pumped := .inl rfl

end ReliableStream.Party
