import ReliableStream.Proofs.Party.Turn

/-!
# How a party goes on when no alarm rings

What is asked of a party and what arrives sets things going, but repeats nothing. `Proceeds` says
what that comes to: nothing is sent again, no handshake fails, what is newly in flight was sent just
now for the first time, and what is acknowledged is at least what the party had got before. It holds
of every turn that is not due to an alarm (`Turn.proceeds`).

Much of what arrives changes nothing. A packet that a party `Ignores` in its present state leaves it
as it is (`Ignores.eq_of_turn`), and one without data leaves alone what has been received
(`Turn.reassembly_eq`).
-/

namespace ReliableStream

/-- The delay of an alarm, by what it watches. -/
def Alarm.Watch.delay (settings : Connection.Settings) : Alarm.Watch → Nat
  | .segment .. | .handshakeRetry _ => settings.rto
  | .handshakeDeadline _ => settings.handshakeTimeout

namespace Party

variable {now : Nat} {input : Input} {packet : Packet} {p q t : Party} {r s : Reaction}

/-- How a party goes on when no alarm rings. -/
structure Proceeds (now : Nat) (p : Party) (r : Reaction) (q : Party) : Prop where
  /-- It becomes a later party. -/
  later : p.Later q
  /-- Nothing is sent again. -/
  resends_eq : q.stats.resends = p.stats.resends
  /-- No handshake fails. -/
  noFailure : .handshakeFailed ∉ r.traces
  /-- What is newly in flight was sent now, for the first time and after all that was sent before.
  -/
  segments : ∀ x ∈ q.inFlight.toList, x ∈ p.inFlight.toList ∨
    p.sendNext ≤ x.seq ∧ x.sentAt = now ∧ x.resends = 0 ∧
      ∃ packet ∈ r.packets, packet.kind = .data ∧ packet.seq = x.seq
  /-- What is acknowledged includes all that was got before. -/
  edge_le_ack : p.state = .established → ∀ packet ∈ r.packets,
    packet.kind = .ack ∨ packet.kind = .data → p.edge ≤ packet.ack
  /-- The alarms have the delays that the settings say. -/
  delay_eq : ∀ alarm ∈ r.alarms, alarm.delay = alarm.watch.delay p.settings

namespace Proceeds

theorem refl (p : Party) : p.Proceeds now {} p where
  later := .refl p
  resends_eq := rfl
  noFailure := List.not_mem_nil
  segments _ hx := .inl hx
  edge_le_ack _ _ hmem := absurd hmem List.not_mem_nil
  delay_eq _ hmem := absurd hmem List.not_mem_nil

/-- A party that goes on so twice does so altogether. What was put in flight first may have left
again, but was not sent again. -/
theorem trans (h : p.Proceeds now r q) (h' : q.Proceeds now s t) (hp : p.Sound) :
    p.Proceeds now (r ++ s) t where
  later := h.later.trans h'.later fun hstate ↦ (hp.sends hstate).1
  resends_eq := h'.resends_eq.trans h.resends_eq
  noFailure hmem := (List.mem_append.1 hmem).elim h.noFailure h'.noFailure
  segments x hx := by
    rcases h'.segments x hx with hmid | ⟨hseq, hsent, hresends, packet, hpacket, hdata⟩
    · refine (h.segments x hmid).imp_right fun ⟨hseq, hsent, hresends, packet, hpacket, hdata⟩ ↦ ?_
      exact ⟨hseq, hsent, hresends, packet, List.mem_append_left _ hpacket, hdata⟩
    · exact .inr ⟨Nat.le_trans h.later.next_le hseq, hsent, hresends, packet,
        List.mem_append_right _ hpacket, hdata⟩
  edge_le_ack hstate packet hmem hkind := by
    rcases List.mem_append.1 hmem with hfirst | hnext
    · exact h.edge_le_ack hstate packet hfirst hkind
    · have hq := h.later.established (hp.sends hstate).1 hstate
      exact Nat.le_trans (h.later.edge_le hstate) (h'.edge_le_ack hq packet hnext hkind)
  delay_eq alarm hmem := by
    rcases List.mem_append.1 hmem with hfirst | hnext
    · exact h.delay_eq alarm hfirst
    · rw [h'.delay_eq alarm hnext, h.later.settings_eq]

/-- If what was in flight was sent in the order of the stream, then so was what is, because a new
segment is later in both. -/
theorem sorted (h : p.Proceeds now r q) {acked sent : Nat} (hsends : p.Sends acked sent)
    (hsent : ∀ x ∈ p.inFlight.toList, x.sentAt ≤ now)
    (hsorted : ∀ x ∈ p.inFlight.toList, ∀ y ∈ p.inFlight.toList,
      x.seq ≤ y.seq → x.sentAt ≤ y.sentAt) :
    ∀ x ∈ q.inFlight.toList, ∀ y ∈ q.inFlight.toList, x.seq ≤ y.seq → x.sentAt ≤ y.sentAt := by
  intro x hx y hy hle
  rcases h.segments x hx with hold | ⟨hnew, hnow, -⟩ <;>
    rcases h.segments y hy with hold' | ⟨hnew', hnow', -⟩
  · exact hsorted x hold y hold' hle
  · exact Nat.le_trans (hsent x hold) (Nat.le_of_eq hnow'.symm)
  · -- What is new comes after all that was in flight.
    exact absurd (hsends.seq_lt_next hold') (Nat.not_lt.2 (Nat.le_trans hnew hle))
  · exact Nat.le_of_eq (hnow.trans hnow'.symm)

end Proceeds

/-- Nothing new goes into flight, and what is acknowledged is all that was got. -/
theorem Proceeds.of_subset (hlater : p.Later q) (hresends : q.stats.resends = p.stats.resends)
    (htraces : .handshakeFailed ∉ r.traces)
    (hflight : ∀ x ∈ q.inFlight.toList, x ∈ p.inFlight.toList)
    (hack : p.state = .established → ∀ packet ∈ r.packets, packet.ack = q.edge)
    (hdelay : ∀ alarm ∈ r.alarms, alarm.delay = alarm.watch.delay p.settings) :
    p.Proceeds now r q where
  later := hlater
  resends_eq := hresends
  noFailure := htraces
  segments x hx := .inl (hflight x hx)
  edge_le_ack hstate packet hmem _ := by
    rw [hack hstate packet hmem]
    exact hlater.edge_le hstate
  delay_eq := hdelay

/-- **A move goes on so, if no alarm has rung.** Only sending puts something new in flight. -/
theorem Move.proceeds (hmove : Move now input p r q) (hp : p.Sound)
    (hinput : ∀ watch, input ≠ .alarm watch) : p.Proceeds now r q := by
  have hlater : p.Later q := hmove.later hp
  cases hmove with
  | resend | retryOpening | retryAnswer | giveUp => exact absurd rfl (hinput _)
  | idle | listen | hand | read | complete =>
    exact .of_subset hlater rfl (by simp) (fun _ hx ↦ hx) (by simp) (by simp)
  | acknowledged =>
    exact .of_subset hlater rfl (by simp) (fun _ hx ↦ (InFlight.mem_acknowledge_snd.1 hx).1)
      (by simp) (by simp)
  | connect hstate | accept _ hstate =>
    refine .of_subset hlater rfl (by simp) (fun _ hx ↦ hx)
      (fun hs ↦ absurd (hstate.symm.trans hs) (by simp)) fun alarm hmem ↦ ?_
    rcases List.mem_cons.1 hmem with rfl | hmem
    · rfl
    · obtain rfl := List.mem_singleton.1 hmem
      rfl
  | opened _ hstate | answer _ hstate =>
    exact .of_subset hlater rfl (by simp) (fun _ hx ↦ hx)
      (fun hs ↦ absurd (hstate.symm.trans hs) (by simp)) (by simp)
  | acknowledge =>
    refine .of_subset hlater rfl (by simp) (fun _ hx ↦ hx) (fun _ packet hmem ↦ ?_) (by simp)
    obtain ⟨peer, -, rfl⟩ := List.mem_map.1 hmem
    rfl
  | store | deliver =>
    refine .of_subset hlater rfl (by simp) (fun _ hx ↦ hx) (fun _ packet hmem ↦ ?_) (by simp)
    obtain rfl := List.mem_singleton.1 hmem
    rfl
  | send =>
    exact
      { later := hlater
        resends_eq := rfl
        noFailure := by simp
        segments := fun x hx ↦ by
          -- The segment that is new has just been sent, and its alarm is the one that is set.
          refine (Ascending.mem_of_mem_place hx).symm.imp_right fun heq ↦ ?_
          subst heq
          exact ⟨Nat.le_refl _, rfl, rfl, _, List.mem_singleton.2 rfl, rfl, rfl⟩
        edge_le_ack := fun _ packet hmem _ ↦ by
          obtain rfl := List.mem_singleton.1 hmem
          exact Nat.le_refl _
        delay_eq := fun alarm hmem ↦ by
          obtain rfl := List.mem_singleton.1 hmem
          rfl }

theorem Moves.proceeds (hmoves : Moves now input p r q) (hp : p.Sound)
    (hinput : ∀ watch, input ≠ .alarm watch) : p.Proceeds now r q := by
  induction hmoves with
  | none => exact .refl _
  | cons first _ ih => exact (first.proceeds hp hinput).trans (ih (hp.move first)) hp

theorem Calls.proceeds (h : Calls now p r q) (hp : p.Sound) : p.Proceeds now r q := by
  induction h with
  | none => exact .refl _
  | cons hinput first _ ih =>
    have hmoves := moves_of_perform first
    exact (hmoves.proceeds hp (Input.ne_of_transfers hinput).1).trans (ih (hp.moves hmoves)) hp

theorem Turn.proceeds (h : p.Turn now input r q) (hp : p.Sound)
    (hinput : ∀ watch, input ≠ .alarm watch) : p.Proceeds now r q := by
  cases h with
  | mk perform calls =>
    have hmoves := moves_of_perform perform
    exact (hmoves.proceeds hp hinput).trans (calls.proceeds (hp.moves hmoves)) hp

/-! ### What a packet does not change -/

/-- Transfers change neither the state nor what has been received. -/
theorem Calls.reassembly_eq (h : Calls now p r q) :
    q.reassembly = p.reassembly ∧ q.state = p.state := by
  refine h.preserves (P := fun t ↦ t.reassembly = p.reassembly ∧ t.state = p.state)
    (fun {input _ _ _} hinput ht hmoves ↦ ?_) ⟨rfl, rfl⟩
  refine hmoves.preserves (P := fun t ↦ t.reassembly = p.reassembly ∧ t.state = p.state)
    (fun ht hmove ↦ ?_) ht
  cases hmove with
  | idle | hand | send | read => exact ht
  | connect | listen | accept | answer | opened | complete | acknowledge | acknowledged | store |
    deliver | resend | retryOpening | retryAnswer | giveUp =>
    exact absurd hinput (by simp [Input.transfers])

/-- A party that has heard of its peer goes on with what it has received, if no data comes. -/
theorem Moves.reassembly_eq (hmoves : Moves now (.packet packet) p r q)
    (hkind : packet.kind ≠ .data) (hstate : p.state = .synReceived ∨ p.state = .established) :
    q.reassembly = p.reassembly ∧ (q.state = .synReceived ∨ q.state = .established) := by
  refine hmoves.preserves (P := fun t ↦ t.reassembly = p.reassembly ∧
    (t.state = .synReceived ∨ t.state = .established)) (fun {t _ _} ht hmove ↦ ?_) ⟨rfl, hstate⟩
  cases hmove with
  | idle | answer | acknowledge | acknowledged | send => exact ht
  | complete => exact ⟨ht.1, .inr rfl⟩
  | accept _ hs | opened _ hs => rcases ht.2 with h | h <;> exact absurd (hs.symm.trans h) (by simp)
  | store hdata | deliver hdata => exact absurd hdata hkind

/-- A party that has heard of its peer goes on with what it has received, in a turn without data. -/
theorem Turn.reassembly_eq (h : p.Turn now (.packet packet) r q) (hkind : packet.kind ≠ .data)
    (hstate : p.state = .synReceived ∨ p.state = .established) :
    q.reassembly = p.reassembly ∧ (q.state = .synReceived ∨ q.state = .established) := by
  cases h with
  | mk perform calls =>
    obtain ⟨hmid, hmidstate⟩ := (moves_of_perform perform).reassembly_eq hkind hstate
    obtain ⟨hq, hqstate⟩ := calls.reassembly_eq
    exact ⟨hq.trans hmid, hqstate ▸ hmidstate⟩

/-- A packet means nothing to a party in its present state. -/
def Ignores (packet : Packet) (p : Party) : Prop :=
  match p.state with
  | .closed => True
  | .listening => packet.kind ≠ .syn
  | .synSent => ¬ (packet.kind = .synAck ∧ packet.ack = p.firstByte)
  | .synReceived => packet.kind ≠ .ack ∧ packet.kind ≠ .data
  | .established => False

theorem Ignores.eq_of_move (h : p.Ignores packet)
    (hmove : Move now (.packet packet) p r q) : q = p ∧ r.notices = [] := by
  have hne : p.state ≠ .established := fun hs ↦ by simp [Ignores, hs] at h
  cases hmove with
  | idle | answer => exact ⟨rfl, rfl⟩
  | accept hkind hs => simp [Ignores, hs, hkind] at h
  | opened hkind hs _ hack => simp [Ignores, hs, hkind, hack] at h
  | complete hkind hs => rcases hkind with hkind | hkind <;> simp [Ignores, hs, hkind] at h
  | acknowledge _ hs | acknowledged _ hs | store _ hs | deliver _ hs | send hs =>
    exact absurd hs hne

/-- What a party ignores leaves it as it is. -/
theorem Ignores.eq_of_turn (h : p.Ignores packet)
    (hturn : p.Turn now (.packet packet) r q) : q = p := by
  cases hturn with
  | @mk mid _ first _ perform calls quiet =>
    have hmid : mid = p ∧ first.notices = [] := by
      have hmoves := moves_of_perform perform
      clear perform calls quiet
      generalize hinput : Input.packet packet = input at hmoves
      induction hmoves with
      | none => exact ⟨rfl, rfl⟩
      | cons move _ ih =>
        subst hinput
        obtain ⟨rfl, hnone⟩ := h.eq_of_move move
        obtain ⟨rfl, hnone'⟩ := ih h
        exact ⟨rfl, by rw [Reaction.notices_append, hnone, hnone']; rfl⟩
    exact (quiet hmid.2).2.trans hmid.1

end Party

end ReliableStream
