import ReliableStream.Proofs.Party.Receipts
import ReliableStream.Proofs.Party.Repeated
import ReliableStream.Proofs.Reassembly.LastPlace

/-!
# What is heard up to the last place

The receiving side of a party is a reassembly that is fed with the data of the packets that arrive:
`Fed` says so, and that what the party heard is what the reassembly gave out. It holds of any party
whatever its peer sends (`fed_of_learnAll`), so that what is known of reassemblies is known of
parties.

`DeliversOnce` is what follows at the end of the numbers. As long as the edge is not at the last
place, it shows how many bytes were heard. If no data reaches into the last place, but for empty
data, or goes beyond what ends there, then no more is heard than there are places. And only data
that starts at the edge is heard, so that what was heard before is not heard again. The exception is
data that starts at the last place, which the edge does not leave (`heard_again_at_last_place`).
-/

namespace ReliableStream

/-- The data of a packet keeps off the end of the stream. -/
def Packet.KeepsOff (packet : Packet) : Prop :=
  packet.kind = .data → Chunk.KeepsOff ⟨packet.seq, packet.payload⟩

instance (packet : Packet) : Decidable packet.KeepsOff := inferInstanceAs (Decidable (_ → _))

namespace Party

open Reassembly (Request Placed serveAll)

variable {now : Nat} {input : Input} {inputs : List (Nat × Input)} {packet : Packet}
  {p q : Party} {r : Reaction} {known : Option Nat}

/-- Gives a party inputs one after the other, each at an instant: what becomes of the party, and
where the stream of its peer starts, as far as that is known. -/
def learnAll : List (Nat × Input) → Party → Option Nat → Checked (Party × Option Nat)
  | [], p, known => pure (p, known)
  | (now, input) :: rest, p, known => do
    let (q, _) ← p.perform now input
    q.learnAll rest (learned input p q known)

/-! ### A party is fed by its packets -/

/-- A request comes from inputs: what is handed over is the data of a packet. -/
def ComesFrom (inputs : List (Nat × Input)) : Request → Prop
  | .add chunk => ∃ now packet, (now, Input.packet packet) ∈ inputs ∧ packet.kind = .data ∧
      chunk = ⟨packet.seq, packet.payload⟩
  | .take => True
  | .reset _ => False

theorem ComesFrom.mono {more : List (Nat × Input)} {request : Request} (hsub : inputs ⊆ more)
    (h : ComesFrom inputs request) : ComesFrom more request :=
  match request with
  | .add _ =>
    let ⟨now, packet, hmem, hrest⟩ := h
    ⟨now, packet, hsub hmem, hrest⟩
  | .take => trivial
  | .reset _ => h

/-- What a party heard is what its reassembly gave out, fed with the data of packets. -/
structure Fed (inputs : List (Nat × Input)) (p : Party) (known : Option Nat) : Prop where
  /-- Nothing is heard before the handshake is done. -/
  blank : p.state ≠ .established → p.reads = [] ∧ p.ready = []
  /-- All that is heard is counted. -/
  received_eq : p.stats.bytesReceived = p.heard.length
  /-- It was given out, from where the stream of the peer starts. -/
  served : p.state = .synReceived ∨ p.state = .established → ∃ seq requests, known = some seq ∧
    serveAll requests { edge := saturatingAdd seq 1 } = (p.heard, p.reassembly) ∧
    ∀ request ∈ requests, ComesFrom inputs request

namespace Fed

theorem create {home : Endpoint} {settings : Connection.Settings} {valid : settings.Valid}
    {isn : Nat} : Fed [] (create home settings valid isn) none where
  blank _ := ⟨rfl, rfl⟩
  received_eq := rfl
  served h := by rcases h with h | h <;> exact absurd h (by simp [Party.create])

theorem mono {more : List (Nat × Input)} (hsub : inputs ⊆ more) (h : Fed inputs p known) :
    Fed more p known :=
  { h with
    served := fun hstate ↦ by
      obtain ⟨seq, requests, hknown, hserve, hfrom⟩ := h.served hstate
      exact ⟨seq, requests, hknown, hserve, fun request hmem ↦ (hfrom request hmem).mono hsub⟩ }

/-- Nothing is heard. -/
theorem rest (h : Fed inputs p known) (hreassembly : q.reassembly = p.reassembly)
    (hheard : q.heard = p.heard) (hreceived : q.stats.bytesReceived = p.stats.bytesReceived)
    (hblank : q.state ≠ .established → q.reads = [] ∧ q.ready = [])
    (hstate : q.state = .synReceived ∨ q.state = .established →
      p.state = .synReceived ∨ p.state = .established) : Fed inputs q known where
  blank := hblank
  received_eq := by rw [hreceived, hheard, h.received_eq]
  served hs := by
    rw [hheard, hreassembly]
    exact h.served (hstate hs)

/-- A party learns where the stream of its peer starts. -/
theorem learn (h : Fed inputs p known) (hne : p.state ≠ .established) {seq : Nat}
    (hreassembly : q.reassembly = { edge := saturatingAdd seq 1 }) (hready : q.ready = p.ready)
    (hreads : q.reads = p.reads) (hreceived : q.stats.bytesReceived = p.stats.bytesReceived) :
    Fed inputs q (some seq) where
  blank _ := by
    rw [hready, hreads]
    exact h.blank hne
  received_eq := by rw [hreceived, h.received_eq, heard, heard, hready, hreads]
  served _ := by
    obtain ⟨hnone, hnone'⟩ := h.blank hne
    have hheard : q.heard = [] := by rw [heard, hready, hreads, hnone, hnone']; rfl
    exact ⟨seq, [], rfl, by rw [hheard, hreassembly]; rfl,
      fun _ hmem ↦ absurd hmem List.not_mem_nil⟩

/-- Data that comes is handed over to the reassembly, and what continues the stream is heard. The
requests so far get two more: to add it, and to take out what it completes. -/
theorem feed (h : Fed inputs p known) (hstate : p.state = .established)
    (hmem : (now, .packet packet) ∈ inputs) (hkind : packet.kind = .data)
    (hq : q.state = .established)
    (hreassembly : q.reassembly = (p.reassembly.add ⟨packet.seq, packet.payload⟩).drain.2)
    (hheard : q.heard = p.heard ++ (p.reassembly.add ⟨packet.seq, packet.payload⟩).drain.1)
    (hreceived : q.stats.bytesReceived = p.stats.bytesReceived +
      (p.reassembly.add ⟨packet.seq, packet.payload⟩).drain.1.length) : Fed inputs q known where
  blank hne := absurd hq hne
  received_eq := by rw [hreceived, hheard, h.received_eq, List.length_append]
  served _ := by
    obtain ⟨seq, requests, hknown, hserve, hfrom⟩ := h.served (.inr hstate)
    refine ⟨seq, requests ++ [.add ⟨packet.seq, packet.payload⟩] ++ [.take], hknown, ?_,
      fun request hrequest ↦ ?_⟩
    · rw [Reassembly.serveAll_concat, Reassembly.serveAll_concat, hserve, hheard, hreassembly]
      simp [Reassembly.serve]
    · rw [List.append_assoc] at hrequest
      rcases List.mem_append.1 hrequest with hold | hnew
      · exact hfrom request hold
      · rcases List.mem_cons.1 hnew with rfl | hnew
        · exact ⟨now, packet, hmem, hkind, rfl⟩
        · obtain rfl := List.mem_singleton.1 hnew
          trivial

end Fed

/-- **Every move feeds the reassembly with what its packet carries**, and with nothing else. -/
theorem Move.fed (hmove : Move now input p r q) (h : Fed inputs p known)
    (hmem : (now, input) ∈ inputs) : Fed inputs q (learned input p q known) := by
  cases hmove with
  | idle | answer | acknowledge | acknowledged | hand | send | resend | retryOpening |
    retryAnswer =>
    rw [learned_of_state_eq]
    · exact h.rest rfl rfl rfl h.blank id
    · rfl
  | connect hstate | listen hstate =>
    exact h.rest rfl rfl rfl (fun _ ↦ h.blank (by simp [hstate])) (by simp)
  | accept _ hstate =>
    -- Either opening starts the reassembly again, behind the number that the peer tells.
    rw [learned_of_listening hstate]
    · exact h.learn (by simp [hstate]) rfl rfl rfl rfl
    · rfl
  | opened _ hstate =>
    rw [learned_of_synSent hstate]
    · exact h.learn (by simp [hstate]) rfl rfl rfl rfl
    · rfl
  | complete _ hstate =>
    rw [learned_of_synReceived hstate]
    exact h.rest rfl rfl rfl (fun hne ↦ absurd rfl hne) fun _ ↦ .inl hstate
  | store hkind hstate _ _ hdrain =>
    rw [learned_of_state_eq]
    · exact h.feed hstate hmem hkind hstate rfl (by rw [hdrain, List.append_nil]; rfl)
        (by rw [hdrain]; rfl)
    · rfl
  | deliver hkind hstate _ _ hdrain =>
    rw [learned_of_state_eq]
    · exact h.feed hstate hmem hkind hstate rfl (by rw [hdrain, heard_ready]) (by rw [hdrain])
    · rfl
  | giveUp hstate =>
    exact h.rest rfl rfl rfl (fun _ ↦ h.blank (by rcases hstate with hs | hs <;> simp [hs]))
      (by simp)
  | read hstate hready =>
    rw [learned_of_state_eq]
    · exact h.rest rfl (heard_read hready) rfl (fun hne ↦ absurd hstate hne) id
    · rfl

/-- So do moves one after the other. A packet that causes several is handed over by one of them at
most. -/
theorem Moves.fed (hmoves : Moves now input p r q) (h : Fed inputs p known)
    (hmem : (now, input) ∈ inputs) : Fed inputs q (learned input p q known) := by
  induction hmoves generalizing known with
  | none => rwa [learned_of_state_eq rfl]
  | cons first rest ih =>
    rw [← first.learned_learned rest]
    exact ih (first.fed h hmem)

theorem Fed.learnAll {more : List (Nat × Input)} {known' : Option Nat} (h : Fed inputs p known)
    (hall : p.learnAll more known = .ok (q, known')) : Fed (inputs ++ more) q known' := by
  induction more generalizing p inputs known with
  | nil =>
    obtain ⟨rfl, rfl⟩ := Checked.pure_prod_eq_ok hall
    rwa [List.append_nil]
  | cons x rest ih =>
    obtain ⟨now, input⟩ := x
    obtain ⟨⟨t, r⟩, hperform, hrest⟩ := Checked.bind_eq_ok_iff.1 hall
    have hmore : Fed (inputs ++ [(now, input)]) p known := h.mono (List.subset_append_left ..)
    rw [← List.singleton_append, ← List.append_assoc]
    exact ih ((moves_of_perform hperform).fed hmore (by simp)) hrest

/-- Whatever its peer sends, a party is fed by it. -/
theorem fed_of_learnAll {home : Endpoint} {settings : Connection.Settings} {valid : settings.Valid}
    {isn : Nat} (h : (create home settings valid isn).learnAll inputs none = .ok (p, known)) :
    Fed inputs p known :=
  Fed.create.learnAll h

/-! ### At the last place -/

/-- All data among inputs keeps off the end of the stream. -/
def KeepOff (inputs : List (Nat × Input)) : Prop :=
  ∀ x ∈ inputs, ∀ packet, x.2 = .packet packet → packet.KeepsOff

theorem ComesFrom.keepsOff {chunk : Chunk} (h : ComesFrom inputs (.add chunk))
    (hoff : KeepOff inputs) : chunk.KeepsOff := by
  obtain ⟨now, packet, hmem, hkind, rfl⟩ := h
  exact hoff _ hmem packet rfl hkind

namespace Fed

/-- Before the last place the edge shows how many bytes were heard, as nothing was held there. -/
theorem exists_placed (h : Fed inputs p known)
    (hstate : p.state = .synReceived ∨ p.state = .established) :
    ∃ seq, known = some seq ∧ Placed (saturatingAdd seq 1) p.heard.length p.edge := by
  obtain ⟨seq, requests, hknown, hserve, hfrom⟩ := h.served hstate
  have hplaced := Reassembly.placed_serveAll (saturatingAdd_le seq 1)
    fun reset hmem ↦ hfrom (.reset reset) hmem
  rw [hserve] at hplaced
  exact ⟨seq, hknown, hplaced⟩

/-- No more is heard than there are places. -/
theorem heard_le (h : Fed inputs p known) (hoff : KeepOff inputs) {seq : Nat}
    (hknown : known = some seq) : saturatingAdd seq 1 + p.heard.length ≤ maxWord + 1 := by
  by_cases hstate : p.state = .established
  · obtain ⟨seq', requests, hknown', hserve, hfrom⟩ := h.served (.inr hstate)
    obtain rfl : seq = seq' := Option.some.inj (hknown.symm.trans hknown')
    have hle := Reassembly.length_serveAll_le (saturatingAdd_le seq 1)
      (fun reset hmem ↦ hfrom (.reset reset) hmem) fun chunk hmem ↦ (hfrom _ hmem).keepsOff hoff
    rwa [hserve] at hle
  · obtain ⟨hreads, hready⟩ := h.blank hstate
    rw [heard, hreads, hready]
    exact Nat.le_add_right_of_le (saturatingAdd_le seq 1)

end Fed

/-- Nothing that waits continues the stream, whatever the peer sends. -/
theorem atRest_of_learnAll {known' : Option Nat} (h : p.reassembly.AtRest)
    (hall : p.learnAll inputs known = .ok (q, known')) : q.reassembly.AtRest := by
  induction inputs generalizing p known with
  | nil =>
    obtain ⟨rfl, rfl⟩ := Checked.pure_prod_eq_ok hall
    exact h
  | cons x rest ih =>
    obtain ⟨⟨t, r⟩, hperform, hrest⟩ := Checked.bind_eq_ok_iff.1 hall
    exact ih ((moves_of_perform hperform).preserves (fun ht hmove ↦ hmove.atRest ht) h) hrest

/-- Data that gives nothing to read is read without a notice. -/
theorem exists_perform_of_drain_eq_nil (now : Nat) (hstate : p.state = .established)
    (hkind : packet.kind = .data)
    (hdrain : (p.reassembly.add ⟨packet.seq, packet.payload⟩).drain.1 = []) :
    ∃ q r, p.perform now (.packet packet) = .ok (q, r) ∧ q.heard = p.heard ∧ r.notices = [] := by
  cases hdrop : p.dropNote? packet with
  | some note => exact ⟨p, _, perform_of_dropNote? hdrop, rfl, rfl⟩
  | none =>
    obtain ⟨c, r, hdata, hready, hnotices⟩ := Connection.onData_of_drain_eq_nil hdrain
    have hadmitted : p.onAdmitted now packet = .ok (c, r) := by
      rw [Connection.onAdmitted, hkind]
      exact (Connection.onceEstablished_of_established hstate).trans hdata
    have honPacket : p.onPacket now packet =
        .ok (c, ({ notes := [.received packet] } : Reaction) ++ r) := by
      rw [Connection.onPacket, hdrop]
      exact Checked.bind_eq_ok_iff.2 ⟨_, hadmitted, rfl⟩
    exact ⟨_, _, Checked.bind_eq_ok_iff.2 ⟨_, honPacket, rfl⟩, by rw [heard, heard, hready],
      by simp [hnotices]⟩

/-! ### After any inputs -/

/-- No place of the peer's stream is heard twice. -/
structure DeliversOnce (inputs : List (Nat × Input)) (p : Party) (known : Option Nat) : Prop where
  /-- Nothing is heard before the handshake is done. -/
  blank : p.state ≠ .established → p.heard = []
  /-- All that is heard is counted. -/
  received_eq : p.stats.bytesReceived = p.heard.length
  /-- Before the last place the edge shows how much was heard, whatever came. -/
  placed : p.state = .established →
    ∃ seq, known = some seq ∧ Placed (saturatingAdd seq 1) p.heard.length p.edge
  /-- No more is heard than there are places. -/
  heard_le : KeepOff inputs → ∀ seq, known = some seq →
    p.heard.length ≤ maxWord - saturatingAdd seq 1 + 1
  /-- Only data that starts at the edge gives something to hear, wherever the edge is. -/
  silent : p.state = .established → ∀ (now : Nat) (packet : Packet), packet.kind = .data →
    (packet.seq = p.edge → packet.payload = []) →
      ∃ q r, p.perform now (.packet packet) = .ok (q, r) ∧ q.heard = p.heard ∧ r.notices = []

/-- **No place of a stream is heard twice**, whatever the peer sends, if its data keeps off the end.
-/
theorem deliversOnce_of_learnAll {home : Endpoint} {settings : Connection.Settings}
    {valid : settings.Valid} {isn : Nat}
    (h : (create home settings valid isn).learnAll inputs none = .ok (p, known)) :
    DeliversOnce inputs p known := by
  have hfed := fed_of_learnAll h
  refine ⟨fun hne ↦ ?_, hfed.received_eq, fun hstate ↦ hfed.exists_placed (.inr hstate),
    fun hoff seq hknown ↦ ?_, fun hstate now packet hkind hpacket ↦ ?_⟩
  · obtain ⟨hreads, hready⟩ := hfed.blank hne
    rw [heard, hreads, hready]
    rfl
  · have hle := hfed.heard_le hoff hknown
    omega
  · have hrest : p.reassembly.AtRest :=
      atRest_of_learnAll ⟨Nat.zero_le _, fun _ hx ↦ absurd hx List.not_mem_nil⟩ h
    exact exists_perform_of_drain_eq_nil now hstate hkind (hrest.drain_add_eq_nil hpacket)

/-- The stream of a peer starts two places before the last one, and some data comes. -/
def nearTheEnd (data : List (Nat × Bytes)) : List (Nat × Input) :=
  let packet (kind : Packet.Kind) (seq : Nat) (payload : Bytes) : Input := .packet
    { source := ⟨10, 0, 0, 2, 80⟩, destination := ⟨10, 0, 0, 1, 4000⟩, kind, seq, ack := 101
      payload }
  [(0, .listen), (1, packet .syn (maxWord - 2) [])] ++
    data.map fun (seq, payload) ↦ (2, packet .data seq payload)

/-- Two bytes that end with the last place come twice, and are heard once. -/
theorem deliversOnce_nearTheEnd :
    ∃ p known, (create ⟨10, 0, 0, 1, 4000⟩ {} ⟨by decide, by decide, by decide⟩ 100).learnAll
        (nearTheEnd [(maxWord - 1, [1, 2]), (maxWord - 1, [1, 2])]) none = .ok (p, known) ∧
      (p.state, p.edge, p.heard, known) = (.established, maxWord, [1, 2], some (maxWord - 2)) ∧
      KeepOff (nearTheEnd [(maxWord - 1, [1, 2]), (maxWord - 1, [1, 2])]) ∧
      DeliversOnce (nearTheEnd [(maxWord - 1, [1, 2]), (maxWord - 1, [1, 2])]) p known := by
  have hrun : ((create ⟨10, 0, 0, 1, 4000⟩ {} ⟨by decide, by decide, by decide⟩ 100).learnAll
      (nearTheEnd [(maxWord - 1, [1, 2]), (maxWord - 1, [1, 2])]) none).toOption.map
        (fun x ↦ (x.1.state, x.1.edge, x.1.heard, x.2)) =
      some (.established, maxWord, [1, 2], some (maxWord - 2)) := by
    decide +kernel
  obtain ⟨⟨p, known⟩, hall, hfacts⟩ := Option.map_eq_some_iff.1 hrun
  rw [toOption_eq_some_iff] at hall
  exact ⟨p, known, hall, hfacts,
    by simp +contextual [KeepOff, nearTheEnd, Packet.KeepsOff, Chunk.KeepsOff, maxWord],
    deliversOnce_of_learnAll hall⟩

/-- A byte at the last place is heard each time it comes: more is heard than there are places, and
what was heard last is heard again. So neither bound holds without the condition on data that keeps
off the end. -/
theorem heard_again_at_last_place :
    (¬ ∀ (inputs : List (Nat × Input)) (p : Party) (known : Option Nat),
      (create ⟨10, 0, 0, 1, 4000⟩ {} ⟨by decide, by decide, by decide⟩ 100).learnAll inputs none =
        .ok (p, known) →
      ∀ seq, known = some seq → p.heard.length ≤ maxWord - saturatingAdd seq 1 + 1) ∧
    ¬ ∀ (inputs : List (Nat × Input)) (p q : Party) (known : Option Nat) (before now : Nat)
      (packet : Packet) (r : Reaction),
      (create ⟨10, 0, 0, 1, 4000⟩ {} ⟨by decide, by decide, by decide⟩ 100).learnAll inputs none =
        .ok (p, known) →
      p.edge = maxWord → (before, .packet packet) ∈ inputs → packet.payload <:+ p.heard →
      p.perform now (.packet packet) = .ok (q, r) → q.heard = p.heard := by
  constructor
  · intro h
    have hrun : ((create ⟨10, 0, 0, 1, 4000⟩ {} ⟨by decide, by decide, by decide⟩ 100).learnAll
        (nearTheEnd [(maxWord - 1, [1]), (maxWord, [2]), (maxWord, [2])]) none).toOption.map
          (fun x ↦ (x.1.heard, x.2)) = some ([1, 2, 2], some (maxWord - 2)) := by
      decide +kernel
    obtain ⟨⟨p, known⟩, hall, hfacts⟩ := Option.map_eq_some_iff.1 hrun
    rw [toOption_eq_some_iff] at hall
    obtain ⟨hheard, hknown⟩ := Prod.mk.inj hfacts
    have hle := h _ p known hall _ hknown
    rw [hheard] at hle
    exact absurd hle (by decide)
  · intro h
    let last : Packet := { source := ⟨10, 0, 0, 2, 80⟩, destination := ⟨10, 0, 0, 1, 4000⟩
                           kind := .data, seq := maxWord, ack := 101, payload := [2] }
    have hrun : ((create ⟨10, 0, 0, 1, 4000⟩ {} ⟨by decide, by decide, by decide⟩ 100).learnAll
        (nearTheEnd [(maxWord - 1, [1]), (maxWord, [2])]) none >>= fun x ↦
          x.1.perform 3 (.packet last) >>= fun y ↦ pure (x, y)).toOption.map
            (fun z ↦ (z.1.1.edge, z.1.1.heard, z.2.1.heard)) =
        some (maxWord, [1, 2], [1, 2, 2]) := by
      decide +kernel
    obtain ⟨⟨⟨p, known⟩, q, r⟩, hall, hfacts⟩ := Option.map_eq_some_iff.1 hrun
    rw [toOption_eq_some_iff] at hall
    obtain ⟨x, hall, hrest⟩ := Checked.bind_eq_ok_iff.1 hall
    obtain ⟨y, hperform, hpure⟩ := Checked.bind_eq_ok_iff.1 hrest
    obtain ⟨rfl, rfl⟩ := Checked.pure_prod_eq_ok hpure
    obtain ⟨hedge, hfacts⟩ := Prod.mk.inj hfacts
    obtain ⟨hheard, hheard'⟩ := Prod.mk.inj hfacts
    dsimp only at hedge hheard hheard'
    have hsame := h _ p q known 2 3 last r hall hedge (by simp [nearTheEnd, last])
      (by rw [hheard]; decide) hperform
    rw [hheard, hheard'] at hsame
    exact absurd hsame (by decide)

end Party

end ReliableStream
