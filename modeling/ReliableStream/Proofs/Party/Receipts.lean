import Mathlib.Algebra.Ring.Nat
import ReliableStream.Proofs.Party.Answer
import ReliableStream.Proofs.Party.Contained
import ReliableStream.Proofs.Party.Slices
import ReliableStream.Proofs.Party.States

/-!
# The account of what is received

What a party receives is counted in four places: the edge of the peer's stream, a running total, the
notices to the application, and the bytes that were read or can be. They never drift apart, whatever
is asked of a party and whatever reaches it, as long as data that arrives stops at a place that is a
word. Chunks may overlap, be empty or contradict each other.

`Gets` is what a party went through, with what one has to know to check the account: where the
stream of the peer starts, which is learned in the handshake (`learned`), and all the notices. The
invariant is `Receives`, kept by every move. `keepsAccount_of_gets` adds to it what comes next: the
edge of an established party never goes back, data from the peer is always read and answered by one
acknowledgement, and nothing else moves the edge.

The moves fall into three kinds. Some receive nothing (`Receives.rest`), some begin or end a
connection (`Receives.learn` and `Receives.forget`), and some bring data, of which `Receives.arrive`
says that all four counts go up by the same number.
-/

namespace ReliableStream

/-- How many bytes a notice says can be read. -/
def Notice.readable : Notice → Nat
  | .dataReady len => len
  | .established | .handshakeFailed _ => 0

namespace Party

variable {now : Nat} {input : Input} {packet : Packet} {start p q t : Party} {r : Reaction}
  {known : Option Nat} {notices : List Notice}

/-! ### What a party went through -/

/-- Where the stream of the peer starts, as known after an input by which `p` became `q`: the packet
tells it that makes `p` answer an opening, or get the answer to its own. -/
def learned (input : Input) (p q : Party) (known : Option Nat) : Option Nat :=
  match input with
  | .packet packet =>
    if p.state = .listening ∧ q.state = .synReceived ∨ p.state = .synSent ∧ q.state = .established
    then some packet.seq else known
  | .connect _ | .listen | .send _ | .read | .alarm _ => known

/-- What became of a party after inputs, none with data that does not stop in time: where the stream
of its peer starts, if that is known, and all that the application was told. -/
inductive Gets (start : Party) : Party → Option Nat → List Notice → Prop
  /-- Nothing has happened. -/
  | begin : Gets start start none []
  /-- It has one more input. -/
  | input {now : Nat} {input : Input} {p q : Party} {r : Reaction} {known : Option Nat}
    {notices : List Notice} (h : Gets start p known notices)
    (hstops : ∀ packet, input = .packet packet → packet.StopsInTime)
    (hperform : p.perform now input = .ok (q, r)) :
    Gets start q (learned input p q known) (notices ++ r.notices)

/-- Nothing is learned while the state stays the same. -/
theorem learned_of_state_eq (h : q.state = p.state) : learned input p q known = known := by
  cases input with
  | packet packet =>
    rw [learned, if_neg]
    rintro (⟨hp, hq⟩ | ⟨hp, hq⟩) <;> exact absurd (hq.symm.trans (h.trans hp)) (by simp)
  | _ => rfl

/-- A party that answers an opening learns it from there. -/
theorem learned_of_listening (hp : p.state = .listening) (hq : q.state = .synReceived) :
    learned (.packet packet) p q known = some packet.seq :=
  if_pos (.inl ⟨hp, hq⟩)

/-- A party whose opening is answered learns it from there. -/
theorem learned_of_synSent (hp : p.state = .synSent) (hq : q.state = .established) :
    learned (.packet packet) p q known = some packet.seq :=
  if_pos (.inr ⟨hp, hq⟩)

/-- A party that has answered an opening knows it. -/
theorem learned_of_synReceived (hp : p.state = .synReceived) :
    learned input p q known = known := by
  cases input with
  | packet packet => exact if_neg (by simp [hp])
  | _ => rfl

/-- An input changes the state once, so it does not matter whether one looks at it move by move. -/
theorem Move.learned_learned {s : Reaction} (first : Move now input p r q)
    (rest : Moves now input q s t) :
    learned input q t (learned input p q known) = learned input p t known := by
  have hcongr {p' t' : Party} (hp : p'.state = p.state) (ht : t'.state = t.state) :
      learned input p' t' known = learned input p t known := by
    unfold learned
    rw [hp, ht]
  rcases first.enters_or_stays with henters | hstays
  · rcases rest.enters_or_stays with hagain | hstays'
    · exact absurd hagain.changes henters.changes.done
    · rw [learned_of_state_eq hstays'.state_eq]
      exact hcongr rfl hstays'.state_eq.symm
  · rw [learned_of_state_eq (p := p) hstays.state_eq]
    exact hcongr hstays.state_eq rfl

/-- It is learned from an opening, or from the answer to one. -/
theorem Move.learned_eq (hmove : Move now input p r q) :
    learned input p q known = known ∨ ∃ packet, input = .packet packet ∧
      (packet.kind = .syn ∨ packet.kind = .synAck) ∧ learned input p q known = some packet.seq := by
  cases hmove with
  | @accept packet _ _ hkind hstate =>
    exact .inr ⟨packet, rfl, .inl hkind, learned_of_listening hstate rfl⟩
  | @opened packet _ _ hkind hstate =>
    exact .inr ⟨packet, rfl, .inr hkind, learned_of_synSent hstate rfl⟩
  | complete _ hstate => exact .inl (learned_of_synReceived hstate)
  | connect | listen | giveUp => exact .inl rfl
  | _ =>
    refine .inl (learned_of_state_eq ?_)
    rfl

/-- Moves one after the other learn it from an opening, or from the answer to one, or not at all. -/
theorem Moves.learned_eq (hmoves : Moves now input p r q) :
    learned input p q known = known ∨ ∃ packet, input = .packet packet ∧
      (packet.kind = .syn ∨ packet.kind = .synAck) ∧ learned input p q known = some packet.seq := by
  induction hmoves generalizing known with
  | none => exact .inl (learned_of_state_eq rfl)
  | cons first rest ih =>
    rw [← first.learned_learned rest]
    rcases ih with hrest | hrest
    · rw [hrest]
      exact first.learned_eq
    · exact .inr hrest

/-- Inputs one after the other are such a history. If no opening and no answer to one starts at the
last place, then the stream of the peer does not. -/
theorem Gets.exists_of_performAll {inputs : List (Nat × Input)} {packets : List Packet}
    (h : Gets start p known notices) (hknown : ∀ seq, known = some seq → seq < maxWord)
    (hstops : ∀ x ∈ inputs, ∀ packet, x.2 = .packet packet → packet.StopsInTime)
    (hstarts : ∀ x ∈ inputs, ∀ packet, x.2 = .packet packet →
      packet.kind = .syn ∨ packet.kind = .synAck → packet.seq < maxWord)
    (hall : p.performAll inputs = .ok (q, packets)) :
    ∃ known' notices', Gets start q known' notices' ∧
      ∀ seq, known' = some seq → seq < maxWord := by
  induction inputs generalizing p known notices packets with
  | nil =>
    obtain ⟨rfl, -⟩ := Checked.pure_prod_eq_ok hall
    exact ⟨known, notices, h, hknown⟩
  | cons x rest ih =>
    obtain ⟨hstop, hstops⟩ := List.forall_mem_cons.1 hstops
    obtain ⟨hstart, hstarts⟩ := List.forall_mem_cons.1 hstarts
    obtain ⟨t, r, more, hperform, hothers, -⟩ := exists_of_performAll_cons hall
    refine ih (h.input hstop hperform) (fun seq hseq ↦ ?_) hstops hstarts hothers
    have hmoves : learned x.2 p t known = known ∨ _ := (moves_of_perform hperform).learned_eq
    rcases hmoves with hlearned | ⟨packet, hpacket, hkind, hlearned⟩
    · exact hknown seq (hlearned ▸ hseq)
    · rw [hlearned] at hseq
      exact Option.some.inj hseq ▸ hstart packet hpacket hkind

/-! ### The invariant -/

/-- The account of what a party has received. -/
structure Receives (p : Party) (known : Option Nat) (notices : List Notice) : Prop where
  /-- The edge is a place. -/
  edge_le : p.edge ≤ maxWord
  /-- What waits stops at a place. -/
  stops : ∀ chunk ∈ p.reassembly.waiting.toList, chunk.seq + chunk.bytes.length ≤ maxWord
  /-- Nothing is received before the handshake is done. -/
  blank : p.state ≠ .established → p.reads = [] ∧ p.ready = []
  /-- The edge lies as far behind the start of the peer's stream as bytes were received. -/
  edge_eq : p.state = .synReceived ∨ p.state = .established →
    ∃ seq, known = some seq ∧ p.edge = saturatingAdd seq 1 + p.stats.bytesReceived
  /-- The application is told of all of them. -/
  told_eq : p.stats.bytesReceived = (notices.map (·.readable)).sum
  /-- All of them were read or can be. -/
  heard_eq : p.stats.bytesReceived = p.heard.length
  /-- What can be read is something. -/
  ne_nil : ∀ bytes ∈ p.ready, bytes ≠ []

namespace Receives

theorem create {home : Endpoint} {settings : Connection.Settings} {valid : settings.Valid}
    {isn : Nat} : (create home settings valid isn).Receives none [] where
  edge_le := Nat.zero_le _
  stops _ h := absurd h List.not_mem_nil
  blank _ := ⟨rfl, rfl⟩
  edge_eq h := by rcases h with h | h <;> exact absurd h (by simp [Party.create])
  told_eq := rfl
  heard_eq := rfl
  ne_nil _ h := absurd h List.not_mem_nil

/-- Nothing is received, and whatever else a move does has no effect on the account. -/
theorem rest (h : p.Receives known notices) (hreassembly : q.reassembly = p.reassembly)
    (hready : q.ready = p.ready) (hreads : q.reads = p.reads)
    (hreceived : q.stats.bytesReceived = p.stats.bytesReceived) (hstate : q.state = p.state) :
    q.Receives known notices where
  edge_le := by
    rw [Connection.edge, hreassembly]
    exact h.edge_le
  stops := hreassembly ▸ h.stops
  blank hne := by
    rw [hready, hreads]
    exact h.blank (hstate ▸ hne)
  edge_eq hs := by
    rw [Connection.edge, hreassembly, hreceived]
    exact h.edge_eq (hstate ▸ hs)
  told_eq := hreceived.trans h.told_eq
  heard_eq := by rw [hreceived, h.heard_eq, heard, heard, hready, hreads]
  ne_nil := hready ▸ h.ne_nil

/-- Nothing is received during a handshake. -/
theorem received_eq_zero (h : p.Receives known notices) (hne : p.state ≠ .established) :
    p.stats.bytesReceived = 0 := by
  obtain ⟨hreads, hready⟩ := h.blank hne
  rw [h.heard_eq, heard, hreads, hready]
  rfl

/-- A party is in a state in which it does not know its peer's stream. What it kept of an earlier
handshake is not looked at before it is replaced. -/
theorem forget (h : p.Receives known notices) (hreassembly : q.reassembly = p.reassembly)
    (hready : q.ready = p.ready) (hreads : q.reads = p.reads)
    (hreceived : q.stats.bytesReceived = p.stats.bytesReceived) (hne : p.state ≠ .established)
    (hstate : q.state ≠ .synReceived ∧ q.state ≠ .established) (known' : Option Nat) :
    q.Receives known' notices where
  edge_le := by
    rw [Connection.edge, hreassembly]
    exact h.edge_le
  stops := hreassembly ▸ h.stops
  blank _ := by
    rw [hready, hreads]
    exact h.blank hne
  edge_eq hs := absurd hs (not_or.2 hstate)
  told_eq := hreceived.trans h.told_eq
  heard_eq := by rw [hreceived, h.heard_eq, heard, heard, hready, hreads]
  ne_nil := hready ▸ h.ne_nil

/-- A party learns where the stream of its peer starts. It has received nothing of it yet. -/
theorem learn (h : p.Receives known notices) (hne : p.state ≠ .established) {seq : Nat}
    (hreassembly : q.reassembly = { edge := saturatingAdd seq 1 })
    (hready : q.ready = p.ready) (hreads : q.reads = p.reads)
    (hreceived : q.stats.bytesReceived = p.stats.bytesReceived) :
    q.Receives (some seq) notices where
  edge_le := by
    rw [Connection.edge, hreassembly]
    exact saturatingAdd_le ..
  stops _ hmem := absurd (hreassembly ▸ hmem) List.not_mem_nil
  blank _ := by
    rw [hready, hreads]
    exact h.blank hne
  edge_eq _ := by
    refine ⟨seq, rfl, ?_⟩
    rw [Connection.edge, hreassembly, hreceived, h.received_eq_zero hne]
    rfl
  told_eq := hreceived.trans h.told_eq
  heard_eq := by rw [hreceived, h.heard_eq, heard, heard, hready, hreads]
  ne_nil := hready ▸ h.ne_nil

/-- Data that has come moves the edge by as many bytes as can be read more. This needs that all data
stops in time, since the edge is held at the last word. -/
theorem edge_drain (h : p.Receives known notices) (hkind : packet.kind = .data)
    (hstops : packet.StopsInTime) :
    (p.reassembly.add ⟨packet.seq, packet.payload⟩).drain.2.edge =
      p.edge + (p.reassembly.add ⟨packet.seq, packet.payload⟩).drain.1.length := by
  rw [Reassembly.edge_drain (Reassembly.stops_add h.stops (hstops hkind)), Reassembly.edge_add]
  rfl

/-- Data that has come leaves the edge a place. -/
theorem edge_drain_le (h : p.Receives known notices) (chunk : Chunk) :
    (p.reassembly.add chunk).drain.2.edge ≤ maxWord :=
  Reassembly.drain_edge_le (by rw [Reassembly.edge_add]; exact h.edge_le)

/-- A party that has answered an opening is established, and its application is told. -/
theorem establish (h : p.Receives known notices) (hstate : p.state = .synReceived)
    {sendBase : Nat} :
    ({ p with sendBase, state := .established } : Party).Receives known
      (notices ++ [.established]) where
  edge_le := h.edge_le
  stops := h.stops
  blank hne := absurd rfl hne
  edge_eq _ := h.edge_eq (.inl hstate)
  told_eq := by simpa [Notice.readable] using h.told_eq
  heard_eq := h.heard_eq
  ne_nil := h.ne_nil

/-- **Data that comes moves the edge by what it completes**, and this is counted, told and made
ready at once. It may complete nothing. -/
theorem arrive (h : p.Receives known notices) (hstate : p.state = .established)
    (hkind : packet.kind = .data) (hstops : packet.StopsInTime) (hstate' : q.state = p.state)
    (hreassembly : q.reassembly = (p.reassembly.add ⟨packet.seq, packet.payload⟩).drain.2)
    {bytes : Bytes} (hdrain : (p.reassembly.add ⟨packet.seq, packet.payload⟩).drain.1 = bytes)
    (hreceived : q.stats.bytesReceived = p.stats.bytesReceived + bytes.length)
    (hheard : q.heard = p.heard ++ bytes) (hready : ∀ x ∈ q.ready, x ≠ []) {more : List Notice}
    (hmore : (more.map (·.readable)).sum = bytes.length) : q.Receives known (notices ++ more) := by
  have hedge := h.edge_drain hkind hstops
  obtain ⟨seq, hknown, heq⟩ := h.edge_eq (.inr hstate)
  rw [← hreassembly, hdrain] at hedge
  refine
    { edge_le := ?edge_le
      stops := ?stops
      blank := fun hne ↦ absurd (hstate'.trans hstate) hne
      edge_eq := fun _ ↦ ⟨seq, hknown, ?edge_eq⟩
      told_eq := ?told_eq
      heard_eq := by rw [hreceived, hheard, List.length_append, h.heard_eq]
      ne_nil := hready }
  case edge_le =>
    rw [Connection.edge, hreassembly]
    exact h.edge_drain_le _
  case stops =>
    rw [hreassembly]
    exact Reassembly.stops_drain (Reassembly.stops_add h.stops (hstops hkind))
  case edge_eq => rw [Connection.edge, hedge, heq, hreceived, Nat.add_assoc]
  case told_eq => rw [hreceived, h.told_eq, List.map_append, List.sum_append, hmore]

end Receives

/-- **Every move keeps the account**, with what it learns and what it tells the application. -/
theorem Move.receives (hmove : Move now input p r q) (h : p.Receives known notices)
    (hstops : ∀ packet, input = .packet packet → packet.StopsInTime) :
    q.Receives (learned input p q known) (notices ++ r.notices) := by
  cases hmove with
  | idle | answer | acknowledge | acknowledged | hand | send | resend | retryOpening |
    retryAnswer =>
    rw [learned_of_state_eq, List.append_nil]
    · exact h.rest rfl rfl rfl rfl rfl
    · rfl
  | connect hstate | listen hstate =>
    rw [List.append_nil]
    have hne : p.state ≠ .established := by simp [hstate]
    refine h.forget ?_ ?_ ?_ ?_ hne ?_ _
    case refine_5 => exact ⟨nofun, nofun⟩
    all_goals rfl
  | accept hkind hstate =>
    have hne : p.state ≠ .established := by simp [hstate]
    rw [learned_of_listening hstate, List.append_nil]
    · exact h.learn hne rfl rfl rfl rfl
    · rfl
  | @opened packet _ _ hkind hstate =>
    -- It learns the start like a party that answers, and is established at once.
    have hlearn := h.learn (q := { p with
      reassembly := { edge := saturatingAdd packet.seq 1 }, state := .synReceived })
      (by simp [hstate]) rfl rfl rfl rfl
    rw [learned_of_synSent hstate]
    · exact hlearn.establish rfl
    · rfl
  | complete hkind hstate =>
    rw [learned_of_synReceived hstate]
    exact h.establish hstate
  | @store packet _ _ hkind hstate _ _ hdrain =>
    rw [learned_of_state_eq]
    · refine h.arrive hstate hkind (hstops packet rfl) ?_ ?_ hdrain ?_ ?same ?ready ?_
      case same => exact (List.append_nil _).symm
      case ready => exact h.ne_nil
      all_goals rfl
    · rfl
  | @deliver packet _ bytes _ hkind hstate _ _ hdrain hne =>
    rw [learned_of_state_eq]
    · refine h.arrive hstate hkind (hstops packet rfl) ?_ ?_ hdrain ?_ ?longer ?more ?_
      case longer => exact heard_ready p ..
      case more =>
        intro x hmem
        rcases List.mem_append.1 hmem with hold | hnew
        · exact h.ne_nil x hold
        · exact List.mem_singleton.1 hnew ▸ hne
      all_goals rfl
    · rfl
  | giveUp hstate =>
    have hforget := h.forget (q := { p with state := .closed }) rfl rfl rfl rfl
      (by rcases hstate with hs | hs <;> simp [hs]) (by simp)
    exact { hforget _ with told_eq := by simpa [Notice.readable] using h.told_eq }
  | read hstate hready =>
    rw [learned_of_state_eq, List.append_nil]
    · exact
        { h with
          blank := fun hne ↦ absurd hstate hne
          heard_eq := by rw [heard_read hready, h.heard_eq]
          ne_nil := fun x hmem ↦ h.ne_nil x (hready ▸ List.mem_cons_of_mem _ hmem) }
    · rfl

theorem Moves.receives (hmoves : Moves now input p r q) (h : p.Receives known notices)
    (hstops : ∀ packet, input = .packet packet → packet.StopsInTime) :
    q.Receives (learned input p q known) (notices ++ r.notices) := by
  induction hmoves generalizing known notices with
  | none =>
    rw [learned_of_state_eq rfl]
    exact (List.append_nil notices).symm ▸ h
  | cons first rest ih =>
    have hrest := ih (first.receives h hstops)
    rw [first.learned_learned rest, List.append_assoc] at hrest
    exact hrest

theorem Gets.receives {home : Endpoint} {settings : Connection.Settings} {valid : settings.Valid}
    {isn : Nat} (h : Gets (.create home settings valid isn) p known notices) :
    p.Receives known notices := by
  induction h with
  | begin => exact .create
  | input _ hstops hperform ih => exact (moves_of_perform hperform).receives ih hstops

/-! ### What moves the edge -/

/-- Draining moves the edge of an established party forward. -/
theorem Move.edge_le (hmove : Move now input p r q) (hstate : p.state = .established)
    (hedge : p.edge ≤ maxWord) : p.edge ≤ q.edge ∧ q.edge ≤ maxWord := by
  cases hmove with
  | idle | answer | acknowledge | acknowledged | hand | send | resend | retryOpening |
    retryAnswer | read | connect | listen | complete | giveUp => exact ⟨Nat.le_refl _, hedge⟩
  | accept _ hother | opened _ hother => exact absurd (hstate.symm.trans hother) (by simp)
  | @store packet | @deliver packet =>
    have hadd : (p.reassembly.add ⟨packet.seq, packet.payload⟩).edge = p.edge :=
      Reassembly.edge_add ..
    exact ⟨hadd ▸ Reassembly.le_drain_edge (hadd ▸ hedge),
      Reassembly.drain_edge_le (hadd ▸ hedge)⟩

/-- From when a party is established on the edge never goes back. -/
theorem edge_le_of_performAll {inputs : List (Nat × Input)} {packets : List Packet}
    (hstate : p.state = .established) (hedge : p.edge ≤ maxWord)
    (hall : p.performAll inputs = .ok (q, packets)) :
    q.state = .established ∧ p.edge ≤ q.edge := by
  obtain ⟨hq, hle, -⟩ := preserves_of_performAll
    (P := fun t ↦ t.state = .established ∧ p.edge ≤ t.edge ∧ t.edge ≤ maxWord)
    (fun ht hmove ↦ by
      obtain ⟨hle, hword⟩ := hmove.edge_le ht.1 ht.2.2
      exact ⟨(Moves.single hmove).established ht.1, Nat.le_trans ht.2.1 hle, hword⟩)
    hall ⟨hstate, Nat.le_refl _, hedge⟩
  exact ⟨hq, hle⟩

/-- A packet brings data to a party whose handshake is done, or is completed by it. -/
structure Brings (p : Party) (packet : Packet) : Prop where
  /-- It carries data. -/
  kind_eq : packet.kind = .data
  /-- It comes from the peer. -/
  peer_eq : p.peer = some packet.source
  /-- The handshake is done then. -/
  done : p.state = .established ∨
    p.state = .synReceived ∧ packet.ack = saturatingAdd p.isn 1

/-- Nothing but data from the peer moves the edge, but for what tells where the stream starts. -/
theorem Move.edge_eq_of_not_brings (hmove : Move now (.packet packet) p r q)
    (hstate : p.state ≠ .listening ∧ p.state ≠ .synSent) (hnot : ¬ p.Brings packet) :
    (q.state ≠ .listening ∧ q.state ≠ .synSent) ∧ ¬ q.Brings packet ∧ q.edge = p.edge := by
  cases hmove with
  | idle | answer | acknowledge => exact ⟨hstate, hnot, rfl⟩
  | acknowledged | send =>
    exact ⟨hstate, fun h ↦ hnot ⟨h.kind_eq, h.peer_eq, h.done⟩, rfl⟩
  | accept _ hother => exact absurd hother hstate.1
  | opened _ hother => exact absurd hother hstate.2
  | complete _ hother hpeer hack =>
    -- Data that completes the handshake is brought.
    exact ⟨⟨by simp, by simp⟩, fun h ↦ hnot ⟨h.kind_eq, hpeer, .inr ⟨hother, hack⟩⟩, rfl⟩
  | store hkind hother hpeer | deliver hkind hother hpeer =>
    exact absurd ⟨hkind, hpeer, .inl hother⟩ hnot

/-- After a handshake is done with, or before it is begun, nothing but data moves the edge. -/
theorem edge_of_perform (hstate : p.state ≠ .listening ∧ p.state ≠ .synSent)
    (hbrings : ∀ packet, input = .packet packet → ¬ p.Brings packet)
    (h : p.perform now input = .ok (q, r)) : q.edge = p.edge := by
  have hmoves := moves_of_perform h
  cases input with
  | packet packet =>
    obtain ⟨-, -, hedge⟩ := hmoves.preserves
      (P := fun t ↦ (t.state ≠ .listening ∧ t.state ≠ .synSent) ∧ ¬ t.Brings packet ∧
        t.edge = p.edge)
      (fun ht hmove ↦ by
        obtain ⟨hstate, hnot, hedge⟩ := hmove.edge_eq_of_not_brings ht.1 ht.2.1
        exact ⟨hstate, hnot, hedge.trans ht.2.2⟩)
      ⟨hstate, hbrings packet rfl, rfl⟩
    exact hedge
  | _ => exact hmoves.edge_eq nofun

/-! ### Data is answered -/

/-- Data is read, since what it continues the stream by can be counted: it is no more than there are
places before the edge. -/
theorem Receives.exists_onData_eq_ok (h : p.Receives known notices)
    (hstate : p.state = .synReceived ∨ p.state = .established) (hkind : packet.kind = .data)
    (hstops : packet.StopsInTime) {c : Connection} (hreassembly : c.reassembly = p.reassembly)
    (hstats : c.stats = p.stats) : ∃ c' r, c.onData ⟨packet.seq, packet.payload⟩ = .ok (c', r) := by
  refine Connection.exists_onData_eq_ok fun _ ↦ ?_
  obtain ⟨seq, -, hedge⟩ := h.edge_eq hstate
  have hdrain := h.edge_drain hkind hstops
  have hle := h.edge_drain_le ⟨packet.seq, packet.payload⟩
  rw [hreassembly, hstats]
  omega

/-- Data from the peer is read, and answered by one acknowledgement. -/
theorem Receives.exists_perform_data (h : p.Receives known notices) (hbrings : p.Brings packet)
    (hstops : packet.StopsInTime) (now : Nat) :
    ∃ q r, p.perform now (.packet packet) = .ok (q, r) ∧ q.state = .established ∧
      r.packets =
        [⟨p.home, packet.source, .ack, q.sendNext, q.edge, p.settings.advertised, []⟩] := by
  have hkind := hbrings.kind_eq
  have hopen : p.state = .synReceived ∨ p.state = .established :=
    hbrings.done.symm.imp_left And.left
  -- If the handshake is not done yet then the data completes it, and nothing is sent by that.
  have hcomplete : ∃ c completed, p.completeHandshake packet.ack = (c, completed) ∧
      c.state = .established ∧ c.peer = p.peer ∧ c.reassembly = p.reassembly ∧
      c.stats = p.stats ∧ completed.packets = [] := by
    rcases hbrings.done with hstate | ⟨hstate, hack⟩
    · exact ⟨_, _, Connection.completeHandshake_of_ne (by simp [hstate]), hstate, rfl, rfl, rfl,
        rfl⟩
    · exact ⟨_, _, Connection.completeHandshake_of_synReceived hstate hack, rfl, rfl, rfl, rfl,
        rfl⟩
  obtain ⟨c, completed, hcompleted, hstate, hpeer, hreassembly, hstats, hnone⟩ := hcomplete
  obtain ⟨c', r, hdata⟩ := h.exists_onData_eq_ok hopen hkind hstops hreassembly hstats
  obtain ⟨hstate', hpeer', hpackets, -⟩ := Connection.onData_eq_ok hdata
  have hadmitted : p.onAdmitted now packet = .ok (c', completed ++ r) := by
    rw [Connection.onAdmitted, hkind]
    dsimp only [Connection.onceEstablished]
    rw [hcompleted, if_pos hstate]
    exact Checked.bind_eq_ok_iff.2 ⟨_, hdata, rfl⟩
  obtain ⟨r', hperform, hsent⟩ := exists_perform_packet hopen hbrings.peer_eq hadmitted
  have hmoves := moves_of_perform hperform
  have hsource : c'.peer = some packet.source := (hpeer'.trans hpeer).trans hbrings.peer_eq
  refine ⟨_, r', hperform, hstate'.trans hstate, ?_⟩
  rw [hsent, Reaction.packets_append, hnone, List.nil_append, hpackets,
    acknowledgement_eq (p := { p with toConnection := c' }) hsource, ← hmoves.home_eq,
    ← hmoves.settings_eq]

/-! ### After any inputs -/

/-- The account of what a party has received is kept. -/
structure KeepsAccount (p : Party) (known : Option Nat) (notices : List Notice) : Prop where
  /-- The edge follows the start of the peer's stream and all the bytes received. -/
  edge_eq : p.state = .established →
    ∃ seq, known = some seq ∧ p.edge = seq + 1 + p.stats.bytesReceived
  /-- It never goes back. -/
  edge_le : p.state = .established → ∀ (more : List (Nat × Input)) (q : Party)
    (packets : List Packet), p.performAll more = .ok (q, packets) →
      q.state = .established ∧ p.edge ≤ q.edge
  /-- The application was told of all the bytes received. -/
  told_eq : p.stats.bytesReceived = (notices.map (·.readable)).sum
  /-- They were read or can be. -/
  read_eq : p.stats.bytesReceived = p.reads.flatten.length + p.ready.flatten.length
  /-- What can be read is something. -/
  ne_nil : ∀ bytes ∈ p.ready, bytes ≠ []
  /-- Data from the peer is read, and answered by one acknowledgement. -/
  answers : ∀ (now : Nat) (packet : Packet), p.Brings packet → packet.StopsInTime →
    ∃ q r, p.perform now (.packet packet) = .ok (q, r) ∧ q.state = .established ∧
      r.packets = [⟨p.home, packet.source, .ack, q.sendNext, q.edge, p.settings.advertised, []⟩]
  /-- Nothing else moves the edge, but for the packet that tells where the peer's stream starts. -/
  others : ∀ (now : Nat) (input : Input) (q : Party) (r : Reaction),
    p.state ≠ .listening ∧ p.state ≠ .synSent →
    (∀ packet, input = .packet packet → ¬ p.Brings packet) →
    p.perform now input = .ok (q, r) → q.edge = p.edge

/-- **The account of what is received.** Whatever was asked of a party and whatever reached it, if
data stopped in time and the peer's stream starts at a place that is not the last one, then all that
is counted of what was received agrees, and it goes on so. -/
theorem keepsAccount_of_gets {home : Endpoint} {settings : Connection.Settings}
    {valid : settings.Valid} {isn : Nat}
    (h : Gets (.create home settings valid isn) p known notices)
    (hknown : ∀ seq, known = some seq → seq < maxWord) : p.KeepsAccount known notices := by
  have hreceives := h.receives
  exact
    { edge_eq := fun hstate ↦ by
        obtain ⟨seq, hseq, hedge⟩ := hreceives.edge_eq (.inr hstate)
        rw [saturatingAdd_of_le (hknown seq hseq)] at hedge
        exact ⟨seq, hseq, hedge⟩
      edge_le := fun hstate _ _ _ hmore ↦ edge_le_of_performAll hstate hreceives.edge_le hmore
      told_eq := hreceives.told_eq
      read_eq := by
        rw [hreceives.heard_eq, heard, List.length_append]
      ne_nil := hreceives.ne_nil
      answers := fun now _ hbrings hstops ↦ hreceives.exists_perform_data hbrings hstops now
      others := fun _ _ _ _ hstate hbrings hperform ↦ edge_of_perform hstate hbrings hperform }

/-- A party whose handshake is completed by data that came ahead, with chunks that are empty, that
overlap what waits and that come again. -/
def jumbled : List (Nat × Input) :=
  let data (seq : Nat) (payload : Bytes) : Input := .packet
    { source := ⟨10, 0, 0, 2, 80⟩, destination := ⟨10, 0, 0, 1, 4000⟩, kind := .data, seq
      ack := 101, payload }
  [(0, .listen),
    (1, .packet { source := ⟨10, 0, 0, 2, 80⟩, destination := ⟨10, 0, 0, 1, 4000⟩, kind := .syn
                  seq := 500 }),
    (2, data 503 [7, 8]), (2, data 502 []), (3, data 501 [1]), (3, data 502 [2, 3, 4]), (4, .read),
    (4, data 503 [7, 8]), (5, data 505 [5])]

/-- The empty chunk gives nothing to read, and of the two that overlap the one is read that the edge
reaches first. -/
theorem keepsAccount_jumbled :
    ∃ p known notices,
      Gets (.create ⟨10, 0, 0, 1, 4000⟩ {} ⟨by decide, by decide, by decide⟩ 100)
        p known notices ∧
      (p.state, p.edge, p.reads, p.ready) = (.established, 506, [[1]], [[2, 3, 4], [5]]) ∧
      (∀ seq, known = some seq → seq < maxWord) ∧ p.KeepsAccount known notices := by
  have hrun : ((create ⟨10, 0, 0, 1, 4000⟩ {} ⟨by decide, by decide, by decide⟩ 100).performAll
      jumbled).toOption.map (fun x ↦ (x.1.state, x.1.edge, x.1.reads, x.1.ready)) =
      some (.established, 506, [[1]], [[2, 3, 4], [5]]) := by
    decide +kernel
  obtain ⟨⟨p, packets⟩, hall, hfacts⟩ := Option.map_eq_some_iff.1 hrun
  rw [toOption_eq_some_iff] at hall
  obtain ⟨known, notices, hgets, hknown⟩ := Gets.begin.exists_of_performAll nofun
    (by simp +contextual [jumbled, Packet.StopsInTime, maxWord])
    (by simp +contextual [jumbled, maxWord]) hall
  exact ⟨p, known, notices, hgets, hfacts, hknown, keepsAccount_of_gets hgets hknown⟩

end Party

end ReliableStream
