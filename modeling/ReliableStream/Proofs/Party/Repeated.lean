import ReliableStream.Proofs.Party.States

/-!
# A packet that comes twice

Networks repeat packets. Whatever state a party is in, a packet that it has read leaves it in a
state in which reading the same packet again does nothing: it tells nobody, sets no alarm, and sends
at most the answer that may have been lost (`perform_packet_again`).

Each function that reads a packet is shown to be at rest after it has read it. For data this needs
that nothing waits at the edge of the stream (`Reassembly.AtRest`), which draining sees to. And
it fails at the very end of the sequence numbers, where the edge cannot move past what was handed
over, hence the bound on the edge.
-/

namespace ReliableStream

/-- A reaction that tells nothing, sets no alarm and sends one packet at most. -/
structure Reaction.Quiet (r : Reaction) : Prop where
  /-- The application is told nothing. -/
  notices_eq : r.notices = []
  /-- No alarm is set. -/
  alarms_eq : r.alarms = []
  /-- The trace is told nothing. -/
  traces_eq : r.traces = []
  /-- One packet is sent, or none. -/
  length_packets_le : r.packets.length ≤ 1

theorem Reaction.Quiet.append_notes {r : Reaction} (h : r.Quiet) (notes : List Connection.Note) :
    (({ notes } : Reaction) ++ r).Quiet :=
  ⟨h.notices_eq, h.alarms_eq, h.traces_eq, h.length_packets_le⟩

/-! ### What waits -/

/-- Putting an element in its place a second time changes nothing. -/
theorem Ascending.insert_insert {α : Type} {key : α → Nat} (x : α) (s : Ascending key) :
    (s.insert x).insert x = s.insert x := by
  ext1
  rw [toList_insert, toList_insert]
  induction s.toList with
  | nil => simp [place]
  | cons y rest ih =>
    rw [place]
    split
    · simp [place]
    · split
      · simp [place]
      · next hlt hne => rw [place, if_neg hlt, if_neg hne, ih]

namespace Reassembly

variable {edge : Nat} {l : List Chunk} {chunk : Chunk} {r : Reassembly}

/-- Nothing that waits continues the stream. -/
structure AtRest (r : Reassembly) : Prop where
  /-- The edge is a place. -/
  edge_le : r.edge ≤ maxWord
  /-- No chunk starts there. -/
  ne_edge : ∀ chunk ∈ r.waiting.toList, chunk.seq ≠ r.edge

/-- What draining gives, from what draining the list gives. -/
theorem drain_eq_of_drainFrom {bytes : Bytes} {after : Reassembly}
    (h : drainFrom r.edge r.waiting.toList = ⟨bytes, after.edge, after.waiting.toList⟩) :
    r.drain = (bytes, after) := by
  have hedge : r.drain.2.edge = after.edge := congrArg Drained.edge h
  have hrest : r.drain.2.waiting = after.waiting := Ascending.ext (congrArg Drained.rest h)
  have hafter : Reassembly.mk r.drain.2.edge r.drain.2.waiting = ⟨after.edge, after.waiting⟩ := by
    rw [hedge, hrest]
  exact Prod.ext (congrArg Drained.bytes h) hafter

/-- There is nothing to drain then. -/
theorem AtRest.drain_eq (h : r.AtRest) : r.drain = ([], r) :=
  drain_eq_of_drainFrom (drainFrom_of_forall_ne h.ne_edge)

theorem atRest_of_drain (h : r.edge ≤ maxWord) : r.drain.2.AtRest :=
  ⟨drain_edge_le h, ne_edge_of_mem_rest h r.waiting.ordered⟩

theorem AtRest.add (h : r.AtRest) (hne : chunk.seq ≠ r.edge) : (r.add chunk).AtRest := by
  refine ⟨by rw [edge_add]; exact h.edge_le, fun x hx ↦ ?_⟩
  rw [edge_add]
  rcases mem_waiting_add hx with ⟨rfl, -⟩ | hold
  · exact hne
  · exact h.ne_edge x hold

theorem add_of_le (h : r.edge ≤ chunk.seq) :
    r.add chunk = { r with waiting := r.waiting.insert chunk } :=
  if_neg (by simpa [isStale] using h)

/-- Keeping a chunk a second time changes nothing. -/
theorem add_add (h : r.edge ≤ chunk.seq) : (r.add chunk).add chunk = r.add chunk := by
  rw [add_of_le (r := r.add chunk) (by rwa [edge_add]), add_of_le h, Ascending.insert_insert]

/-- An empty chunk at the edge is the only thing that is drained, and nothing comes of it. -/
theorem drainFrom_place_empty (h : ∀ x ∈ l, x.seq ≠ edge) (hseq : chunk.seq = edge)
    (hempty : chunk.bytes = []) :
    drainFrom edge (Ascending.place Chunk.seq chunk l) = ⟨[], edge, l⟩ := by
  induction l with
  | nil => simp [Ascending.place, drainFrom, hseq, hempty]
  | cons y rest ih =>
    have hy := h y (List.mem_cons_self ..)
    rw [Ascending.place]
    split
    · simp [drainFrom, hseq, hempty]
    · rw [if_neg (by omega), drainFrom, if_pos (by omega),
        ih fun x hx ↦ h x (List.mem_cons_of_mem _ hx)]

/-- An empty chunk at the edge is taken out again. -/
theorem AtRest.drain_add_empty (h : r.AtRest) (hseq : chunk.seq = r.edge)
    (hempty : chunk.bytes = []) : (r.add chunk).drain = ([], r) := by
  rw [add_of_le (Nat.le_of_eq hseq.symm)]
  exact drain_eq_of_drainFrom (drainFrom_place_empty h.ne_edge hseq hempty)

/-- Only a chunk that starts at the edge continues the stream. -/
theorem AtRest.drain_add_eq_nil (h : r.AtRest) (hchunk : chunk.seq = r.edge → chunk.bytes = []) :
    (r.add chunk).drain.1 = [] := by
  by_cases hseq : chunk.seq = r.edge
  · rw [h.drain_add_empty hseq (hchunk hseq)]
  · rw [(h.add hseq).drain_eq]

/-- Draining gets past a chunk at the edge that is not empty. -/
theorem le_drainFrom_edge_of_mem (hl : l.Pairwise (·.seq < ·.seq)) (hmem : chunk ∈ l)
    (hseq : chunk.seq = edge) (hne : chunk.bytes ≠ []) :
    saturatingAdd edge chunk.bytes.length ≤ (drainFrom edge l).edge := by
  induction l with
  | nil => exact absurd hmem List.not_mem_nil
  | cons y rest ih =>
    obtain ⟨hfirst, hrest⟩ := List.pairwise_cons.1 hl
    rw [drainFrom]
    rcases List.mem_cons.1 hmem with rfl | hmem
    · rw [if_neg (by omega), if_pos hseq, if_neg (by simpa using hne)]
      exact le_drainFrom_edge (saturatingAdd_le ..) rest
    · have hlt := hfirst chunk hmem
      rw [if_pos (by omega)]
      exact ih hrest hmem

/-- The edge moves past a chunk that starts there, unless it is at the end of all places. -/
theorem lt_drain_add_edge (hseq : chunk.seq = r.edge) (hne : chunk.bytes ≠ [])
    (hlt : (r.add chunk).drain.2.edge < maxWord) : chunk.seq < (r.add chunk).drain.2.edge := by
  have hmem : chunk ∈ (r.add chunk).waiting.toList := by
    rw [add_of_le (Nat.le_of_eq hseq.symm)]
    exact (Ascending.mem_place r.waiting.ordered).2 (.inl rfl)
  have hle : saturatingAdd (r.add chunk).edge chunk.bytes.length ≤ (r.add chunk).drain.2.edge :=
    le_drainFrom_edge_of_mem (r.add chunk).waiting.ordered hmem (by rw [edge_add, hseq]) hne
  have hpos := List.length_pos_iff.2 hne
  rw [edge_add, saturatingAdd] at hle
  omega

end Reassembly

/-! ### Reading a packet again -/

namespace Connection

variable {now later : Nat} {chunk : Chunk} {packet : Packet} {c c' : Connection} {r : Reaction}

theorem length_control_le (kind : Packet.Kind) (seq ack : Nat) (c : Connection) :
    (c.control kind seq ack).length ≤ 1 := by
  rw [control]
  cases c.peer <;> simp

theorem deliver_of_atRest (h : c.reassembly.AtRest) : c.deliver = .ok (c, {}) := by
  rw [deliver_of_drain_eq_nil (by rw [h.drain_eq]), h.drain_eq]

/-- A chunk that was stored is stale, or stored already. If it continued the stream then the edge is
past it, which is where the bound on the edge comes in. -/
theorem store_again (hrest : c.reassembly.AtRest) (h : c.store chunk = .ok (c', r))
    (hedge : c'.edge < maxWord) : ∃ notes, c'.store chunk = .ok (c', { notes }) := by
  by_cases hstale : c.reassembly.isStale chunk.seq
  · rw [store, if_pos hstale] at h
    obtain ⟨rfl, -⟩ := Checked.pure_prod_eq_ok h
    exact ⟨_, if_pos hstale⟩
  · have hstored := h
    rw [store, if_neg hstale] at h
    have hle : c.reassembly.edge ≤ chunk.seq := by simpa [Reassembly.isStale] using hstale
    rcases Nat.eq_or_lt_of_le hle with heq | hlt
    · by_cases hempty : chunk.bytes = []
      · -- An empty chunk leaves the connection as it was.
        rw [deliver, hrest.drain_add_empty heq.symm hempty] at h
        obtain ⟨rfl, rfl⟩ := Checked.pure_prod_eq_ok h
        exact ⟨[], hstored⟩
      · -- It was given out, and the edge has gone past its start.
        have hafter : c'.reassembly = _ := (deliver_eq_ok h).1
        refine ⟨_, if_pos (decide_eq_true (?_ : chunk.seq < c'.reassembly.edge))⟩
        rw [edge, hafter] at hedge
        rw [hafter]
        exact Reassembly.lt_drain_add_edge heq.symm hempty hedge
    · -- It waits for what is missing before it, and is put at its place once more.
      have hadded : (c.reassembly.add chunk).AtRest := hrest.add (Nat.ne_of_gt hlt)
      rw [deliver_of_atRest hadded] at h
      obtain ⟨rfl, -⟩ := Checked.pure_prod_eq_ok h
      refine ⟨[], ?_⟩
      have hfresh : ¬ (c.reassembly.add chunk).isStale chunk.seq := by
        simpa [Reassembly.isStale] using hle
      rw [store, if_neg hfresh, Reassembly.add_add hle, deliver_of_atRest hadded]

theorem onData_again (hrest : c.reassembly.AtRest) (h : c.onData chunk = .ok (c', r))
    (hedge : c'.edge < maxWord) :
    c'.state = c.state ∧ ∃ again, c'.onData chunk = .ok (c', again) ∧ again.Quiet := by
  obtain ⟨⟨c₁, stored⟩, hstore, hpure⟩ := Checked.bind_eq_ok_iff.1 h
  obtain ⟨rfl, -⟩ := Checked.pure_prod_eq_ok hpure
  obtain ⟨notes, hagain⟩ := store_again hrest hstore hedge
  exact ⟨(onData_eq_ok h).1, _, Checked.bind_eq_ok_iff.2 ⟨_, hagain, rfl⟩, rfl, rfl, rfl,
    length_control_le ..⟩

theorem onAck_again {ack : Nat} {effects : Effects} (hstate : c.state = .established)
    (h : c.onAck now ack = .ok (c', effects)) :
    c'.state = .established ∧ ∃ notes, c'.onAck later ack = .ok (c', { notes }) := by
  refine ⟨(state_peer_of_onAck h).1.trans hstate, ?_⟩
  by_cases hunsent : c.sendNext < ack
  · rw [onAck, if_pos hunsent] at h
    obtain ⟨rfl, -⟩ := Checked.pure_prod_eq_ok h
    exact ⟨_, if_pos hunsent⟩
  · exact onAck_of_forall_le (ack_le_seq_of_onAck (Nat.le_of_not_lt hunsent) h)

/-- An opening that was answered is answered again, if the handshake still goes on. -/
theorem onSyn_again {source : Endpoint} {seq : Nat} {effects : Effects}
    (h : c.onSyn source seq = .ok (c', effects)) :
    ∃ packets notes, c'.onSyn source seq = .ok (c', { packets, notes }) ∧ packets.length ≤ 1 := by
  have hfirst := h
  rw [onSyn] at h
  split at h
  · obtain ⟨⟨c₁, alarms⟩, hstart, hpure⟩ := Checked.bind_eq_ok_iff.1 h
    obtain ⟨rfl, -⟩ := Checked.pure_prod_eq_ok hpure
    obtain ⟨-, rfl, -⟩ := startHandshake_eq_ok hstart
    exact ⟨_, [], rfl, length_control_le ..⟩
  · obtain ⟨rfl, rfl⟩ := Checked.pure_prod_eq_ok h
    exact ⟨_, _, hfirst, length_control_le ..⟩
  · obtain ⟨rfl, rfl⟩ := Checked.pure_prod_eq_ok h
    exact ⟨_, _, hfirst, Nat.zero_le _⟩

/-- An answer that was read is acknowledged again. -/
theorem onSynAck_again (seq ack : Nat) (c : Connection) :
    ∃ packets notes, (c.onSynAck seq ack).1.onSynAck seq ack =
      ((c.onSynAck seq ack).1, { packets, notes }) ∧ packets.length ≤ 1 := by
  cases hstate : c.state with
  | synSent =>
    by_cases hack : ack = c.firstByte
    · -- It opens the connection, which then is an established one that gets an answer.
      have hopened : (c.onSynAck seq ack).1.state = .established := by
        rw [onSynAck, hstate]
        simp only
        rw [if_pos hack]
        rfl
      generalize (c.onSynAck seq ack).1 = c' at hopened
      rw [onSynAck, hopened]
      exact ⟨_, [], rfl, length_control_le ..⟩
    · have hsame : c.onSynAck seq ack = (c, { notes := [.synAckUnexpected .synSent ack] }) := by
        rw [onSynAck, hstate]
        simp only
        rw [if_neg hack]
      rw [hsame]
      exact ⟨[], _, hsame, Nat.zero_le _⟩
  | established =>
    have hsame : c.onSynAck seq ack = (c, { packets := c.acknowledgement }) := by
      rw [onSynAck, hstate]
    rw [hsame]
    exact ⟨_, [], hsame, length_control_le ..⟩
  | closed | listening | synReceived =>
    have hsame : c.onSynAck seq ack = (c, { notes := [.synAckUnexpected c.state ack] }) := by
      rw [onSynAck, hstate]
    rw [hsame]
    exact ⟨[], _, hsame, Nat.zero_le _⟩

/-- What completes a handshake and goes on does not complete it again. -/
theorem onceEstablished_again {ack : Nat}
    {next again : Connection → Checked (Connection × Reaction)}
    (hnext : ∀ {d d' : Connection} {s : Reaction}, d.state = .established →
      d.reassembly = c.reassembly → next d = .ok (d', s) → d'.edge < maxWord →
        d'.state = .established ∧ ∃ s', again d' = .ok (d', s') ∧ s'.Quiet)
    (h : c.onceEstablished ack next = .ok (c', r)) (hedge : c'.edge < maxWord) :
    ∃ s, c'.onceEstablished ack again = .ok (c', s) ∧ s.Quiet := by
  by_cases hestablished : c.state = .established
  · rw [onceEstablished_of_established hestablished] at h
    obtain ⟨hstate, hagain⟩ := hnext hestablished rfl h hedge
    rwa [onceEstablished_of_established hstate]
  · by_cases hcompletes : c.state = .synReceived ∧ ack = c.firstByte
    · rw [onceEstablished, completeHandshake_of_synReceived hcompletes.1 hcompletes.2] at h
      dsimp only at h
      rw [if_pos rfl] at h
      obtain ⟨⟨c₁, s⟩, hfirst, hpure⟩ := Checked.bind_eq_ok_iff.1 h
      obtain ⟨rfl, -⟩ := Checked.pure_prod_eq_ok hpure
      obtain ⟨hstate, hagain⟩ := hnext (d := { c with sendBase := ack, state := .established }) rfl
        rfl hfirst hedge
      rwa [onceEstablished_of_established hstate]
    · -- The handshake is not done, now and then.
      have hsame : ∃ notes, c.completeHandshake ack = (c, { notes }) := by
        rw [completeHandshake]
        split
        · next hstate => exact ⟨_, if_neg fun hack ↦ hcompletes ⟨hstate, hack⟩⟩
        · exact ⟨[], rfl⟩
      obtain ⟨notes, hsame⟩ := hsame
      have hnot (k : Connection → Checked (Connection × Reaction)) :
          c.onceEstablished ack k = .ok (c, { notes }) := by
        rw [onceEstablished, hsame]
        exact if_neg hestablished
      rw [hnot] at h
      obtain ⟨rfl, -⟩ := Checked.pure_prod_eq_ok h
      exact ⟨_, hnot again, rfl, rfl, rfl, Nat.zero_le _⟩

/-- **A packet that was taken in does nothing when it comes again**, whatever its kind. -/
theorem onAdmitted_again (hrest : c.reassembly.AtRest) (h : c.onAdmitted now packet = .ok (c', r))
    (hedge : c'.edge < maxWord) :
    ∃ again, c'.onAdmitted later packet = .ok (c', again) ∧ again.Quiet := by
  cases hkind : packet.kind with
  | syn =>
    simp only [onAdmitted, hkind] at h ⊢
    obtain ⟨⟨c₁, effects⟩, hsyn, hpure⟩ := Checked.bind_eq_ok_iff.1 h
    obtain ⟨rfl, -⟩ := Checked.pure_prod_eq_ok hpure
    obtain ⟨packets, notes, hagain, hlength⟩ := onSyn_again hsyn
    exact ⟨_, Checked.bind_eq_ok_iff.2 ⟨_, hagain, rfl⟩, rfl, rfl, rfl, hlength⟩
  | synAck =>
    simp only [onAdmitted, hkind] at h ⊢
    obtain ⟨packets, notes, hagain, hlength⟩ := onSynAck_again packet.seq packet.ack c
    have hc : (c.onSynAck packet.seq packet.ack).1 = c' :=
      congrArg Prod.fst (Checked.pure_eq_ok_iff.1 h)
    rw [hc] at hagain
    exact ⟨_, Checked.pure_eq_ok_iff.2 hagain, rfl, rfl, rfl, hlength⟩
  | ack =>
    simp only [onAdmitted, hkind] at h ⊢
    refine onceEstablished_again (fun hstate _ hnext _ ↦ ?_) h hedge
    obtain ⟨⟨d₁, effects⟩, hack, hpure⟩ := Checked.bind_eq_ok_iff.1 hnext
    obtain ⟨rfl, -⟩ := Checked.pure_prod_eq_ok hpure
    obtain ⟨hstate', notes, hagain⟩ := onAck_again hstate hack
    exact ⟨hstate', _, Checked.bind_eq_ok_iff.2 ⟨_, hagain, rfl⟩, rfl, rfl, rfl, Nat.zero_le _⟩
  | data =>
    simp only [onAdmitted, hkind] at h ⊢
    refine onceEstablished_again (fun hstate hreassembly hnext hlt ↦ ?_) h hedge
    exact (onData_again (hreassembly ▸ hrest) hnext hlt).imp_left (·.trans hstate)
  | fin | finAck =>
    simp only [onAdmitted, hkind] at h ⊢
    obtain ⟨rfl, -⟩ := Checked.pure_prod_eq_ok h
    exact ⟨_, rfl, rfl, rfl, rfl, Nat.zero_le _⟩

end Connection

/-! ### After any inputs -/

namespace Party

variable {now later : Nat} {input : Input} {packet : Packet} {p q : Party} {r : Reaction}

/-- Nothing that a party does leaves something at the edge. -/
theorem Move.atRest (hmove : Move now input p r q) (h : p.reassembly.AtRest) :
    q.reassembly.AtRest := by
  cases hmove with
  | accept | opened => exact ⟨saturatingAdd_le .., fun _ hx ↦ absurd hx List.not_mem_nil⟩
  | store | deliver =>
    exact Reassembly.atRest_of_drain (by rw [Reassembly.edge_add]; exact h.edge_le)
  | _ => exact h

/-- Nothing continues the stream at any time of a life, if it does not at the beginning. -/
theorem Lives.atRest {reactions : List Reaction} (hlives : Lives p reactions q)
    (h : p.reassembly.AtRest) : q.reassembly.AtRest := by
  induction hlives with
  | nil => exact h
  | cons first _ ih =>
    exact ih ((moves_of_perform first).preserves (fun ht hmove ↦ hmove.atRest ht) h)

/-- A packet that was read is read again. -/
theorem dropNote?_of_perform (hdrop : p.dropNote? packet = none)
    (h : p.perform now (.packet packet) = .ok (q, r)) : q.dropNote? packet = none := by
  rcases (conforms_of_perform h).changes_or_eq with hchanges | ⟨hstate, hpeer⟩
  · refine dropNote?_eq_none ?_ (.inr ?_) <;> generalize q.state = state at hchanges <;>
      generalize q.peer = peer at hchanges <;> cases hchanges <;> simp
  · rw [Connection.dropNote?, hstate, hpeer]
    exact hdrop

/-- **A packet that comes twice.** After any inputs whatsoever, a packet that is given to a party a
second time leaves it as it is: the application and the trace are told nothing, no alarm is set, and
one packet is sent at most. -/
theorem perform_packet_again {home : Endpoint} {settings : Connection.Settings}
    {valid : settings.Valid} {isn : Nat} {inputs : List (Nat × Input)} {packets : List Packet}
    (hall : (create home settings valid isn).performAll inputs = .ok (p, packets))
    (hfirst : p.perform now (.packet packet) = .ok (q, r)) (hedge : q.edge < maxWord) :
    ∃ again, q.perform later (.packet packet) = .ok (q, again) ∧ again.Quiet := by
  have hcreate : (create home settings valid isn).reassembly.AtRest :=
    ⟨Nat.zero_le _, fun _ hx ↦ absurd hx List.not_mem_nil⟩
  obtain ⟨_, hlives⟩ := exists_lives_of_performAll hall
  have hrest := hlives.atRest hcreate
  cases hdrop : p.dropNote? packet with
  | some note =>
    rw [perform_of_dropNote? hdrop] at hfirst
    obtain ⟨rfl, -⟩ := Checked.pure_prod_eq_ok hfirst
    exact ⟨_, perform_of_dropNote? hdrop, rfl, rfl, rfl, Nat.zero_le _⟩
  | none =>
    have hdrop' := dropNote?_of_perform hdrop hfirst
    obtain ⟨c, r', hadmitted, rfl, -⟩ := exists_onAdmitted_eq hdrop hfirst
    obtain ⟨s, hagain, hquiet⟩ : ∃ s, c.onAdmitted later packet = .ok (c, s) ∧ _ :=
      Connection.onAdmitted_again hrest hadmitted hedge
    refine ⟨_, ?_, hquiet.append_notes [.received packet]⟩
    rw [perform, Connection.onPacket, hdrop']
    exact Checked.bind_eq_ok_iff.2 ⟨_, Checked.bind_eq_ok_iff.2 ⟨_, hagain, rfl⟩, rfl⟩

/-- A party that waits for an opening, is established, and stores a segment ahead of its stream. -/
def gap : List (Nat × Input) :=
  let peer : Endpoint := ⟨10, 0, 0, 1, 4000⟩
  let home : Endpoint := ⟨10, 0, 0, 2, 80⟩
  [(0, .listen),
    (1, .packet { source := peer, destination := home, kind := .syn, seq := 100 }),
    (2, .packet { source := peer, destination := home, kind := .ack, seq := 101, ack := 901 }),
    (3, .packet { source := peer, destination := home, kind := .data, seq := 103, ack := 901,
                  payload := [3, 4] })]

/-- The segment that closes the gap. -/
def filler : Packet :=
  { source := ⟨10, 0, 0, 1, 4000⟩, destination := ⟨10, 0, 0, 2, 80⟩, kind := .data, seq := 101,
    ack := 901, payload := [1, 2] }

/-- The first time all four bytes are handed over, the second time they are only acknowledged. -/
theorem perform_packet_again_filler :
    ∃ p packets q r again,
      (create ⟨10, 0, 0, 2, 80⟩ {} ⟨by decide, by decide, by decide⟩ 900).performAll gap =
        .ok (p, packets) ∧
      p.perform 5 (.packet filler) = .ok (q, r) ∧
      (q.edge, q.ready, r.notices) = (105, [[1, 2, 3, 4]], [.dataReady 4]) ∧
      q.perform 9 (.packet filler) = .ok (q, again) ∧ again.Quiet := by
  have hrun : ((create ⟨10, 0, 0, 2, 80⟩ {} ⟨by decide, by decide, by decide⟩ 900).performAll gap
      >>= fun x ↦ x.1.perform 5 (.packet filler)).toOption.map (fun y ↦
        (y.1.edge, y.1.ready, y.2.notices)) = some (105, [[1, 2, 3, 4]], [.dataReady 4]) := by
    decide +kernel
  obtain ⟨⟨q, r⟩, hboth, hfacts⟩ := Option.map_eq_some_iff.1 hrun
  obtain ⟨⟨p, packets⟩, hall, hfirst⟩ :=
    Checked.bind_eq_ok_iff.1 (toOption_eq_some_iff.1 hboth)
  have hedge : q.edge = 105 := congrArg Prod.fst hfacts
  obtain ⟨again, hagain, hquiet⟩ : ∃ again, q.perform 9 (.packet filler) = .ok (q, again) ∧ _ :=
    perform_packet_again hall hfirst (hedge ▸ by decide)
  exact ⟨p, packets, q, r, again, hall, hfirst, hfacts, hagain, hquiet⟩

end Party

end ReliableStream
