import Mathlib.Data.List.Induction
import ReliableStream.Proofs.Party.Outcome
import ReliableStream.Proofs.Party.Window

/-!
# Acknowledgements are cumulative

Acknowledgements that reach an established party at one instant may come in any order and any number
of times. The largest of them alone would make the same of the party, and have it send the same
packets and set the same alarms (`absorbs_of_performAll`).

Each of them may make room in the window, so an early one has some of what waits in line sent, and a
later one the rest. It does not matter since pumping, taking segments out of flight and pumping
again is the same as taking them out first and pumping once (`Connection.pump_trim`). Two
acknowledgements thus amount to the larger one (`Connection.onAck_onAck`), and the rest is an
induction.

Compared is what is `issued`: traces and notes do tell how many acknowledgements there were.

Effects are collected in the order of the steps (`andThen`), which is associative, so equations
between steps may be used in the middle of a longer sequence. That lets the induction over the
acknowledgements go from the end: all but the last amount to their largest, and then there are two.
-/

namespace ReliableStream

/-! ### Steps one after the other -/

namespace Effects

variable {α β γ : Type}

/-- Takes two steps one after the other, with all that there is to do. -/
def andThen (first : Checked (α × Effects)) (next : α → Checked (β × Effects)) :
    Checked (β × Effects) := do
  let (a, effects) ← first
  let (b, more) ← next a
  pure (b, effects ++ more)

/-- A first step that has an outcome puts its effects before those of the second one. -/
theorem andThen_ok (a : α) (effects : Effects) (next : α → Checked (β × Effects)) :
    andThen (.ok (a, effects)) next = (next a).map fun x ↦ (x.1, effects ++ x.2) := by
  rw [andThen]
  show (next a >>= _) = _
  rcases next a with e | x <;> rfl

/-- Three steps one after the other may be grouped either way. -/
theorem andThen_assoc (first : Checked (α × Effects)) (next : α → Checked (β × Effects))
    (last : β → Checked (γ × Effects)) :
    andThen (andThen first next) last = andThen first fun a ↦ andThen (next a) last := by
  rcases first with e | ⟨a, effects⟩
  · rfl
  · rw [andThen_ok, andThen_ok]
    rcases next a with e | ⟨b, more⟩
    · rfl
    · show andThen (.ok (b, effects ++ more)) last = _
      rw [andThen_ok, andThen_ok]
      rcases last b with e | ⟨c, others⟩
      · rfl
      · show Except.ok (c, effects ++ more ++ others) = Except.ok (c, effects ++ (more ++ others))
        rw [append_assoc]

theorem pure_andThen (a : α) (next : α → Checked (β × Effects)) :
    andThen (pure (a, {})) next = next a := by
  show andThen (.ok (a, {})) next = next a
  rw [andThen_ok]
  rcases next a with e | x <;> rfl

theorem andThen_pure (first : Checked (α × Effects)) :
    andThen first (fun a ↦ pure (a, {})) = first := by
  rcases first with e | ⟨a, effects⟩
  · rfl
  · show Except.ok (a, effects ++ ({} : Effects)) = Except.ok (a, effects)
    rw [append_empty]

/-- What the first step leaves may be changed before the second one. -/
theorem andThen_map (f : α → β) (first : Checked (α × Effects))
    (next : β → Checked (γ × Effects)) :
    andThen (first.map fun x ↦ (f x.1, x.2)) next = andThen first fun a ↦ next (f a) := by
  rcases first with e | x <;> rfl

/-- Only what the first step leaves matters for the second one. -/
theorem andThen_congr {first : Checked (α × Effects)} {next next' : α → Checked (β × Effects)}
    (h : ∀ a effects, first = .ok (a, effects) → next a = next' a) :
    andThen first next = andThen first next' := by
  rcases first with e | ⟨a, effects⟩
  · rfl
  · rw [andThen_ok, andThen_ok, h a effects rfl]

/-- What becomes of something, with the packets to send and the alarms to set. -/
def issued (x : α × Effects) : α × List Packet × List Alarm := (x.1, x.2.packets, x.2.alarms)

theorem map_issued_andThen (first : Checked (α × Effects)) (next : α → Checked (β × Effects)) :
    (andThen first next).map issued = first.map issued >>= fun x ↦
      (next x.1).map issued >>= fun y ↦ pure (y.1, x.2.1 ++ y.2.1, x.2.2 ++ y.2.2) := by
  rcases first with e | ⟨a, effects⟩
  · rfl
  · show (next a >>= _).map issued = ((next a).map issued >>= _)
    rcases next a with e | ⟨b, more⟩ <;> rfl

/-- Steps that issue the same issue the same one after the other. -/
theorem map_issued_congr {first first' : Checked (α × Effects)}
    {next next' : α → Checked (β × Effects)} (hfirst : first.map issued = first'.map issued)
    (hnext : ∀ a effects, first' = .ok (a, effects) →
      (next a).map issued = (next' a).map issued) :
    (andThen first next).map issued = (andThen first' next').map issued := by
  rw [map_issued_andThen, map_issued_andThen, hfirst]
  rcases first' with e | ⟨a, effects⟩
  · rfl
  · show ((next a).map issued >>= _) = ((next' a).map issued >>= _)
    rw [hnext a effects rfl]

end Effects

namespace Connection

open Effects

variable {now : Nat} {c c' c'' : Connection} {ack : Nat}

/-! ### Pumping after an acknowledgement -/

/-- Takes what starts before `ack` out of flight, and has `ack` acknowledged. -/
def trim (ack : Nat) (c : Connection) : Connection :=
  { c with inFlight := c.inFlight.filter (ack ≤ ·.seq), sendBase := ack }

/-- Only the later one of two acknowledgements counts. -/
theorem trim_trim {m : Nat} (h : m ≤ ack) (c : Connection) :
    (c.trim m).trim ack = c.trim ack := by
  have hfilter : (c.inFlight.filter (m ≤ ·.seq)).filter (ack ≤ ·.seq) =
      c.inFlight.filter (ack ≤ ·.seq) := by
    refine Ascending.ext ?_
    rw [Ascending.toList_filter, Ascending.toList_filter, Ascending.toList_filter,
      List.filter_filter]
    refine List.filter_congr fun s _ ↦ ?_
    rw [Bool.and_eq_left_iff_imp]
    simp only [decide_eq_true_eq]
    exact Nat.le_trans h
  rw [trim, trim, trim, hfilter]

/-- Has other chunks wait in line. -/
def queue (pending : List Bytes) (c : Connection) : Connection := { c with pending }

/-- The connection when a chunk is sent for the first time. -/
def launch (now : Nat) (chunk : Bytes) (c : Connection) : Connection :=
  { c with
    sendNext := c.sendNext + chunk.length
    inFlight := c.inFlight.insert ⟨c.sendNext, chunk, now, 0⟩
    stats := { c.stats with bytesSent := c.stats.bytesSent + chunk.length } }

/-- A chunk is sent if it has a place in the stream, and nothing else is asked. -/
theorem sendChunk_eq (peer : Endpoint) (chunk : Bytes) (c : Connection) :
    c.sendChunk now peer chunk =
      if c.sendNext + chunk.length ≤ maxWord ∧ c.stats.bytesSent + chunk.length ≤ maxWord then
        .ok (c.launch now chunk,
          { packets := [c.dataPacket peer ⟨c.sendNext, chunk, now, 0⟩]
            alarms := [⟨c.settings.rto, .segment c.sendNext 0⟩]
            traces := [.segmentSent c.sendNext chunk.length] })
      else .error .sum := by
  rw [sendChunk, addWithin, addWithin]
  by_cases hnext : c.sendNext + chunk.length ≤ maxWord
  · by_cases hsent : c.stats.bytesSent + chunk.length ≤ maxWord
    · rw [if_pos hnext, if_pos hsent, if_pos (And.intro hnext hsent)]
      rfl
    · rw [if_pos hnext, if_neg hsent, if_neg (mt And.right hsent)]
      rfl
  · rw [if_neg hnext, if_neg (mt And.left hnext)]
    rfl

/-- Acknowledging what was sent before does not change what sending a chunk does. -/
theorem sendChunk_trim (h : ack ≤ c.sendNext) (peer : Endpoint) (chunk : Bytes) :
    (c.trim ack).sendChunk now peer chunk =
      (c.sendChunk now peer chunk).map fun x ↦ (x.1.trim ack, x.2) := by
  have hlaunch : (c.trim ack).launch now chunk = (c.launch now chunk).trim ack := by
    have hinsert := Ascending.filter_insert (x := (⟨c.sendNext, chunk, now, 0⟩ : Segment)) h
      c.inFlight
    exact congrArg (fun inFlight ↦ { c.launch now chunk with inFlight, sendBase := ack })
      hinsert.symm
  rw [sendChunk_eq, sendChunk_eq, hlaunch]
  show (if c.sendNext + chunk.length ≤ maxWord ∧ c.stats.bytesSent + chunk.length ≤ maxWord
    then _ else _) = _
  split <;> rfl

/-- What is pending does not matter for it either. -/
theorem sendChunk_queue (peer : Endpoint) (chunk : Bytes) (pending : List Bytes)
    (c : Connection) :
    (c.queue pending).sendChunk now peer chunk =
      (c.sendChunk now peer chunk).map fun x ↦ (x.1.queue pending, x.2) := by
  rw [sendChunk_eq, sendChunk_eq]
  show (if c.sendNext + chunk.length ≤ maxWord ∧ c.stats.bytesSent + chunk.length ≤ maxWord
    then _ else _) = _
  split <;> rfl

/-- A chunk is sent if there is room, and then the others are tried. -/
theorem sendChunks_cons (peer : Endpoint) (chunk : Bytes) (rest : List Bytes) (c : Connection) :
    sendChunks now peer (chunk :: rest) c =
      if c.inFlight.size < c.settings.window then
        andThen (c.sendChunk now peer chunk) (sendChunks now peer rest)
      else pure (c.queue (chunk :: rest), {}) := rfl

theorem sendChunks_queue (peer : Endpoint) (line pending : List Bytes) (c : Connection) :
    sendChunks now peer line (c.queue pending) = sendChunks now peer line c := by
  induction line generalizing c with
  | nil => rfl
  | cons chunk rest ih =>
    rw [sendChunks_cons, sendChunks_cons, sendChunk_queue, andThen_map]
    show (if c.inFlight.size < c.settings.window then _ else _) = _
    split
    · exact congrArg (andThen _) (funext ih)
    · rfl

/-- Sending a line after an acknowledgement is sending it before and again afterwards. The second
time goes on where the window was full, as the acknowledgement has made room. -/
theorem sendChunks_trim (h : ack ≤ c.sendNext) (peer : Endpoint) (line : List Bytes) :
    sendChunks now peer line (c.trim ack) =
      andThen (sendChunks now peer line c) fun c' ↦
        sendChunks now peer c'.pending (c'.trim ack) := by
  induction line generalizing c with
  | nil => rfl
  | cons chunk rest ih =>
    by_cases hroom : c.inFlight.size < c.settings.window
    · -- If there is room before, then there is room afterwards.
      have hroom' : (c.trim ack).inFlight.size < (c.trim ack).settings.window :=
        Nat.lt_of_le_of_lt (List.length_filter_le ..) hroom
      rw [sendChunks_cons, sendChunks_cons, if_pos hroom, if_pos hroom', sendChunk_trim h,
        andThen_map, andThen_assoc]
      refine andThen_congr fun c' effects hsend ↦ ih ?_
      obtain ⟨-, -, rfl, -⟩ := sendChunk_eq_ok hsend
      exact Nat.le_trans h (Nat.le_add_right ..)
    · -- Nothing is sent before.
      rw [sendChunks_cons peer chunk rest c, if_neg hroom, pure_andThen]
      exact (sendChunks_queue peer (chunk :: rest) (chunk :: rest) (c.trim ack)).symm

/-- Pumping, acknowledging what was sent before and pumping again is the same as acknowledging it
first and pumping once. -/
theorem pump_trim (h : ack ≤ c.sendNext) :
    (c.trim ack).pump now = andThen (c.pump now) fun c' ↦ (c'.trim ack).pump now := by
  cases hsome : c.peer with
  | none =>
    have hpump (c' : Connection) (hnone : c'.peer = none) : c'.pump now = pure (c', {}) := by
      rw [pump, hnone]
    rw [hpump c hsome, pure_andThen]
  | some peer =>
    have hpump (c' : Connection) (hsome : c'.peer = some peer) :
        c'.pump now = sendChunks now peer c'.pending c' := by rw [pump, hsome]
    rw [hpump c hsome, hpump (c.trim ack) hsome]
    refine (sendChunks_trim h peer c.pending).trans (andThen_congr fun c' effects hsend ↦ ?_)
    exact (hpump (c'.trim ack) ((continues_sendChunks hsend).peer_eq.trans hsome)).symm

/-! ### One acknowledgement -/

/-- Nothing in flight starts before the last place acknowledged, nor after the next new byte. -/
structure Placed (c : Connection) : Prop where
  /-- Only what was sent is acknowledged. -/
  base_le : c.sendBase ≤ c.sendNext
  /-- What is in flight starts in between. -/
  seq : ∀ s ∈ c.inFlight.toList, c.sendBase ≤ s.seq ∧ s.seq ≤ c.sendNext

/-- That is so while nothing is in flight. -/
theorem Placed.of_nil (hbase : c.sendBase ≤ c.sendNext) (hnone : c.inFlight.toList = []) :
    c.Placed :=
  ⟨hbase, fun _ hs ↦ absurd (hnone ▸ hs) List.not_mem_nil⟩

/-- An acknowledgement does not end in the middle of a segment that is in flight. -/
def Boundary (ack : Nat) (c : Connection) : Prop :=
  ack ≤ c.sendBase ∨ (∃ s ∈ c.inFlight.toList, s.seq = ack) ∨ ack = c.sendNext

/-- An acknowledgement that ends at a segment is not behind the next new byte. -/
theorem Placed.le_sendNext (hc : c.Placed) (h : c.Boundary ack) : ack ≤ c.sendNext := by
  rcases h with hbase | ⟨s, hs, rfl⟩ | rfl
  · exact Nat.le_trans hbase hc.base_le
  · exact (hc.seq s hs).2
  · exact Nat.le_refl _

/-- An acknowledgement of nothing that is in flight issues nothing. -/
theorem issued_onAck_of_forall_le (h : ∀ s ∈ c.inFlight.toList, ack ≤ s.seq) :
    (c.onAck now ack).map issued = .ok (c, [], []) := by
  obtain ⟨notes, hack⟩ : ∃ notes, c.onAck now ack = .ok (c, { notes }) := onAck_of_forall_le h
  rw [hack]
  rfl

/-- An acknowledgement of something that is in flight makes room, and has the room used. -/
theorem issued_onAck_of_lt (hle : ack ≤ c.sendNext) {s : Segment} (hs : s ∈ c.inFlight.toList)
    (hlt : s.seq < ack) :
    (c.onAck now ack).map issued = ((c.trim ack).pump now).map issued := by
  rcases onAck_cases now ack c with ⟨-, hall⟩ | ⟨-, -, hok⟩
  · exact absurd hlt (Nat.not_lt.2 (hall hle s hs))
  · rw [hok]
    show (((c.trim ack).pump now >>= _) : Checked (Connection × Effects)).map issued = _
    rcases (c.trim ack).pump now with e | x <;> rfl

/-- After an acknowledgement an earlier one is of nothing. -/
theorem onAck_onAck_of_le {m : Nat} (hm : m ≤ c.sendNext) (hle : ack ≤ m) :
    (andThen (c.onAck now m) (onAck now ack)).map issued = (c.onAck now m).map issued := by
  have hnothing : (andThen (c.onAck now m) (onAck now ack)).map issued =
      (andThen (c.onAck now m) fun c' ↦ pure (c', {})).map issued :=
    map_issued_congr rfl fun c' effects hdone ↦ issued_onAck_of_forall_le fun s hs ↦
      Nat.le_trans hle (ack_le_seq_of_onAck hm hdone s hs)
  rw [hnothing, andThen_pure]

/-- A later acknowledgement does what is left for it to do, by `pump_trim` between the two. -/
theorem onAck_onAck_of_lt {m : Nat} (hc : c.Placed) (hm : c.Boundary m) (hnext : ack ≤ c.sendNext)
    (hlt : m < ack) :
    (andThen (c.onAck now m) (onAck now ack)).map issued = (c.onAck now ack).map issued := by
  by_cases hall : ∀ s ∈ c.inFlight.toList, m ≤ s.seq
  · -- The first one is of nothing.
    have hfirst : (c.onAck now m).map issued = (pure (c, {}) : Checked _).map issued :=
      issued_onAck_of_forall_le hall
    rw [map_issued_congr hfirst fun _ _ _ ↦ rfl, pure_andThen]
  · -- The first one is of something. A segment starts at it, stays in flight and is what the second
    -- one is of.
    obtain ⟨s, hs, hbefore⟩ : ∃ s ∈ c.inFlight.toList, s.seq < m := by simpa using hall
    obtain ⟨t, ht, rfl⟩ : ∃ t ∈ c.inFlight.toList, t.seq = m := by
      rcases hm with hbase | hmem | rfl
      · exact absurd (hc.seq s hs).1 (by omega)
      · exact hmem
      · exact absurd hnext (Nat.not_le.2 hlt)
    have hstays : t ∈ (c.trim t.seq).inFlight.toList := List.mem_filter.2 ⟨ht, by simp⟩
    have hfirst : (c.onAck now t.seq).map issued = ((c.trim t.seq).pump now).map issued :=
      issued_onAck_of_lt (hc.seq t ht).2 hs hbefore
    have hpump : ((c.trim t.seq).trim ack).pump now =
        andThen ((c.trim t.seq).pump now) fun c' ↦ (c'.trim ack).pump now :=
      pump_trim hnext
    rw [trim_trim (Nat.le_of_lt hlt)] at hpump
    rw [issued_onAck_of_lt hnext ht hlt, hpump]
    refine map_issued_congr hfirst fun c' effects hdone ↦ ?_
    have hcontinues := continues_pump hdone
    obtain ⟨u, hu, hseq⟩ := hcontinues.keeps t hstays
    exact issued_onAck_of_lt (Nat.le_trans hnext hcontinues.next_le) hu (hseq ▸ hlt)

/-- Two acknowledgements one after the other amount to the larger one. -/
theorem onAck_onAck {m : Nat} (hc : c.Placed) (hm : c.Boundary m) (hack : c.Boundary ack) :
    (andThen (c.onAck now m) (onAck now ack)).map issued =
      (c.onAck now (max m ack)).map issued := by
  rcases Nat.lt_or_ge m ack with hlt | hge
  · rw [Nat.max_eq_right (Nat.le_of_lt hlt)]
    exact onAck_onAck_of_lt hc hm (hc.le_sendNext hack) hlt
  · rw [Nat.max_eq_left hge]
    exact onAck_onAck_of_le (hc.le_sendNext hm) hge

/-! ### Many acknowledgements -/

/-- Handles acknowledgements one after the other, all at one instant. -/
def onAcks (now : Nat) : List Nat → Connection → Checked (Connection × Effects)
  | [], c => pure (c, {})
  | ack :: rest, c => andThen (c.onAck now ack) (onAcks now rest)

theorem onAcks_append_singleton (acks : List Nat) (ack : Nat) (c : Connection) :
    onAcks now (acks ++ [ack]) c = andThen (onAcks now acks c) (onAck now ack) := by
  induction acks generalizing c with
  | nil =>
    show andThen (c.onAck now ack) (fun c ↦ pure (c, {})) = andThen (pure (c, {})) _
    rw [andThen_pure, pure_andThen]
  | cons first rest ih =>
    rw [List.cons_append, onAcks, onAcks, andThen_assoc]
    exact congrArg (andThen _) (funext ih)

/-- Acknowledgements one after the other amount to the largest one. The induction takes off the
last, which is compared with the largest of the others. -/
theorem onAcks_eq_onAck {acks : List Nat} {largest : Nat} (hc : c.Placed)
    (hboundary : ∀ ack ∈ acks, c.Boundary ack) (hmax : acks.max? = some largest) :
    (onAcks now acks c).map issued = (c.onAck now largest).map issued := by
  -- The last one is split off, since what is a boundary is said of the connection at the start.
  induction acks using List.reverseRecOn generalizing largest with
  | nil => exact absurd hmax (by simp)
  | append_singleton acks ack ih =>
    obtain ⟨hmem, hle⟩ := List.max?_eq_some_iff.1 hmax
    obtain ⟨hacks, hlast⟩ := List.forall_mem_append.1 hboundary
    have hack : c.Boundary ack := hlast ack (List.mem_singleton_self ack)
    rw [onAcks_append_singleton]
    cases hm : acks.max? with
    | none =>
      obtain rfl := List.max?_eq_none_iff.1 hm
      obtain rfl : largest = ack := List.mem_singleton.1 hmem
      rw [onAcks, pure_andThen]
    | some m =>
      obtain ⟨hmmem, hmle⟩ := List.max?_eq_some_iff.1 hm
      have hlargest : largest = max m ack := by
        refine Nat.le_antisymm ?_ (Nat.max_le.2 ⟨hle m ?_, hle ack ?_⟩)
        · rcases List.mem_append.1 hmem with hin | hin
          · exact Nat.le_trans (hmle _ hin) (Nat.le_max_left ..)
          · exact List.mem_singleton.1 hin ▸ Nat.le_max_right ..
        · exact List.mem_append_left _ hmmem
        · exact List.mem_append_right _ (List.mem_singleton_self ack)
      rw [map_issued_congr (ih hacks hm) fun _ _ _ ↦ rfl, hlargest]
      exact onAck_onAck hc (hacks m hmmem) hack

end Connection

namespace Party

open Effects

variable {now : Nat} {input : Input} {p q : Party} {r : Reaction} {packet : Packet}

/-! ### Acknowledgements that arrive -/

/-- Gives a party packets one after the other, all at one instant. -/
def takeAll (now : Nat) : List Packet → Party → Checked (Party × Effects)
  | [], p => pure (p, {})
  | packet :: rest, p =>
    andThen ((p.perform now (.packet packet)).map fun x ↦ (x.1, x.2.toEffects)) (takeAll now rest)

/-- An established party handles an acknowledgement from its peer. -/
theorem perform_ack (hstate : p.state = .established) (hkind : packet.kind = .ack)
    (hpeer : p.peer = some packet.source) :
    ((p.perform now (.packet packet)).map fun x ↦ (x.1, x.2.toEffects)).map issued =
      ((p.onAck now packet.ack).map issued).map fun x ↦
        ({ p with toConnection := x.1 }, x.2) := by
  have hdrop : p.dropNote? packet = none :=
    dropNote?_eq_none (by simp [hstate]) (.inr hpeer)
  rw [perform, Connection.onPacket, hdrop]
  dsimp only
  rw [Connection.onAdmitted_ack hstate hkind]
  rcases p.onAck now packet.ack with e | x <;> rfl

/-- It handles acknowledgements one after the other as its connection does. -/
theorem takeAll_acks {arrivals : List Packet} (hstate : p.state = .established)
    (harrivals : ∀ packet ∈ arrivals, packet.kind = .ack ∧ p.peer = some packet.source) :
    (p.takeAll now arrivals).map issued =
      ((p.onAcks now (arrivals.map (·.ack))).map issued).map fun x ↦
        ({ p with toConnection := x.1 }, x.2) := by
  induction arrivals generalizing p with
  | nil => rfl
  | cons packet rest ih =>
    obtain ⟨⟨hkind, hpeer⟩, hrest⟩ := List.forall_mem_cons.1 harrivals
    rw [takeAll, List.map_cons, Connection.onAcks, map_issued_andThen, map_issued_andThen,
      perform_ack hstate hkind hpeer]
    rcases hack : p.onAck now packet.ack with e | ⟨c, effects⟩
    · rfl
    · obtain ⟨hstate', hpeer'⟩ := Connection.state_peer_of_onAck hack
      have hothers : (takeAll now rest { p with toConnection := c }).map issued =
          ((c.onAcks now (rest.map (·.ack))).map issued).map fun x ↦
            ({ p with toConnection := x.1 }, x.2) :=
        ih (p := { p with toConnection := c }) (hstate'.trans hstate)
          fun other hother ↦ ⟨(hrest other hother).1, hpeer'.trans (hrest other hother).2⟩
      show ((takeAll now rest { p with toConnection := c }).map issued >>= _) = _
      rw [hothers]
      show _ = ((c.onAcks now (rest.map (·.ack))).map issued >>= _).map _
      generalize c.onAcks now (rest.map (·.ack)) = others
      rcases others with e | x <;> rfl

/-! ### After any inputs -/

/-- How a party is placed in its stream. In contrast to `Sound` it may start at the last word, so
that its stream has no place for a first byte. -/
structure Aligned (p : Party) : Prop where
  /-- The stream starts at a word. -/
  isn_le : p.isn ≤ maxWord
  /-- What is in flight starts where it should. -/
  placed : p.Placed
  /-- Nothing is in flight before the handshake is done. -/
  blank : p.state ≠ .established → p.inFlight.toList = []
  /-- During a handshake the opening is sent. -/
  opening : p.state = .synSent ∨ p.state = .synReceived → p.sendNext = p.firstByte

theorem aligned_create {home : Endpoint} {settings : Connection.Settings} {valid : settings.Valid}
    {isn : Nat} (hisn : isn ≤ maxWord) : (create home settings valid isn).Aligned where
  isn_le := hisn
  placed := .of_nil (Nat.le_refl _) rfl
  blank _ := rfl
  opening h := by rcases h with h | h <;> exact absurd h (by simp [create])

/-- Every move keeps a party aligned. Only sending puts something in flight, at the next byte, and
only acknowledgements move the base. -/
theorem Aligned.move (h : p.Aligned) (hmove : Move now input p r q) : q.Aligned := by
  cases hmove with
  | idle | answer | acknowledge | retryOpening | retryAnswer => exact h
  | store | deliver | hand | read =>
    exact ⟨h.isn_le, ⟨h.placed.base_le, h.placed.seq⟩, h.blank, h.opening⟩
  | connect hstate | accept _ hstate =>
    have hnone : p.inFlight.toList = [] := h.blank (by simp [hstate])
    exact ⟨h.isn_le, .of_nil (le_saturatingAdd 1 h.isn_le) hnone, fun _ ↦ hnone, fun _ ↦ rfl⟩
  | listen hstate =>
    refine ⟨h.isn_le, ⟨h.placed.base_le, h.placed.seq⟩, fun _ ↦ h.blank (by simp [hstate]), ?_⟩
    exact fun hs ↦ by simp at hs
  | giveUp hstate =>
    have hne : p.state ≠ .established := by rcases hstate with hs | hs <;> simp [hs]
    refine ⟨h.isn_le, ⟨h.placed.base_le, h.placed.seq⟩, fun _ ↦ h.blank hne, ?_⟩
    exact fun hs ↦ by simp at hs
  | @opened packet _ _ _ hstate _ hack | @complete packet _ _ _ hstate _ hack =>
    have hnone : p.inFlight.toList = [] := h.blank (by simp [hstate])
    have hnext : p.sendNext = p.firstByte := h.opening (by simp [hstate])
    have hbase : packet.ack ≤ p.sendNext := Nat.le_of_eq (hack.trans hnext.symm)
    exact ⟨h.isn_le, .of_nil hbase hnone, fun hne ↦ absurd rfl hne, fun hs ↦ by simp at hs⟩
  | acknowledged _ hstate _ hack =>
    refine ⟨h.isn_le, ⟨hack, fun s hs ↦ ?_⟩, fun hne ↦ absurd hstate hne, h.opening⟩
    obtain ⟨hmem, hle⟩ := InFlight.mem_acknowledge_snd.1 hs
    exact ⟨hle, (h.placed.seq s hmem).2⟩
  | @send _ _ _ chunk _ hstate =>
    -- A new segment starts where the next new byte was.
    have hnext : p.sendNext ≤ p.sendNext + chunk.length := Nat.le_add_right ..
    refine ⟨h.isn_le, ⟨Nat.le_trans h.placed.base_le hnext, fun s hs ↦ ?_⟩,
      fun hne ↦ absurd hstate hne, fun hs ↦ absurd hs (by simp [hstate])⟩
    rcases (Ascending.mem_place p.inFlight.ordered).1 hs with rfl | ⟨hmem, -⟩
    · exact ⟨h.placed.base_le, hnext⟩
    · exact ⟨(h.placed.seq s hmem).1, Nat.le_trans (h.placed.seq s hmem).2 hnext⟩
  | @resend _ _ segment _ _ hmem =>
    refine ⟨h.isn_le, ⟨h.placed.base_le, fun s hs ↦ ?_⟩,
      fun hne ↦ absurd (h.blank hne ▸ hmem) List.not_mem_nil, h.opening⟩
    rcases (Ascending.mem_place p.inFlight.ordered).1 hs with rfl | ⟨hs, -⟩
    · exact h.placed.seq segment hmem
    · exact h.placed.seq s hs

/-- **Acknowledgements are cumulative.** Acknowledgements at one instant, none of them in the middle
of a segment in flight, amount to the largest one, in whatever order they come and however often,
whether they are handled by the connection or arrive in packets from the peer. -/
theorem absorbs_of_performAll {home : Endpoint} {settings : Connection.Settings}
    {valid : settings.Valid} {isn : Nat} (hisn : isn ≤ maxWord) {inputs : List (Nat × Input)}
    {packets : List Packet}
    (hall : (create home settings valid isn).performAll inputs = .ok (p, packets))
    (hstate : p.state = .established) (now : Nat) {acks : List Nat} {largest : Nat}
    (hboundary : ∀ ack ∈ acks, p.Boundary ack) (hmax : acks.max? = some largest) :
    (p.onAcks now acks).map issued = (p.onAck now largest).map issued ∧
      ∀ arrivals : List Packet, arrivals.map (·.ack) = acks →
        (∀ packet ∈ arrivals, packet.kind = .ack ∧ p.peer = some packet.source) →
        ∀ last ∈ arrivals, last.ack = largest →
          (p.takeAll now arrivals).map issued = (p.takeAll now [last]).map issued := by
  have haligned : p.Aligned :=
    preserves_of_performAll Aligned.move hall (aligned_create hisn)
  have hacks : (p.onAcks now acks).map issued = (p.onAck now largest).map issued :=
    Connection.onAcks_eq_onAck haligned.placed hboundary hmax
  refine ⟨hacks, fun arrivals harrivals hpeer last hlast hlargest ↦ ?_⟩
  have hone : p.onAcks now [last.ack] = p.onAck now largest := by
    rw [Connection.onAcks, hlargest]
    exact andThen_pure _
  rw [takeAll_acks hstate hpeer,
    takeAll_acks hstate (List.forall_mem_singleton.2 (hpeer last hlast)), harrivals, hacks]
  show _ = ((p.onAcks now [last.ack]).map issued).map _
  rw [hone]

/-- What the hostile peer leaves in flight is acknowledged bit by bit, and not in order. -/
theorem absorbs_hostile :
    ∃ p packets,
      (create ⟨10, 0, 0, 1, 4000⟩ { mtu := 2, window := 2 } ⟨by decide, by decide, by decide⟩
        100).performAll hostile = .ok (p, packets) ∧
      p.state = .established ∧
      (p.sendBase, p.inFlight.toList.map (·.seq), p.sendNext) = (102, [103, 105], 107) ∧
      (∀ ack ∈ [105, 102, 103, 107, 105], p.Boundary ack) ∧
      [105, 102, 103, 107, 105].max? = some 107 ∧
      (p.onAcks 5 [105, 102, 103, 107, 105]).map issued = (p.onAck 5 107).map issued ∧
      ∀ arrivals : List Packet, arrivals.map (·.ack) = [105, 102, 103, 107, 105] →
        (∀ packet ∈ arrivals, packet.kind = .ack ∧ p.peer = some packet.source) →
        ∀ last ∈ arrivals, last.ack = 107 →
          (p.takeAll 5 arrivals).map issued = (p.takeAll 5 [last]).map issued := by
  have hrun : ((create ⟨10, 0, 0, 1, 4000⟩ { mtu := 2, window := 2 }
      ⟨by decide, by decide, by decide⟩ 100).performAll hostile).toOption.map (fun x ↦
        (x.1.state, x.1.sendBase, x.1.inFlight.toList.map (·.seq), x.1.sendNext)) =
      some (.established, 102, [103, 105], 107) := by
    decide +kernel
  obtain ⟨⟨p, packets⟩, hall, hfacts⟩ := Option.map_eq_some_iff.1 hrun
  rw [toOption_eq_some_iff] at hall
  obtain ⟨hstate, hfacts⟩ := Prod.mk.inj hfacts
  have hboundary : ∀ ack ∈ [105, 102, 103, 107, 105], p.Boundary ack := by
    obtain ⟨hbase, hseqs⟩ := Prod.mk.inj hfacts
    obtain ⟨hseqs, hnext⟩ := Prod.mk.inj hseqs
    intro ack hack
    rw [Connection.Boundary, ← List.mem_map (f := Segment.seq), hbase, hseqs, hnext]
    revert ack
    decide
  have hmax : [105, 102, 103, 107, 105].max? = some 107 := by decide
  exact ⟨p, packets, hall, hstate, hfacts, hboundary, hmax,
    absorbs_of_performAll (by decide) hall hstate 5 hboundary hmax⟩

end Party

end ReliableStream
