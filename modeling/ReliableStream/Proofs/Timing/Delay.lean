import ReliableStream.Application.Peer
import ReliableStream.Proofs.Numbering.Shift
import ReliableStream.Proofs.Simulation.Answers

/-!
# Acting later

A connection that acts later does the same. `c.delay d` is the connection with all that it has done
put off by `d`: the only instants it knows are those at which segments were sent, and it never looks
at them. So there is one equation for each function of a connection, without any condition,
`f (now + d) (c.delay d) = (f now c).map (late d)`, and those for applications and hosts follow
(`Host.meet_delay`).

The equations are without conditions because nothing is added to an instant here. What is added to
one is the delay of an alarm, and that is done by the simulation, which can run out of time
(`Lags`).
-/

namespace ReliableStream

variable {β γ : Type} {now : Nat}

/-- A change that passes through what comes first and what comes next passes through both. -/
theorem Checked.bind_map {f : β → β} {g : γ → γ} {first first' : Checked β}
    {next next' : β → Checked γ} (hfirst : first' = first.map f)
    (hnext : ∀ x, next' (f x) = (next x).map g) :
    first' >>= next' = (first >>= next).map g := by
  rw [hfirst]
  cases first with
  | error overflow => rfl
  | ok x => exact hnext x

/-! ### Segments in flight -/

/-- The segment, sent later. -/
def Segment.delay (d : Nat) (s : Segment) : Segment := { s with sentAt := s.sentAt + d }

/-- A segment that was sent later is at the same place. The sum is there for lists that ascend,
whose keys may be moved. -/
theorem Segment.seq_delay (d : Nat) (s : Segment) : (s.delay d).seq = s.seq + 0 := rfl

namespace InFlight

/-- The segments in flight, sent later. -/
def delay (d : Nat) (f : InFlight) : InFlight := f.ahead (Segment.delay d) 0 (Segment.seq_delay d)

@[simp] theorem size_delay (d : Nat) (f : InFlight) : (f.delay d).size = f.size :=
  Ascending.size_ahead (Segment.seq_delay d) f

theorem insert_delay (d : Nat) (s : Segment) (f : InFlight) :
    (f.delay d).insert (s.delay d) = delay d (f.insert s) :=
  Ascending.insert_ahead (Segment.seq_delay d) s f

theorem acknowledge_delay (d ack : Nat) (f : InFlight) :
    (f.delay d).acknowledge ack =
      ((f.acknowledge ack).1.map (Segment.delay d), (f.acknowledge ack).2.delay d) := by
  refine Prod.ext ?_ (Ascending.ext ?_)
  · exact List.filter_map
  · exact List.filter_map

/-- A segment that is sent again later was so at a later instant, and has the same generation. -/
theorem resend?_delay (d seq generation now : Nat) (f : InFlight) :
    (f.delay d).resend? seq generation (now + d) =
      (f.resend? seq generation now).map (Option.map fun x ↦ (x.1.delay d, x.2.delay d)) := by
  have hfind : (f.delay d).find? seq = (f.find? seq).map (Segment.delay d) :=
    Ascending.find?_ahead (Segment.seq_delay d) seq f
  rw [resend?, hfind, resend?]
  cases f.find? seq with
  | none => rfl
  | some segment =>
    dsimp only [Option.map_some]
    rw [show (segment.delay d).resends = segment.resends from rfl]
    split
    · cases addWithin maxHalfWord segment.resends 1 with
      | error e => rfl
      | ok resends =>
        have hinsert := insert_delay d { segment with sentAt := now, resends } f
        exact congrArg (fun g ↦ Except.ok (some (_, g))) hinsert
    · rfl

end InFlight

/-! ### Connections -/

namespace Connection

variable {d : Nat} {c : Connection}

/-- The connection, with all that it has done put off. -/
def delay (d : Nat) (c : Connection) : Connection := { c with inFlight := c.inFlight.delay d }

/-- An outcome of which the connection was put off. -/
def late (d : Nat) (x : Connection × β) : Connection × β := (x.1.delay d, x.2)

theorem startHandshake_delay : (c.delay d).startHandshake = c.startHandshake.map (late d) := by
  show (addWithin maxHalfWord c.attempt 1 >>= _) = (addWithin maxHalfWord c.attempt 1 >>= _).map _
  cases addWithin maxHalfWord c.attempt 1 <;> rfl

theorem connect_delay (peer : Endpoint) :
    (c.delay d).connect peer = (c.connect peer).map (·.map (late d)) := by
  rw [connect, connect]
  show (if c.state = .closed then _ else _) = _
  split
  · refine congrArg Except.ok (Checked.bind_map (startHandshake_delay (c := { c with
      peer := some peer, state := .synSent, sendBase := c.isn, sendNext := c.firstByte }))
      fun _ ↦ rfl)
  · rfl

theorem listen_delay : (c.delay d).listen = c.listen.map (late d) := by
  rw [listen, listen]
  show (if c.state = .closed then _ else _) = _
  split <;> rfl

theorem onSyn_delay (source : Endpoint) (seq : Nat) :
    (c.delay d).onSyn source seq = (c.onSyn source seq).map (late d) := by
  rw [onSyn, onSyn, show (c.delay d).state = c.state from rfl]
  cases c.state with
  | listening =>
    exact Checked.bind_map (startHandshake_delay (c := { c with
      peer := some source, reassembly := { edge := saturatingAdd seq 1 }, state := .synReceived,
      sendBase := c.isn, sendNext := c.firstByte })) fun _ ↦ rfl
  | _ => rfl

theorem onSynAck_delay (seq ack : Nat) :
    (c.delay d).onSynAck seq ack = late d (c.onSynAck seq ack) := by
  rw [onSynAck, onSynAck, show (c.delay d).state = c.state from rfl]
  cases c.state with
  | synSent =>
    show (if ack = c.firstByte then _ else _) = late d (if ack = c.firstByte then _ else _)
    split <;> rfl
  | _ => rfl

theorem completeHandshake_delay (ack : Nat) :
    (c.delay d).completeHandshake ack = late d (c.completeHandshake ack) := by
  rw [completeHandshake, completeHandshake]
  show (if c.state = .synReceived then if ack = c.firstByte then _ else _ else _) = _
  split
  · split <;> rfl
  · rfl

theorem onDeadline_delay (attempt : Nat) :
    (c.delay d).onDeadline attempt = late d (c.onDeadline attempt) := by
  rw [onDeadline, onDeadline]
  show (if attempt = c.attempt ∧ (c.state = .synSent ∨ c.state = .synReceived) then _ else _) = _
  split <;> rfl

/-- A chunk that is sent later is in flight since a later instant. This is the one place where the
time is kept. -/
theorem sendChunk_delay (peer : Endpoint) (chunk : Bytes) :
    (c.delay d).sendChunk (now + d) peer chunk = (c.sendChunk now peer chunk).map (late d) := by
  show (addWithin maxWord c.sendNext chunk.length >>= _) =
    (addWithin maxWord c.sendNext chunk.length >>= _).map _
  cases addWithin maxWord c.sendNext chunk.length with
  | error overflow => rfl
  | ok sendNext =>
    show (addWithin maxWord c.stats.bytesSent chunk.length >>= _) =
      (addWithin maxWord c.stats.bytesSent chunk.length >>= _).map _
    cases addWithin maxWord c.stats.bytesSent chunk.length with
    | error overflow => rfl
    | ok bytesSent =>
      have hinsert := InFlight.insert_delay d ⟨c.sendNext, chunk, now, 0⟩ c.inFlight
      exact congrArg (fun inFlight ↦ Except.ok ({ c with
        sendNext, inFlight, stats := { c.stats with bytesSent } }, _)) hinsert

theorem sendChunks_delay (peer : Endpoint) (line : List Bytes) :
    sendChunks (now + d) peer line (c.delay d) = (sendChunks now peer line c).map (late d) := by
  induction line generalizing c with
  | nil => rfl
  | cons chunk rest ih =>
    rw [sendChunks, sendChunks, show (c.delay d).inFlight = c.inFlight.delay d from rfl,
      InFlight.size_delay]
    show (if c.inFlight.size < c.settings.window then _ else _) = _
    split
    · exact Checked.bind_map (sendChunk_delay peer chunk) fun _ ↦ Checked.bind_map ih fun _ ↦ rfl
    · rfl

theorem pump_delay : (c.delay d).pump (now + d) = (c.pump now).map (late d) := by
  rw [pump, pump, show (c.delay d).peer = c.peer from rfl]
  cases c.peer with
  | none => rfl
  | some peer => exact sendChunks_delay peer c.pending

theorem send_delay (bytes : Bytes) :
    (c.delay d).send (now + d) bytes = (c.send now bytes).map (·.map (late d)) := by
  rw [send, send]
  show (if c.state = .established then _ else _) = _
  split
  · exact congrArg Except.ok
      (pump_delay (c := { c with pending := c.pending ++ chunks c.settings.mtu bytes }))
  · rfl

/-- What an acknowledgement makes room for is sent later. -/
theorem onAck_delay (ack : Nat) :
    (c.delay d).onAck (now + d) ack = (c.onAck now ack).map (late d) := by
  rw [onAck, onAck, show (c.delay d).inFlight = c.inFlight.delay d from rfl,
    InFlight.acknowledge_delay]
  show (if c.sendNext < ack then _ else _) = _
  split
  · rfl
  · obtain ⟨acknowledged, inFlight⟩ := c.inFlight.acknowledge ack
    cases acknowledged with
    | nil => rfl
    | cons first rest =>
      have hpump : ({ c with inFlight, sendBase := ack }.delay d).pump (now + d) = _ := pump_delay
      refine (Checked.bind_map hpump fun _ ↦ ?_)
      rw [List.map_cons, List.length_cons, List.length_map]
      rfl

/-- The alarm of a segment is heard by its generation, and not by when the segment was sent. -/
theorem onSegmentAlarm_delay (seq generation : Nat) :
    (c.delay d).onSegmentAlarm (now + d) seq generation =
      (c.onSegmentAlarm now seq generation).map (late d) := by
  rw [onSegmentAlarm, onSegmentAlarm, show (c.delay d).peer = c.peer from rfl,
    show (c.delay d).inFlight = c.inFlight.delay d from rfl, InFlight.resend?_delay]
  cases c.peer with
  | none => rfl
  | some peer =>
    dsimp only
    cases c.inFlight.resend? seq generation now with
    | error overflow => rfl
    | ok resent =>
      cases resent with
      | none => rfl
      | some resent => rfl

theorem deliver_delay : (c.delay d).deliver = c.deliver.map (late d) := by
  rw [deliver, deliver, show (c.delay d).reassembly = c.reassembly from rfl]
  obtain ⟨bytes, reassembly⟩ := c.reassembly.drain
  cases bytes with
  | nil => rfl
  | cons first rest =>
    show (addWithin maxWord c.stats.bytesReceived (first :: rest).length >>= _) =
      (addWithin maxWord c.stats.bytesReceived (first :: rest).length >>= _).map _
    cases addWithin maxWord c.stats.bytesReceived (first :: rest).length <;> rfl

theorem store_delay (chunk : Chunk) : (c.delay d).store chunk = (c.store chunk).map (late d) := by
  rw [store, store]
  show (if c.reassembly.isStale chunk.seq then _ else _) = _
  split
  · rfl
  · exact deliver_delay (c := { c with reassembly := c.reassembly.add chunk })

theorem onData_delay (chunk : Chunk) :
    (c.delay d).onData chunk = (c.onData chunk).map (late d) :=
  Checked.bind_map (store_delay chunk) fun _ ↦ rfl

theorem readAll_delay : (c.delay d).readAll = c.readAll.map fun x ↦ (x.1, x.2.delay d) := by
  rw [readAll, readAll]
  show (if c.state = .established then _ else _) = _
  split <;> rfl

/-- What is done once a connection is established is done later, if that holds of what is done then.
-/
theorem onceEstablished_delay (ack : Nat)
    {next next' : Connection → Checked (Connection × Reaction)}
    (hnext : ∀ c, next' (c.delay d) = (next c).map (late d)) :
    (c.delay d).onceEstablished ack next' = (c.onceEstablished ack next).map (late d) := by
  rw [onceEstablished, onceEstablished, completeHandshake_delay]
  obtain ⟨c', completed⟩ := c.completeHandshake ack
  show (if c'.state = .established then _ else _) = _
  dsimp only
  split
  · exact Checked.bind_map (hnext c') fun _ ↦ rfl
  · rfl

theorem onAdmitted_delay (packet : Packet) :
    (c.delay d).onAdmitted (now + d) packet = (c.onAdmitted now packet).map (late d) := by
  rw [onAdmitted, onAdmitted]
  cases packet.kind with
  | syn => exact Checked.bind_map (onSyn_delay packet.source packet.seq) fun _ ↦ rfl
  | synAck => exact congrArg Except.ok (onSynAck_delay packet.seq packet.ack)
  | ack =>
    exact onceEstablished_delay packet.ack fun c ↦
      Checked.bind_map (onAck_delay packet.ack) fun _ ↦ rfl
  | data => exact onceEstablished_delay packet.ack fun c ↦ onData_delay _
  | fin | finAck => rfl

theorem onPacket_delay (packet : Packet) :
    (c.delay d).onPacket (now + d) packet = (c.onPacket now packet).map (late d) := by
  rw [onPacket, onPacket, show (c.delay d).dropNote? packet = c.dropNote? packet from rfl]
  cases c.dropNote? packet with
  | some note => rfl
  | none => exact Checked.bind_map (onAdmitted_delay packet) fun _ ↦ rfl

theorem onAlarm_delay (watch : Alarm.Watch) :
    (c.delay d).onAlarm (now + d) watch = (c.onAlarm now watch).map (late d) := by
  cases watch with
  | segment seq generation =>
    exact Checked.bind_map (onSegmentAlarm_delay seq generation) fun _ ↦ rfl
  | handshakeRetry attempt => rfl
  | handshakeDeadline attempt => exact congrArg Except.ok (onDeadline_delay attempt)

end Connection

/-! ### Applications and hosts -/

namespace Peer

variable {d : Nat} {c : Connection} {peer : Peer}

/-- An answer of which the connection was put off. -/
def late (d : Nat) (response : Response Peer) : Response Peer :=
  { response with connection := response.connection.delay d }

theorem ask_delay {call : String} {answer : Except Failure (Checked (Connection × Effects))} :
    peer.ask call (c.delay d) (answer.map (·.map (Connection.late d))) =
      (peer.ask call c answer).map (late d) := by
  cases answer with
  | error failure => rfl
  | ok done => cases done <;> rfl

theorem start_delay :
    Application.start (now + d) peer (c.delay d) =
      (Application.start now peer c).map (late d) := by
  cases peer with
  | client address message =>
    show ask _ _ _ ((c.delay d).connect address) = _
    rw [Connection.connect_delay]
    exact ask_delay
  | server inbox =>
    show ask _ _ _ ((c.delay d).listen.map pure) = (ask _ _ _ (c.listen.map pure)).map _
    rw [Connection.listen_delay]
    cases c.listen <;> rfl

/-- A notice that comes later is answered the same. -/
theorem onNotice_delay (notice : Notice) :
    Application.onNotice (now + d) notice peer (c.delay d) =
      (Application.onNotice now notice peer c).map (late d) := by
  cases peer with
  | client address message =>
    cases notice with
    | established =>
      show ask _ _ _ ((c.delay d).send (now + d) message) = _
      rw [Connection.send_delay]
      exact ask_delay
    | handshakeFailed | dataReady => rfl
  | server inbox =>
    cases notice with
    | dataReady len =>
      dsimp only [Application.onNotice]
      rw [Connection.readAll_delay]
      cases c.readAll <;> rfl
    | handshakeFailed | established => rfl

end Peer

namespace Simulation

variable {d : Nat} {host : Host Peer}

/-- The host, with all that its connection has done put off. -/
def Host.delay (d : Nat) (host : Host Peer) : Host Peer :=
  { host with connection := host.connection.delay d }

/-- What becomes of a host, with its connection put off. -/
def Host.late (d : Nat) (x : Host Peer × β) : Host Peer × β := (x.1.delay d, x.2)

theorem Host.tell_delay (notices : List Notice) (host : Host Peer) :
    Host.tell (now + d) notices (host.delay d) = (Host.tell now notices host).map (late d) := by
  induction notices generalizing host with
  | nil => rfl
  | cons notice rest ih =>
    exact Checked.bind_map (Peer.onNotice_delay notice) fun response ↦
      Checked.bind_map (ih ⟨response.connection, response.application⟩) fun _ ↦ rfl

theorem Host.heed_delay (outcome : Checked (Connection × Reaction)) :
    (host.delay d).heed (now + d) (outcome.map (Connection.late d)) =
      (host.heed now outcome).map (late d) :=
  Checked.bind_map rfl fun reached ↦
    Checked.bind_map (tell_delay reached.2.notices { host with connection := reached.1 })
      fun _ ↦ rfl

/-- **A host that is met later does the same.** It is one equation for everything that may happen to
a host. -/
theorem Host.meet_delay (happening : Happening) :
    (host.delay d).meet (now + d) happening = (host.meet now happening).map (late d) := by
  cases happening with
  | start => exact Checked.bind_map Peer.start_delay fun _ ↦ rfl
  | arrival packet =>
    rw [meet, meet, show (host.delay d).connection = host.connection.delay d from rfl,
      Connection.onPacket_delay]
    exact heed_delay _
  | alarm watch =>
    rw [meet, meet, show (host.delay d).connection = host.connection.delay d from rfl,
      Connection.onAlarm_delay]
    exact heed_delay _

end Simulation

end ReliableStream
