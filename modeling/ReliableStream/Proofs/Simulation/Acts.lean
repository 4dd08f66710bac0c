import ReliableStream.Proofs.Simulation.Outcomes
import ReliableStream.Proofs.Simulation.Peers

/-!
# A host acts

Whatever makes a host act, its start, a packet or an alarm, what follows has one form, `Acts`: the
host's party has its turn, and all that changes in the simulation besides is due to what the host
asks for in it. The lemmas here show it for each of the three; the last one also has what an alarm
that rings makes up for.

What a party does in a turn is known from the party alone (`Party.Turn`), and what carrying out an
answer changes is known from the simulation alone (`Carries`, `Tells`). `Acts` is where the two
meet, and all that is proved of steps of a simulation after this starts from it.
-/

namespace ReliableStream.Simulation

open Party

variable {σ : Type} {initial : Bytes → Prop} {s s' t : Simulation σ Peer} {id : Nat}
  {packets : List Packet} {alarms : List Alarm} {traces : List Trace.Event}
  {host host' : Host Peer} {p mid q : Party} {r : Reaction} {input : Input}

/-- What is carried out does not depend on the hosts, so a host may be replaced before it as well as
after it. -/
theorem Carries.setHost (h : Carries id packets alarms traces s s') (other : Nat)
    (host : Host Peer) :
    Carries id packets alarms traces (s.setHost other host) (s'.setHost other host) :=
  { h with hosts_eq := congrArg (·.set (other - 1) host) h.hosts_eq }

/-- The host `id`, with the application `peer`, has its turn, and what it asks for is carried out.
-/
structure Acts (initial : Bytes → Prop) (id : Nat) (peer : Peer) (input : Input) (p : Party)
    (r : Reaction) (q : Party) (s s' : Simulation σ Peer) : Prop where
  /-- Its party has its turn. -/
  turn : p.Turn s.now input r q
  /-- That is what becomes of it, and nothing else changes unasked. -/
  carries : ∃ host : Host Peer, host.connection = q.toConnection ∧
    host.application.Drives initial q [] ∧ host.application.task = peer.task ∧
    Carries id r.packets r.alarms r.traces (s.setHost id host) s'
  /-- The trace tells what becomes of its handshake. -/
  tells : Tells p.home r.traces s s'

variable [DrawSource σ]

/-- A host gets something, its application is told, and its answers are carried out. What the
connection asks for itself is carried out before the application is asked, so the reactions stand in
this order. -/
theorem exists_acts_of_react {c : Connection} (hs : s.agenda.Timely)
    (hdrives : host.application.Drives initial p []) (hp : p.Sound)
    (hinput : host.application.Admits input = true)
    (hperform : p.perform s.now input = .ok ({ p with toConnection := c }, r))
    (h : s.react id { host with connection := c } r = .ok s') :
    ∃ answers q, Calls s.now { p with toConnection := c } answers q ∧
      Acts initial id host.application input p (r ++ answers) q s s' := by
  obtain ⟨a, hfirst, h⟩ := Checked.bind_eq_ok_iff.1 h
  obtain ⟨⟨host', effects⟩, htell, hrest⟩ := Checked.bind_eq_ok_iff.1 h
  have hcarries : Carries id r.packets r.alarms r.traces s a := carries_carryOut hs hfirst
  rw [hcarries.now_eq] at htell
  have hmoves := moves_of_perform hperform
  have hdrives' : Peer.Drives initial ({ host with connection := c } : Host Peer).application _ _ :=
    hdrives.moves hp hmoves hinput
  obtain ⟨q, answers, hcalls, hquiet, hq, hdrives'', htask, hpackets, halarms, htraces⟩ :=
    Host.calls_of_tell hdrives' (hp.moves hmoves) rfl htell
  have hset := hcarries.setHost id host'
  -- What the application asks for is carried out notice by notice, on top of what the connection
  -- asked for.
  have hanswers := Carries.foldlM (·.packets) (·.alarms) (·.traces)
    (fun _ _ _ hs h ↦ carries_carryOut hs h) hset.timely hrest
  have htells := Tells.foldlM (·.traces) (fun _ _ _ ↦ tells_carryOut) hrest
  rw [← hpackets, ← halarms, ← htraces] at hanswers
  rw [← htraces] at htells
  have hhome : c.home = p.home := (hmoves.later hp).home_eq
  have hfirsts : Tells p.home r.traces s (a.setHost id host') := by
    rw [← hhome, ← List.append_nil r.traces]
    exact (tells_carryOut hfirst).trans (.of_trace_eq rfl rfl)
  exact ⟨answers, q, hcalls, .mk hperform hcalls hquiet,
    ⟨host', hq, hdrives'', htask, hset.trans hanswers⟩, hfirsts.trans (hhome ▸ htells)⟩

/-- A host starts: its application connects or listens, which is its opening. -/
theorem exists_acts_of_start (hs : s.agenda.Timely) (hhost : s.host? id = some host)
    (hconnection : host.connection = p.toConnection)
    (hdrives : host.application.Drives initial p []) (hp : p.Sound) (h : s.startHost id = .ok s') :
    ∃ r q, Acts initial id host.application host.application.opening p r q s s' := by
  rw [startHost, hhost] at h
  obtain ⟨response, hanswer, hrest⟩ := Checked.bind_eq_ok_iff.1 h
  rw [hconnection] at hanswer
  obtain ⟨q, r, hperform, hq, hdrives', htask, hpackets, halarms, htraces⟩ :=
    hdrives.start hp hanswer
  have hcarries := carries_carryOut (s := s.setHost id ⟨response.connection, response.application⟩)
    hs hrest
  rw [← hpackets, ← halarms, ← htraces] at hcarries
  have htells : Tells p.home r.traces s s' := by
    rw [htraces, ← List.nil_append response.effects.traces]
    have hset : Tells p.home [] s (s.setHost id ⟨response.connection, response.application⟩) :=
      .of_trace_eq rfl rfl
    exact hset.trans (hconnection ▸ tells_carryOut hrest)
  exact ⟨r, q, .single hperform, ⟨_, hq, hdrives', htask, hcarries⟩, htells⟩

/-- A packet arrives at a host, and its connection takes it up before the application does. -/
theorem exists_acts_of_packet {packet : Packet} {c : Connection} (hs : s.agenda.Timely)
    (hconnection : host.connection = p.toConnection)
    (hdrives : host.application.Drives initial p []) (hp : p.Sound)
    (hpacket : host.connection.onPacket s.now packet = .ok (c, r))
    (h : s.react id { host with connection := c } r = .ok s') :
    ∃ r' q, Acts initial id host.application (.packet packet) p r' q s s' := by
  rw [hconnection] at hpacket
  have hperform : p.perform s.now (.packet packet) = .ok ({ p with toConnection := c }, r) :=
    Checked.bind_eq_ok_iff.2 ⟨_, hpacket, rfl⟩
  obtain ⟨answers, q, -, hacts⟩ :=
    exists_acts_of_react hs hdrives hp (by cases host.application <;> rfl) hperform h
  exact ⟨_, q, hacts⟩

/-- An alarm of a host rings. Then the next one is set if there has to be one: what the party needs
watched is watched by the alarms that it just asked for and by those that were set before, less the
one that rang. -/
theorem exists_acts_of_alarm {watch : Alarm.Watch} {c : Connection} {time : Nat}
    {set : List (Nat × Alarm.Watch)} (hs : s.agenda.Timely)
    (hconnection : host.connection = p.toConnection)
    (hdrives : host.application.Drives initial p []) (hp : p.Sound) (hwaits : p.WaitsFirst)
    (hwatched : p.Watched ((time, watch) :: set))
    (halarm : host.connection.onAlarm s.now watch = .ok (c, r))
    (h : s.react id { host with connection := c } r = .ok s') :
    ∃ r' q, Acts initial id host.application (.alarm watch) p r' q s s' ∧
      q.Watched (r'.alarms.map (Alarm.due s.now) ++ set) := by
  rw [hconnection] at halarm
  have hperform : p.perform s.now (.alarm watch) = .ok ({ p with toConnection := c }, r) :=
    Checked.bind_eq_ok_iff.2 ⟨_, halarm, rfl⟩
  obtain ⟨answers, q, hcalls, hacts⟩ :=
    exists_acts_of_react hs hdrives hp (by cases host.application <;> rfl) hperform h
  have hmoves := moves_of_perform hperform
  -- The connection makes up for the alarm that rang, and the application then only adds to that.
  have hmid := hwatched.ring hp halarm
  have honce : p.Once (.alarm watch) := hwaits.once rfl
  refine ⟨_, q, hacts, ?_⟩
  refine (hcalls.watched hmid (hp.moves hmoves) (honce.moves hmoves).waits).perm ?_
  rw [Reaction.alarms_append, List.map_append, ← List.append_assoc]
  exact List.perm_append_comm.append_right set

end ReliableStream.Simulation
