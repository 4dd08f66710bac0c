import ReliableStream.Proofs.Scenario.Transfer

/-!
# Scenarios in time

A run of a scenario over a network that loses nothing goes through phases: the server starts to
listen, the client starts and sends its opening, the server answers it, and the answer establishes
the client, which begins the transfer. `sc.OnTime limit s v c` says that the server `v` and the
client `c` are in one of these phases, and that what ends the phase is due: each packet of the
handshake within `latest` of the one before. As in the transfer, the alarms set so far ring later
than that and are not heeded (`OnTime.quiet`).

Nothing but what ends a phase changes it. So it is kept when the client or the server acts
(`OnTime.client_acts`, `OnTime.server_acts`), and a run cannot be late in any phase
(`OnTime.done`).
-/

namespace ReliableStream.Scenario

open Party Simulation

variable {σ : Type} {sc : Scenario} {limit : Nat} {s s' : Simulation σ Peer} {v c p q : Party}
  {e : Agenda.Entry Happening} {agenda : Agenda Happening} {packet : Packet} {input : Input}
  {r : Reaction}

/-- The packet is the opening of the client. -/
def IsOpening (sc : Scenario) (packet : Packet) : Prop :=
  packet.source = sc.client ∧ packet.kind = .syn

/-- The packet is the answer of the server to the opening. -/
def IsAnswer (sc : Scenario) (c : Party) (packet : Packet) : Prop :=
  packet.source = sc.server ∧ packet.kind = .synAck ∧ packet.ack = c.firstByte

/-- The scenario is in one of its phases, and what ends the phase is due. -/
inductive OnTime (sc : Scenario) (limit : Nat) (s : Simulation σ Peer) (v c : Party) : Prop
  /-- Neither has started. -/
  | fresh (hv : v.Fresh) (hc : c.Fresh) (hserver : ⟨0, 0, 1, .model .start⟩ ∈ s.agenda.entries)
    (hclient : s.StartsBy 2 sc.clientStart)
  /-- The server waits, and the client has still to start. -/
  | waiting (hv : v.state = .listening) (hc : c.Fresh) (hclient : s.StartsBy 2 sc.clientStart)
  /-- The client has sent its opening. -/
  | opening {start : Nat} (hv : v.state = .listening)
    (hc : c.state = .synSent ∧ c.peer = some sc.server)
    (hstart : start ≤ sc.clientStart ∧ start ≤ s.now)
    (hdue : s.Due (start + sc.faults.latest) sc.IsOpening)
    (hclient : ∀ x ∈ s.alarmsOf 2, sc.Outlasts limit start x.1)
  /-- The server has answered it. -/
  | answered {start answer : Nat} (hv : v.state = .synReceived ∧ v.peer = some sc.client)
    (hc : c.state = .synSent ∧ c.peer = some sc.server)
    (hstart : start ≤ sc.clientStart ∧ start ≤ answer)
    (hanswer : answer ≤ start + sc.faults.latest ∧ answer ≤ s.now)
    (hdue : s.Due (answer + sc.faults.latest) (sc.IsAnswer c))
    (hclient : ∀ x ∈ s.alarmsOf 2, sc.Outlasts limit start x.1)
    (hserver : ∀ x ∈ s.alarmsOf 1, sc.Outlasts limit answer x.1)
  /-- The client transfers its message. -/
  | transfer (h : sc.Transfer limit s v c)

/-- The answer of the server establishes the client, which begins the transfer. Whatever is in
flight then was sent in this turn, and its acknowledgements are due. -/
theorem Transfer.begin (hruns : sc.Runs s [v, c]) (hruns' : sc.Runs s' [v, q])
    (hacts : sc.ActsInTime limit s s' e (.packet packet) c r q)
    (hv : v.state = .synReceived ∧ v.peer = some sc.client)
    (hc : c.state = .synSent ∧ c.peer = some sc.server) (hit : sc.IsAnswer c packet) {answer : Nat}
    (hanswer : answer ≤ s.now) (htime : e.time ≤ answer + sc.faults.latest)
    (hround : e.time ≤ sc.roundStart 0)
    (hserver : ∀ x ∈ s.alarmsOf 1, sc.Outlasts limit answer x.1) : sc.Transfer limit s' v q := by
  have hc' := hruns.sound_client
  obtain ⟨_, -, -, hplays⟩ := hruns.exists_client
  have hvouches := hacts.turn.vouches hc'
  have hpeer : q.peer = some sc.server := hacts.turn.peer_eq (hplays.waits.once rfl) hc.2
  obtain ⟨hestablished, ⟨reply, hreply, hkind⟩, hflight, hacks⟩ :=
    hacts.turn.established_of_synAck hc' hc.1 (hc.2.trans (congrArg some hit.1.symm)) hit.2.1
      hit.2.2
  refine
    { established := hestablished
      peers := ⟨hv.2, hpeer⟩
      completing := .inr ⟨hv.1, answer, Nat.le_trans hanswer hacts.passes.now_le_now,
        hacts.outlasts hanswer hserver, ?completing⟩
      acks := fun sent hmem hclient hkind ↦ ?acks
      timed := fun x hx ↦ ?timed
      sorted := fun x hx y hy _ ↦
        Nat.le_of_eq ((hflight x hx).2.1.trans (hflight y hy).2.1.symm) }
  case completing =>
    have hdue := hacts.due (P := fun packet ↦ packet.source = sc.client ∧ packet.kind = .ack) hreply
      ⟨(hacts.turn.source_eq hc' reply hreply).trans hruns.home_eq.2, hkind⟩
    exact hdue.mono (by omega)
  case acks =>
    rcases hacts.underway sent hmem with hold | hsent
    · -- Before it was established the client acknowledged nothing.
      rcases hruns.sender hold with ⟨hsource, -, -⟩ | ⟨-, hold', -⟩
      · exact absurd (hsource.symm.trans hclient) hruns.server_ne_client
      · exact absurd (hc.1.symm.trans (hold'.transfer hkind).1.1) (by simp)
    · rw [← hruns'.edge_client hestablished hpeer]
      exact Nat.le_antisymm ((hvouches sent hsent).transfer hkind).2 (hacks sent hsent hkind)
  case timed =>
    obtain ⟨hnext, hsent, hdata⟩ := hflight x hx
    obtain ⟨hedge, hle⟩ := (hruns.knows_server hv.2).answering hv.1
    exact timed_of_new hacts hruns hruns' hx hnext hsent hdata
      (Nat.le_trans (Nat.le_of_eq hedge) (Nat.le_trans hle hnext)) fun n _ _ ↦
        Nat.le_trans hround (roundStart_le_roundStart (Nat.zero_le _))

/-- The opening comes to the server, which answers it at once. From then on the answer is due, and
both ends have alarms that outlast a round trip. -/
theorem answered_of_opening (hruns : sc.Runs s [v, c])
    (hacts : sc.ActsInTime limit s s' e (.packet packet) v r q) (hpacket : packet ∈ s.underway)
    (hdestination : packet.destination = sc.server) (hkind : packet.kind = .syn) {start : Nat}
    (hv : v.state = .listening) (hc : c.state = .synSent ∧ c.peer = some sc.server)
    (hstart : start ≤ sc.clientStart ∧ start ≤ s.now) (htime : e.time ≤ start + sc.faults.latest)
    (hclient : ∀ x ∈ s.alarmsOf 2, sc.Outlasts limit start x.1) : sc.OnTime limit s' q c := by
  have hpasses := hacts.passes
  obtain ⟨hnone, hnil⟩ := hruns.listening hv
  obtain ⟨hsource, hvouches⟩ := hruns.vouches_client (by simp [hnone]) hpacket hdestination
  -- The owner of the server is told nothing yet, so the turn is over with the answer.
  have hperform := hacts.turn.perform_eq fun hfirst ↦
    (synReceived_of_perform hv hkind hfirst).2.2.1
  obtain ⟨hstate, hpeer, -, answer, hanswer, hsynAck, hack⟩ :=
    synReceived_of_perform hv hkind hperform
  rw [(hvouches.opening (.inl hkind)).1] at hack
  have hfrom := (hacts.turn.source_eq hruns.sound_server answer hanswer).trans hruns.home_eq.1
  -- No alarm was set for the server before.
  have hserver : ∀ x ∈ s'.alarmsOf 1, sc.Outlasts limit e.time x.1 := fun x hx ↦
    (hacts.alarms 1 x hx).resolve_left (hnil ▸ List.not_mem_nil)
  exact .answered ⟨hstate, hpeer.trans (congrArg some hsource)⟩ hc
    ⟨hstart.1, Nat.le_trans hstart.2 hpasses.now_le⟩ ⟨htime, Nat.le_of_eq hpasses.now_eq.symm⟩
    (hacts.due hanswer ⟨hfrom, hsynAck, hack⟩) (hacts.outlasts hstart.2 hclient) hserver

namespace OnTime

/-- Nothing happens, and what is due is still due. -/
theorem rest (h : sc.OnTime limit s v c) (hrests : Rests s s') : sc.OnTime limit s' v c := by
  have hkept {id start : Nat} (hold : ∀ x ∈ s.alarmsOf id, sc.Outlasts limit start x.1) :
      ∀ x ∈ s'.alarmsOf id, sc.Outlasts limit start x.1 := fun x hx ↦
    hold x (hrests.alarms_sub id x hx)
  cases h with
  | fresh hv hc hserver hclient =>
    exact .fresh hv hc (hrests.kept _ hserver (.inl rfl)) (hclient.rests hrests)
  | waiting hv hc hclient => exact .waiting hv hc (hclient.rests hrests)
  | opening hv hc hstart hdue hclient =>
    exact .opening hv hc (hstart.imp_right fun hle ↦ Nat.le_trans hle hrests.now_le)
      (hdue.rests hrests) (hkept hclient)
  | answered hv hc hstart hanswer hdue hclient hserver =>
    exact .answered hv hc hstart (hanswer.imp_right fun hle ↦ Nat.le_trans hle hrests.now_le)
      (hdue.rests hrests) (hkept hclient) (hkept hserver)
  | transfer h => exact .transfer (h.rest hrests)

/-- The server starts, and waits. -/
theorem server_starts (h : sc.OnTime limit s v c)
    (hacts : sc.ActsInTime limit s s' e .listen v r q) (htarget : e.target = 1)
    (hfresh : v.Fresh) : sc.OnTime limit s' q c := by
  have hclosed := hfresh.state_eq
  cases h with
  | fresh hv hc hserver hclient =>
    have hperform := hacts.turn.perform_eq fun hfirst ↦ (listening_of_perform hclosed hfirst).2
    exact .waiting (listening_of_perform hclosed hperform).1 hc
      (hclient.passes hacts.passes (by omega))
  | waiting hv | opening hv => exact absurd (hclosed.symm.trans hv) (by simp)
  | answered hv => exact absurd (hclosed.symm.trans hv.1) (by simp)
  | transfer h =>
    rcases h.server_state with hv | hv <;> exact absurd (hclosed.symm.trans hv) (by simp)

section Runs

variable (h : sc.OnTime limit s v c) (hruns : sc.Runs s [v, c])
include h hruns

/-- They talk to nobody else. -/
theorem peers : (∀ peer ∈ v.peer, peer = sc.client) ∧ ∀ peer ∈ c.peer, peer = sc.server := by
  cases h with
  | fresh hv hc => simp [hv.peer_eq, hc.peer_eq]
  | waiting hv hc => simp [(hruns.listening hv).1, hc.peer_eq]
  | opening hv hc => simp [(hruns.listening hv).1, hc.2]
  | answered hv hc => simp [hv.2, hc.2]
  | transfer h => simp [h.peers.1, h.peers.2]

/-- **An alarm that rings is not heeded.** Before the transfer none rings: those of a host that has
not started are not set, and all others outlast what ends the phase. -/
theorem quiet (hnext : s.agenda.next? = some (e, agenda)) {watch : Alarm.Watch}
    (haction : e.action = .model (.alarm watch)) (htime : e.time < limit) :
    { s with agenda }.Quiet e.target watch := by
  obtain ⟨halarms, host, hhost⟩ := hruns.sound.exists_host?_of_alarm hnext haction
  have halarm : (e.time, watch) ∈ s.alarmsOf e.target := halarms ▸ List.mem_cons_self ..
  obtain ⟨i, hid, hi⟩ := host?_eq_some hhost
  obtain ⟨p, hp, -⟩ := hruns.sound.exists_party hi
  have hpasses := passes_next hnext
  have hnot {id : Nat} (hnil : s.alarmsOf id = []) : (e.time, watch) ∉ s.alarmsOf id :=
    hnil ▸ List.not_mem_nil
  -- An alarm that outlasts a round trip, or the limit, cannot ring within one.
  have hlate {id start : Nat} (hle : e.time ≤ start + 2 * sc.faults.latest)
      (hall : ∀ x ∈ s.alarmsOf id, sc.Outlasts limit start x.1) :
      (e.time, watch) ∉ s.alarmsOf id := by
    intro hmem
    rcases hall _ hmem with hlt | hlt <;> dsimp only at hlt <;> omega
  -- It was set for the server or for the client.
  have htarget : (e.time, watch) ∈ s.alarmsOf 1 ∨ (e.time, watch) ∈ s.alarmsOf 2 := by
    rw [hid] at halarm
    rcases Runs.eq_or_eq_of_getElem? hp with ⟨rfl, -⟩ | ⟨rfl, -⟩
    · exact .inl halarm
    · exact .inr halarm
  cases h with
  | fresh hv hc =>
    have hnone := hruns.alarms_of_fresh
    exact htarget.elim (absurd · (hnot (hnone.1 hv))) (absurd · (hnot (hnone.2 hc)))
  | waiting hv hc =>
    exact htarget.elim (absurd · (hnot (hruns.listening hv).2))
      (absurd · (hnot (hruns.alarms_of_fresh.2 hc)))
  | opening hv hc hstart hdue hclient =>
    have hle := hdue.time_le hpasses
    exact htarget.elim (absurd · (hnot (hruns.listening hv).2))
      (absurd · (hlate (by omega) hclient))
  | answered hv hc hstart hanswer hdue hclient hserver =>
    have hle := hdue.time_le hpasses
    exact htarget.elim (absurd · (hlate (by omega) hserver)) (absurd · (hlate (by omega) hclient))
  | transfer h => exact h.quiet hruns hnext haction htime

/-- **After the last round the client is established, and nothing is in flight.** -/
theorem done (hpasses : Passes e s s') (hlate : sc.roundStart sc.rounds < e.time) :
    c.state = .established ∧ c.peer = some sc.server ∧ c.inFlight.toList = [] := by
  have hhandshake : sc.clientStart + 2 * sc.faults.latest < e.time := by
    have hfirst : sc.roundStart 0 ≤ sc.roundStart sc.rounds :=
      roundStart_le_roundStart (Nat.zero_le _)
    rw [roundStart, Nat.mul_one] at hfirst
    omega
  cases h with
  | fresh _ _ _ hclient | waiting _ _ hclient =>
    have hle := hclient.time_le hpasses
    omega
  | opening _ _ hstart hdue | answered _ _ hstart hanswer hdue =>
    have hle := hdue.time_le hpasses
    omega
  | transfer h => exact ⟨h.established, h.peers.2, h.inFlight_eq_nil hruns hpasses hlate⟩

/-- The client starts, and sends its opening. -/
theorem client_starts (hacts : sc.ActsInTime limit s s' e (.connect sc.server) c r q)
    (htarget : e.target = 2) (hfresh : c.Fresh) : sc.OnTime limit s' v q := by
  have hclosed := hfresh.state_eq
  cases h with
  | fresh hv hc hserver hclient =>
    -- The server starts first.
    rcases hacts.passes.first _ hserver with rfl | hbefore
    · exact absurd htarget (by simp)
    · exact absurd hbefore (by simp [Agenda.Entry.Before])
  | waiting hv hc hclient =>
    have hperform := hacts.turn.perform_eq fun hfirst ↦ (synSent_of_perform hclosed hfirst).2.2.1
    obtain ⟨hstate, hpeer, -, opening, hopening, hkind⟩ := synSent_of_perform hclosed hperform
    have hsource : opening.source = sc.client :=
      (hacts.turn.source_eq hruns.sound_client opening hopening).trans hruns.home_eq.2
    refine .opening hv ⟨hstate, hpeer⟩
      ⟨hclient.time_le hacts.passes, Nat.le_of_eq hacts.passes.now_eq.symm⟩
      (hacts.due hopening ⟨hsource, hkind⟩) fun x hx ↦ (hacts.alarms 2 x hx).resolve_left ?_
    rw [hruns.alarms_of_fresh.2 hfresh]
    exact List.not_mem_nil
  | opening _ hc | answered _ hc => exact absurd (hclosed.symm.trans hc.1) (by simp)
  | transfer h => exact absurd (hclosed.symm.trans h.established) (by simp)

/-! ### Packets -/

/-- A packet comes to the server. In each phase it is the one that ends it, or is ignored. -/
theorem server_acts (hacts : sc.ActsInTime limit s s' e (.packet packet) v r q)
    (haction : e.action = .model (.arrival packet)) (hpacket : packet ∈ s.underway)
    (hdestination : packet.destination = sc.server) : sc.OnTime limit s' q c := by
  have hne := hruns.server_ne_client
  have hpasses := hacts.passes
  cases h with
  | fresh hv hc => exact absurd hpacket (hruns.not_mem_underway hv.peer_eq hc.peer_eq)
  | waiting hv hc =>
    exact absurd hpacket (hruns.not_mem_underway (hruns.listening hv).1 hc.peer_eq)
  | opening hv hc hstart hdue hclient =>
    by_cases hkind : packet.kind = .syn
    · exact answered_of_opening hruns hacts hpacket hdestination hkind hv hc hstart
        (hdue.time_le hpasses) hclient
    · have hignores : v.Ignores packet := by
        rw [Ignores, hv]
        exact hkind
      obtain rfl := hignores.eq_of_turn hacts.turn
      exact .opening hv hc ⟨hstart.1, Nat.le_trans hstart.2 hpasses.now_le_now⟩
        (hdue.arrival hpasses haction fun hP ↦ hkind hP.2) (hacts.outlasts hstart.2 hclient)
  | answered hv hc hstart hanswer hdue hclient hserver =>
    obtain ⟨hsource, hvouches⟩ :=
      hruns.vouches_client (hruns.not_self.1 hv.2) hpacket hdestination
    -- The client has sent nothing but its opening so far.
    have hkind : ¬ (packet.kind = .ack ∨ packet.kind = .data) := fun hkind ↦
      absurd (hc.1.symm.trans (hvouches.transfer hkind).1.1) (by simp)
    have hignores : v.Ignores packet := by
      rw [Ignores, hv.1]
      exact not_or.1 hkind
    obtain rfl := hignores.eq_of_turn hacts.turn
    exact .answered hv hc hstart (hanswer.imp_right fun hle ↦ Nat.le_trans hle hpasses.now_le_now)
      (hdue.arrival hpasses haction fun hP ↦ hne (hP.1.symm.trans hsource))
      (hacts.outlasts (Nat.le_trans hstart.2 hanswer.2) hclient) (hacts.outlasts hanswer.2 hserver)
  | transfer h => exact .transfer (h.server_acts hruns hacts haction hpacket hdestination)

/-- A packet comes to the client. Only the answer to its opening means anything before the transfer.
-/
theorem client_acts (hacts : sc.ActsInTime limit s s' e (.packet packet) c r q)
    (hruns' : sc.Runs s' [v, q]) (haction : e.action = .model (.arrival packet))
    (hpacket : packet ∈ s.underway) (hdestination : packet.destination = sc.client) :
    sc.OnTime limit s' v q := by
  have hpasses := hacts.passes
  cases h with
  | fresh hv hc => exact absurd hpacket (hruns.not_mem_underway hv.peer_eq hc.peer_eq)
  | waiting hv hc =>
    exact absurd hpacket (hruns.not_mem_underway (hruns.listening hv).1 hc.peer_eq)
  | opening hv hc =>
    -- Nobody has sent anything to the client.
    rcases hruns.sender hpacket with ⟨-, -, hpeer⟩ | ⟨-, -, hpeer⟩
    · exact absurd ((hruns.listening hv).1.symm.trans hpeer) (by simp)
    · exact absurd (hpeer.trans (congrArg some hdestination)) (hruns.not_self.2 hc.2)
  | @answered start answer hv hc hstart hanswer hdue hclient hserver =>
    obtain ⟨hsource, -⟩ := hruns.vouches_server (hruns.not_self.2 hc.2) hpacket hdestination
    by_cases hit : sc.IsAnswer c packet
    · have htime := hdue.time_le hpasses
      refine .transfer (.begin hruns hruns' hacts hv hc hit hanswer.2 htime ?_ hserver)
      rw [roundStart]
      omega
    · have hignores : c.Ignores packet := by
        rw [Ignores, hc.1]
        exact fun hP ↦ hit ⟨hsource, hP⟩
      obtain rfl := hignores.eq_of_turn hacts.turn
      exact .answered hv hc hstart (hanswer.imp_right fun hle ↦ Nat.le_trans hle hpasses.now_le_now)
        (hdue.arrival hpasses haction hit)
        (hacts.outlasts (Nat.le_trans hstart.2 hanswer.2) hclient)
        (hacts.outlasts hanswer.2 hserver)
  | transfer h => exact .transfer (h.client_acts hruns hacts hruns' haction hpacket hdestination)

end Runs

end OnTime

end ReliableStream.Scenario
