import ReliableStream.Proofs.Simulation.Sound
import ReliableStream.Proofs.Weight

/-!
# Every run ends

A run is closed by an entry of its agenda. It is taken at its instant at the latest, so all that
could keep a run from ending is that the clock stops: that entries of one and the same instant are
taken for ever. They are not, even if packets take no time and handshakes are given up at once.
What waits at the present instant, and will be taken before the end, has a weight, and so has what
the hosts have in hand (`load`). A step that does not move the clock takes more away from it than it
adds (`load_lt_of_happen`).

An alarm for a retransmission is never set for the present instant, for the delay is not zero. If
the clock stands at the last instant there is, where later ones are held, then so does the end, and
what is added there is taken after it.

The measure is a pair: how far away the end is, and the load of the present instant. So it may well
be that a step adds any number of entries, as long as they are due later. What weighs how much is
laid down with the messages (`Packet.Kind.weight`): what answers weighs less than what it answers.
-/

namespace ReliableStream

variable {now mtu : Nat} {peer : Peer} {c : Connection}

/-! ### What an application sets off -/

/-- In how many parts an application will send its message when it is established. -/
def Peer.parts (mtu : Nat) : Peer → Nat
  | .client _ message => (chunks mtu message).length
  | .server _ => 0

/-- In how many parts the application of a host will send its message. -/
def Simulation.Host.parts (host : Simulation.Host Peer) : Nat :=
  host.application.parts host.connection.settings.mtu

/-- The weight of what a host has in hand. -/
def Simulation.Host.debt (host : Simulation.Host Peer) : Nat := host.connection.debt host.parts

namespace Peer

/-- What an application answers weighs no more than it may, and it has the same in hand. -/
structure Pays (peer : Peer) (c : Connection) (credit : Nat) (response : Response Peer) : Prop where
  /-- The settings are fixed. -/
  settings_eq : response.connection.settings = c.settings
  /-- Its message is the same. -/
  parts_eq : ∀ mtu, response.application.parts mtu = peer.parts mtu
  /-- It weighs no more than it may. -/
  weight_le : ∀ parts,
    response.effects.weight + response.connection.debt parts ≤ c.debt parts + credit

/-- Neither the message nor the size of segments changes, so the number of parts does not. -/
theorem Pays.host_parts_eq {credit : Nat} {response : Response Peer}
    (h : peer.Pays c credit response) :
    Simulation.Host.parts ⟨response.connection, response.application⟩ =
      Simulation.Host.parts ⟨c, peer⟩ := by
  rw [Simulation.Host.parts, h.settings_eq, h.parts_eq, Simulation.Host.parts]

/-- The host afterwards has no more in hand than it may. -/
theorem Pays.debt_le {credit : Nat} {response : Response Peer} (h : peer.Pays c credit response) :
    response.effects.weight +
        Simulation.Host.debt ⟨response.connection, response.application⟩ ≤
      Simulation.Host.debt ⟨c, peer⟩ + credit := by
  rw [Simulation.Host.debt, h.host_parts_eq]
  exact h.weight_le _

/-- An answer that asks for nothing, whatever it may cost. -/
theorem pays_quiet (credit : Nat) (notes : List Connection.Note) :
    peer.Pays c credit ⟨peer, c, { notes }⟩ where
  settings_eq := rfl
  parts_eq _ := rfl
  weight_le parts := by simp

/-- What an application asks of its connection may be refused, and then it weighs nothing. -/
theorem pays_of_ask {call : String} {credit : Nat} {response : Response Peer}
    {answer : Except Failure (Checked (Connection × Effects))}
    (hanswer : ∀ {c' : Connection} {effects : Effects}, answer = .ok (.ok (c', effects)) →
      peer.Pays c credit ⟨peer, c', effects⟩)
    (h : peer.ask call c answer = .ok response) : peer.Pays c credit response := by
  rcases ask_eq_ok h with ⟨failure, -, rfl⟩ | ⟨c', effects, hdone, rfl⟩
  · exact pays_quiet credit _
  · exact hanswer hdone

/-- A host that starts sends an opening at most, with two alarms. -/
theorem pays_start {response : Response Peer}
    (h : Application.start now peer c = .ok response) : peer.Pays c 15 response := by
  cases peer with
  | client address message =>
    refine pays_of_ask (fun hconnect ↦ ?_) h
    have hmoves : Party.Moves now _ _ _ _ :=
      Party.moves_of_connect (p := { toConnection := c }) hconnect
    exact
      { settings_eq := hmoves.settings_eq
        parts_eq := fun _ ↦ rfl
        weight_le := fun _ ↦ Connection.weight_connect hconnect }
  | server inbox =>
    refine pays_of_ask (fun hdone ↦ ?_) h
    have hmoves : Party.Moves now _ _ _ _ :=
      Party.moves_of_listen (p := { toConnection := c }) hdone
    obtain ⟨done, hlisten, hpure⟩ := Failure.exists_of_map_eq_ok hdone
    obtain rfl := Checked.pure_eq_ok_iff.1 hpure
    exact
      { settings_eq := hmoves.settings_eq
        parts_eq := fun _ ↦ rfl
        weight_le := fun _ ↦ Connection.weight_listen hlisten }

/-- A client may send its message when it is told that it is established; nothing else is sent by an
application. -/
theorem pays_onNotice {notice : Notice} {response : Response Peer}
    (h : Application.onNotice now notice peer c = .ok response) :
    peer.Pays c (6 * peer.parts c.settings.mtu * [notice].count .established) response := by
  cases peer with
  | client address message =>
    cases notice with
    | established =>
      refine pays_of_ask (fun hsend ↦ ?_) h
      have hmoves := Party.moves_of_send (p := { toConnection := c }) hsend
      exact
        { settings_eq := hmoves.settings_eq
          parts_eq := fun _ ↦ rfl
          weight_le := fun parts ↦ by
            rw [List.count_singleton_self, Nat.mul_one]
            exact Nat.le_of_eq (Connection.weight_send hsend) }
    | handshakeFailed | dataReady =>
      obtain rfl := Checked.pure_eq_ok_iff.1 h
      exact pays_quiet _ []
  | server inbox =>
    cases notice with
    | established | handshakeFailed =>
      obtain rfl := Checked.pure_eq_ok_iff.1 h
      exact pays_quiet _ []
    | dataReady len =>
      by_cases hstate : c.state = .established
      · rw [onNotice_dataReady hstate] at h
        obtain rfl := Except.ok.inj h
        exact
          { settings_eq := rfl
            parts_eq := fun _ ↦ rfl
            weight_le := fun _ ↦ by simp [Connection.debt] }
      · rw [onNotice_dataReady_of_ne hstate] at h
        obtain rfl := Except.ok.inj h
        exact pays_quiet _ _

end Peer

namespace Simulation

/-- Telling an application sets off no more than the notices weigh: its message, as often as it is
told to send it. -/
theorem Host.weight_tell {notices : List Notice} {host host' : Host Peer} {answers : List Effects}
    (h : host.tell now notices = .ok (host', answers)) :
    (answers.map Effects.weight).sum + host'.debt ≤
      host.debt + 6 * host.parts * notices.count .established := by
  induction notices generalizing host answers with
  | nil =>
    obtain ⟨rfl, rfl⟩ := Checked.pure_prod_eq_ok h
    exact Nat.le_of_eq (Nat.zero_add _)
  | cons notice rest ih =>
    obtain ⟨response, hanswer, hrest⟩ := Checked.bind_eq_ok_iff.1 h
    obtain ⟨⟨last, more⟩, hmore, hpure⟩ := Checked.bind_eq_ok_iff.1 hrest
    obtain ⟨rfl, rfl⟩ := Checked.pure_prod_eq_ok hpure
    have hpays := Peer.pays_onNotice hanswer
    have hfirst : _ ≤ host.debt + 6 * host.parts * [notice].count .established := hpays.debt_le
    have hparts : Host.parts ⟨response.connection, response.application⟩ = host.parts :=
      hpays.host_parts_eq
    have hlast := ih hmore
    rw [hparts] at hlast
    rw [List.map_cons, List.sum_cons, ← List.singleton_append, List.count_append, Nat.mul_add]
    omega

variable {σ : Type} {k : Agenda.Entry Happening} {s s' t : Simulation σ Peer} {id w w' : Nat}

/-! ### What waits at the present instant -/

/-- The weight of something that waits. -/
def Happening.weight : Happening → Nat
  | .start => 16
  | .arrival packet => packet.kind.weight
  | .alarm watch => watch.weight

theorem Happening.weight_pos (happening : Happening) : 0 < happening.weight := by
  cases happening with
  | start => decide
  | arrival packet =>
    cases hkind : packet.kind <;> simp [weight, hkind, Packet.Kind.weight]
  | alarm watch => cases watch <;> simp [weight, Alarm.Watch.weight]

/-- The weight of an entry of an agenda. -/
def weightOf (e : Agenda.Entry Happening) : Nat :=
  match e.action with
  | .model happening => happening.weight
  | .close => 0

/-- The weight of an entry at an instant, if it is due then and is taken before another one. -/
def weightAt (now : Nat) (k e : Agenda.Entry Happening) : Nat :=
  if e.time = now ∧ e.Before k then weightOf e else 0

/-- The weight of all that waits at the present instant and is taken before an entry. -/
def burst (k : Agenda.Entry Happening) (s : Simulation σ Peer) : Nat :=
  (s.agenda.entries.map (weightAt s.now k)).sum

/-- That and the weight of all that the hosts have in hand. -/
def load (k : Agenda.Entry Happening) (s : Simulation σ Peer) : Nat :=
  s.burst k + (s.hosts.map Host.debt).sum

/-- What is added to an agenda adds its weight, if it waits at the present instant and before the
end. -/
theorem burst_put (time target : Nat) (action : Agenda.Action Happening) :
    ({ s with agenda := s.agenda.put time target action } : Simulation σ Peer).burst k =
      weightAt s.now k ⟨max time s.now, s.agenda.added, target, action⟩ + s.burst k :=
  ((s.agenda.entries_put_perm time target action).map (weightAt s.now k)).sum_eq

/-- At most a weight is added to what waits at the present instant, and nothing else changes. -/
structure Adds (k : Agenda.Entry Happening) (w : Nat) (s s' : Simulation σ Peer) : Prop where
  /-- The hosts are as they were. -/
  hosts_eq : s'.hosts = s.hosts
  /-- No time has passed. -/
  now_eq : s'.now = s.now
  /-- What was to come is still to come. -/
  kept : ∀ e ∈ s.agenda.entries, e ∈ s'.agenda.entries
  /-- No more than the weight is added. -/
  burst_le : k ∈ s.agenda.entries → s'.burst k ≤ s.burst k + w

namespace Adds

theorem refl : Adds k 0 s s where
  hosts_eq := rfl
  now_eq := rfl
  kept _ h := h
  burst_le _ := Nat.le_refl _

theorem trans (h : Adds k w s s') (h' : Adds k w' s' t) : Adds k (w + w') s t where
  hosts_eq := h'.hosts_eq.trans h.hosts_eq
  now_eq := h'.now_eq.trans h.now_eq
  kept e he := h'.kept e (h.kept e he)
  burst_le hk := by
    have hfirst := h.burst_le hk
    have hnext := h'.burst_le (h.kept k hk)
    omega

/-- It does no harm to allow for more. -/
theorem mono (h : Adds k w s s') (hle : w ≤ w') : Adds k w' s s' :=
  { h with burst_le := fun hk ↦ Nat.le_trans (h.burst_le hk) (Nat.add_le_add_left hle _) }

/-- What is added does not depend on the hosts. -/
theorem setHost (h : Adds k w s s') (id : Nat) (host : Host Peer) :
    Adds k w (s.setHost id host) (s'.setHost id host) :=
  { h with hosts_eq := congrArg (·.set (id - 1) host) h.hosts_eq }

theorem put {time target : Nat} {action : Agenda.Action Happening}
    (h : k ∈ s.agenda.entries →
      weightAt s.now k ⟨max time s.now, s.agenda.added, target, action⟩ ≤ w) :
    Adds k w s { s with agenda := s.agenda.put time target action } where
  hosts_eq := rfl
  now_eq := rfl
  kept e he := (s.agenda.entries_put_perm time target action).mem_iff.2 (List.mem_cons_of_mem _ he)
  burst_le hk := by
    have hle := h hk
    rw [burst_put]
    omega

variable {β : Type} {weights : β → Nat} {l : List β}

theorem foldl {f : Simulation σ Peer → β → Simulation σ Peer}
    (hstep : ∀ b s, Adds k (weights b) s (f s b)) :
    Adds k (l.map weights).sum s (l.foldl f s) := by
  induction l generalizing s with
  | nil => exact refl
  | cons b rest ih => exact (hstep b s).trans ih

/-- Several things without a weight. -/
theorem foldl_nothing {f : Simulation σ Peer → β → Simulation σ Peer}
    (hstep : ∀ b s, Adds k 0 s (f s b)) : Adds k 0 s (l.foldl f s) := by
  have hall : Adds k (l.map fun _ ↦ 0).sum s (l.foldl f s) := foldl hstep
  rwa [List.map_const', List.sum_replicate, Nat.nsmul_eq_mul, Nat.mul_zero] at hall

theorem foldlM {f : Simulation σ Peer → β → Checked (Simulation σ Peer)}
    (hstep : ∀ b s s', f s b = .ok s' → Adds k (weights b) s s') (h : l.foldlM f s = .ok t) :
    Adds k (l.map weights).sum s t :=
  Checked.foldlM_induction (motive := fun l s t ↦ Adds k (l.map weights).sum s t)
    (fun _ ↦ refl) (fun b _ s mid _ hmid hrest ↦ (hstep b s mid hmid).trans hrest) h

end Adds

/-! ### A host that goes on -/

/-- If a host is replaced then the sum of what hosts have in hand changes by what that one has. -/
theorem sum_debt_set {l : List (Host Peer)} {i : Nat} {host host' : Host Peer}
    (h : l[i]? = some host) :
    ((l.set i host').map Host.debt).sum + host.debt = (l.map Host.debt).sum + host'.debt := by
  induction l generalizing i with
  | nil => exact absurd h (by simp)
  | cons first rest ih =>
    cases i with
    | zero =>
      obtain rfl := Option.some.inj h
      simp only [List.set_cons_zero, List.map_cons, List.sum_cons]
      omega
    | succ i =>
      have hrest := ih (i := i) h
      simp only [List.set_cons_succ, List.map_cons, List.sum_cons]
      omega

/-- A host goes on, and what it asks for is carried out. The load changes by what is added, and by
what it has in hand. -/
theorem Adds.load_le {host host' : Host Peer} (h : Adds k w (s.setHost id host') s')
    (hhost : s.host? id = some host) (hk : k ∈ s.agenda.entries) :
    s'.now = s.now ∧ k ∈ s'.agenda.entries ∧
      s'.load k + host.debt ≤ s.load k + w + host'.debt := by
  obtain ⟨i, rfl, hi⟩ := host?_eq_some hhost
  have hburst : s'.burst k ≤ s.burst k + w := h.burst_le hk
  have hdebt : (s'.hosts.map Host.debt).sum + host.debt =
      (s.hosts.map Host.debt).sum + host'.debt := by
    rw [h.hosts_eq]
    exact sum_debt_set hi
  refine ⟨h.now_eq, h.kept k hk, ?_⟩
  rw [load, load]
  omega

/-! ### What is carried out -/

theorem weightAt_le (now time order target : Nat) (happening : Happening) :
    weightAt now k ⟨time, order, target, .model happening⟩ ≤ happening.weight := by
  rw [weightAt]
  split
  · exact Nat.le_refl _
  · exact Nat.zero_le _

/-- A copy of a packet is scheduled, which may be for the present instant. -/
theorem adds_schedule (delivery : Network.Delivery) :
    Adds k delivery.packet.kind.weight s (s.schedule delivery) :=
  .put fun _ ↦ weightAt_le ..

/-- An alarm that is set does not ring at the same instant, unless it has no delay. -/
theorem adds_setAlarm (hk : k.time ≤ maxWord) (alarm : Alarm) :
    Adds k alarm.weight s (s.setAlarm id alarm) := by
  refine .put fun hmem ↦ ?_
  rw [Alarm.weight]
  split
  · exact weightAt_le ..
  · next hdelay =>
    have hahead : s.now ≤ k.time := s.agenda.ahead k hmem
    have hadded : k.order < s.agenda.added := s.agenda.numbered k hmem
    refine Nat.le_of_eq (if_neg ?_)
    -- Either it is due later, or the end is due at the last instant and was added before it.
    rintro ⟨htime, hbefore⟩
    dsimp only [Agenda.Entry.Before, saturatingAdd] at htime hbefore
    rw [show s.agenda.now = s.now from rfl] at htime hbefore
    omega

variable [DrawSource σ]

/-- A packet is sent. At most two copies of it arrive. -/
theorem adds_sendPacket {home : Endpoint} {packet : Packet}
    (h : s.sendPacket home packet = .ok s') : Adds k (2 * packet.kind.weight) s s' := by
  obtain ⟨sent, hsent, h⟩ := Checked.bind_eq_ok_iff.1 h
  obtain rfl := Checked.pure_eq_ok_iff.1 h
  have hnetwork : Adds k 0 s { s with network := sent.network } := { Adds.refl with }
  have htraces : Adds k 0 { s with network := sent.network } _ :=
    Adds.foldl_nothing (l := sent.traces) (f := fun s event ↦ s.record home event)
      fun _ _ ↦ { Adds.refl with }
  have hcopies := (hnetwork.trans htraces).trans
    (Adds.foldl (l := sent.deliveries) fun delivery s ↦ adds_schedule delivery)
  have hweight : (sent.deliveries.map (·.packet.kind.weight)).sum =
      sent.deliveries.length * packet.kind.weight := by
    rw [List.map_congr_left fun delivery hmem ↦ by
      rw [((Network.send_eq_ok hsent).2 delivery hmem).1], List.map_const', List.sum_replicate,
      Nat.nsmul_eq_mul]
  have hlength := Nat.mul_le_mul_right packet.kind.weight (Network.length_deliveries_le hsent)
  exact hcopies.mono (by omega)

/-- What is carried out adds no more than its weight, that of its packets and alarms. -/
theorem adds_carryOut {home : Endpoint} {effects : Effects} (hk : k.time ≤ maxWord)
    (h : s.carryOut id home effects = .ok s') : Adds k effects.weight s s' := by
  obtain ⟨mid, hmid, h⟩ := Checked.bind_eq_ok_iff.1 h
  obtain rfl := Checked.pure_eq_ok_iff.1 h
  have hnotes : Adds k 0 s _ := Adds.foldl_nothing (l := effects.notes)
    (f := fun s note ↦ s.note (.noted home note)) fun _ _ ↦ { Adds.refl with }
  have htraces := hnotes.trans (Adds.foldl_nothing (l := effects.traces)
    (f := fun s event ↦ s.record home event) fun _ _ ↦ { Adds.refl with })
  have hpackets := htraces.trans (Adds.foldlM (fun _ _ _ h ↦ adds_sendPacket h) hmid)
  have halarms := hpackets.trans (Adds.foldl (l := effects.alarms)
    (f := fun s alarm ↦ s.setAlarm id alarm) fun alarm _ ↦ adds_setAlarm hk alarm)
  refine halarms.mono (Nat.le_of_eq ?_)
  rw [Nat.zero_add, Effects.weight, Packet.weights]

/-! ### What happens -/

/-- What a reaction sets off, with the answers of the application, is paid for by the host. -/
theorem load_of_react {host mid : Host Peer} {r : Reaction} (hk : k.time ≤ maxWord)
    (hmem : k ∈ s.agenda.entries) (hhost : s.host? id = some host)
    (h : s.react id mid r = .ok s') :
    s'.now = s.now ∧ k ∈ s'.agenda.entries ∧
      s'.load k + host.debt ≤ s.load k + r.weight mid.parts + mid.debt := by
  obtain ⟨a, hfirst, h⟩ := Checked.bind_eq_ok_iff.1 h
  obtain ⟨⟨host', effects⟩, htell, hrest⟩ := Checked.bind_eq_ok_iff.1 h
  have hadds : Adds k _ (s.setHost id host') (a.setHost id host') :=
    (adds_carryOut hk hfirst).setHost id host'
  have hrest' : Adds k (effects.map Effects.weight).sum (a.setHost id host') s' :=
    Adds.foldlM (fun _ _ _ h ↦ adds_carryOut hk h) hrest
  have hanswers := hadds.trans hrest'
  obtain ⟨hnow, hmem', hload⟩ := hanswers.load_le hhost hmem
  have hpaid := Host.weight_tell htell
  refine ⟨hnow, hmem', ?_⟩
  rw [Reaction.weight]
  omega

/-- What a connection answers, and its application after it, weigh less than what they had in hand
and what the connection was given. -/
theorem load_lt_of_react {host : Host Peer} {c : Connection} {r : Reaction} {weight : Nat}
    (hk : k.time ≤ maxWord) (hmem : k ∈ s.agenda.entries) (hhost : s.host? id = some host)
    (hsettings : c.settings = host.connection.settings)
    (hweight : r.weight host.parts + c.debt host.parts < host.connection.debt host.parts + weight)
    (h : s.react id { host with connection := c } r = .ok s') :
    s'.now = s.now ∧ k ∈ s'.agenda.entries ∧ s'.load k < s.load k + weight := by
  have hparts : Host.parts { host with connection := c } = host.parts := by
    rw [Host.parts, hsettings, Host.parts]
  obtain ⟨hnow, hmem', hload⟩ := load_of_react hk hmem hhost h
  rw [Host.debt, Host.debt, hparts] at hload
  refine ⟨hnow, hmem', ?_⟩
  dsimp only at hload
  omega

/-- A host that starts asks for one thing, which its start pays for. -/
theorem load_lt_of_start {target : Nat} (hk : k.time ≤ maxWord) (hmem : k ∈ s.agenda.entries)
    (h : s.happen target .start = .ok s') :
    s'.now = s.now ∧ k ∈ s'.agenda.entries ∧ s'.load k < s.load k + Happening.start.weight := by
  dsimp only [happen, startHost] at h
  split at h
  · obtain rfl := Checked.pure_eq_ok_iff.1 h
    exact ⟨rfl, hmem, Nat.lt_add_of_pos_right (Happening.weight_pos _)⟩
  · next host hhost =>
    obtain ⟨response, hanswer, hcarry⟩ := Checked.bind_eq_ok_iff.1 h
    obtain ⟨hnow, hmem', hload⟩ := (adds_carryOut hk hcarry).load_le hhost hmem
    have hdebt : _ ≤ host.debt + 15 := (Peer.pays_start hanswer).debt_le
    refine ⟨hnow, hmem', ?_⟩
    dsimp only [Happening.weight]
    omega

/-- A packet that arrives pays for what its receiver makes of it. -/
theorem load_lt_of_arrival {target : Nat} {packet : Packet} (hk : k.time ≤ maxWord)
    (hmem : k ∈ s.agenda.entries) (h : s.happen target (.arrival packet) = .ok s') :
    s'.now = s.now ∧ k ∈ s'.agenda.entries ∧
      s'.load k < s.load k + (Happening.arrival packet).weight := by
  rw [happen, arrive, Network.route] at h
  cases hroute : s.network.actorAt? packet.destination with
  | none =>
    simp only [hroute] at h
    obtain rfl := Checked.pure_eq_ok_iff.1 h
    exact ⟨rfl, hmem, Nat.lt_add_of_pos_right (Happening.weight_pos _)⟩
  | some id =>
    simp only [hroute] at h
    cases hhost : s.host? id with
    | none =>
      rw [show ({ s with network := s.network } : Simulation σ Peer).host? id = none from hhost]
        at h
      obtain rfl := Checked.pure_eq_ok_iff.1 h
      exact ⟨rfl, hmem, Nat.lt_add_of_pos_right (Happening.weight_pos _)⟩
    | some host =>
      rw [show ({ s with network := s.network } : Simulation σ Peer).host? id = some host
        from hhost] at h
      obtain ⟨⟨c, r⟩, hpacket, hreact⟩ := Checked.bind_eq_ok_iff.1 h
      have hmoves :=
        Party.moves_of_onPacket (p := { toConnection := host.connection }) hpacket
      exact load_lt_of_react hk hmem hhost hmoves.settings_eq
        (Connection.weight_onPacket hpacket) hreact

/-- An alarm that rings pays for what is sent again. -/
theorem load_lt_of_alarm {target : Nat} {watch : Alarm.Watch} (hk : k.time ≤ maxWord)
    (hmem : k ∈ s.agenda.entries) (h : s.happen target (.alarm watch) = .ok s') :
    s'.now = s.now ∧ k ∈ s'.agenda.entries ∧
      s'.load k < s.load k + (Happening.alarm watch).weight := by
  dsimp only [happen, ring] at h
  split at h
  · obtain rfl := Checked.pure_eq_ok_iff.1 h
    exact ⟨rfl, hmem, Nat.lt_add_of_pos_right (Happening.weight_pos _)⟩
  · next host hhost =>
    obtain ⟨⟨c, r⟩, halarm, hreact⟩ := Checked.bind_eq_ok_iff.1 h
    have hmoves := Party.moves_of_onAlarm (p := { toConnection := host.connection }) halarm
    exact load_lt_of_react hk hmem hhost hmoves.settings_eq (Connection.weight_onAlarm halarm)
      hreact

/-- **Less waits after everything that happens.** What happens adds less to what waits at the
present instant than it weighs. -/
theorem load_lt_of_happen {target : Nat} {happening : Happening} (hk : k.time ≤ maxWord)
    (hmem : k ∈ s.agenda.entries) (h : s.happen target happening = .ok s') :
    s'.now = s.now ∧ k ∈ s'.agenda.entries ∧ s'.load k < s.load k + happening.weight := by
  cases happening with
  | start => exact load_lt_of_start hk hmem h
  | arrival packet => exact load_lt_of_arrival hk hmem h
  | alarm watch => exact load_lt_of_alarm hk hmem h

/-! ### Runs -/

/-- **A step that does not end the run moves the clock towards the end, or leaves less to do at the
present instant.** The end stays on the agenda meanwhile, so the clock does not pass it. -/
theorem lt_of_step (hclose : k.action = .close) (hk : k.time ≤ maxWord)
    (hmem : k ∈ s.agenda.entries) (h : s.step = .ok (true, s')) :
    k ∈ s'.agenda.entries ∧
      (s.now < s'.now ∧ s'.now ≤ k.time ∨ s'.now = s.now ∧ s'.load k < s.load k) := by
  cases steps_of_step h with
  | @happen e agenda happening _ hnext haction hhappen =>
    obtain ⟨hentries, hnow⟩ := Agenda.next?_eq_some hnext
    have hahead : s.now ≤ e.time := s.agenda.ahead e (hentries ▸ List.mem_cons_self ..)
    have hordered := s.agenda.ordered
    rw [hentries] at hmem hordered
    have hrest : k ∈ agenda.entries := by
      refine (List.mem_cons.1 hmem).resolve_left ?_
      rintro rfl
      exact absurd (haction.symm.trans hclose) (by simp)
    have hbefore : e.Before k := (List.pairwise_cons.1 hordered).1 k hrest
    obtain ⟨hclock, hmem', hload⟩ := load_lt_of_happen (s := { s with agenda }) hk hrest hhappen
    have htime : s'.now = e.time := hclock.trans hnow
    refine ⟨hmem', ?_⟩
    -- Either the clock moves, or what is taken was part of the load and is not any more.
    rcases Nat.lt_or_eq_of_le hahead with hlater | hsame
    · rw [Agenda.Entry.Before] at hbefore
      exact .inl ⟨by omega, by omega⟩
    · refine .inr ⟨htime.trans hsame.symm, Nat.lt_of_lt_of_le hload (Nat.le_of_eq ?_)⟩
      have hweight : weightAt s.now k e = happening.weight := by
        rw [weightAt, if_pos ⟨hsame.symm, hbefore⟩, weightOf, haction]
      rw [load, load, burst, burst, hentries, List.map_cons, List.sum_cons, hweight]
      show (agenda.entries.map (weightAt agenda.now k)).sum + (s.hosts.map Host.debt).sum +
        happening.weight = _
      rw [hnow, ← hsame]
      omega

/-- A run whose end is on the agenda ends. The induction is on the distance to it and then on the
load. -/
theorem exists_advance_of_close (s : Simulation σ Peer) (hclose : k.action = .close)
    (hk : k.time ≤ maxWord) (hmem : k ∈ s.agenda.entries) :
    ∃ n, (∃ s', s.advance n = .ok (false, s')) ∨ ∃ e, s.advance n = .error e := by
  cases hstep : s.step with
  | error e => exact ⟨1, .inr ⟨e, by rw [advance, hstep]; rfl⟩⟩
  | ok result =>
    obtain ⟨running, s'⟩ := result
    cases running with
    | false => exact ⟨1, .inl ⟨s', by rw [advance, hstep]; rfl⟩⟩
    | true =>
      obtain ⟨hmem', hless⟩ := lt_of_step hclose hk hmem hstep
      obtain ⟨n, hn⟩ := exists_advance_of_close s' hclose hk hmem'
      have hadvance : s.advance (n + 1) = s'.advance n := by
        rw [advance, hstep]
        rfl
      exact ⟨n + 1, hadvance ▸ hn⟩
termination_by (k.time - s.now, s.load k)
decreasing_by
  rcases hless with ⟨hlt, hle⟩ | ⟨heq, hlt⟩
  · exact .left _ _ (by omega)
  · rw [heq]
    exact .right _ hlt

/-- A run that has ended goes no further, however many more steps are allowed. -/
theorem advance_add {n : Nat} (h : ∀ s', s.advance n ≠ .ok (true, s')) (m : Nat) :
    s.advance (n + m) = s.advance n := by
  induction n generalizing s with
  | zero => exact absurd rfl (h s)
  | succ n ih =>
    rw [Nat.succ_add, advance]
    cases hstep : s.step with
    | error e =>
      rw [advance, hstep]
      rfl
    | ok result =>
      obtain ⟨running, s'⟩ := result
      cases running with
      | false =>
        rw [advance, hstep]
        rfl
      | true =>
        have hnext : s.advance (n + 1) = s'.advance n := by
          rw [advance, hstep]
          rfl
        rw [hnext]
        exact ih fun t ht ↦ h t (hnext.trans ht)

/-- **Every run ends.** However many hosts there are and wherever they are, whatever the network
does, whatever is drawn, and however late the end is: after some number of steps the run has come to
its end, or a counter has overflowed; and no more steps are taken. -/
theorem Reachable.exists_advance_ends {initial : Bytes → Prop} (h : s.Reachable initial)
    {stop : Nat} (hstop : stop ≤ maxWord) :
    ∃ n, ((∃ s', (s.closeAt stop).advance n = .ok (false, s')) ∨
        (s.closeAt stop).advance n = .error .sum) ∧
      ∀ m, (s.closeAt stop).advance (n + m) = (s.closeAt stop).advance n := by
  obtain ⟨parties, hsound⟩ := h.exists_sound
  have htimely : (s.closeAt stop).agenda.Timely := hsound.timely.put hstop
  have hmem := (s.agenda.entries_put_perm stop 0 .close).mem_iff.2 (List.mem_cons_self ..)
  obtain ⟨n, ⟨s', hend⟩ | ⟨⟨⟩, herror⟩⟩ :=
    exists_advance_of_close (s.closeAt stop) rfl (htimely.time_le _ hmem) hmem
  · exact ⟨n, .inl ⟨s', hend⟩, advance_add fun t ht ↦ by simp [hend] at ht⟩
  · exact ⟨n, .inr herror, advance_add fun t ht ↦ by simp [herror] at ht⟩

/-- A server, and a client that sends it five bytes, where packets take no time. -/
def atOnce : Except Failure (Simulation Dealt Peer) :=
  (create { Network.Faults.perfect with minDelay := 0, maxDelay := 0 } ⟨[]⟩ ⟨[]⟩).map fun s ↦
    ((s.addHost ⟨10, 0, 0, 2, 80⟩ {} (.server []) 0).2.addHost ⟨10, 0, 0, 1, 4000⟩
      { mtu := 2, window := 2 } (.client ⟨10, 0, 0, 2, 80⟩ [1, 2, 3, 4, 5]) 0).2

/-- One can come to it: the network is created, and two hosts are added. -/
theorem reachable_atOnce {s : Simulation Dealt Peer} (h : atOnce = .ok s) :
    s.Reachable fun _ ↦ True := by
  refine reachable_of_map_create (fun hempty ↦ ?_) h
  exact (hempty.addHost (fun _ _ ↦ trivial) (Nat.zero_le _)).addHost (fun _ _ ↦ trivial)
    (Nat.zero_le _)

/-- The whole transfer takes place at the first instant, with the end at the last one there is. -/
theorem exists_advance_ends_atOnce :
    ∃ s, after 0 atOnce = some s ∧
      ((s.advance 11).toOption.map fun x ↦ (x.1, x.2.now, x.2.hosts.map (·.application.inbox))) =
        some (true, 0, [[1, 2, 3, 4, 5], []]) ∧
      ∃ n, ((∃ s', (s.closeAt maxWord).advance n = .ok (false, s')) ∨
          (s.closeAt maxWord).advance n = .error .sum) ∧
        ∀ m, (s.closeAt maxWord).advance (n + m) = (s.closeAt maxWord).advance n := by
  have hrun : ((after 0 atOnce).map fun s ↦ (s.advance 11).toOption.map fun x ↦
      (x.1, x.2.now, x.2.hosts.map (·.application.inbox))) =
        some (some (true, 0, [[1, 2, 3, 4, 5], []])) := by decide +kernel
  obtain ⟨s, hs, hfacts⟩ := Option.map_eq_some_iff.1 hrun
  exact ⟨s, hs, hfacts,
    (reachable_of_after reachable_atOnce hs).exists_advance_ends (Nat.le_refl _)⟩

end Simulation

end ReliableStream
