import Mathlib.Algebra.Ring.Nat
import ReliableStream.Proofs.Simulation.Answers
import ReliableStream.Proofs.Simulation.Peers

/-!
# What is told is counted

A connection counts the bytes it sends, those it delivers and the segments it sends again, and tells
of each. `stats.Agrees told` says that the totals are those of what was told. Whatever happens to a
client or a server, its connection tells of exactly what it adds to its totals
(`Host.tallies_of_meet`).

Each move of a party is looked at once (`Party.Move.tallies`). All else is composition: a party
makes several moves, an application is told several notices and asks for things in answer, and what
is told of all of it is one list after the other.
-/

namespace ReliableStream

namespace Trace.Event

/-- How many bytes were sent for the first time. -/
def sentBytes : Event → Nat
  | .segmentSent _ len => len
  | _ => 0

/-- How many bytes were handed over. -/
def deliveredBytes : Event → Nat
  | .bytesDelivered len => len
  | _ => 0

/-- Whether a segment was sent again. -/
def isResend : Event → Bool
  | .segmentResent .. => true
  | _ => false

/-- What the network tells of is no concern of a connection: it counts for none of the three totals.
-/
theorem eq_zero_of_not_isOwn {event : Event} (h : event.isOwn = false) :
    event.sentBytes = 0 ∧ event.deliveredBytes = 0 ∧ event.isResend = false := by
  cases event with
  | packetLost | packetDuplicated | packetReordered | undeliverable => exact ⟨rfl, rfl, rfl⟩
  | _ => exact absurd h (by simp [isOwn, isFate, isUndeliverable])

end Trace.Event

namespace Connection

/-- The totals of a connection agree with what is told of it. -/
structure Stats.Agrees (stats : Stats) (told : List Trace.Event) : Prop where
  /-- Of the bytes that were sent. -/
  bytesSent_eq : stats.bytesSent = (told.map (·.sentBytes)).sum
  /-- Of the bytes that were handed over. -/
  bytesReceived_eq : stats.bytesReceived = (told.map (·.deliveredBytes)).sum
  /-- Of each segment that was sent again. -/
  resends_eq : stats.resends = told.countP (·.isResend)

variable {stats : Stats} {told : List Trace.Event}

/-- At the beginning nothing is counted. -/
theorem Stats.agrees_nil : ({} : Stats).Agrees [] := ⟨rfl, rfl, rfl⟩

/-- What the network tells of is not counted by a connection, so it may be left out or put in. -/
theorem Stats.agrees_filter : stats.Agrees (told.filter (·.isOwn)) ↔ stats.Agrees told := by
  have hsum {f : Trace.Event → Nat} (hf : ∀ event, event.isOwn = false → f event = 0) :
      ((told.filter (·.isOwn)).map f).sum = (told.map f).sum := by
    induction told with
    | nil => rfl
    | cons event rest ih =>
      cases hown : event.isOwn with
      | true => simp [hown, ih]
      | false => simp [hown, ih, hf event hown]
  have hsent := hsum fun event h ↦ (Trace.Event.eq_zero_of_not_isOwn h).1
  have hdelivered := hsum fun event h ↦ (Trace.Event.eq_zero_of_not_isOwn h).2.1
  have hresends : (told.filter (·.isOwn)).countP (·.isResend) = told.countP (·.isResend) := by
    rw [List.countP_filter]
    refine List.countP_congr fun event _ ↦ ?_
    cases hown : event.isOwn with
    | true => simp
    | false => simp [(Trace.Event.eq_zero_of_not_isOwn hown).2.2]
  constructor
  · rintro ⟨hs, hd, hr⟩
    exact ⟨hs.trans hsent, hd.trans hdelivered, hr.trans hresends⟩
  · rintro ⟨hs, hd, hr⟩
    exact ⟨hs.trans hsent.symm, hd.trans hdelivered.symm, hr.trans hresends.symm⟩

/-- What counts is only what a connection tells of. -/
theorem Stats.Agrees.congr_own {more other : List Trace.Event} (h : stats.Agrees (told ++ more))
    (hown : other.filter (·.isOwn) = more.filter (·.isOwn)) : stats.Agrees (told ++ other) := by
  rw [← agrees_filter, List.filter_append] at h ⊢
  rwa [hown]

/-- A connection becomes another one, and tells of what it adds to its totals. -/
structure Tallies (events : List Trace.Event) (c d : Connection) : Prop where
  /-- It stays where it is. -/
  home_eq : d.home = c.home
  /-- It tells only of itself. -/
  own : ∀ event ∈ events, event.isOwn = true
  /-- It was registered before. -/
  unregistered : ∀ event ∈ events, event ≠ .registered
  /-- Its totals go on agreeing with what is told of it. -/
  agrees : ∀ {told}, c.stats.Agrees told → d.stats.Agrees (told ++ events)

namespace Tallies

variable {c d e : Connection} {events events' : List Trace.Event}

/-- Nothing is counted and told. -/
theorem of_stats_eq (hhome : d.home = c.home) (hstats : d.stats = c.stats) : Tallies [] c d where
  home_eq := hhome
  own _ h := absurd h List.not_mem_nil
  unregistered _ h := absurd h List.not_mem_nil
  agrees h := by rwa [hstats, List.append_nil]

theorem refl (c : Connection) : Tallies [] c c := of_stats_eq rfl rfl

theorem trans (h : Tallies events c d) (h' : Tallies events' d e) :
    Tallies (events ++ events') c e where
  home_eq := h'.home_eq.trans h.home_eq
  own := List.forall_mem_append.2 ⟨h.own, h'.own⟩
  unregistered := List.forall_mem_append.2 ⟨h.unregistered, h'.unregistered⟩
  agrees hagrees := by
    rw [← List.append_assoc]
    exact h'.agrees (h.agrees hagrees)

end Tallies

end Connection

namespace Party

open Connection

variable {now : Nat} {input : Input} {p q : Party} {r : Reaction}

/-- **Each move tells of what it counts.** Most moves count nothing, and tell of nothing. -/
theorem Move.tallies (h : Move now input p r q) :
    Tallies r.traces p.toConnection q.toConnection := by
  cases h with
  | idle | connect | listen | accept | answer | acknowledge | store | hand | retryOpening |
    retryAnswer | read => exact .of_stats_eq rfl rfl
  | opened | complete | acknowledged | giveUp | deliver | send | resend =>
    refine ⟨rfl, by simp [Trace.Event.isOwn, Trace.Event.isFate, Trace.Event.isUndeliverable],
      by simp, fun h ↦ ⟨?_, ?_, ?_⟩⟩
    all_goals simp [h.bytesSent_eq, h.bytesReceived_eq, h.resends_eq, Trace.Event.sentBytes,
      Trace.Event.deliveredBytes, Trace.Event.isResend]

theorem Moves.tallies (h : Moves now input p r q) :
    Tallies r.traces p.toConnection q.toConnection := by
  induction h with
  | none p => exact .refl _
  | cons first _ ih => exact first.tallies.trans ih

end Party

/-! ### Clients and servers -/

namespace Peer

open Connection

variable {now : Nat} {peer : Peer} {c : Connection} {response : Response Peer}

/-- What an application asks of its connection, which may refuse. -/
theorem tallies_of_ask {call : String} {answer : Except Failure (Checked (Connection × Effects))}
    (hanswer : ∀ {d effects}, answer = .ok (.ok (d, effects)) → Tallies effects.traces c d)
    (h : peer.ask call c answer = .ok response) :
    Tallies response.effects.traces c response.connection := by
  rcases ask_eq_ok h with ⟨failure, -, rfl⟩ | ⟨d, effects, hok, rfl⟩
  · exact .refl c
  · exact hanswer hok

theorem tallies_of_start (h : Application.start now peer c = .ok response) :
    Tallies response.effects.traces c response.connection := by
  cases peer with
  | client address message =>
    refine tallies_of_ask (fun {d effects} hok ↦ ?_) h
    have hmoves : Party.Moves now (.connect address) { toConnection := c } effects _ :=
      Party.moves_of_connect hok
    exact hmoves.tallies
  | server inbox =>
    refine tallies_of_ask (fun {d effects} hok ↦ ?_) h
    have hmoves : Party.Moves now .listen { toConnection := c } effects _ :=
      Party.moves_of_listen hok
    exact hmoves.tallies

/-- An application that is told something may send or read. Reading counts nothing: it was counted
on delivery. -/
theorem tallies_of_onNotice {notice : Notice}
    (h : Application.onNotice now notice peer c = .ok response) :
    Tallies response.effects.traces c response.connection := by
  have hquiet (hpure : (pure ⟨peer, c, {}⟩ : Checked (Response Peer)) = .ok response) :
      Tallies response.effects.traces c response.connection := by
    obtain rfl := Checked.pure_eq_ok_iff.1 hpure
    exact .refl c
  cases peer with
  | client address message =>
    cases notice with
    | established =>
      exact tallies_of_ask
        (fun hok ↦ (Party.moves_of_send (p := { toConnection := c }) hok).tallies) h
    | handshakeFailed | dataReady => exact hquiet h
  | server inbox =>
    cases notice with
    | dataReady len =>
      by_cases hstate : c.state = .established
      · rw [onNotice_dataReady hstate] at h
        obtain rfl := Except.ok.inj h
        exact .of_stats_eq rfl rfl
      · rw [onNotice_dataReady_of_ne hstate] at h
        obtain rfl := Except.ok.inj h
        exact .refl c
    | handshakeFailed | established => exact hquiet h

end Peer

namespace Simulation

open Connection

variable {now : Nat} {host host' : Host Peer} {effects : List Effects}

theorem Host.tallies_of_tell {notices : List Notice}
    (h : host.tell now notices = .ok (host', effects)) :
    Tallies (effects.flatMap (·.traces)) host.connection host'.connection := by
  induction notices generalizing host effects with
  | nil =>
    obtain ⟨rfl, rfl⟩ := Checked.pure_prod_eq_ok h
    exact .refl _
  | cons notice rest ih =>
    obtain ⟨response, hanswer, h⟩ := Checked.bind_eq_ok_iff.1 h
    obtain ⟨⟨last, more⟩, hmore, hpure⟩ := Checked.bind_eq_ok_iff.1 h
    obtain ⟨rfl, rfl⟩ := Checked.pure_prod_eq_ok hpure
    rw [List.flatMap_cons]
    exact (Peer.tallies_of_onNotice hanswer).trans (ih hmore)

theorem Host.tallies_of_heed {outcome : Checked (Connection × Reaction)}
    (houtcome : ∀ {c reaction}, outcome = .ok (c, reaction) →
      Tallies reaction.traces host.connection c)
    (h : host.heed now outcome = .ok (host', effects)) :
    Tallies (effects.flatMap (·.traces)) host.connection host'.connection := by
  obtain ⟨⟨c, reaction⟩, hreach, h⟩ := Checked.bind_eq_ok_iff.1 h
  obtain ⟨⟨last, answers⟩, htell, hpure⟩ := Checked.bind_eq_ok_iff.1 h
  obtain ⟨rfl, rfl⟩ := Checked.pure_prod_eq_ok hpure
  rw [List.flatMap_cons]
  have hanswers := Host.tallies_of_tell htell
  exact (houtcome hreach).trans hanswers

/-- **What is told is counted.** Whatever happens to a client or a server, it tells of exactly what
its connection adds to its totals. -/
theorem Host.tallies_of_meet {happening : Happening}
    (h : host.meet now happening = .ok (host', effects)) :
    Tallies (effects.flatMap (·.traces)) host.connection host'.connection := by
  cases happening with
  | start =>
    obtain ⟨response, hstart, hpure⟩ := Checked.bind_eq_ok_iff.1 h
    obtain ⟨rfl, rfl⟩ := Checked.pure_prod_eq_ok hpure
    simpa using Peer.tallies_of_start hstart
  | arrival packet =>
    exact tallies_of_heed
      (fun hok ↦ (Party.moves_of_onPacket (p := { toConnection := host.connection }) hok).tallies) h
  | alarm watch =>
    exact tallies_of_heed
      (fun hok ↦ (Party.moves_of_onAlarm (p := { toConnection := host.connection }) hok).tallies) h

end Simulation

end ReliableStream
