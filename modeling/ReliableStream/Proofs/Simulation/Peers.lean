import ReliableStream.Application.Peer
import ReliableStream.Proofs.Party.Turn
import ReliableStream.Simulation.Basic

/-!
# What clients and servers do with their connections

An application keeps no record of what it did, but the party that is its connection does.
`peer.Drives initial p notices` says what `p` looks like when its application, `peer`, has still to
be told `notices`: a client sends its message once, when it is told that the connection is
established, and reads nothing; a server sends nothing, and adds what it reads to its inbox, which
was an `initial` one at first.

What reaches the party adds to the notices (`Drives.moves`), and telling them takes them away again
(`Drives.onNotice`). What an application asks for in answer are `Calls`. Its `task` never changes.

The notices that an application was not told yet stand between what its connection is and what the
application knows of it. A client of which the party is established either has handed its message
over, or there is a notice that will make it do so. That is why they are an index of `Drives`.
-/

namespace ReliableStream

open Party

namespace Peer

/-- A server begins with an `initial` inbox. -/
def Begins (initial : Bytes → Prop) (peer : Peer) : Prop :=
  ∀ inbox, peer = .server inbox → initial inbox

/-- A server begins with an inbox that is such a one. -/
theorem begins_server {initial : Bytes → Prop} {inbox : Bytes} (h : initial inbox) :
    (server inbox).Begins initial := by
  rintro _ ⟨⟩
  exact h

/-- A client has no inbox, and so nothing is asked of it. -/
theorem begins_client {initial : Bytes → Prop} {address : Endpoint} {message : Bytes} :
    (client address message).Begins initial := by
  rintro _ ⟨⟩

/-- A client and its party, before it is told of `notices`. -/
structure Sending (message : Bytes) (p : Party) (notices : List Notice) : Prop where
  /-- It reads nothing. -/
  reads_eq : p.reads = []
  /-- It does not wait for an opening. -/
  opens : p.state ≠ .listening ∧ p.state ≠ .synReceived
  /-- It is told only once. -/
  before : p.state ≠ .established → notices.count .established = 0
  /-- It sends its message when it is told. -/
  after : p.state = .established →
    notices.count .established = 1 ∧ p.sends = [] ∨
      notices.count .established = 0 ∧ p.sends = [message]

/-- A server and its party, before it is told of `notices`. -/
structure Reading (initial : Bytes → Prop) (inbox : Bytes) (p : Party) (notices : List Notice) :
    Prop where
  /-- It sends nothing. -/
  sends_eq : p.sends = []
  /-- It keeps what it reads. -/
  inbox_eq : ∃ first, initial first ∧ inbox = first ++ p.reads.flatten
  /-- It does not open to anyone. -/
  opens : p.state ≠ .synSent
  /-- It is told if it can read. -/
  told : (∀ len, .dataReady len ∉ notices) → p.ready = []

/-- What an application has made of its party, before it is told of `notices`. -/
def Drives (initial : Bytes → Prop) : Peer → Party → List Notice → Prop
  | .client _ message => Sending message
  | .server inbox => Reading initial inbox

/-- What a client has to do: to send a message to an address. A server has nothing to do of itself.
-/
def task : Peer → Option (Endpoint × Bytes)
  | .client address message => some (address, message)
  | .server _ => none

/-- What an application asks of its connection when its host starts. -/
def opening : Peer → Input
  | .client address _ => .connect address
  | .server _ => .listen

theorem opens_opening (peer : Peer) : peer.opening.opens = true := by cases peer <;> rfl

/-- What may happen to the party of an application, other than by an answer to a notice. -/
def Admits : Peer → Input → Bool
  | .client .., .connect _ | .server _, .listen | _, .packet _ | _, .alarm _ => true
  | _, _ => false

variable {initial : Bytes → Prop} {now : Nat} {input : Input} {peer : Peer} {p q : Party}
  {r : Reaction} {message inbox : Bytes} {notices : List Notice}

/-- At the beginning there is nothing to do: the party is new, and there is nothing to tell. -/
theorem drives_create {home : Endpoint} {settings : Connection.Settings} {valid : settings.Valid}
    {isn : Nat} (hbegins : peer.Begins initial) :
    peer.Drives initial (create home settings valid isn) [] := by
  cases peer with
  | client address message =>
    exact
      { reads_eq := rfl
        opens := ⟨by simp [create], by simp [create]⟩
        before := fun _ ↦ rfl
        after := fun hs ↦ absurd hs (by simp [create]) }
  | server inbox =>
    exact
      { sends_eq := rfl
        inbox_eq := ⟨inbox, hbegins inbox rfl, (List.append_nil _).symm⟩
        opens := by simp [create]
        told := fun _ ↦ rfl }

/-! ### What reaches the party -/

/-- No other notice tells a client to send. -/
theorem count_concat_of_ne {notice : Notice} (hne : notice ≠ .established) :
    (notices ++ [notice]).count .established = notices.count .established := by
  rw [List.count_append, List.count_singleton, if_neg (by simpa using hne), Nat.add_zero]

/-- A client goes on when something reaches its party. Most moves do not concern it; the one by
which the party gets established tells it to send, and none other does. -/
theorem Sending.move {address : Endpoint} (h : Sending message p notices) (hp : p.Sound)
    (hmove : Move now input p r q) (hinput : (client address message).Admits input = true) :
    Sending message q (notices ++ r.notices) := by
  cases hmove with
  | idle | answer | acknowledge | retryOpening | retryAnswer | acknowledged | store | send |
    resend =>
    rw [List.append_nil]
    exact { h with }
  | connect hstate =>
    rw [List.append_nil]
    exact
      { reads_eq := h.reads_eq
        opens := ⟨by simp, by simp⟩
        before := fun _ ↦ h.before (by simp [hstate])
        after := fun hs ↦ absurd hs (by simp) }
  | listen | hand | read => exact absurd hinput (by simp [Admits])
  | accept _ hstate => exact absurd hstate h.opens.1
  | complete _ hstate => exact absurd hstate h.opens.2
  | opened _ hstate =>
    have hne : p.state ≠ .established := by simp [hstate]
    -- It was not told before, and now it is told once.
    have hone : (notices ++ [Notice.established]).count .established = 1 := by
      rw [List.count_append, h.before hne, List.count_singleton_self]
    exact
      { reads_eq := h.reads_eq
        opens := ⟨by simp, by simp⟩
        before := fun hs ↦ absurd rfl hs
        after := fun _ ↦ .inl ⟨hone, (hp.blank hne).sends_eq⟩ }
  | deliver =>
    exact
      { reads_eq := h.reads_eq
        opens := h.opens
        before := fun hs ↦ (count_concat_of_ne (by simp)).trans (h.before hs)
        after := fun hs ↦ by
          rw [count_concat_of_ne (by simp)]
          exact h.after hs }
  | giveUp hstate =>
    exact
      { reads_eq := h.reads_eq
        opens := ⟨by simp, by simp⟩
        before := fun _ ↦ (count_concat_of_ne (by simp)).trans
          (h.before (by rcases hstate with hs | hs <;> simp [hs]))
        after := fun hs ↦ absurd hs (by simp) }

/-- A server goes on when something reaches its party. Whenever there is more to read it is told so.
-/
theorem Reading.move (h : Reading initial inbox p notices) (hmove : Move now input p r q)
    (hinput : (server inbox).Admits input = true) :
    Reading initial inbox q (notices ++ r.notices) := by
  have htold : (∀ len, .dataReady len ∉ notices ++ r.notices) → p.ready = [] :=
    fun hnone ↦ h.told fun len hmem ↦ hnone len (List.mem_append_left _ hmem)
  cases hmove with
  | idle | answer | acknowledge | retryOpening | retryAnswer | acknowledged | store | send |
    resend => exact { h with told := htold }
  | connect | hand | read => exact absurd hinput (by simp [Admits])
  | opened _ hstate => exact absurd hstate h.opens
  | listen | accept | complete | giveUp =>
    exact { sends_eq := h.sends_eq, inbox_eq := h.inbox_eq, opens := by simp, told := htold }
  | deliver =>
    exact
      { sends_eq := h.sends_eq
        inbox_eq := h.inbox_eq
        opens := h.opens
        told := fun hnone ↦ absurd (List.mem_append_right _ (List.mem_singleton.2 rfl)) (hnone _) }

/-- Either way, what reaches the party in one move adds to the notices. -/
theorem Drives.move (h : peer.Drives initial p notices) (hp : p.Sound)
    (hmove : Move now input p r q) (hinput : peer.Admits input = true) :
    peer.Drives initial q (notices ++ r.notices) := by
  cases peer with
  | client => exact Sending.move h hp hmove hinput
  | server => exact Reading.move h hmove hinput

/-- What reaches the party adds to the notices, move after move. -/
theorem Drives.moves (h : peer.Drives initial p notices) (hp : p.Sound)
    (hmoves : Moves now input p r q) (hinput : peer.Admits input = true) :
    peer.Drives initial q (notices ++ r.notices) := by
  induction hmoves generalizing notices with
  | none =>
    rw [List.append_nil]
    exact h
  | cons first _ ih =>
    rw [Reaction.notices_append, ← List.append_assoc]
    exact ih (h.move hp first hinput) (hp.move first)

/-! ### What it asks for -/

/-- Reads that empty what can be read, one chunk at a time. -/
theorem calls_of_reads {ready : List Bytes} (hstate : p.state = .established)
    (hready : p.ready = ready) :
    Calls now p {} { p with ready := [], reads := p.reads ++ ready } := by
  induction ready generalizing p with
  | nil =>
    have hp : { p with ready := [], reads := p.reads ++ [] } = p := by
      rw [List.append_nil, ← hready]
    rw [hp]
    exact .none p
  | cons bytes rest ih =>
    have hrest := ih (p := { p with ready := rest, reads := p.reads ++ [bytes] }) hstate rfl
    rw [List.append_assoc] at hrest
    have hfirst : p.perform now .read =
        .ok ({ p with ready := rest, reads := p.reads ++ [bytes] }, {}) := by
      rw [perform, Connection.read, if_pos hstate, hready]
      rfl
    exact .cons (by rfl : Input.transfers .read = true) hfirst hrest

/-- What an application makes of its party, in some way, and what that causes. -/
def Answers (initial : Bytes → Prop) (peer : Peer) (does : Party → Reaction → Party → Prop)
    (p : Party) (notices : List Notice) (response : Response Peer) : Prop :=
  ∃ q r, does p r q ∧ response.connection = q.toConnection ∧
    response.application.Drives initial q notices ∧ response.application.task = peer.task ∧
    r.packets = response.effects.packets ∧ r.alarms = response.effects.alarms ∧
    r.traces = response.effects.traces

/-- What an application asks of its connection is refused, and then it only takes note of that, or
it is done. -/
theorem ask_eq_ok {call : String} {c : Connection} {response : Response Peer}
    {answer : Except Failure (Checked (Connection × Effects))}
    (h : peer.ask call c answer = .ok response) :
    (∃ failure, answer = .error failure ∧ response = ⟨peer, c, refused call failure c⟩) ∨
      ∃ c' effects, answer = .ok (.ok (c', effects)) ∧ response = ⟨peer, c', effects⟩ := by
  unfold ask at h
  split at h
  · next failure => exact .inl ⟨failure, rfl, (Checked.pure_eq_ok_iff.1 h).symm⟩
  · obtain ⟨⟨c', effects⟩, hdone, hpure⟩ := Checked.bind_eq_ok_iff.1 h
    exact .inr ⟨c', effects, by rw [hdone], (Checked.pure_eq_ok_iff.1 hpure).symm⟩

/-- A notice that does not tell a client to send may be told without effect. -/
theorem Sending.skip {notice : Notice} (h : Sending message p (notice :: notices))
    (hne : notice ≠ .established) : Sending message p notices := by
  have hcount : (notice :: notices).count .established = notices.count .established :=
    List.count_cons_of_ne hne
  exact
    { reads_eq := h.reads_eq
      opens := h.opens
      before := fun hs ↦ hcount.symm.trans (h.before hs)
      after := fun hs ↦ hcount ▸ h.after hs }

/-- A client that is told that it is established hands its message over, and has not done so before.
-/
theorem Sending.onEstablished {address : Endpoint} {response : Response Peer}
    (h : Sending message p (.established :: notices)) (hp : p.Sound)
    (hanswer : Application.onNotice now .established (client address message) p.toConnection =
      .ok response) : Answers initial (client address message) (Calls now) p notices response := by
  have hcount := List.count_cons_self (a := Notice.established) (l := notices)
  have hstate : p.state = .established := by
    by_contra hne
    have hzero := h.before hne
    omega
  -- It is told for the first time, so it has handed nothing over yet.
  obtain ⟨hone, hsends⟩ : notices.count .established = 0 ∧ p.sends = [] := by
    rcases h.after hstate with ⟨hone, hsends⟩ | ⟨hzero, -⟩
    · exact ⟨by omega, hsends⟩
    · omega
  rcases ask_eq_ok hanswer with ⟨_, hrefused, -⟩ | ⟨c, effects, hsend, rfl⟩
  · exact absurd hrefused (by simp [Connection.send, hstate])
  · have hlater := (moves_of_send hsend).later hp
    have hq : c.state = .established := hlater.established (hp.sends hstate).1 hstate
    have hperform : p.perform now (.send message) =
        .ok ({ p with toConnection := c, sends := p.sends ++ [message] }, effects) := by
      rw [perform, hsend]
      rfl
    refine ⟨_, _, .single (by rfl : (Input.send message).transfers = true) hperform, rfl, ?_,
      rfl, rfl, rfl, rfl⟩
    exact
      { reads_eq := h.reads_eq
        opens := ⟨by simp [hq], by simp [hq]⟩
        before := fun hs ↦ absurd hq hs
        after := fun _ ↦ .inr ⟨hone, by rw [hsends, List.nil_append]⟩ }

/-- A client is told something. -/
theorem Sending.onNotice {address : Endpoint} {notice : Notice} {response : Response Peer}
    (h : Sending message p (notice :: notices)) (hp : p.Sound)
    (hanswer : Application.onNotice now notice (client address message) p.toConnection =
      .ok response) : Answers initial (client address message) (Calls now) p notices response := by
  cases notice with
  | handshakeFailed | dataReady =>
    obtain rfl := Checked.pure_eq_ok_iff.1 hanswer
    exact ⟨p, {}, .none p, rfl, h.skip (by simp), rfl, rfl, rfl, rfl⟩
  | established => exact h.onEstablished hp hanswer

/-- A server that is told it can read reads everything. -/
theorem onNotice_dataReady {len : Nat} {c : Connection} (hstate : c.state = .established) :
    Application.onNotice now (.dataReady len) (server inbox) c =
      .ok ⟨server (inbox ++ c.ready.flatten), { c with ready := [] }, {}⟩ := by
  have hread : c.readAll = .ok (c.ready, { c with ready := [] }) := if_pos hstate
  dsimp only [Application.onNotice]
  rw [hread]
  rfl

/-- It cannot if the connection is not established. -/
theorem onNotice_dataReady_of_ne {len : Nat} {c : Connection} (hstate : c.state ≠ .established) :
    Application.onNotice now (.dataReady len) (server inbox) c =
      .ok ⟨server inbox, c, { notes := [.readRefused .notEstablished] }⟩ := by
  have hread : c.readAll = .error .notEstablished := if_neg hstate
  dsimp only [Application.onNotice]
  rw [hread]
  rfl

/-- A server is told something. It reads when it can, and if it cannot then there is nothing to be
read. -/
theorem Reading.onNotice {notice : Notice} {response : Response Peer}
    (h : Reading initial inbox p (notice :: notices)) (hp : p.Sound)
    (hanswer : Application.onNotice now notice (server inbox) p.toConnection = .ok response) :
    Answers initial (server inbox) (Calls now) p notices response := by
  have hquiet (hne : ∀ len, .dataReady len ≠ notice) : Reading initial inbox p notices :=
    { h with told := fun hnone ↦ h.told fun len hmem ↦
        (List.mem_cons.1 hmem).elim (hne len) (hnone len) }
  cases notice with
  | handshakeFailed | established =>
    obtain rfl := Checked.pure_eq_ok_iff.1 hanswer
    exact ⟨p, {}, .none p, rfl, hquiet (by simp), rfl, rfl, rfl, rfl⟩
  | dataReady len =>
    by_cases hstate : p.state = .established
    · rw [onNotice_dataReady hstate] at hanswer
      obtain rfl := Except.ok.inj hanswer
      refine ⟨_, _, calls_of_reads hstate rfl, rfl, ?_, rfl, rfl, rfl, rfl⟩
      exact
        { sends_eq := h.sends_eq
          inbox_eq := by
            obtain ⟨first, hfirst, hinbox⟩ := h.inbox_eq
            exact ⟨first, hfirst, by rw [hinbox, List.flatten_append, List.append_assoc]⟩
          opens := by simp [hstate]
          told := fun _ ↦ rfl }
    · rw [onNotice_dataReady_of_ne hstate] at hanswer
      obtain rfl := Except.ok.inj hanswer
      -- Before the connection is established there is nothing to be read.
      have hready := (hp.blank hstate).ready_eq
      exact ⟨p, {}, .none p, rfl, { h with told := fun _ ↦ hready }, rfl, rfl, rfl, rfl⟩

/-- Telling a notice takes it away, and what is asked for in answer are calls. -/
theorem Drives.onNotice {notice : Notice} {response : Response Peer}
    (h : peer.Drives initial p (notice :: notices)) (hp : p.Sound)
    (hanswer : Application.onNotice now notice peer p.toConnection = .ok response) :
    Answers initial peer (Calls now) p notices response := by
  cases peer with
  | client => exact Sending.onNotice h hp hanswer
  | server => exact Reading.onNotice h hp hanswer

/-- The host starts. If its connection refuses then nothing has happened. -/
theorem Drives.start {response : Response Peer} (h : peer.Drives initial p []) (hp : p.Sound)
    (hanswer : Application.start now peer p.toConnection = .ok response) :
    Answers initial peer (fun p r q ↦ p.perform now peer.opening = .ok (q, r)) p [] response := by
  cases peer with
  | client address message =>
    rcases ask_eq_ok hanswer with ⟨_, hrefused, rfl⟩ | ⟨c, effects, hconnect, rfl⟩
    · have hperform : p.perform now (.connect address) = .ok (p, {}) := by
        rw [perform, hrefused]
        rfl
      exact ⟨p, {}, hperform, rfl, h, rfl, rfl, rfl, rfl⟩
    · have hperform : p.perform now (.connect address) =
          .ok ({ p with toConnection := c, sends := p.sends ++ [] }, effects) := by
        rw [perform, hconnect]
        rfl
      exact ⟨_, _, hperform, rfl, h.moves hp (moves_of_perform hperform) rfl, rfl, rfl, rfl, rfl⟩
  | server inbox =>
    rcases ask_eq_ok hanswer with ⟨_, hrefused, rfl⟩ | ⟨c, effects, hdone, rfl⟩
    · have hperform : p.perform now .listen = .ok (p, {}) := by
        rw [perform, hrefused]
        rfl
      exact ⟨p, {}, hperform, rfl, h, rfl, rfl, rfl, rfl⟩
    · have hperform : p.perform now .listen =
          .ok ({ p with toConnection := c, sends := p.sends ++ [] }, effects) := by
        rw [perform, hdone]
        rfl
      exact ⟨_, _, hperform, rfl, h.moves hp (moves_of_perform hperform) rfl, rfl, rfl, rfl, rfl⟩

/-! ### When it is told everything -/

/-- To its inbox a server has added all that it has got. -/
theorem Reading.exists_inbox_eq (h : Reading initial inbox p []) :
    ∃ first, initial first ∧ inbox = first ++ p.heard := by
  have hready : p.ready = [] := h.told fun _ ↦ List.not_mem_nil
  rw [heard, hready, List.flatten_nil, List.append_nil]
  exact h.inbox_eq

/-- The stream of an established client is its message. -/
theorem Sending.stream_eq (h : Sending message p []) (hstate : p.state = .established) :
    p.stream = message := by
  rcases h.after hstate with ⟨hone, -⟩ | ⟨-, hsends⟩
  · exact absurd hone (by simp)
  · rw [stream, hsends, List.flatten_singleton]

/-- Only a client sends something, and only its message. -/
theorem Drives.exists_client (h : peer.Drives initial p []) (hp : p.Sound) (hne : p.stream ≠ []) :
    ∃ address, peer = .client address p.stream := by
  cases peer with
  | client address message =>
    have hstate : p.state = .established := by
      by_contra hstate
      exact hne (by rw [stream, (hp.blank hstate).sends_eq, List.flatten_nil])
    rw [Sending.stream_eq h hstate]
    exact ⟨address, rfl⟩
  | server inbox => exact absurd (by rw [stream, h.sends_eq, List.flatten_nil]) hne

end Peer

/-! ### Telling all notices -/

/-- An application that is told everything has done all that it has to. If there is nothing to tell
then it does nothing. -/
theorem Simulation.Host.calls_of_tell {initial : Bytes → Prop} {now : Nat} {notices : List Notice}
    {p : Party} {host host' : Host Peer} {answers : List Effects}
    (h : host.application.Drives initial p notices) (hp : p.Sound)
    (hconnection : host.connection = p.toConnection)
    (htell : host.tell now notices = .ok (host', answers)) :
    ∃ q r, Calls now p r q ∧ (notices = [] → r = {} ∧ q = p) ∧
      host'.connection = q.toConnection ∧ host'.application.Drives initial q [] ∧
      host'.application.task = host.application.task ∧ r.packets = answers.flatMap (·.packets) ∧
      r.alarms = answers.flatMap (·.alarms) ∧ r.traces = answers.flatMap (·.traces) := by
  induction notices generalizing p host answers with
  | nil =>
    obtain ⟨rfl, rfl⟩ := Checked.pure_prod_eq_ok htell
    exact ⟨p, {}, .none p, fun _ ↦ ⟨rfl, rfl⟩, hconnection, h, rfl, rfl, rfl, rfl⟩
  | cons notice rest ih =>
    obtain ⟨response, hanswer, hrest⟩ := Checked.bind_eq_ok_iff.1 htell
    obtain ⟨⟨last, more⟩, hmore, hpure⟩ := Checked.bind_eq_ok_iff.1 hrest
    obtain ⟨rfl, rfl⟩ := Checked.pure_prod_eq_ok hpure
    rw [hconnection] at hanswer
    obtain ⟨mid, r, hfirst, hmid, hdrives, htask, hpackets, halarms, htraces⟩ :=
      h.onNotice hp hanswer
    obtain ⟨q, s, hcalls, -, hq, hdrives', htask', hpackets', halarms', htraces'⟩ :=
      ih hdrives (hfirst.sound hp) hmid hmore
    refine ⟨q, r ++ s, hfirst.append hcalls, fun hnil ↦ absurd hnil (List.cons_ne_nil _ _), hq,
      hdrives', htask'.trans htask, ?_, ?_, ?_⟩
    · rw [Reaction.packets_append, List.flatMap_cons, hpackets, hpackets']
    · rw [Reaction.alarms_append, List.flatMap_cons, halarms, halarms']
    · rw [Reaction.traces_append, List.flatMap_cons, htraces, htraces']

end ReliableStream
