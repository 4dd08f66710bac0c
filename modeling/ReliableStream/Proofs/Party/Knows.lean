import ReliableStream.Proofs.Party.Follows

/-!
# What a party knows of its peer

`Knows p peer` joins the two ends of a connection, as seen from one of them: what `p` has got is the
beginning of the stream of `peer`, and what `p` counts as acknowledged is what `peer` has got. While
its handshake is going on, `p` at least knows where that stream starts.

It is kept when the peer moves, since the peer only becomes a later party (`Knows.later`), and when
`p` itself moves, provided that whatever arrives from the peer is something that the peer answers
for (`Knows.move`). Nothing is asked of packets from anyone else. Only what a party knows of its
current peer counts, so both are about parties of which one has the other as its peer.

This is where the two ends of a connection meet. All other facts about a party are about itself and
its own history, and a packet is the only thing that can tell it of the other one. What a packet may
tell is what its sender vouched for when it was sent, and still does.
-/

namespace ReliableStream.Party

theorem Blank.heard_eq {p : Party} (h : p.Blank) : p.heard = [] := by
  rw [heard, h.reads_eq, h.ready_eq]
  rfl

/-- What a party knows of its peer. -/
structure Knows (p peer : Party) : Prop where
  /-- Where the stream of the peer starts. -/
  answering : p.state = .synReceived →
    p.edge = peer.firstByte ∧ peer.firstByte ≤ peer.sendNext
  /-- The beginning of that stream. -/
  follows : p.state = .established → ∃ i, Follows p.reassembly p.heard peer i
  /-- What the peer has got, beyond the opening. -/
  acked : p.state = .established →
    p.sendBase ≤ p.firstByte ∨ peer.AttachedTo p.home ∧ p.sendBase ≤ peer.edge

namespace Knows

variable {p q peer : Party}

/-- It is kept when the peer moves, whose stream only gets longer and whose edge only goes forward.
-/
theorem later {peer' : Party} (h : p.Knows peer) (hlater : peer.Later peer') : p.Knows peer' where
  answering hstate := by
    obtain ⟨hedge, hnext⟩ := h.answering hstate
    rw [hlater.firstByte_eq]
    exact ⟨hedge, Nat.le_trans hnext hlater.next_le⟩
  follows hstate := by
    obtain ⟨i, hfollows⟩ := h.follows hstate
    exact ⟨i, hfollows.later hlater⟩
  acked hstate := by
    refine (h.acked hstate).imp_right fun ⟨hattached, hbase⟩ ↦ ?_
    exact ⟨hlater.attached hattached, Nat.le_trans hbase (hlater.edge_le hattached.1)⟩

/-- Nothing has to be known outside of a connection. -/
theorem of_state (hreceived : p.state ≠ .synReceived) (hestablished : p.state ≠ .established) :
    p.Knows peer where
  answering h := absurd h hreceived
  follows h := absurd h hestablished
  acked h := absurd h hestablished

/-- A stream begins with a handshake: nothing of it has been got, and nothing of the own one is
acknowledged. -/
theorem begin (hblank : p.Blank) (hreassembly : q.reassembly.edge = peer.firstByte)
    (hwaiting : q.reassembly.waiting.toList = []) (hnext : peer.firstByte ≤ peer.sendNext)
    (hheard : q.heard = p.heard) (hstate : q.state = .established)
    (hbase : q.sendBase ≤ q.firstByte) : q.Knows peer where
  answering h := absurd (hstate.symm.trans h) (by simp)
  follows _ := ⟨0, by
    rw [hheard, hblank.heard_eq]
    exact Follows.begin hreassembly hwaiting hnext⟩
  acked _ := .inl hbase

/-- A party that has heard of its peer follows its stream. -/
theorem exists_follows (h : p.Knows peer) (hp : p.Sound)
    (hstate : p.state = .synReceived ∨ p.state = .established) :
    ∃ heard i, Follows p.reassembly heard peer i := by
  rcases hstate with hstate | hstate
  · obtain ⟨hedge, hnext⟩ := h.answering hstate
    exact ⟨[], 0, Follows.begin hedge (hp.waiting hstate) hnext⟩
  · exact ⟨_, h.follows hstate⟩

/-- What an established party knows grows with what it gets. -/
theorem transfer (h : p.Knows peer) (hstate : p.state = .established) (hstate' : q.state = p.state)
    (hfollows : ∀ i, Follows p.reassembly p.heard peer i →
      ∃ j, Follows q.reassembly q.heard peer j)
    (hacked : q.sendBase ≤ q.firstByte ∨ peer.AttachedTo q.home ∧ q.sendBase ≤ peer.edge) :
    q.Knows peer where
  answering hreceived := absurd (hstate.symm.trans (hstate'.symm.trans hreceived)) (by simp)
  follows _ := by
    obtain ⟨i, hi⟩ := h.follows hstate
    exact hfollows i hi
  acked _ := hacked

/-- A piece of the stream arrives, and what has been got of the stream gets longer or stays. -/
theorem exists_follows_drain {packet : Packet} {r : Reassembly} {heard : Bytes} {i : Nat}
    (hpeer : peer.Sound) (hvouches : peer.Vouches packet) (hkind : packet.kind = .data)
    (hedge : r.edge ≤ packet.seq) (h : Follows r heard peer i) :
    ∃ j, Follows (r.add ⟨packet.seq, packet.payload⟩).drain.2
      (heard ++ (r.add ⟨packet.seq, packet.payload⟩).drain.1) peer j := by
  obtain ⟨-, acked, sent, hsends⟩ := hpeer.sends (hvouches.transfer (.inr hkind)).1.1
  obtain ⟨hscript, hnext⟩ := hvouches.data hkind
  obtain ⟨j, -, hfollows, -⟩ := h.receive hsends hscript hedge hnext
  exact ⟨j, hfollows⟩

/-- **Every move of a party keeps what it knows of its peer.** There are three kinds of moves: those
that begin a connection, those by which it gets something from the peer, and the others, which leave
what is known as it is. -/
theorem move {now : Nat} {input : Input} {r : Reaction} (hmove : Move now input p r q)
    (hp : p.Sound) (hpeer : peer.Sound)
    (hinput : ∀ packet, input = .packet packet → packet.source = peer.home →
      peer.Vouches packet ∧ packet.destination = p.home)
    (h : p.peer = some peer.home → p.Knows peer) (hq : q.peer = some peer.home) :
    q.Knows peer := by
  have hsource {packet : Packet} (hsome : some packet.source = some peer.home) :
      packet.source = peer.home := Option.some.inj hsome
  cases hmove with
  | idle | answer | acknowledge | retryOpening | retryAnswer => exact h hq
  | connect | listen => exact of_state (by simp) (by simp)
  | giveUp => exact of_state (by simp) (by simp)
  -- An opening tells where the stream of the peer starts, and nothing else yet.
  | @accept packet _ _ hkind =>
    obtain ⟨hvouches, -⟩ := hinput packet rfl (hsource hq)
    obtain ⟨hseq, hnext⟩ := hvouches.opening (.inl hkind)
    refine
      { answering := fun _ ↦ ⟨?_, hnext⟩, follows := fun hs ↦ absurd hs (by simp),
        acked := fun hs ↦ absurd hs (by simp) }
    show saturatingAdd packet.seq 1 = peer.firstByte
    rw [hseq]
    rfl
  | @opened packet _ _ hkind hstate hsome hack =>
    obtain ⟨hvouches, -⟩ := hinput packet rfl (hsource (hsome.symm.trans hq))
    obtain ⟨hseq, hnext⟩ := hvouches.opening (.inr hkind)
    have hblank : p.Blank := hp.blank (by simp [hstate])
    refine begin hblank ?_ rfl hnext rfl rfl (Nat.le_of_eq hack)
    show saturatingAdd packet.seq 1 = peer.firstByte
    rw [hseq]
    rfl
  | complete hkind hstate hsome hack =>
    obtain ⟨hedge, hnext⟩ := (h hq).answering hstate
    have hblank : p.Blank := hp.blank (by simp [hstate])
    exact begin hblank hedge (hp.waiting hstate) hnext rfl rfl (Nat.le_of_eq hack)
  -- An acknowledgement tells what the peer had got when it was sent. By now that is not less.
  | @acknowledged packet _ hkind hstate hsome =>
    obtain ⟨hvouches, hdestination⟩ := hinput packet rfl (hsource (hsome.symm.trans hq))
    obtain ⟨hattached, hack⟩ := hvouches.transfer (.inl hkind)
    rw [hdestination] at hattached
    exact (h hq).transfer hstate rfl (fun i hi ↦ ⟨i, hi⟩) (.inr ⟨hattached, hack⟩)
  -- Data is a piece of the stream of the peer, whether it completes something or waits.
  | @store packet _ _ hkind hstate hsome hseq hdrain =>
    obtain ⟨hvouches, -⟩ := hinput packet rfl (hsource (hsome.symm.trans hq))
    refine (h hq).transfer hstate rfl (fun i hi ↦ ?_) ((h hq).acked hstate)
    have hfollows := exists_follows_drain hpeer hvouches hkind hseq hi
    rw [hdrain, List.append_nil] at hfollows
    exact hfollows
  | @deliver packet _ bytes _ hkind hstate hsome hseq hdrain =>
    obtain ⟨hvouches, -⟩ := hinput packet rfl (hsource (hsome.symm.trans hq))
    refine (h hq).transfer hstate rfl (fun i hi ↦ ?_) ((h hq).acked hstate)
    rw [heard_ready p, ← hdrain]
    exact exists_follows_drain hpeer hvouches hkind hseq hi
  | hand hstate | send hstate =>
    exact (h hq).transfer hstate rfl (fun i hi ↦ ⟨i, hi⟩) ((h hq).acked hstate)
  | resend _ hmem =>
    have hstate : p.state = .established := hp.established_of_mem hmem
    exact (h hq).transfer hstate rfl (fun i hi ↦ ⟨i, hi⟩) ((h hq).acked hstate)
  | read hstate hready =>
    refine (h hq).transfer hstate rfl (fun i hi ↦ ⟨i, ?_⟩) ((h hq).acked hstate)
    rw [heard_read hready]
    exact hi

/-- Moves one after the other keep it. -/
theorem moves {now : Nat} {input : Input} {r : Reaction} (hmoves : Moves now input p r q)
    (hp : p.Sound) (hpeer : peer.Sound)
    (hinput : ∀ packet, input = .packet packet → packet.source = peer.home →
      peer.Vouches packet ∧ packet.destination = p.home)
    (h : p.peer = some peer.home → p.Knows peer) (hq : q.peer = some peer.home) :
    q.Knows peer := by
  induction hmoves with
  | none => exact h hq
  | @cons p mid _ _ _ first rest ih =>
    have hlater : p.Later mid := first.later hp
    have hinput' : ∀ packet, input = .packet packet → packet.source = peer.home →
        peer.Vouches packet ∧ packet.destination = mid.home := by
      rw [hlater.home_eq]
      exact hinput
    exact ih (hp.move first) hinput' (move first hp hpeer hinput h) hq

end Knows

end ReliableStream.Party
