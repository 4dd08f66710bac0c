import ReliableStream.Proofs.Party.Once

/-!
# Nothing is left unwatched

Alarms are not cancelled, so those that are set for a party include old ones that will ring for
nothing. `Watched p alarms` says that nevertheless the right ones are among them: each segment in
flight has its alarm, of its current generation and due when it has to be sent again, and an
unfinished handshake has one alarm for its next retry and one for its deadline. And there are no
others for the same segment or handshake.

It is about the alarms in any order (`Watched.perm`). A move that is not caused by an alarm only
adds those that it sets (`Watched.move`). When an alarm rings it is gone, and what it causes has to
make up for it (`Watched.ring`): if the alarm is a current one, the segment or the handshake packet
is sent again and gets the next alarm, or the handshake is given up.

The statement is about filters of the list of alarms, which are lists of one element: that tells
both that an alarm is there and that there is no second one.
-/

namespace ReliableStream

namespace Alarm

/-- When the alarm rings if it is set now, and what it watches. -/
def due (now : Nat) (alarm : Alarm) : Nat × Watch := (saturatingAdd now alarm.delay, alarm.watch)

/-- Whether this is a segment at a given place. -/
def Watch.ofSegment (seq : Nat) : Watch → Bool
  | .segment seq' _ => seq' = seq
  | .handshakeRetry _ | .handshakeDeadline _ => false

/-- Whether this is a handshake packet. -/
def Watch.isRetry : Watch → Bool
  | .handshakeRetry _ => true
  | .segment .. | .handshakeDeadline _ => false

/-- Whether this is the end of a handshake. -/
def Watch.isDeadline : Watch → Bool
  | .handshakeDeadline _ => true
  | .segment .. | .handshakeRetry _ => false

end Alarm

namespace Party

/-- The alarms that are set for a party are those it needs. -/
structure Watched (p : Party) (alarms : List (Nat × Alarm.Watch)) : Prop where
  /-- A segment in flight has one alarm, for its latest sending. -/
  segment : ∀ s ∈ p.inFlight.toList, alarms.filter (·.2.ofSegment s.seq) =
    [(saturatingAdd s.sentAt p.settings.rto, .segment s.seq s.resends)]
  /-- No alarm watches a segment that was not sent yet. -/
  sent : ∀ {time seq generation}, (time, .segment seq generation) ∈ alarms →
    p.state = .established ∧ seq < p.sendNext
  /-- During a handshake there is one alarm for its next retry. -/
  retry : p.state = .synSent ∨ p.state = .synReceived →
    ∃ time, alarms.filter (·.2.isRetry) = [(time, .handshakeRetry p.attempt)]
  /-- And one for its end. -/
  deadline : p.state = .synSent ∨ p.state = .synReceived →
    ∃ time, alarms.filter (·.2.isDeadline) = [(time, .handshakeDeadline p.attempt)]
  /-- Before the first handshake there are none of these. -/
  unopened : p.attempt = 0 → ∀ alarm ∈ alarms, alarm.2.isRetry = false ∧ alarm.2.isDeadline = false

/-! ### The one element that satisfies a condition -/

section OneElement

variable {α : Type} {P : α → Bool} {x y : α} {l : List α}

/-- If another element is the one that satisfies a condition, it still is without the first. -/
theorem filter_of_cons_ne (h : (x :: l).filter P = [y]) (hne : x ≠ y) : l.filter P = [y] := by
  rw [List.filter_cons] at h
  split at h
  · exact absurd (List.cons.inj h).1 hne
  · exact h

/-- If the first element satisfies a condition and one element does, it is that one. -/
theorem filter_of_cons (h : (x :: l).filter P = [y]) (hx : P x = true) :
    x = y ∧ l.filter P = [] := by
  rw [List.filter_cons_of_pos hx] at h
  exact List.cons.inj h

end OneElement

namespace Watched

variable {now time : Nat} {input : Input} {p q : Party} {r : Reaction} {watch : Alarm.Watch}
  {alarms alarms' : List (Nat × Alarm.Watch)}

theorem create {home : Endpoint} {settings : Connection.Settings} {valid : settings.Valid}
    {isn : Nat} : (create home settings valid isn).Watched [] where
  segment _ hs := absurd hs List.not_mem_nil
  sent h := absurd h List.not_mem_nil
  retry h := by rcases h with h | h <;> exact absurd h (by simp [Party.create])
  deadline h := by rcases h with h | h <;> exact absurd h (by simp [Party.create])
  unopened _ _ h := absurd h List.not_mem_nil

/-- The order of the alarms does not matter, as none of the conditions looks at it. -/
theorem perm (h : p.Watched alarms) (hperm : alarms.Perm alarms') : p.Watched alarms' := by
  have hone {P : Nat × Alarm.Watch → Bool} {x : Nat × Alarm.Watch} (hx : alarms.filter P = [x]) :
      alarms'.filter P = [x] := by
    have hfilter := hperm.filter P
    rw [hx] at hfilter
    exact hfilter.symm.eq_singleton
  exact
    { segment := fun s hs ↦ hone (h.segment s hs)
      sent := fun hmem ↦ h.sent (hperm.mem_iff.2 hmem)
      retry := fun hstate ↦ (h.retry hstate).imp fun _ ↦ hone
      deadline := fun hstate ↦ (h.deadline hstate).imp fun _ ↦ hone
      unopened := fun hattempt alarm hmem ↦ h.unopened hattempt alarm (hperm.mem_iff.2 hmem) }

/-- A party that had no handshake so far has no alarms. -/
theorem eq_nil (h : p.Watched alarms) (hattempt : p.attempt = 0)
    (hstate : p.state ≠ .established) : alarms = [] := by
  refine List.eq_nil_iff_forall_not_mem.2 fun ⟨time, watch⟩ hmem ↦ ?_
  obtain ⟨hretry, hdeadline⟩ := h.unopened hattempt _ hmem
  cases watch with
  | segment => exact hstate (h.sent hmem).1
  | handshakeRetry => exact absurd hretry (by simp [Alarm.Watch.isRetry])
  | handshakeDeadline => exact absurd hdeadline (by simp [Alarm.Watch.isDeadline])

/-- A party that needs no other alarms needs no other alarms. -/
theorem quiet (h : p.Watched alarms) (hflight : ∀ s ∈ q.inFlight.toList, s ∈ p.inFlight.toList)
    (hsettings : q.settings = p.settings) (hnext : p.sendNext ≤ q.sendNext)
    (hattempt : q.attempt = p.attempt) (hstate : p.state = .established → q.state = .established)
    (hopening : q.state = .synSent ∨ q.state = .synReceived → q.state = p.state) :
    q.Watched alarms where
  segment s hs := by
    rw [hsettings]
    exact h.segment s (hflight s hs)
  sent hmem := ⟨hstate (h.sent hmem).1, Nat.lt_of_lt_of_le (h.sent hmem).2 hnext⟩
  retry hq := by
    rw [hattempt]
    exact h.retry (hopening hq ▸ hq)
  deadline hq := by
    rw [hattempt]
    exact h.deadline (hopening hq ▸ hq)
  unopened hq := h.unopened (hattempt.symm.trans hq)

/-- An alarm that nobody needs may be gone. -/
theorem drop (h : p.Watched ((time, watch) :: alarms))
    (hsegment : ∀ s ∈ p.inFlight.toList, watch ≠ .segment s.seq s.resends)
    (hretry : p.state = .synSent ∨ p.state = .synReceived → watch ≠ .handshakeRetry p.attempt)
    (hdeadline : p.state = .synSent ∨ p.state = .synReceived →
      watch ≠ .handshakeDeadline p.attempt) :
    p.Watched alarms where
  segment s hs := filter_of_cons_ne (h.segment s hs) fun heq ↦
    hsegment s hs (congrArg Prod.snd heq)
  sent hmem := h.sent (List.mem_cons_of_mem _ hmem)
  retry hstate := (h.retry hstate).imp fun _ hone ↦ filter_of_cons_ne hone fun heq ↦
    hretry hstate (congrArg Prod.snd heq)
  deadline hstate := (h.deadline hstate).imp fun _ hone ↦ filter_of_cons_ne hone fun heq ↦
    hdeadline hstate (congrArg Prod.snd heq)
  unopened hattempt alarm hmem := h.unopened hattempt alarm (List.mem_cons_of_mem _ hmem)

/-! ### Moves that set alarms -/

/-- The first handshake sets its two alarms. Before it there were none. -/
theorem begin (h : p.Watched alarms) (hp : p.Sound) (hstate : p.state ≠ .established)
    (hattempt : p.attempt = 0) (hflight : q.inFlight = p.inFlight)
    (hnext : q.attempt = p.attempt + 1) (retry deadline : Nat) :
    q.Watched ((retry, .handshakeRetry (p.attempt + 1)) ::
      (deadline, .handshakeDeadline (p.attempt + 1)) :: alarms) where
  segment s hs := by
    rw [hflight, (hp.blank hstate).inFlight_eq] at hs
    exact absurd hs List.not_mem_nil
  sent hmem := by
    have hold := h.sent (by simpa using hmem)
    exact absurd hold.1 hstate
  retry _ := by
    have hnone : alarms.filter (·.2.isRetry) = [] := List.filter_eq_nil_iff.2 fun alarm hmem ↦ by
      simp [(h.unopened hattempt alarm hmem).1]
    refine ⟨retry, ?_⟩
    rw [List.filter_cons_of_pos rfl, List.filter_cons_of_neg (by simp [Alarm.Watch.isRetry]), hnone,
      hnext]
  deadline _ := by
    have hnone : alarms.filter (·.2.isDeadline) = [] := List.filter_eq_nil_iff.2 fun alarm hmem ↦ by
      simp [(h.unopened hattempt alarm hmem).2]
    refine ⟨deadline, ?_⟩
    rw [List.filter_cons_of_neg (by simp [Alarm.Watch.isDeadline]), List.filter_cons_of_pos rfl,
      hnone, hnext]
  unopened hq := by omega

/-- A segment that is sent for the first time gets its first alarm. -/
theorem send (h : p.Watched alarms) {chunk : Bytes} (hpos : 0 < chunk.length)
    (hflight : q.inFlight = p.inFlight.insert ⟨p.sendNext, chunk, now, 0⟩)
    (hsettings : q.settings = p.settings) (hnext : q.sendNext = p.sendNext + chunk.length)
    (hattempt : q.attempt = p.attempt) (hstate' : q.state = .established) :
    q.Watched ((saturatingAdd now p.settings.rto, .segment p.sendNext 0) :: alarms) where
  segment s hs := by
    rw [hflight] at hs
    rw [hsettings]
    rcases (Ascending.mem_place p.inFlight.ordered).1 hs with rfl | ⟨hold, hne⟩
    · -- The place is new, so no alarm can watch it yet.
      have hnone : alarms.filter (·.2.ofSegment p.sendNext) = [] :=
        List.filter_eq_nil_iff.2 fun ⟨time, watch⟩ hmem ↦ by
          cases watch with
          | segment seq generation =>
            have hlt := (h.sent hmem).2
            simpa [Alarm.Watch.ofSegment] using Nat.ne_of_lt hlt
          | handshakeRetry | handshakeDeadline => simp [Alarm.Watch.ofSegment]
      rw [List.filter_cons_of_pos (by simp [Alarm.Watch.ofSegment]), hnone]
    · rw [List.filter_cons_of_neg (by simpa [Alarm.Watch.ofSegment] using Ne.symm hne)]
      exact h.segment s hold
  sent hmem := by
    rcases List.mem_cons.1 hmem with heq | hold
    · cases heq
      exact ⟨hstate', by omega⟩
    · have hlt := (h.sent hold).2
      exact ⟨hstate', by omega⟩
  retry hq := by rw [hstate'] at hq; rcases hq with hq | hq <;> exact absurd hq (by simp)
  deadline hq := by rw [hstate'] at hq; rcases hq with hq | hq <;> exact absurd hq (by simp)
  unopened hq alarm hmem := by
    rcases List.mem_cons.1 hmem with rfl | hold
    · exact ⟨rfl, rfl⟩
    · exact h.unopened (hattempt.symm.trans hq) alarm hold

/-- **A move that is not caused by an alarm** adds the alarms that it sets. -/
theorem move (h : p.Watched alarms) (hp : p.Sound) (honce : p.Once input)
    (hmove : Move now input p r q) (hinput : ∀ watch, input ≠ .alarm watch) :
    q.Watched (r.alarms.map (Alarm.due now) ++ alarms) := by
  cases hmove with
  | idle | answer | acknowledge => exact h
  | connect hstate =>
    refine h.begin hp (by simp [hstate]) (honce.fresh rfl hstate).attempt_eq ?_ ?_ _ _ <;> rfl
  | accept _ hstate =>
    refine h.begin hp (by simp [hstate]) (honce.waits hstate).1 ?_ ?_ _ _ <;> rfl
  | listen hstate =>
    exact h.quiet (fun _ hs ↦ hs) rfl (Nat.le_refl _) rfl
      (fun hs ↦ absurd (hstate.symm.trans hs) (by simp)) (fun hq ↦ by simp at hq)
  | opened | complete =>
    exact h.quiet (fun _ hs ↦ hs) rfl (Nat.le_refl _) rfl (fun _ ↦ rfl) (fun hq ↦ by simp at hq)
  | acknowledged =>
    exact h.quiet (fun _ hs ↦ (InFlight.mem_acknowledge_snd.1 hs).1) rfl (Nat.le_refl _) rfl id
      (fun _ ↦ rfl)
  | store | deliver | hand | read =>
    exact h.quiet (fun _ hs ↦ hs) rfl (Nat.le_refl _) rfl id (fun _ ↦ rfl)
  | send hstate _ hpending =>
    obtain ⟨-, acked, sent, hsends⟩ := hp.sends hstate
    -- A piece has some bytes, so the next byte moves on and the place is this segment's alone.
    have hpos := (length_of_mem_pieces (List.mem_of_getElem? (hsends.next_piece hpending).1)).1
    exact h.send hpos rfl rfl rfl rfl hstate
  | resend | retryOpening | retryAnswer | giveUp => exact absurd rfl (hinput _)

theorem moves (h : p.Watched alarms) (hp : p.Sound) (honce : p.Once input)
    (hmoves : Moves now input p r q) (hinput : ∀ watch, input ≠ .alarm watch) :
    q.Watched (r.alarms.map (Alarm.due now) ++ alarms) := by
  induction hmoves generalizing alarms with
  | none => exact h
  | cons first _ ih =>
    have hrest := ih (h.move hp honce first hinput) (hp.move first) (honce.move first)
    rw [Reaction.alarms_append, List.map_append, List.append_assoc]
    refine hrest.perm ?_
    rw [← List.append_assoc, ← List.append_assoc]
    exact List.perm_append_comm.append_right alarms

/-! ### Alarms that ring -/

/-- A segment in flight is sent again, and gets its next alarm. -/
theorem resend {segment : Segment}
    (h : p.Watched ((time, .segment segment.seq segment.resends) :: alarms)) (hp : p.Sound)
    (hmem : segment ∈ p.inFlight.toList) (hstate : q.state = p.state)
    (hflight : q.inFlight =
      p.inFlight.insert ⟨segment.seq, segment.payload, now, segment.resends + 1⟩)
    (hsettings : q.settings = p.settings) (hnext : q.sendNext = p.sendNext)
    (hattempt : q.attempt = p.attempt) :
    q.Watched ((saturatingAdd now p.settings.rto, .segment segment.seq (segment.resends + 1)) ::
      alarms) := by
  have hestablished : p.state = .established := hp.established_of_mem hmem
  have hq : q.state = .established := hstate.trans hestablished
  obtain ⟨-, acked, sent, hsends⟩ := hp.sends hestablished
  exact
    { segment := fun s hs ↦ by
        rw [hflight] at hs
        rw [hsettings]
        rcases (Ascending.mem_place p.inFlight.ordered).1 hs with rfl | ⟨hold, hne⟩
        · -- The alarm that rang was the only one for the segment.
          have hnone :=
            (filter_of_cons (h.segment segment hmem) (by simp [Alarm.Watch.ofSegment])).2
          rw [List.filter_cons_of_pos (by simp [Alarm.Watch.ofSegment]), hnone]
        · have hother : segment.seq ≠ s.seq := Ne.symm hne
          have hone := h.segment s hold
          rw [List.filter_cons_of_neg (by simpa [Alarm.Watch.ofSegment] using hother)] at hone ⊢
          exact hone
      sent := fun hmem' ↦ by
        rw [hnext]
        rcases List.mem_cons.1 hmem' with heq | hold
        · cases heq
          exact ⟨hq, hsends.seq_lt_next hmem⟩
        · exact ⟨hq, (h.sent (List.mem_cons_of_mem _ hold)).2⟩
      retry := fun hs ↦ by rw [hq] at hs; rcases hs with hs | hs <;> exact absurd hs (by simp)
      deadline := fun hs ↦ by rw [hq] at hs; rcases hs with hs | hs <;> exact absurd hs (by simp)
      unopened := fun hs alarm hmem' ↦ by
        rcases List.mem_cons.1 hmem' with rfl | hold
        · exact ⟨rfl, rfl⟩
        · exact h.unopened (hattempt.symm.trans hs) alarm (List.mem_cons_of_mem _ hold) }

/-- A handshake packet is sent again, and gets its next alarm. -/
theorem retryAgain (h : p.Watched ((time, .handshakeRetry p.attempt) :: alarms)) (hp : p.Sound)
    (hstate : p.state = .synSent ∨ p.state = .synReceived) (next : Nat) :
    p.Watched ((next, .handshakeRetry p.attempt) :: alarms) := by
  have hne : p.state ≠ .established := by rcases hstate with hs | hs <;> simp [hs]
  exact
    { segment := fun s hs ↦ by
        rw [(hp.blank hne).inFlight_eq] at hs
        exact absurd hs List.not_mem_nil
      sent := fun hmem ↦ by
        have hold := h.sent (List.mem_cons_of_mem _ (by simpa using hmem))
        exact absurd hold.1 hne
      retry := fun _ ↦ by
        obtain ⟨_, hone⟩ := h.retry hstate
        -- The retry that rang was the only one, and so the next one is.
        have hnone := (filter_of_cons hone rfl).2
        refine ⟨next, ?_⟩
        rw [List.filter_cons_of_pos rfl, hnone]
      deadline := fun _ ↦ by
        obtain ⟨end', hone⟩ := h.deadline hstate
        refine ⟨end', ?_⟩
        rw [List.filter_cons_of_neg (by simp [Alarm.Watch.isDeadline])] at hone ⊢
        exact hone
      unopened := fun hattempt ↦ by
        have hnot := (h.unopened hattempt _ (List.mem_cons_self ..)).1
        exact absurd hnot (by simp [Alarm.Watch.isRetry]) }

/-- The alarm of a segment rings. If the segment is in flight, in the same generation, it is sent
again and gets its next alarm. Otherwise no segment needed the alarm that is gone. -/
theorem ring_segment {seq generation : Nat}
    (h : p.Watched ((time, .segment seq generation) :: alarms))
    (hp : p.Sound) {c : Connection} (hring : p.onAlarm now (.segment seq generation) = .ok (c, r)) :
    ({ p with toConnection := c } : Party).Watched (r.alarms.map (Alarm.due now) ++ alarms) := by
  obtain ⟨⟨c', effects⟩, halarm, hpure⟩ := Checked.bind_eq_ok_iff.1 hring
  obtain ⟨rfl, rfl⟩ := Checked.pure_prod_eq_ok hpure
  -- Without a peer nothing is in flight.
  rw [Connection.onSegmentAlarm] at halarm
  split at halarm
  · next hpeer =>
    obtain ⟨rfl, rfl⟩ := Checked.pure_prod_eq_ok halarm
    refine h.drop (fun s hs ↦ ?_) (fun _ ↦ by simp) (fun _ ↦ by simp)
    obtain ⟨⟨peer, hsome⟩, -⟩ := hp.sends (hp.established_of_mem hs)
    exact absurd (hpeer.symm.trans hsome) (by simp)
  · obtain ⟨resent, hresend, hrest⟩ := Checked.bind_eq_ok_iff.1 halarm
    split at hrest
    · obtain ⟨rfl, rfl⟩ := Checked.pure_prod_eq_ok hrest
      refine h.drop (fun s hs heq ↦ ?_) (fun _ ↦ by simp) (fun _ ↦ by simp)
      obtain ⟨rfl, rfl⟩ := Alarm.Watch.segment.inj heq
      exact InFlight.resend?_eq_none_iff.1 hresend s hs rfl rfl
    · obtain ⟨segment, hmem, rfl, rfl, hle, rfl, rfl⟩ := InFlight.resend?_eq_some hresend
      obtain ⟨rfl, rfl⟩ := Checked.pure_prod_eq_ok hrest
      exact h.resend hp hmem rfl rfl rfl rfl rfl

/-- The alarm of a handshake packet rings. If it is for the present handshake, which is not done,
the packet is sent again and gets its next alarm. -/
theorem ring_retry {attempt : Nat} (h : p.Watched ((time, .handshakeRetry attempt) :: alarms))
    (hp : p.Sound) {c : Connection} (hring : p.onAlarm now (.handshakeRetry attempt) = .ok (c, r)) :
    ({ p with toConnection := c } : Party).Watched (r.alarms.map (Alarm.due now) ++ alarms) := by
  obtain ⟨rfl, rfl⟩ := Checked.pure_prod_eq_ok hring
  show p.Watched _
  rw [Connection.onRetry]
  split
  · next hattempt =>
    subst hattempt
    split
    · next hstate => exact h.retryAgain hp (.inl hstate) _
    · next hstate => exact h.retryAgain hp (.inr hstate) _
    · next hsent hreceived =>
      exact h.drop (fun _ _ ↦ by simp)
        (fun hs ↦ by rcases hs with hs | hs <;> contradiction) (fun _ ↦ by simp)
  · next hattempt =>
    exact h.drop (fun _ _ ↦ by simp) (fun _ heq ↦ hattempt (Alarm.Watch.handshakeRetry.inj heq))
      (fun _ ↦ by simp)

/-- The deadline of a handshake rings. If it is the present one, the party gives up, and needs none
of its alarms any more. -/
theorem ring_deadline {attempt : Nat} (h : p.Watched ((time, .handshakeDeadline attempt) :: alarms))
    (hp : p.Sound) {c : Connection}
    (hring : p.onAlarm now (.handshakeDeadline attempt) = .ok (c, r)) :
    ({ p with toConnection := c } : Party).Watched (r.alarms.map (Alarm.due now) ++ alarms) := by
  rw [Connection.onAlarm, Checked.pure_eq_ok_iff, Connection.onDeadline] at hring
  split at hring
  · next hcurrent =>
    obtain ⟨rfl, hstate⟩ := hcurrent
    obtain ⟨rfl, rfl⟩ := Prod.mk.inj hring
    have hne : p.state ≠ .established := by rcases hstate with hs | hs <;> simp [hs]
    exact
      { segment := fun s hs ↦ absurd ((hp.blank hne).inFlight_eq ▸ hs) List.not_mem_nil
        sent := fun hmem ↦ absurd (h.sent (List.mem_cons_of_mem _ hmem)).1 hne
        retry := fun hs ↦ by rcases hs with hs | hs <;> exact absurd hs (by simp)
        deadline := fun hs ↦ by rcases hs with hs | hs <;> exact absurd hs (by simp)
        unopened := fun hattempt alarm hmem ↦
          h.unopened hattempt alarm (List.mem_cons_of_mem _ hmem) }
  · next hstale =>
    obtain ⟨rfl, rfl⟩ := Prod.mk.inj hring
    refine h.drop (fun _ _ ↦ by simp) (fun _ ↦ by simp) (fun hs heq ↦ ?_)
    exact hstale ⟨Alarm.Watch.handshakeDeadline.inj heq, hs⟩

/-- **An alarm rings**, and is gone. What it causes makes up for it. -/
theorem ring (h : p.Watched ((time, watch) :: alarms)) (hp : p.Sound) {c : Connection}
    (hring : p.onAlarm now watch = .ok (c, r)) :
    ({ p with toConnection := c } : Party).Watched (r.alarms.map (Alarm.due now) ++ alarms) := by
  cases watch with
  | segment seq generation => exact h.ring_segment hp hring
  | handshakeRetry attempt => exact h.ring_retry hp hring
  | handshakeDeadline attempt => exact h.ring_deadline hp hring

end Watched

end Party

end ReliableStream
