import Mathlib.Tactic.Common
import ReliableStream.Network.Basic

/-!
# How late a packet can be, and how early

A copy takes its delay, and the extra delay if it is held back. Neither is larger than the faults
of the network allow, so whatever is drawn a copy arrives within `faults.latest`, and not before
`faults.minDelay` have passed. A network that
loses nothing delivers at least one copy of every packet (`Network.exists_delivery`).

Both bounds come from one fact about a copy (`Transit.Keeps`): the delays that are drawn for it are
in their ranges, and none is held back by a network that holds nothing back. The draws themselves
are not looked at again, so what is proved holds of every source of chance.
-/

namespace ReliableStream

/-- Whether an event tells the fate of a packet. -/
def Trace.Event.isFate : Trace.Event → Bool
  | .packetLost .. | .packetDuplicated .. | .packetReordered .. => true
  | .registered | .established _ | .handshakeFailed | .segmentSent .. | .segmentResent .. |
    .ackReceived .. | .bytesDelivered _ | .undeliverable _ => false

namespace Network

/-- How long a copy may take. -/
def Faults.latest (f : Faults) : Nat :=
  if f.reorder.isZero then f.maxDelay else f.maxDelay + f.maxExtra

/-- How long a copy takes, all in all. -/
def Transit.total (t : Transit) : Nat := t.delay + t.extra.getD 0

/-- A copy arrives after as long as it takes, if it does in time. -/
theorem Transit.eq_add_total {now time : Nat} {t : Transit} (h : t.arrival now = .ok time) :
    time = now + t.total := by
  obtain ⟨due, hdue, h⟩ := Checked.bind_eq_ok_iff.1 h
  obtain ⟨-, rfl⟩ := addWithin_eq_ok_iff.1 hdue
  rw [total]
  split at h
  · next hextra =>
    obtain rfl := Checked.pure_eq_ok_iff.1 h
    rw [hextra, Option.getD_none, Nat.add_zero]
  · next extra hextra =>
    obtain ⟨-, rfl⟩ := addWithin_eq_ok_iff.1 h
    rw [hextra, Option.getD_some, Nat.add_assoc]

/-- A copy takes as long as the faults allow. -/
structure Transit.Keeps (faults : Faults) (t : Transit) : Prop where
  /-- Its delay is not too small. -/
  le_delay : faults.minDelay ≤ t.delay
  /-- It is not too large. -/
  delay_le : t.delay ≤ faults.maxDelay
  /-- Nor is the extra delay of a copy that is held back. -/
  extra : ∀ extra, t.extra = some extra → faults.minExtra ≤ extra ∧ extra ≤ faults.maxExtra
  /-- None is held back if nothing ever is. -/
  extra_eq : faults.reorder.isZero → t.extra = none

/-- A copy takes no longer than the faults allow, the extra delay of one that is held back included.
-/
theorem Transit.Keeps.total_le {faults : Faults} {t : Transit} (h : t.Keeps faults) :
    t.total ≤ faults.latest := by
  have hdelay := h.delay_le
  rw [total, Faults.latest]
  cases hextra : t.extra with
  | none =>
    dsimp only [Option.getD_none]
    split <;> omega
  | some extra =>
    have hle := (h.extra extra hextra).2
    have hreorder : ¬ faults.reorder.isZero := fun hzero ↦ by simp [h.extra_eq hzero] at hextra
    dsimp only [Option.getD_some]
    rw [if_neg hreorder]
    omega

/-- Nor does it take less than the shortest delay, since being held back only adds to it. -/
theorem Transit.Keeps.le_total {faults : Faults} {t : Transit} (h : t.Keeps faults) :
    faults.minDelay ≤ t.total := Nat.le_add_right_of_le h.le_delay

section Draws

variable {σ : Type} [DrawSource σ] {faults : Faults}

/-- Whatever is drawn, a copy takes as long as it may: each delay is drawn from its range. -/
theorem Transit.keeps_draw (h : faults.Valid) (source : σ) :
    (Transit.draw faults source).1.Keeps faults := by
  rw [Transit.draw]
  have hle := DrawSource.le_between faults.minDelay faults.maxDelay source
  have hle' := DrawSource.between_le h.delays source
  generalize DrawSource.between faults.minDelay faults.maxDelay source = first at hle hle' ⊢
  obtain ⟨delay, rest⟩ := first
  dsimp only at hle hle' ⊢
  split
  · exact ⟨hle, hle', nofun, fun _ ↦ rfl⟩
  · next rest' hchance =>
    refine ⟨hle, hle', fun extra hextra ↦ ?_, fun hzero ↦ ?_⟩
    · obtain rfl := Option.some.inj hextra
      exact ⟨DrawSource.le_between .., DrawSource.between_le h.extraDelays _⟩
    · have hnever := DrawSource.chance_of_isZero hzero rest
      rw [hchance] at hnever
      exact absurd hnever (by simp)

/-- How long a copy takes is drawn for it alone, after whatever was drawn before. -/
theorem Fate.exists_draw {source : σ} {copy : Transit}
    (hcopy : copy ∈ (Fate.draw faults source).1.copies) :
    ∃ source' : σ, copy = (Transit.draw faults source').1 := by
  rw [Fate.draw] at hcopy
  split at hcopy
  · exact absurd hcopy List.not_mem_nil
  · split at hcopy
    · exact ⟨_, List.mem_singleton.1 hcopy⟩
    · rcases List.mem_cons.1 hcopy with hfirst | hsecond
      · exact ⟨_, hfirst⟩
      · exact ⟨_, List.mem_singleton.1 hsecond⟩

/-- So every copy of a packet takes as long as it may, whatever its fate. -/
theorem Fate.keeps_of_mem (h : faults.Valid) {source : σ} {copy : Transit}
    (hcopy : copy ∈ (Fate.draw faults source).1.copies) : copy.Keeps faults := by
  obtain ⟨source', rfl⟩ := Fate.exists_draw hcopy
  exact Transit.keeps_draw h source'

/-- If nothing is lost then something arrives. -/
theorem Fate.copies_ne_nil (hloss : faults.loss.isZero) (source : σ) :
    (Fate.draw faults source).1.copies ≠ [] := by
  have hnever := DrawSource.chance_of_isZero hloss source
  rw [Fate.draw]
  split
  · next hchance =>
    rw [hchance] at hnever
    exact absurd hnever (by simp)
  · split <;> exact List.cons_ne_nil _ _

variable {now : Nat} {packet : Packet} {n : Network σ} {sent : Sent σ}

theorem faults_of_send (h : n.send now packet = .ok sent) : sent.network.faults = n.faults := by
  obtain ⟨deliveries, -, h⟩ := Checked.bind_eq_ok_iff.1 h
  obtain rfl := Checked.pure_eq_ok_iff.1 h
  rfl

/-- The trace tells the fate of the packet, and nothing else. -/
theorem isFate_of_send (h : n.send now packet = .ok sent) :
    ∀ event ∈ sent.traces, event.isFate = true := by
  obtain ⟨deliveries, -, h⟩ := Checked.bind_eq_ok_iff.1 h
  obtain rfl := Checked.pure_eq_ok_iff.1 h
  intro event hevent
  have hheld {l : List Transit} (hmem : event ∈ l.map fun _ ↦
      Trace.Event.packetReordered packet.kind packet.seq) : event.isFate = true := by
    obtain ⟨_, -, rfl⟩ := List.mem_map.1 hmem
    rfl
  dsimp only [Fate.events] at hevent
  split at hevent
  · obtain rfl := List.mem_singleton.1 hevent
    rfl
  · exact hheld hevent
  · rcases List.mem_cons.1 hevent with rfl | hmem
    · rfl
    · exact hheld hmem

/-- A copy arrives after as long as it takes, and that is as long as it may. -/
theorem exists_keeps_of_send (h : n.send now packet = .ok sent) :
    ∀ delivery ∈ sent.deliveries, ∃ copy : Transit, copy.Keeps n.faults ∧
      delivery.time = now + copy.total := by
  obtain ⟨deliveries, hdeliveries, h⟩ := Checked.bind_eq_ok_iff.1 h
  obtain rfl := Checked.pure_eq_ok_iff.1 h
  intro delivery hmem
  obtain ⟨copy, hcopy, hdone⟩ := Checked.exists_of_mem_mapM hdeliveries hmem
  obtain ⟨time, htime, hpure⟩ := Checked.bind_eq_ok_iff.1 hdone
  obtain rfl := Checked.pure_eq_ok_iff.1 hpure
  exact ⟨copy, Fate.keeps_of_mem n.valid hcopy, Transit.eq_add_total htime⟩

/-- No copy arrives later than it may. -/
theorem time_le_of_send (h : n.send now packet = .ok sent) :
    ∀ delivery ∈ sent.deliveries, delivery.time ≤ now + n.faults.latest := by
  intro delivery hmem
  obtain ⟨copy, hkeeps, htime⟩ := exists_keeps_of_send h delivery hmem
  exact htime ▸ Nat.add_le_add_left hkeeps.total_le now

/-- No copy arrives earlier than it may. -/
theorem le_time_of_send (h : n.send now packet = .ok sent) :
    ∀ delivery ∈ sent.deliveries, now + n.faults.minDelay ≤ delivery.time := by
  intro delivery hmem
  obtain ⟨copy, hkeeps, htime⟩ := exists_keeps_of_send h delivery hmem
  exact htime ▸ Nat.add_le_add_left hkeeps.le_total now

/-- **A network that loses nothing delivers every packet**, at least once. -/
theorem exists_delivery (h : n.send now packet = .ok sent) (hloss : n.faults.loss.isZero) :
    ∃ delivery ∈ sent.deliveries, delivery.packet = packet := by
  have hpackets := (send_eq_ok h).2
  obtain ⟨deliveries, hdeliveries, h⟩ := Checked.bind_eq_ok_iff.1 h
  obtain rfl := Checked.pure_eq_ok_iff.1 h
  have hne : deliveries ≠ [] := by
    rw [← List.length_pos_iff, Checked.length_of_mapM hdeliveries, List.length_pos_iff]
    exact Fate.copies_ne_nil hloss _
  obtain ⟨delivery, hmem⟩ := List.exists_mem_of_ne_nil _ hne
  exact ⟨delivery, hmem, (hpackets delivery hmem).1⟩

end Draws

end Network

end ReliableStream
