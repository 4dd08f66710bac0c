import ReliableStream.Failure
import ReliableStream.Time

/-!
# The faults of a network

A network loses, duplicates and holds back packets at given rates, and delays every copy. `fault?`
names the first fault of a description that makes no sense; it passes exactly the `Valid` ones.
-/

namespace ReliableStream.Network

/-- How a network misbehaves. -/
structure Faults where
  /-- How often a packet is lost. -/
  loss : Binary64 := .ofRatio false 1 10
  /-- How often a copy is held back, so that later packets may overtake it. -/
  reorder : Binary64 := .ofRatio false 5 100
  /-- How often a packet is delivered twice. -/
  duplicate : Binary64 := .ofRatio false 2 100
  /-- The smallest delay of a copy. -/
  minDelay : Nat := 100 * Time.millisecond
  /-- The largest delay of a copy. -/
  maxDelay : Nat := 500 * Time.millisecond
  /-- The smallest extra delay of a copy that is held back. -/
  minExtra : Nat := 200 * Time.millisecond
  /-- The largest extra delay of a copy that is held back. -/
  maxExtra : Nat := 800 * Time.millisecond
  deriving DecidableEq

namespace Faults

/-- A network that only delays. -/
def perfect : Faults where
  loss := .zero
  reorder := .zero
  duplicate := .zero

/-- Equality of the values described, where the two zeros are equal and not-a-number is not equal to
itself. -/
def equals (f g : Faults) : Bool :=
  f.loss.equals g.loss && f.reorder.equals g.reorder && f.duplicate.equals g.duplicate &&
    f.minDelay = g.minDelay && f.maxDelay = g.maxDelay && f.minExtra = g.minExtra &&
    f.maxExtra = g.maxExtra

/-- Faults that a network can have: rates are probabilities and ranges are not empty. -/
structure Valid (f : Faults) : Prop where
  /-- The loss rate is a probability. -/
  loss : f.loss.isProbability
  /-- The reorder rate is a probability. -/
  reorder : f.reorder.isProbability
  /-- The duplication rate is a probability. -/
  duplicate : f.duplicate.isProbability
  /-- The range of delays is not empty. -/
  delays : f.minDelay ≤ f.maxDelay
  /-- The range of extra delays is not empty. -/
  extraDelays : f.minExtra ≤ f.maxExtra

/-- The first fault of a description, if there is one. -/
def fault? (f : Faults) : Option Misconfiguration :=
  if !f.loss.isProbability then some (.rate .loss f.loss)
  else if !f.reorder.isProbability then some (.rate .reorder f.reorder)
  else if !f.duplicate.isProbability then some (.rate .duplicate f.duplicate)
  else if f.maxDelay < f.minDelay then some .delays
  else if f.maxExtra < f.minExtra then some .extraDelays
  else none

/-- **The check passes exactly the faults that make sense**: three probabilities, and two ranges
that are not turned around. -/
theorem fault?_eq_none_iff (f : Faults) : f.fault? = none ↔ f.Valid := by
  rw [fault?]
  refine ⟨fun h ↦ ?_, fun ⟨hl, hr, hd, hm, he⟩ ↦ by
    simp [hl, hr, hd, Nat.not_lt.2 hm, Nat.not_lt.2 he]⟩
  repeat' split at h
  all_goals simp_all
  next hl hr hd hm he => exact ⟨hl, hr, hd, hm, he⟩

end Faults

end ReliableStream.Network
