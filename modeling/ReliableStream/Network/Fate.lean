import ReliableStream.Draws.Source
import ReliableStream.Network.Faults

/-!
# The fate of a packet

What a network does to a packet is drawn before the packet is looked at: a fate is a function of
the faults and of the draws alone. First it is decided whether the packet is lost, and if not
whether it is duplicated; then each copy draws its delay, and whether it is held back for an extra
delay.
-/

namespace ReliableStream.Network

/-- How long a copy takes. -/
structure Transit where
  /-- The delay of any copy. -/
  delay : Nat
  /-- The extra delay of a copy that is held back. -/
  extra : Option Nat
  deriving DecidableEq

/-- What happens to a packet. -/
inductive Fate where
  /-- It does not arrive. -/
  | lost
  /-- It arrives once. -/
  | single (copy : Transit)
  /-- It arrives twice. -/
  | double (first second : Transit)
  deriving DecidableEq

/-- The copies that arrive. -/
def Fate.copies : Fate → List Transit
  | .lost => []
  | .single copy => [copy]
  | .double first second => [first, second]

theorem Fate.length_copies_le (fate : Fate) : fate.copies.length ≤ 2 := by
  cases fate <;> simp [copies]

variable {σ : Type} [DrawSource σ]

/-- Draws how long a copy takes. -/
def Transit.draw (faults : Faults) (source : σ) : Transit × σ :=
  let (delay, source) := DrawSource.between faults.minDelay faults.maxDelay source
  match DrawSource.chance faults.reorder source with
  | (false, source) => (⟨delay, none⟩, source)
  | (true, source) =>
    let (extra, source) := DrawSource.between faults.minExtra faults.maxExtra source
    (⟨delay, some extra⟩, source)

/-- Draws what happens to a packet. -/
def Fate.draw (faults : Faults) (source : σ) : Fate × σ :=
  match DrawSource.chance faults.loss source with
  | (true, source) => (.lost, source)
  | (false, source) =>
    match DrawSource.chance faults.duplicate source with
    | (false, source) =>
      let (copy, source) := Transit.draw faults source
      (.single copy, source)
    | (true, source) =>
      let (first, source) := Transit.draw faults source
      let (second, source) := Transit.draw faults source
      (.double first second, source)

/-- When a copy sent at `now` arrives. -/
def Transit.arrival (now : Nat) (t : Transit) : Checked Nat := do
  let due ← addWithin maxWord now t.delay
  match t.extra with
  | none => pure due
  | some extra => addWithin maxWord due extra

/-- A copy that arrives does so in time, and not before it was sent. -/
theorem Transit.arrival_eq_ok {now time : Nat} {t : Transit} (h : t.arrival now = .ok time) :
    now ≤ time ∧ time ≤ maxWord := by
  obtain ⟨due, hdue, h⟩ := Checked.bind_eq_ok_iff.1 h
  obtain ⟨hle, rfl⟩ := addWithin_eq_ok_iff.1 hdue
  split at h
  · obtain rfl := Checked.pure_eq_ok_iff.1 h
    omega
  · obtain ⟨hle', rfl⟩ := addWithin_eq_ok_iff.1 h
    omega

end ReliableStream.Network
