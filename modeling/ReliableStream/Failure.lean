import ReliableStream.Binary64.Writing
import ReliableStream.Endpoint
import ReliableStream.Connection.State

/-!
# Failures

What can go wrong from the caller's point of view, as causes; the wording is in `message`. Lost,
repeated, late and stale packets are not failures: the protocol absorbs them.
-/

namespace ReliableStream

/-- One of the rates at which a network misbehaves. -/
inductive RateName where
  | loss
  | reorder
  | duplicate
  deriving DecidableEq

/-- The name of a rate. -/
def RateName.name : RateName → String
  | .loss => "loss_rate"
  | .reorder => "reorder_rate"
  | .duplicate => "duplicate_rate"

/-- Why a configuration is refused. -/
inductive Misconfiguration where
  /-- A rate is not a probability. -/
  | rate (name : RateName) (value : Binary64)
  /-- The smallest delay is larger than the largest. -/
  | delays
  /-- The smallest extra delay is larger than the largest. -/
  | extraDelays
  /-- Segments may carry no bytes. -/
  | segmentSize
  /-- The window has no room. -/
  | window
  /-- Segments would be sent again at once. -/
  | retransmissionDelay
  /-- A reason in a caller's own words. -/
  | other (reason : String)
  deriving DecidableEq

/-- Rates are written with the fewest digits that read back, without an exponent and without a point
after a whole number. -/
def Misconfiguration.rateStyle : Binary64.DecimalStyle := ⟨fun _ ↦ true, false, true⟩

/-- The wording of a refused configuration. -/
def Misconfiguration.message : Misconfiguration → String
  | .rate name value =>
    s!"{name.name} must be within [0, 1], got {value.write rateStyle}"
  | .delays => "min_delay is larger than max_delay"
  | .extraDelays => "reorder_min_extra is larger than reorder_max_extra"
  | .segmentSize => "mtu must be positive"
  | .window => "window_size must be positive"
  | .retransmissionDelay => "rto must be positive"
  | .other reason => reason

/-- Why an operation failed. -/
inductive Failure where
  /-- The handshake was not done by its deadline. -/
  | handshakeTimeout
  /-- Data was sent or read on a connection that is not established. -/
  | notEstablished
  /-- Nobody is registered at a destination. -/
  | unknownDestination (endpoint : Endpoint)
  /-- The operation is not allowed in this state. -/
  | wrongState (state : Connection.State)
  /-- A configuration is refused. -/
  | misconfigured (cause : Misconfiguration)
  deriving DecidableEq

/-- The wording of a failure. -/
def Failure.message : Failure → String
  | .handshakeTimeout => "handshake timed out"
  | .notEstablished => "connection not established"
  | .unknownDestination endpoint => s!"no endpoint registered for {endpoint.text}"
  | .wrongState state => s!"operation not allowed in state {state.name}"
  | .misconfigured cause => s!"invalid configuration: {cause.message}"

/-- What is made of a result exists only if there is one. -/
theorem Failure.exists_of_map_eq_ok {α β : Type} {f : α → β} {x : Except Failure α} {b : β}
    (h : x.map f = .ok b) : ∃ a, x = .ok a ∧ f a = b := by
  cases x with
  | error failure => exact absurd h (by simp [Except.map])
  | ok a => exact ⟨a, rfl, Except.ok.inj h⟩

/-- A sequence of two steps has a result only if both have one. Calls are taken apart with this. -/
theorem Failure.exists_of_bind_eq_ok {α β : Type} {x : Except Failure α} {f : α → Except Failure β}
    {b : β} (h : (x >>= f) = .ok b) : ∃ a, x = .ok a ∧ f a = .ok b := by
  cases x with
  | error failure => exact absurd h (by simp [bind, Except.bind])
  | ok a => exact ⟨a, rfl, h⟩

end ReliableStream
