import ReliableStream.InFlight

/-!
# Alarms

A connection never waits: it asks for an alarm, and acts when the alarm rings. Alarms are not
cancelled. Each one says what it watches, and whoever hears it checks whether that is still so: a
segment in the generation of its latest sending, or a handshake by its number.
-/

namespace ReliableStream

/-- What an alarm watches. -/
inductive Alarm.Watch where
  /-- A segment in flight, since it was sent again `generation` times. -/
  | segment (seq generation : Nat)
  /-- Whether a handshake packet has to be sent again. -/
  | handshakeRetry (attempt : Nat)
  /-- Whether a handshake has to be given up. -/
  | handshakeDeadline (attempt : Nat)
  deriving DecidableEq

/-- An alarm to set. -/
structure Alarm where
  /-- After how long it rings. -/
  delay : Nat
  /-- What it watches. -/
  watch : Alarm.Watch
  deriving DecidableEq

/-- The alarm that watches a segment that was just sent. -/
def Segment.alarm (delay : Nat) (s : Segment) : Alarm := ⟨delay, .segment s.seq s.resends⟩

end ReliableStream
