import ReliableStream.Failure
import ReliableStream.Packet
import ReliableStream.Time

/-!
# Settings of a connection

Segments have at most `mtu` bytes and at most `window` of them are in flight. `check` names the
first fault of settings that could make no progress; it passes exactly the `Valid` ones.
-/

namespace ReliableStream.Connection

/-- How a connection behaves. -/
structure Settings where
  /-- The most bytes of a segment. -/
  mtu : Nat := 1400
  /-- The most segments in flight. -/
  window : Nat := 4
  /-- After how long an unacknowledged segment is sent again, the same for the whole life. -/
  rto : Nat := 2 * Time.second
  /-- How long a handshake may take. -/
  handshakeTimeout : Nat := 5 * Time.second
  /-- The window that is advertised in every packet. -/
  advertised : UInt16 := Packet.defaultWindow
  deriving DecidableEq

/-- Settings under which a connection can make progress. -/
structure Settings.Valid (s : Settings) : Prop where
  /-- Segments carry bytes. -/
  mtu_pos : 0 < s.mtu
  /-- The window has room. -/
  window_pos : 0 < s.window
  /-- Time passes before a segment is sent again. -/
  rto_pos : 0 < s.rto

/-- The first fault of settings, if there is one. -/
def Settings.fault? (s : Settings) : Option Misconfiguration :=
  if s.mtu = 0 then some .segmentSize
  else if s.window = 0 then some .window
  else if s.rto = 0 then some .retransmissionDelay
  else none

/-- **The check passes exactly the valid settings.** So a connection that was created has valid
ones. -/
theorem Settings.fault?_eq_none_iff (s : Settings) : s.fault? = none ↔ s.Valid := by
  rw [fault?]
  refine ⟨fun h ↦ ?_, fun ⟨hm, hw, hr⟩ ↦ by
    simp [Nat.ne_of_gt hm, Nat.ne_of_gt hw, Nat.ne_of_gt hr]⟩
  repeat' split at h
  all_goals simp_all
  next hm hw hr => exact ⟨Nat.pos_of_ne_zero hm, Nat.pos_of_ne_zero hw, Nat.pos_of_ne_zero hr⟩

end ReliableStream.Connection
