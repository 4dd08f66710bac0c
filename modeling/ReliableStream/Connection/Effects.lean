import ReliableStream.Alarm
import ReliableStream.Connection.Note
import ReliableStream.Trace.Basic

/-!
# What a connection asks for

A connection does nothing by itself. Its operations answer with what there is to do: packets to
send, alarms to set, events for the trace and notes for the journal. These are `Effects`. What an
arriving packet or a ringing alarm causes may also concern the application: a `Reaction` has
notices for it as well. What an application asks of its connection is answered by effects alone,
so an application cannot set off its own notices.

Effects of one thing after another are joined by `++`, each kind in its own list, so the order of
packets among packets is kept but not that between packets and alarms; nothing depends on that one.
The lemmas below say so field by field, and that joining is associative.
-/

namespace ReliableStream

/-- Something that concerns the application. -/
inductive Notice where
  /-- The handshake is done: bytes can be sent and read. -/
  | established
  /-- The handshake was given up: the connection is closed again. -/
  | handshakeFailed (failure : Failure)
  /-- This many bytes more can be read. -/
  | dataReady (len : Nat)
  deriving DecidableEq

/-- What there is to do. Each list is in the order in which it is to be done. -/
structure Effects where
  /-- Packets to send. -/
  packets : List Packet := []
  /-- Alarms to set. -/
  alarms : List Alarm := []
  /-- Events for the trace. -/
  traces : List Trace.Event := []
  /-- Notes for the journal. -/
  notes : List Connection.Note := []
  deriving DecidableEq

/-- One after the other. -/
instance : Append Effects where
  append e f := ⟨e.packets ++ f.packets, e.alarms ++ f.alarms, e.traces ++ f.traces,
    e.notes ++ f.notes⟩

/-- What there is to do, and what concerns the application. -/
structure Reaction extends Effects where
  /-- Notices for the application. -/
  notices : List Notice := []
  deriving DecidableEq

/-- Effects that do not concern the application. -/
instance : Coe Effects Reaction where
  coe effects := { toEffects := effects }

/-- One after the other. -/
instance : Append Reaction where
  append r s := ⟨r.toEffects ++ s.toEffects, r.notices ++ s.notices⟩

namespace Reaction

@[ext] theorem ext {r s : Reaction} (packets : r.packets = s.packets) (alarms : r.alarms = s.alarms)
    (traces : r.traces = s.traces) (notes : r.notes = s.notes) (notices : r.notices = s.notices) :
    r = s := by
  obtain ⟨⟨_, _, _, _⟩, _⟩ := r
  obtain ⟨⟨_, _, _, _⟩, _⟩ := s
  cases packets; cases alarms; cases traces; cases notes; cases notices
  rfl

@[simp] theorem packets_append (r s : Reaction) : (r ++ s).packets = r.packets ++ s.packets := rfl

@[simp] theorem alarms_append (r s : Reaction) : (r ++ s).alarms = r.alarms ++ s.alarms := rfl

@[simp] theorem traces_append (r s : Reaction) : (r ++ s).traces = r.traces ++ s.traces := rfl

@[simp] theorem notes_append (r s : Reaction) : (r ++ s).notes = r.notes ++ s.notes := rfl

@[simp] theorem notices_append (r s : Reaction) : (r ++ s).notices = r.notices ++ s.notices := rfl

theorem append_assoc (r s t : Reaction) : r ++ s ++ t = r ++ (s ++ t) := by
  ext1 <;> simp

@[simp] theorem append_empty (r : Reaction) : r ++ ({} : Reaction) = r := by
  ext1 <;> simp

@[simp] theorem empty_append (r : Reaction) : ({} : Reaction) ++ r = r := by
  ext1 <;> simp

end Reaction

theorem Effects.append_assoc (e f g : Effects) : e ++ f ++ g = e ++ (f ++ g) :=
  congrArg Reaction.toEffects (Reaction.append_assoc e f g)

theorem Effects.append_empty (e : Effects) : e ++ ({} : Effects) = e :=
  congrArg Reaction.toEffects (Reaction.append_empty e)

/-- Whether there is nothing to send, set, trace or tell. Notes do not count. -/
def Reaction.isEmpty (r : Reaction) : Bool :=
  r.packets.isEmpty && r.alarms.isEmpty && r.notices.isEmpty && r.traces.isEmpty

end ReliableStream
