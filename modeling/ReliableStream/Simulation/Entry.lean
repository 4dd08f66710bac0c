import ReliableStream.Connection.Note
import ReliableStream.Trace.Basic

/-!
# The journal of a simulation

A simulation notes what its connections and applications note, everything it puts into the trace,
the packets it has to drop, and its own beginning and end.
-/

namespace ReliableStream.Simulation

/-- An entry of the journal of a simulation. -/
inductive Entry where
  /-- The simulation was created from a seed. -/
  | created (seed : Nat)
  /-- A connection or its application noted something. -/
  | noted (home : Endpoint) (note : Connection.Note)
  /-- Something was put into the trace. -/
  | traced (record : Trace.Record)
  /-- A packet was dropped since nobody was there to receive it. -/
  | dropped (failure : Failure) (packet : Packet)
  /-- The simulation ended. -/
  | ended (time : Nat)
  deriving DecidableEq

/-- How much an event of the trace matters. -/
def eventLevel : Trace.Event → Journal.Level
  | .undeliverable _ | .handshakeFailed => .warn
  | _ => .info

/-- The line of an entry. -/
def Entry.line : Entry → Journal.Line
  | .created seed => ⟨.info, "world created", [⟨"seed", toString seed⟩]⟩
  | .noted home note => note.line home
  | .traced record =>
    ⟨eventLevel record.event, record.event.text,
      [⟨"endpoint", record.endpoint.text⟩, ⟨"time", toString record.time⟩]⟩
  | .dropped failure packet =>
    ⟨.warn, "dropping packet", [⟨"packet", packet.text⟩, ⟨"error", failure.message⟩]⟩
  | .ended time => ⟨.info, "end of simulation", [⟨"time", toString time⟩]⟩

end ReliableStream.Simulation
