import ReliableStream.Connection.Arrival

/-!
# Applications

Every host runs an application on its connection. The application is told when the host starts and
what its connection has notices of, and answers with its own next state, the connection after what
it asked of it, and the effects of that.
-/

namespace ReliableStream

/-- What an application answers. -/
structure Response (α : Type) where
  /-- The application afterwards. -/
  application : α
  /-- The connection afterwards. -/
  connection : Connection
  /-- The effects of what was asked of the connection. -/
  effects : Effects := {}

/-- What runs on a connection. -/
class Application (α : Type) where
  /-- The host starts. -/
  start : (now : Nat) → α → Connection → Checked (Response α)
  /-- The connection has a notice. -/
  onNotice : (now : Nat) → Notice → α → Connection → Checked (Response α)

/-- Either of two kinds of application. -/
instance {α β : Type} [Application α] [Application β] : Application (α ⊕ β) where
  start now
    | .inl a, c => do
      let r ← Application.start now a c
      pure { r with application := .inl r.application }
    | .inr b, c => do
      let r ← Application.start now b c
      pure { r with application := .inr r.application }
  onNotice now notice
    | .inl a, c => do
      let r ← Application.onNotice now notice a c
      pure { r with application := .inl r.application }
    | .inr b, c => do
      let r ← Application.onNotice now notice b c
      pure { r with application := .inr r.application }

end ReliableStream
