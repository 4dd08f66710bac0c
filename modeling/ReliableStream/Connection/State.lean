/-!
# The states of a connection

```text
closed --connect--> synSent --SYN-ACK--> established
closed --listen--> listening --SYN--> synReceived --ACK or DATA--> established
synSent, synReceived --deadline--> closed
```
-/

namespace ReliableStream.Connection

/-- Where a connection is in its life. -/
inductive State where
  /-- Nothing is going on. -/
  | closed
  /-- Waiting for anyone to open. -/
  | listening
  /-- An opening was sent and not answered yet. -/
  | synSent
  /-- An opening was answered and the answer not acknowledged yet. -/
  | synReceived
  /-- The handshake is done and data flows. -/
  | established
  deriving DecidableEq

/-- The name of a state. -/
def State.name : State → String
  | .closed => "CLOSED"
  | .listening => "LISTEN"
  | .synSent => "SYN_SENT"
  | .synReceived => "SYN_RECEIVED"
  | .established => "ESTABLISHED"

end ReliableStream.Connection
