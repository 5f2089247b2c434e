/-! # What an engine tells

An engine publishes an event for every storing write and every delete, and
tells its removal listeners of every key that leaves by delete, eviction or
expiry. Both kinds of news form one sequence of signals, in the order in which
they are issued.
-/

namespace ReplicatedCache

/-- A change published to the event feed. -/
inductive KeyEvent
  | set (key : String)
  | delete (key : String)
deriving DecidableEq, Inhabited, Repr

inductive RemovalCause
  | deleted
  | evicted
  | expired
deriving DecidableEq, Inhabited, Repr

namespace RemovalCause

def name : RemovalCause → String
  | deleted => "deleted"
  | evicted => "evicted"
  | expired => "expired"

end RemovalCause

inductive Signal
  | event (event : KeyEvent)
  | removal (key : String) (cause : RemovalCause)
deriving DecidableEq, Inhabited, Repr

end ReplicatedCache
