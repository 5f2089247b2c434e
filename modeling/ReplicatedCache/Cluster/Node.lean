import ReplicatedCache.Engine.Audience
import ReplicatedCache.Engine.Reaper

/-! # Nodes

A node is a replica that can be called. A call either fails, which says that
the node could not be reached or did not answer in time, or it has an answer.
A definite refusal, such as a rejected write or a stale token, is an answer.

The engine of this process is a node that never fails.
-/

namespace ReplicatedCache

/-- A call to a node, with the type of its answer. -/
inductive Call : Type → Type
  | set (key : String) (value : Value) (ttl : Span) : Call Bool
  | get (key : String) : Call (Option Value)
  | getWithToken (key : String) : Call (Option (Value × Token))
  | delete (key : String) : Call Bool
  | compareAndSwap (key : String) (value : Value) (expected : Token) (ttl : Span) : Call Bool
  | clear : Call Unit

namespace Call

/-- The key that a call speaks of; clearing speaks of no key. -/
def key {α : Type} : Call α → String
  | set key _ _ => key
  | get key => key
  | getWithToken key => key
  | delete key => key
  | compareAndSwap key _ _ _ => key
  | clear => ""

/-- The answer of a node that does nothing. -/
def refusal {α : Type} : Call α → α
  | set _ _ _ => false
  | get _ => none
  | getWithToken _ => none
  | delete _ => false
  | compareAndSwap _ _ _ _ => false
  | clear => ()

end Call

class Node (N : Type) where
  /-- Why a call fails. -/
  Failure : Type
  describe : Failure → String
  /-- Makes a call at an instant. -/
  perform : {α : Type} → N → Instant → Call α → N × Except Failure α

/-- A type of audience together with its way of hearing. -/
class Hears (A : Type) where
  hear : Instant → Hearing A

instance : Hears Audience := ⟨fun now => Audience.hear now Audience.nesting⟩

instance : Hears Unit := ⟨fun _ engine _ => engine⟩

namespace Engine

variable {A : Type} [Hears A]

def perform {α : Type} (engine : Engine A) (now : Instant) : Call α → Engine A × α
  | .set key value ttl => engine.set (Hears.hear now) now key value ttl
  | .get key => engine.get (Hears.hear now) now key
  | .getWithToken key => engine.getWithToken (Hears.hear now) now key
  | .delete key => engine.delete (Hears.hear now) now key
  | .compareAndSwap key value expected ttl =>
    let (engine, answer) := engine.compareAndSwap (Hears.hear now) now key value expected ttl
    (engine, answer.isStored)
  | .clear => (engine.clear, ())

instance : Node (Engine A) where
  Failure := Empty
  describe := nofun
  perform engine now call :=
    let (engine, answer) := engine.perform now call
    (engine, .ok answer)

end Engine

instance {A : Type} [Hears A] : Node (TimedEngine A) where
  Failure := Empty
  describe := nofun
  perform timed now call :=
    let (engine, answer) := timed.engine.perform now call
    ({ timed with engine }, .ok answer)

end ReplicatedCache
