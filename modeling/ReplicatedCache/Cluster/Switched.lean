import ReplicatedCache.Cluster.Node

/-! # Nodes behind a switch

A switch stands before a node and decides about every call: it lets the call
through, answers it with a refusal, or fails. A switch can be set to fail on
some keys only.
-/

namespace ReplicatedCache

inductive SwitchMode
  | up
  /-- Every call fails. -/
  | down
  /-- Every call is refused. -/
  | reject
deriving DecidableEq, Inhabited, Repr

/-- The position of a switch: its mode, and the keys whose calls time out unless
the switch is down. -/
structure Switch where
  mode : SwitchMode := .up
  poison : List String := []
deriving DecidableEq, Inhabited, Repr

structure Switched (N : Type) where
  id : String
  switch : Switch := {}
  node : N

inductive SwitchFailure (F : Type)
  | unreachable (id : String)
  | timedOut (id key : String)
  /-- The node behind the switch failed. -/
  | behind (failure : F)

namespace Switched

variable {N : Type} [Node N]

def describe : SwitchFailure (Node.Failure N) → String
  | .unreachable id => id ++ " is unreachable"
  | .timedOut id key => id ++ " timed out on " ++ key
  | .behind failure => Node.describe failure

def perform {α : Type} (switched : Switched N) (now : Instant) (call : Call α) :
    Switched N × Except (SwitchFailure (Node.Failure N)) α :=
  match switched with
  | ⟨id, switch, node⟩ =>
    if switch.mode = .down then (⟨id, switch, node⟩, .error (.unreachable id))
    else if call.key ∈ switch.poison then (⟨id, switch, node⟩, .error (.timedOut id call.key))
    else if switch.mode = .reject then (⟨id, switch, node⟩, .ok call.refusal)
    else
      let (node, answer) := Node.perform node now call
      (⟨id, switch, node⟩, answer.mapError .behind)

instance : Node (Switched N) where
  Failure := SwitchFailure (Node.Failure N)
  describe := describe
  perform := perform

end Switched

end ReplicatedCache
