import ReplicatedCache.Eviction.Policy

/-! # Scripted and observed policies

A script answers admission requests from a list, whatever the candidate. A
traced policy behaves as the policy inside it and keeps a record of every call
it hears, so that the conversation between a segment and its policy can be
looked at from outside.
-/

namespace ReplicatedCache

/-- Answers to be given one after another; `accept` once they are used up. -/
structure Script where
  answers : List Admission
deriving DecidableEq, Inhabited, Repr

instance : EvictionPolicy Script where
  admission script _ _ _ :=
    match script.answers with
    | [] => (script, .accept)
    | answer :: answers => (⟨answers⟩, answer)
  recordAccess script _ := script
  recordRemoval script _ := script
  name _ := "scripted"

/-- One call from a segment to its policy. -/
inductive PolicyCall
  | admission (candidate : String) (seen : Occupancy) (capacity : Nat) (answer : Admission)
  | access (key : String)
  | removal (key : String)
deriving DecidableEq, Inhabited, Repr

/-- A policy together with the calls it has heard, oldest first. -/
structure Traced (π : Type) where
  policy : π
  calls : List PolicyCall := []
deriving Inhabited

instance {π : Type} [EvictionPolicy π] : EvictionPolicy (Traced π) where
  admission traced candidate seen capacity :=
    let (policy, answer) := EvictionPolicy.admission traced.policy candidate seen capacity
    (⟨policy, traced.calls ++ [.admission candidate seen capacity answer]⟩, answer)
  recordAccess traced key :=
    ⟨EvictionPolicy.recordAccess traced.policy key, traced.calls ++ [.access key]⟩
  recordRemoval traced key :=
    ⟨EvictionPolicy.recordRemoval traced.policy key, traced.calls ++ [.removal key]⟩
  name traced := EvictionPolicy.name traced.policy

end ReplicatedCache
