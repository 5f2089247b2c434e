import Std.Data.ExtTreeMap
import ReplicatedCache.Cluster.Node

/-! # Hinted handoff

A write that a node missed is kept for it as a hint, one queue for each node.
When the node is back its hints are handed over in the order in which they were
recorded. A handover stops at the first hint that fails, which stays at the
head of the queue; a hint that the node declines counts as delivered.
-/

namespace ReplicatedCache

/-- A call that changes a node. -/
inductive Write
  | set (key : String) (value : Value) (ttl : Span)
  | delete (key : String)
  | compareAndSwap (key : String) (value : Value) (expected : Token) (ttl : Span)
deriving DecidableEq

namespace Write

instance : Inhabited Write := ⟨delete ""⟩

def call : Write → Call Bool
  | set key value ttl => .set key value ttl
  | delete key => .delete key
  | compareAndSwap key value expected ttl => .compareAndSwap key value expected ttl

def key (write : Write) : String := write.call.key

def name : Write → String
  | set _ _ _ => "SET"
  | delete _ => "DELETE"
  | compareAndSwap _ _ _ _ => "CAS"

end Write

/-- The hints for each node, head first. No queue is empty once it has been
handed over completely. -/
structure Handoff where
  queues : Std.ExtTreeMap String (List Write) compare := ∅

namespace Handoff

instance : Inhabited Handoff := ⟨{}⟩

def empty : Handoff := {}

def pending (handoff : Handoff) (id : String) : List Write := handoff.queues.getD id []

def pendingCount (handoff : Handoff) (id : String) : Nat := (handoff.pending id).length

/-- Keeps a write for a node, behind the others. -/
def record (handoff : Handoff) (id : String) (write : Write) : Handoff :=
  ⟨handoff.queues.insert id (handoff.pending id ++ [write])⟩

/-- The nodes for which hints wait, by id. -/
def pendingNodes (handoff : Handoff) : List String :=
  (handoff.queues.toList.filter fun (_, hints) => !hints.isEmpty).map (·.1)

def totalPending (handoff : Handoff) : Nat :=
  handoff.queues.toList.foldr (fun (_, hints) total => hints.length + total) 0

/-- What a handover did: the node after it, how many hints it received, and the
hints that are left. -/
structure Delivery (N : Type) where
  node : N
  delivered : Nat
  left : List Write

/-- Hands hints over until one fails. -/
def deliver {N : Type} [Node N] (node : N) (now : Instant) : List Write → Delivery N
  | [] => ⟨node, 0, []⟩
  | hint :: hints =>
    match Node.perform node now hint.call with
    | (node, .error _) => ⟨node, 0, hint :: hints⟩
    | (node, .ok _) =>
      -- a refusal is an answer: the node has received the hint
      let rest := deliver node now hints
      { rest with delivered := rest.delivered + 1 }

/-- Replaces the queue of a node; an empty queue is forgotten. -/
def setQueue (handoff : Handoff) (id : String) (hints : List Write) : Handoff :=
  ⟨if hints.isEmpty then handoff.queues.erase id else handoff.queues.insert id hints⟩

/-- Hands the hints of a queue over to a node and tells how many it received. -/
def replay {N : Type} [Node N] (handoff : Handoff) (id : String) (node : N) (now : Instant) :
    Handoff × N × Nat :=
  let delivery := deliver node now (handoff.pending id)
  (handoff.setQueue id delivery.left, delivery.node, delivery.delivered)

end Handoff

end ReplicatedCache
