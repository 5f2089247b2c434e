import ReplicatedCache.Cluster.Handoff
import ReplicatedCache.Cluster.Ring

/-! # The cluster

Every operation on a key goes through the ring to the replicas of the key.

* A write is sent to every replica in the order of the ring and succeeds once a
  majority has acknowledged it. Replicas that fail get a hint. If the majority
  is missed and the leader failed, the write ends with the failure of the
  leader; otherwise it just does not succeed.
* A read answers with the first value found when the replicas are asked in the
  order of the ring.
-/

namespace ReplicatedCache

/-- The smallest number of acknowledgements by which a write succeeds. -/
def majority (replicas : Nat) : Nat := replicas / 2 + 1

structure Cluster (N : Type) where
  ring : Ring
  /-- The nodes that can be called, by id. -/
  nodes : Std.ExtTreeMap String N compare
  replicationFactor : Nat
  handoff : Handoff
  factor_pos : 0 < replicationFactor

inductive SetupError
  | noReplicas
deriving DecidableEq, Repr

def SetupError.message : SetupError → String
  | noReplicas => "Replication factor must be at least 1"

/-- Why a node did not take part in a write. -/
inductive Absence (F : Type)
  /-- The node is on the ring, but nobody knows how to call it. -/
  | unregistered (id : String)
  | failed (failure : F)

/-- A write that missed its majority because the leader failed. -/
structure QuorumMissed (F : Type) where
  write : Write
  acknowledged : Nat
  needed : Nat
  leader : Absence F

/-- The count of a write: how many replicas it has, which of them were called, how
many acknowledged it, and why the leader did not answer, if it did not. -/
structure Tally (F : Type) where
  replicas : Nat
  /-- The replicas that were called, in the order of the calls. -/
  called : List String := []
  acknowledged : Nat := 0
  leader : Option (Absence F) := none

namespace Tally

variable {F : Type}

/-- Enters what came of a call. Nobody was called if the replica is not registered. -/
def enter (tally : Tally F) (id : String) : Except (Absence F) Bool → Tally F
  | .error (.unregistered _) => tally
  | _ => { tally with called := tally.called ++ [id] }

def quorumMet (tally : Tally F) : Bool := decide (majority tally.replicas ≤ tally.acknowledged)

def result (tally : Tally F) (write : Write) : Except (QuorumMissed F) Bool :=
  if tally.quorumMet then .ok true
  else match tally.leader with
    | some leader => .error ⟨write, tally.acknowledged, majority tally.replicas, leader⟩
    | none => .ok false

end Tally

namespace Write

/-- Whether a replica other than the leader that declines a write gets a hint.
A replica that declines a compare-and-swap holds another token, which is no
failure. -/
def hintsRefusal : Write → Bool
  | set _ _ _ => true
  | delete _ => true
  | compareAndSwap _ _ _ _ => false

end Write

namespace Cluster

variable {N : Type} [Node N]

omit [Node N] in
def create? (ring : Ring) (replicationFactor : Nat) : Except SetupError (Cluster N) :=
  if h : 0 < replicationFactor then .ok ⟨ring, ∅, replicationFactor, .empty, h⟩
  else .error .noReplicas

def describeAbsence : Absence (Node.Failure N) → String
  | .unregistered id => "Node " ++ id ++ " is not registered"
  | .failed failure => Node.describe failure

def describeMissed (missed : QuorumMissed (Node.Failure N)) : String :=
  missed.write.name ++ " " ++ missed.write.key ++ " missed quorum (" ++
    toString missed.acknowledged ++ "/" ++ toString missed.needed ++ " replicas): " ++
    describeAbsence missed.leader

omit [Node N] in
def addNode (cluster : Cluster N) (id : String) (node : N) : Cluster N :=
  { cluster with ring := cluster.ring.add id, nodes := cluster.nodes.insert id node }

omit [Node N] in
/-- Takes a node off the ring and hands it back, if it was registered. Its hints
are kept. -/
def removeNode (cluster : Cluster N) (id : String) : Cluster N × Option N :=
  ({ cluster with ring := cluster.ring.remove id, nodes := cluster.nodes.erase id },
    cluster.nodes[id]?)

omit [Node N] in
/-- The replicas of a key, leader first. -/
def replicas (cluster : Cluster N) (key : String) : List String :=
  cluster.ring.replicas key cluster.replicationFactor

def callNode {α : Type} (cluster : Cluster N) (now : Instant) (id : String) (call : Call α) :
    Cluster N × Except (Absence (Node.Failure N)) α :=
  match cluster.nodes[id]? with
  | none => (cluster, .error (.unregistered id))
  | some node =>
    let (node, answer) := Node.perform node now call
    ({ cluster with nodes := cluster.nodes.insert id node }, answer.mapError .failed)

omit [Node N] in
def hint (cluster : Cluster N) (id : String) (write : Write) : Cluster N :=
  { cluster with handoff := cluster.handoff.record id write }

def sendTo (now : Instant) (write : Write) (isLeader : Bool)
    (state : Cluster N × Tally (Node.Failure N)) (id : String) :
    Cluster N × Tally (Node.Failure N) :=
  let (cluster, tally) := state
  let (cluster, answer) := cluster.callNode now id write.call
  let tally := tally.enter id answer
  match answer with
  | .ok true => (cluster, { tally with acknowledged := tally.acknowledged + 1 })
  | .ok false =>
    (if write.hintsRefusal && !isLeader then cluster.hint id write else cluster, tally)
  | .error absence =>
    -- the leader gets a hint as well; only its failure is kept for the result
    (cluster.hint id write, if isLeader then { tally with leader := some absence } else tally)

/-- Sends a write to all replicas of its key, the leader first. -/
def replicate (cluster : Cluster N) (now : Instant) (write : Write) :
    Cluster N × Tally (Node.Failure N) :=
  let replicas := cluster.replicas write.key
  let start := (cluster, { replicas := replicas.length })
  match replicas with
  | [] => start
  | leader :: followers =>
    followers.foldl (sendTo now write false) (sendTo now write true start leader)

def write (cluster : Cluster N) (now : Instant) (write : Write) :
    Cluster N × Except (QuorumMissed (Node.Failure N)) Bool :=
  let (cluster, tally) := cluster.replicate now write
  (cluster, tally.result write)

def set (cluster : Cluster N) (now : Instant) (key : String) (value : Value) (ttl : Span) :
    Cluster N × Except (QuorumMissed (Node.Failure N)) Bool :=
  cluster.write now (.set key value ttl)

def compareAndSwap (cluster : Cluster N) (now : Instant) (key : String) (value : Value)
    (expected : Token) (ttl : Span) : Cluster N × Except (QuorumMissed (Node.Failure N)) Bool :=
  cluster.write now (.compareAndSwap key value expected ttl)

/-- Deletes a key and tells whether a majority had it. -/
def delete (cluster : Cluster N) (now : Instant) (key : String) : Cluster N × Bool :=
  let (cluster, tally) := cluster.replicate now (.delete key)
  (cluster, tally.quorumMet)

def firstFound {α : Type} (cluster : Cluster N) (now : Instant) (call : Call (Option α)) :
    List String → Cluster N × Option α
  | [] => (cluster, none)
  | id :: ids =>
    match cluster.callNode now id call with
    | (cluster, .ok (some found)) => (cluster, some found)
    | (cluster, _) => cluster.firstFound now call ids

def get (cluster : Cluster N) (now : Instant) (key : String) : Cluster N × Option Value :=
  cluster.firstFound now (.get key) (cluster.replicas key)

/-- Reads a value with the token that the answering replica holds for it. -/
def getWithToken (cluster : Cluster N) (now : Instant) (key : String) :
    Cluster N × Option (Value × Token) :=
  cluster.firstFound now (.getWithToken key) (cluster.replicas key)

/-- Clears every node on the ring that can be reached. -/
def clear (cluster : Cluster N) (now : Instant) : Cluster N :=
  cluster.ring.nodes.foldl (fun cluster id => (cluster.callNode now id .clear).1) cluster

/-- Hands over the hints of a node that is back, and counts them. -/
def nodeRejoined (cluster : Cluster N) (now : Instant) (id : String) : Cluster N × Nat :=
  match cluster.nodes[id]? with
  | none => (cluster, 0)
  | some node =>
    let (handoff, node, delivered) := cluster.handoff.replay id node now
    ({ cluster with handoff, nodes := cluster.nodes.insert id node }, delivered)

def replayFor (cluster : Cluster N) (now : Instant) (ids : List String) : Cluster N × Nat :=
  ids.foldl (fun (cluster, delivered) id =>
      let (cluster, more) := cluster.nodeRejoined now id
      (cluster, delivered + more))
    (cluster, 0)

def replayPending (cluster : Cluster N) (now : Instant) : Cluster N × Nat :=
  cluster.replayFor now cluster.handoff.pendingNodes

end Cluster

end ReplicatedCache
