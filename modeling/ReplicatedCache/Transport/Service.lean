import ReplicatedCache.Cluster.Basic
import ReplicatedCache.Wire.Frame

/-! # Services

What stands behind a server and answers requests: an engine on its own, which
does not carry out operations for applications, or a coordinator, which is one
node of a cluster and does.

A conversation is everything that happens on one connection: the requests that
arrive are answered one by one, each with one frame, until the stream ends, a
frame cannot be read, or an answer does not fit into a frame.
-/

namespace ReplicatedCache

inductive ServiceError
  | routingDisabled
  | needsCluster
  | malformed (error : Wire.DecodeError)
deriving DecidableEq, Repr

def ServiceError.message : ServiceError → String
  | routingDisabled => "cluster routing is not enabled on this node"
  | needsCluster => "replicated requests need a cluster client"
  | malformed error => "malformed request: " ++ error.message

def ServiceError.response (error : ServiceError) : Response := .error error.message

namespace Engine

variable {A : Type} [Hears A]

def operate (engine : Engine A) (now : Instant) (operation : Operation) : Engine A × Reply :=
  operation.withCall fun call =>
    let (engine, answer) := engine.perform now call
    (engine, .ofAnswer call answer)

/-- Answers a request. An engine on its own has no replicas to route to. -/
def handle (engine : Engine A) (now : Instant) : Request → Engine A × Response
  | .plain operation =>
    let (engine, reply) := engine.operate now operation
    (engine, .reply reply)
  | .ping => (engine, .reply .pong)
  | .client _ => (engine, ServiceError.needsCluster.response)

end Engine

namespace Cluster

variable {N : Type} [Node N]

def writeResponse (reply : Bool → Reply) :
    Except (QuorumMissed (Node.Failure N)) Bool → Response
  | .ok ok => .reply (reply ok)
  | .error missed => .error (describeMissed missed)

def handle (cluster : Cluster N) (now : Instant) : Operation → Cluster N × Response
  | .set key value ttl =>
    let (cluster, outcome) := cluster.set now key value (.ofWire ttl)
    (cluster, writeResponse .stored outcome)
  | .get key =>
    let (cluster, found) := cluster.get now key
    (cluster, .reply (.value found))
  | .getWithToken key =>
    let (cluster, found) := cluster.getWithToken now key
    (cluster, .reply (.valueWithToken found))
  | .delete key =>
    let (cluster, deleted) := cluster.delete now key
    (cluster, .reply (.deleted deleted))
  | .compareAndSwap key value expected ttl =>
    let (cluster, outcome) := cluster.compareAndSwap now key value expected (.ofWire ttl)
    (cluster, writeResponse .swapped outcome)
  | .clear => (cluster.clear now, .reply .cleared)

end Cluster

/-- A cluster as one of its own nodes sees it. -/
structure Coordinator (N : Type) where
  /-- The node that answers plain requests. -/
  id : String
  cluster : Cluster N

namespace Coordinator

variable {N : Type} [Node N]

/-- Carries an operation out on the coordinator's own node. -/
def operate (coordinator : Coordinator N) (now : Instant) (operation : Operation) :
    Coordinator N × Response :=
  operation.withCall fun call =>
    match coordinator.cluster.callNode now coordinator.id call with
    | (cluster, .ok answer) => (⟨coordinator.id, cluster⟩, .reply (.ofAnswer call answer))
    | (cluster, .error absence) =>
      (⟨coordinator.id, cluster⟩, .error (Cluster.describeAbsence absence))

end Coordinator

/-- What answers requests. -/
class Service (S : Type) where
  answer : S → Instant → Request → S × Response

instance {A : Type} [Hears A] : Service (Engine A) where
  answer engine now
    | .client _ => (engine, ServiceError.routingDisabled.response)
    | request => engine.handle now request

instance {N : Type} [Node N] : Service (Coordinator N) where
  answer coordinator now
    | .plain operation => coordinator.operate now operation
    | .ping => (coordinator, .reply .pong)
    | .client operation =>
      let (cluster, response) := coordinator.cluster.handle now operation
      (⟨coordinator.id, cluster⟩, response)

instance {S T : Type} [Service S] [Service T] : Service (S ⊕ T) where
  answer
    | .inl service, now, request => (Service.answer service now request).map .inl id
    | .inr service, now, request => (Service.answer service now request).map .inr id

namespace Service

variable {S : Type} [Service S]

/-- Answers a payload. One that is not a request is answered with an error. -/
def answerPayload (state : S) (now : Instant) (payload : ByteArray) : S × Response :=
  match Request.decode payload with
  | .ok request => answer state now request
  | .error error => (state, (ServiceError.malformed error).response)

/-- The end of a conversation: the service, all that was sent back, and the
fault that ended it, if it was not the end of the stream. -/
structure Conversation (S : Type) where
  state : S
  sent : ByteArray := .empty
  fault : Option Frame.Error := none

/-- Answers everything that arrives on a connection. -/
def converse (state : S) (now : Instant) (stream : ByteArray) : Conversation S :=
  match h : Frame.read stream with
  | .closed => { state }
  | .failed error _ => { state, fault := some error }
  | .found payload rest =>
    let (state, response) := answerPayload state now payload
    match Frame.write response.write with
    | .error error => { state, fault := some error }
    | .ok frame =>
      have := Frame.size_rest_lt h
      let conversation := converse state now rest
      { conversation with sent := frame ++ conversation.sent }
termination_by stream.size

end Service

end ReplicatedCache
