import ReplicatedCache.Transport.Peer

/-! # Remote nodes

A remote node is called by sending a request to a peer and waiting for the
response. It holds at most one connection, which is opened when it is first
needed, kept as long as it works, and given up after every failure in talking
to the peer. An answer that reports an error is a failure of the call, but the
connection is kept.
-/

namespace ReplicatedCache

/-- The local end of a connection: what has arrived and was not read yet, and
whether the peer has closed it. -/
structure Connection where
  inbox : ByteArray := .empty
  closed : Bool := false
deriving DecidableEq, Inhabited

structure RemoteNode (P : Type) where
  id : String
  /-- The address of the peer as it is shown in messages. -/
  address : String
  connectTimeout : Span
  requestTimeout : Span
  peer : P
  connection : Option Connection := none

inductive RemoteCause
  | noConnection (failure : ConnectFailure)
  | frame (error : Frame.Error)
  /-- The connection was closed instead of a response. -/
  | closed
  | noAnswer
  | rejected (message : String)
  | unexpected (reply : Reply)
deriving DecidableEq

/-- A failed call to a remote node: the node and the cause. -/
structure RemoteFailure where
  id : String
  address : String
  connectTimeout : Span
  requestTimeout : Span
  cause : RemoteCause
deriving DecidableEq

namespace RemoteFailure

def target (failure : RemoteFailure) : String := failure.id ++ " (" ++ failure.address ++ ")"

def message (failure : RemoteFailure) : String :=
  match failure.cause with
  | .noConnection .refused =>
    "Failed to connect to " ++ failure.target ++ ": Connection refused (os error 111)"
  | .noConnection .networkUnreachable =>
    "Failed to connect to " ++ failure.target ++ ": Network is unreachable (os error 101)"
  | .noConnection .timedOut =>
    "Connecting to " ++ failure.target ++ " timed out after " ++ failure.connectTimeout.text
  | .frame error => "Request to " ++ failure.target ++ " failed: " ++ error.message
  | .closed =>
    "Request to " ++ failure.target ++ " failed: Connection closed before a response arrived"
  | .noAnswer =>
    "Request to " ++ failure.target ++ " timed out after " ++ failure.requestTimeout.text
  | .rejected message => failure.id ++ " rejected request: " ++ message
  | .unexpected reply => "Unexpected response from " ++ failure.id ++ ": " ++ reply.text

end RemoteFailure

/-- What comes of waiting for a response. -/
inductive Awaited
  | response (response : Response) (rest : ByteArray)
  | failed (cause : RemoteCause)

/-- Waits for a response on a connection on which nothing more will arrive in
time: a response that is incomplete fails at once on a closed connection, and
is waited for in vain on an open one. -/
def Connection.await (connection : Connection) : Awaited :=
  match Frame.readMessage Response.decode connection.inbox with
  | .found response rest => .response response rest
  | .closed => .failed (if connection.closed then .closed else .noAnswer)
  | .failed .cutOff _ => .failed (if connection.closed then .frame .cutOff else .noAnswer)
  | .failed error _ => .failed (.frame error)

namespace RemoteNode

variable {P : Type} [Peer P]

omit [Peer P] in
def isConnected (node : RemoteNode P) : Bool := node.connection.isSome

omit [Peer P] in
def failure (node : RemoteNode P) (cause : RemoteCause) : RemoteFailure :=
  ⟨node.id, node.address, node.connectTimeout, node.requestTimeout, cause⟩

/-- The connection to use: the one that is open, or a new one. -/
def connected (node : RemoteNode P) : Except ConnectFailure (P × Connection) :=
  match node.connection with
  | some connection => .ok (node.peer, connection)
  | none => (Peer.connect node.peer).map fun peer => (peer, {})

/-- Sends a payload. What is sent on a connection that the peer has closed does
not arrive. -/
def transmit (peer : P) (now : Instant) (connection : Connection) (payload : ByteArray) :
    P × Connection :=
  if connection.closed then (peer, connection)
  else
    let (peer, arrival) := Peer.receive peer now payload
    (peer, ⟨connection.inbox ++ arrival.bytes, arrival.closed⟩)

def dropped (node : RemoteNode P) (peer : P) : RemoteNode P :=
  { node with peer := Peer.hangUp peer, connection := none }

def request (node : RemoteNode P) (now : Instant) (request : Request) :
    RemoteNode P × Except RemoteCause Reply :=
  match node.connected with
  | .error failure => (node, .error (.noConnection failure))
  | .ok (peer, connection) =>
    match Frame.write request.write with
    -- nothing has been sent, yet the connection is not trusted any more
    | .error error => (node.dropped peer, .error (.frame error))
    | .ok _ =>
      let (peer, connection) := transmit peer now connection request.write
      match connection.await with
      | .failed cause => (node.dropped peer, .error cause)
      | .response response rest =>
        let node := { node with peer, connection := some { connection with inbox := rest } }
        match response with
        | .reply reply => (node, .ok reply)
        | .error message => (node, .error (.rejected message))

def ping (node : RemoteNode P) (now : Instant) : RemoteNode P × Except RemoteFailure Unit :=
  match node.request now .ping with
  | (node, .ok .pong) => (node, .ok ())
  | (node, .ok reply) => (node, .error (node.failure (.unexpected reply)))
  | (node, .error cause) => (node, .error (node.failure cause))

def perform {α : Type} (node : RemoteNode P) (now : Instant) (call : Call α) :
    RemoteNode P × Except RemoteFailure α :=
  match node.request now (.plain (.ofCall call)) with
  | (node, .error cause) => (node, .error (node.failure cause))
  | (node, .ok reply) =>
    match reply.answer? call with
    | some answer => (node, .ok answer)
    | none => (node, .error (node.failure (.unexpected reply)))

instance : Node (RemoteNode P) where
  Failure := RemoteFailure
  describe := RemoteFailure.message
  perform := perform

end RemoteNode

/-- A node of a cluster as one of its nodes sees it: itself, or a remote one. -/
inductive Member (A P : Type)
  | own (engine : Engine A)
  | remote (node : RemoteNode P)

namespace Member

variable {A P : Type} [Hears A] [Peer P]

def perform {α : Type} (member : Member A P) (now : Instant) (call : Call α) :
    Member A P × Except RemoteFailure α :=
  match member with
  | own engine =>
    let (engine, answer) := engine.perform now call
    (own engine, .ok answer)
  | remote node =>
    let (node, answer) := node.perform now call
    (remote node, answer)

instance : Node (Member A P) where
  Failure := RemoteFailure
  describe := RemoteFailure.message
  perform := perform

end Member

/-- A node of a cluster with an engine of its own and some peers, all of them on
a ring. -/
def Coordinator.create? {A P : Type} (id : String) (engine : Engine A) (ring : Ring)
    (replicationFactor : Nat) (peers : List (RemoteNode P)) :
    Except SetupError (Coordinator (Member A P)) := do
  let cluster ← Cluster.create? ring replicationFactor
  let cluster := cluster.addNode id (.own engine)
  pure ⟨id, peers.foldl (fun cluster peer => cluster.addNode peer.id (.remote peer)) cluster⟩

end ReplicatedCache
