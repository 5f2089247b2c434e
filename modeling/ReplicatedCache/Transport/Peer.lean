import ReplicatedCache.Transport.Service

/-! # Peers

The other end of a connection. A peer may take a connection or not, and
something may arrive in answer to a frame that is sent to it: bytes, the end of
the connection, or nothing at all.
-/

namespace ReplicatedCache

/-- The condition of the network between two hosts. -/
inductive Network
  | reachable
  | unreachable
deriving DecidableEq, Inhabited, Repr

inductive ConnectFailure
  | refused
  | networkUnreachable
  | timedOut
deriving DecidableEq, Inhabited, Repr

/-- What arrives in answer to a frame before the patience of the sender ends. -/
structure Arrival where
  bytes : ByteArray := .empty
  /-- Whether the peer closes the connection after these bytes. -/
  closed : Bool := false
deriving DecidableEq, Inhabited

/-- The other end of connections, of which there is one at a time. -/
class Peer (P : Type) where
  connect : P → Except ConnectFailure P
  /-- Receives a payload. -/
  receive : P → Instant → (payload : ByteArray) → P × Arrival
  /-- The connection is given up by the sender. -/
  hangUp : P → P

/-- A peer on a host that may be out of reach, or on which nobody listens. -/
structure Host (P : Type) where
  network : Network := .reachable
  listening : Bool := true
  peer : P

namespace Host

variable {P : Type} [Peer P]

def connect (host : Host P) : Except ConnectFailure (Host P) :=
  match host.network with
  | .unreachable => .error .networkUnreachable
  | .reachable =>
    if host.listening then
      match Peer.connect host.peer with
      | .ok peer => .ok { host with peer }
      | .error failure => .error failure
    else .error .refused

instance : Peer (Host P) where
  connect := connect
  receive host now payload :=
    let (peer, arrival) := Peer.receive host.peer now payload
    ({ host with peer }, arrival)
  hangUp host := { host with peer := Peer.hangUp host.peer }

end Host

/-- A peer that is the server of a service. -/
structure Served (S : Type) where
  service : S

instance {S : Type} [Service S] : Peer (Served S) where
  connect served := .ok served
  receive served now payload :=
    let conversation := Service.converse served.service now (Frame.wrap payload)
    (⟨conversation.state⟩, ⟨conversation.sent, conversation.fault.isSome⟩)
  hangUp served := served

inductive PeerAction
  /-- Sends a payload in a frame. -/
  | answer (payload : ByteArray)
  /-- Sends bytes as they are and closes the connection. -/
  | raw (bytes : ByteArray)
  | close
  | silence
deriving DecidableEq, Inhabited

def PeerAction.arrival : PeerAction → Arrival
  | answer payload => { bytes := Frame.wrap payload }
  | raw bytes => { bytes, closed := true }
  | close => { closed := true }
  | silence => {}

/-- A peer that follows a script: what it does about the frames of the current
connection, and about those of the connections to come. A peer whose script is
used up keeps silent. -/
structure ScriptedPeer where
  connections : List (List PeerAction)
  current : List PeerAction := []
  /-- The payloads that have arrived, oldest first. -/
  received : List ByteArray := []

namespace ScriptedPeer

def accept (peer : ScriptedPeer) : ScriptedPeer :=
  match peer.connections with
  | [] => { peer with current := [] }
  | script :: connections => { peer with current := script, connections }

instance : Peer ScriptedPeer where
  connect peer := .ok peer.accept
  receive peer _ payload :=
    let received := peer.received ++ [payload]
    match peer.current with
    | [] => ({ peer with received }, {})
    | action :: current => ({ peer with received, current }, action.arrival)
  hangUp peer := { peer with current := [] }

end ScriptedPeer

end ReplicatedCache
