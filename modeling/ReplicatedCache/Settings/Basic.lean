import ReplicatedCache.Engine.Basic
import ReplicatedCache.Settings.Address

/-! # Settings of a node

What a node is told when it starts. Every setting has a default, so that a node
can be started without being told anything.
-/

namespace ReplicatedCache

namespace Settings

structure Peer where
  id : String
  address : SocketAddress
deriving DecidableEq, Inhabited

structure Store where
  capacity : Nat := 100000
  segments : Nat := 16
  eviction : EvictionKind := .lru
  reaperMillis : Nat := 100
deriving DecidableEq, Inhabited

namespace Store

/-- The time between two sweeps, at least a millisecond. -/
def reaperInterval (store : Store) : Span := .ofMillis (max 1 store.reaperMillis)

def engine (store : Store) : EngineConfig := ⟨store.capacity, store.segments, store.eviction⟩

end Store

def defaultBind : SocketAddress := .v4 ⟨127, 0, 0, 1⟩ 11311

end Settings

open Settings

structure Settings where
  /-- The id of the node; one that is not given is drawn at random. -/
  nodeId : Option String := none
  bind : SocketAddress := defaultBind
  peers : List Peer := []
  replicationFactor : Nat := 3
  virtualNodes : Nat := 64
  connectMillis : Nat := 500
  requestMillis : Nat := 1000
  handoffMillis : Nat := 5000
  store : Store := {}
deriving DecidableEq, Inhabited

namespace Settings

def connectTimeout (settings : Settings) : Span := .ofMillis settings.connectMillis

def requestTimeout (settings : Settings) : Span := .ofMillis settings.requestMillis

/-- The time between two passes over the hints, at least a millisecond. -/
def handoffInterval (settings : Settings) : Span := .ofMillis (max 1 settings.handoffMillis)

inductive Unusable
  | noReplicas
  | noVirtualNodes
  | emptyEngine
  | ownPeer (id : String)
deriving DecidableEq, Repr

def Unusable.message : Unusable → String
  | noReplicas => "Replication factor must be at least 1"
  | noVirtualNodes => "Virtual node count must be at least 1"
  | emptyEngine => "Engine capacity and segment count must be positive"
  | ownPeer id => "Peer list contains this node's own id " ++ id

def validate (settings : Settings) : Except Unusable Settings :=
  if settings.replicationFactor = 0 then .error .noReplicas
  else if settings.virtualNodes = 0 then .error .noVirtualNodes
  else if settings.store.segments = 0 ∨ settings.store.capacity = 0 then .error .emptyEngine
  else match settings.nodeId with
    | none => .ok settings
    | some id =>
      if settings.peers.any (fun peer => peer.id == id) then .error (.ownPeer id)
      else .ok settings

end Settings

end ReplicatedCache
