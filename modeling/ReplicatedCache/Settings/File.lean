import ReplicatedCache.Settings.Basic
import ReplicatedCache.Settings.Document
import ReplicatedCache.Settings.Number

/-! # Settings files

How settings are read from a document. A structure is a record with named
fields, of which those that nobody knows are ignored, or a list of its fields
in order. What is missing has its default; what is there must be right.
-/

namespace ReplicatedCache.Settings

namespace Document

/-- The known fields of a structure that a document holds. No field may occur
twice, and a list may not be longer than the structure. -/
def fieldsOf? (names : List String) : Document → Option (List (String × Document))
  | list items => if items.length ≤ names.length then some (names.zip items) else none
  | record fields => do
    let named ← fields.mapM fun (name, item) => name.map fun name => (name, item)
    let known := named.filter fun (name, _) => names.contains name
    guard (known.map (·.1)).Nodup
    pure known
  | _ => none

def natural? : Document → Option Nat
  | number (some n) => if n < numberBound then some n else none
  | _ => none

def text? : Document → Option String
  | text content => content
  | _ => none

def address? (document : Document) : Option SocketAddress := do
  SocketAddress.parse? (← document.text?)

/-- The policy with exactly a name. -/
def evictionNamed? (name : String) : Option EvictionKind :=
  if name = EvictionKind.lru.name then some .lru
  else if name = EvictionKind.lfu.name then some .lfu
  else none

/-- A policy is its name, or a record that holds nothing under its name. -/
def eviction? : Document → Option EvictionKind
  | text (some name) => evictionNamed? name
  | record [(some name, null)] => evictionNamed? name
  | _ => none

def listOf? {α : Type} (read : Document → Option α) : Document → Option (List α)
  | list items => items.mapM read
  | _ => none

def field? {α : Type} (fields : List (String × Document)) (name : String)
    (read : Document → Option α) (absent : α) : Option α :=
  match fields.lookup name with
  | none => some absent
  | some document => read document

end Document

open Document

/-- Reads a peer, which has no defaults. -/
def Peer.ofDocument? (document : Document) : Option Peer := do
  let fields ← document.fieldsOf? ["id", "addr"]
  let id ← (← fields.lookup "id").text?
  let address ← (← fields.lookup "addr").address?
  pure ⟨id, address⟩

def Store.ofDocument? (document : Document) : Option Store := do
  let fields ← document.fieldsOf? ["capacity", "segments", "eviction", "reaper_interval_ms"]
  let absent : Store := {}
  let capacity ← field? fields "capacity" natural? absent.capacity
  let segments ← field? fields "segments" natural? absent.segments
  let eviction ← field? fields "eviction" eviction? absent.eviction
  let reaperMillis ← field? fields "reaper_interval_ms" natural? absent.reaperMillis
  pure { capacity, segments, eviction, reaperMillis }

def ofDocument? (document : Document) : Option Settings := do
  let fields ← document.fieldsOf? ["node_id", "bind", "peers", "replication_factor",
    "virtual_nodes", "connect_timeout_ms", "request_timeout_ms", "handoff_interval_ms", "engine"]
  let absent : Settings := {}
  let nodeId ← field? fields "node_id" (fun d => d.text?.map some) absent.nodeId
  let bind ← field? fields "bind" address? absent.bind
  let peers ← field? fields "peers" (listOf? Peer.ofDocument?) absent.peers
  let replicationFactor ← field? fields "replication_factor" natural? absent.replicationFactor
  let virtualNodes ← field? fields "virtual_nodes" natural? absent.virtualNodes
  let connectMillis ← field? fields "connect_timeout_ms" natural? absent.connectMillis
  let requestMillis ← field? fields "request_timeout_ms" natural? absent.requestMillis
  let handoffMillis ← field? fields "handoff_interval_ms" natural? absent.handoffMillis
  let store ← field? fields "engine" Store.ofDocument? absent.store
  pure ⟨nodeId, bind, peers, replicationFactor, virtualNodes, connectMillis, requestMillis,
    handoffMillis, store⟩

def ofText? (content : String) : Option Settings := do
  ofDocument? (← Document.parse? content)

end ReplicatedCache.Settings
