import Std.Data.ExtTreeMap
import ReplicatedCache.Hash.Xxh3

/-! # The ring

Nodes and keys are placed on a circle of 64-bit positions. Every node owns
several positions, which are fixed by its id; the replicas of a key are the
owners met first when walking up from the position of the key and around.
-/

namespace ReplicatedCache

/-- Positions with their owners. -/
structure Ring where
  /-- The number of positions that every node is given. -/
  virtualNodes : Nat
  owners : Std.ExtTreeMap UInt64 String compare

namespace Ring

def defaultVirtualNodes : Nat := 64

/-- An empty ring. A number of virtual nodes of zero counts as one. -/
def ofVirtualNodes (virtualNodes : Nat) : Ring := ⟨max 1 virtualNodes, ∅⟩

instance : Inhabited Ring := ⟨ofVirtualNodes defaultVirtualNodes⟩

/-- The text whose hash is the `i`-th position of a node. -/
def label (id : String) (i : Nat) : String := id ++ "#" ++ toString i

def place (id : String) (i : Nat) : UInt64 := Hash.text (label id i)

/-- The positions of a node, with repetitions if two of its labels collide. -/
def placesOf (ring : Ring) (id : String) : List UInt64 :=
  (List.range ring.virtualNodes).map (place id)

/-- Gives a node its positions. A position that another node owns changes hands. -/
def add (ring : Ring) (id : String) : Ring :=
  { ring with owners := (ring.placesOf id).foldl (fun owners p => owners.insert p id) ring.owners }

/-- Frees one position, if the node owns it. -/
def release (id : String) (owners : Std.ExtTreeMap UInt64 String compare) (p : UInt64) :
    Std.ExtTreeMap UInt64 String compare :=
  -- a position that changed hands stays with its new owner
  if owners[p]? = some id then owners.erase p else owners

def remove (ring : Ring) (id : String) : Ring :=
  { ring with owners := (ring.placesOf id).foldl (release id) ring.owners }

/-- The owners in the order of their positions, each as often as it owns one. -/
def ownerList (ring : Ring) : List String := ring.owners.toList.map (·.2)

/-- The owned positions in the order in which a walk from `start` meets them. -/
def walk (ring : Ring) (start : UInt64) : List (UInt64 × String) :=
  let places := ring.owners.toList
  places.filter (fun (p, _) => decide (start ≤ p)) ++
    places.filter (fun (p, _) => decide (p < start))

/-- The replicas of a key, leader first: the first `count` distinct owners that
a walk from the key's position meets. -/
def replicas (ring : Ring) (key : String) (count : Nat) : List String :=
  ((ring.walk (Hash.text key)).map (·.2)).eraseDups.take count

/-- The nodes on the ring, by id. -/
def nodes (ring : Ring) : List String :=
  ring.ownerList.eraseDups.mergeSort (fun a b => decide (a ≤ b))

def nodeCount (ring : Ring) : Nat := ring.nodes.length

def contains (ring : Ring) (id : String) : Bool := ring.ownerList.contains id

def isEmpty (ring : Ring) : Bool := ring.owners.isEmpty

end Ring

end ReplicatedCache
