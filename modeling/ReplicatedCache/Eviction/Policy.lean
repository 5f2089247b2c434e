import ReplicatedCache.Eviction.Sketch

/-! # Eviction policies

A segment keeps its keys in access order and asks its policy before it lets a
key in. The policy decides whether the candidate enters and who leaves for it,
and hears of every access and removal. Two policies are built in:

* least recently used: every candidate enters, for the eldest key if need be;
* least frequently used: at capacity a candidate enters only if its estimated
  frequency is above that of the eldest key.
-/

namespace ReplicatedCache

inductive Admission
  | accept
  | evict (victim : String)
  | reject
deriving DecidableEq, Inhabited, Repr

structure Occupancy where
  size : Nat
  holdsCandidate : Bool
  eldest : Option String
deriving DecidableEq, Inhabited, Repr

namespace Occupancy

/-- Whether a candidate enters without anyone leaving. -/
def hasRoom (seen : Occupancy) (capacity : Nat) : Bool :=
  seen.holdsCandidate || decide (seen.size < capacity)

end Occupancy

class EvictionPolicy (π : Type) where
  /-- Whether a candidate may enter a segment of a capacity. -/
  admission : π → (candidate : String) → Occupancy → (capacity : Nat) → π × Admission
  /-- Hears that a key was written or read. -/
  recordAccess : π → String → π
  /-- Hears that a key left. -/
  recordRemoval : π → String → π
  name : π → String

inductive EvictionKind
  | lru
  | lfu
deriving DecidableEq, Inhabited, Repr

inductive StandardPolicy
  | lru
  | lfu (sketch : Sketch)

namespace EvictionKind

def name : EvictionKind → String
  | lru => "lru"
  | lfu => "lfu"

def build : EvictionKind → (capacity : Nat) → StandardPolicy
  | lru, _ => .lru
  | lfu, capacity => .lfu (.ofCapacity capacity)

/-- A name in the form in which it is looked up: ASCII letters in lower case. -/
def normalize (name : String) : String := name.map Char.toLower

/-- Looks a policy up by name; ASCII letters match in either case. -/
def ofName? (name : String) : Option EvictionKind :=
  let name := normalize name
  if name = "lru" then some lru else if name = "lfu" then some lfu else none

end EvictionKind

namespace StandardPolicy

instance : Inhabited StandardPolicy := ⟨.lru⟩

/-- The estimate of a key's frequency that decides about admission. -/
def estimate : StandardPolicy → String → UInt8
  | .lru, _ => 0
  | .lfu sketch, key => sketch.estimate key

def admission (policy : StandardPolicy) (candidate : String) (seen : Occupancy) (capacity : Nat) :
    StandardPolicy × Admission :=
  if seen.hasRoom capacity then (policy, .accept)
  else match seen.eldest, policy with
    | none, policy => (policy, .accept)
    | some victim, .lru => (.lru, .evict victim)
    | some victim, .lfu sketch =>
      let sketch := sketch.increment candidate
      let answer := if sketch.estimate victim < sketch.estimate candidate
        then .evict victim else .reject
      (.lfu sketch, answer)

def recordAccess : StandardPolicy → String → StandardPolicy
  | .lru, _ => .lru
  | .lfu sketch, key => .lfu (sketch.increment key)

def kind : StandardPolicy → EvictionKind
  | .lru => .lru
  | .lfu _ => .lfu

instance : EvictionPolicy StandardPolicy where
  admission := admission
  recordAccess := recordAccess
  recordRemoval policy _ := policy
  name policy := policy.kind.name

end StandardPolicy

end ReplicatedCache
