import ReplicatedCache.Entry
import ReplicatedCache.Eviction.Policy
import ReplicatedCache.Recency.Map

/-! # Segments

A segment holds a bounded number of entries in access order and asks its policy
before a new key enters. Reading and writing a key make it the newest one; the
eldest key is the first to leave. Keys that leave to make room are reported to
the caller.

A conditional write on an absent key skips admission and may exceed the
capacity; the next write sheds the surplus.
-/

namespace ReplicatedCache

/-- A bounded store with its policy. -/
structure Segment (π : Type) where
  capacity : Nat
  residents : RecencyMap Entry
  policy : π

/-- What became of a write: whether it was stored, and which keys left for it. -/
structure PutOutcome where
  stored : Bool
  evicted : List String := []
deriving DecidableEq, Inhabited, Repr

/-- The answer of the condition of a conditional write. -/
inductive SwapDecision
  | store (entry : Entry)
  /-- The entry found is over; take it out. -/
  | expired
  | fail
deriving DecidableEq, Inhabited

/-- What became of a conditional write: the entry stored, if any, and whether an
expired entry was taken out. -/
structure SwapOutcome where
  stored : Option Entry := none
  expired : Bool := false
deriving DecidableEq, Inhabited

namespace Segment

variable {π : Type} [EvictionPolicy π]

/-- An empty segment. A capacity of zero counts as one. -/
def ofCapacity (capacity : Nat) (policy : π) : Segment π := ⟨max 1 capacity, .empty, policy⟩

instance [Inhabited π] : Inhabited (Segment π) := ⟨⟨1, .empty, default⟩⟩

/-- The entries in access order, eldest first. -/
def toList (segment : Segment π) : List (String × Entry) := segment.residents.toList

/-- The keys in access order, eldest first. -/
def keys (segment : Segment π) : List String := segment.residents.keys

def size (segment : Segment π) : Nat := segment.residents.size

def isEmpty (segment : Segment π) : Bool := segment.size == 0

def policyName (segment : Segment π) : String := EvictionPolicy.name segment.policy

/-- Looks an entry up without making its key newer. -/
def peek (segment : Segment π) (key : String) : Option Entry := segment.residents.find? key

def deadlineOf (segment : Segment π) (key : String) : Option Instant :=
  (segment.peek key).map Entry.deadline

def occupancy (segment : Segment π) (candidate : String) : Occupancy where
  size := segment.size
  holdsCandidate := segment.residents.contains candidate
  eldest := segment.residents.eldest?

/-- Takes a key out and tells the policy, if the key is there. -/
def remove (segment : Segment π) (key : String) : Segment π × Option Entry :=
  match segment with
  | ⟨capacity, residents, policy⟩ =>
    match residents.find? key with
    | none => (⟨capacity, residents, policy⟩, none)
    | some entry =>
      (⟨capacity, residents.erase key, EvictionPolicy.recordRemoval policy key⟩, some entry)

/-- Places an entry at the newest end without telling the policy. -/
def place (segment : Segment π) (key : String) (entry : Entry) : Segment π :=
  match segment with
  | ⟨capacity, residents, policy⟩ => ⟨capacity, residents.insert key entry, policy⟩

def recordAccess (segment : Segment π) (key : String) : Segment π :=
  match segment with
  | ⟨capacity, residents, policy⟩ => ⟨capacity, residents, EvictionPolicy.recordAccess policy key⟩

/-- Places an entry at the newest end and tells the policy. -/
def insert (segment : Segment π) (key : String) (entry : Entry) : Segment π :=
  (segment.place key entry).recordAccess key

/-- Takes out the `count` eldest keys and tells which they were. -/
def shed (segment : Segment π) : (count : Nat) → Segment π × List String
  | 0 => (segment, [])
  | count + 1 =>
    match segment.residents.eldest? with
    | none => (segment, [])
    | some victim =>
      let (segment, _) := segment.remove victim
      let (segment, victims) := segment.shed count
      (segment, victim :: victims)

def shrink (segment : Segment π) : Segment π × List String :=
  segment.shed (segment.size - segment.capacity)

def askAdmission (segment : Segment π) (candidate : String) : Segment π × Admission :=
  let seen := segment.occupancy candidate
  match segment with
  | ⟨capacity, residents, policy⟩ =>
    let (policy, answer) := EvictionPolicy.admission policy candidate seen capacity
    (⟨capacity, residents, policy⟩, answer)

/-- Writes an entry if the policy admits its key. A contested admission has
already counted as an access of the candidate, so it is not recorded again. -/
def put (segment : Segment π) (key : String) (entry : Entry) : Segment π × PutOutcome :=
  match segment.askAdmission key with
  | (segment, .reject) => (segment, { stored := false })
  | (segment, .accept) =>
    let (segment, evicted) := (segment.insert key entry).shrink
    (segment, { stored := true, evicted })
  | (segment, .evict victim) =>
    let (segment, removed) := segment.remove victim
    -- a victim that is not here makes no room; `shrink` sheds the eldest key instead
    let named := if removed.isSome then [victim] else []
    let (segment, evicted) := (segment.place key entry).shrink
    (segment, { stored := true, evicted := named ++ evicted })

def makeRoom (segment : Segment π) (key : String) : Segment π × List String :=
  if !segment.residents.contains key && decide (segment.capacity ≤ segment.size) then
    segment.shed 1
  else (segment, [])

def putForce (segment : Segment π) (key : String) (entry : Entry) : Segment π × PutOutcome :=
  let (segment, early) := segment.makeRoom key
  let (segment, late) := (segment.insert key entry).shrink
  (segment, { stored := true, evicted := early ++ late })

/-- Looks an entry up and makes its key the newest one. -/
def get (segment : Segment π) (key : String) : Segment π × Option Entry :=
  match segment with
  | ⟨capacity, residents, policy⟩ =>
    match residents.find? key with
    | none => (⟨capacity, residents, policy⟩, none)
    | some entry =>
      (⟨capacity, residents.insert key entry, EvictionPolicy.recordAccess policy key⟩, some entry)

def removeIfDue (segment : Segment π) (key : String) (deadline : Instant) :
    Segment π × Bool :=
  if segment.deadlineOf key = some deadline then
    let (segment, _) := segment.remove key
    (segment, true)
  else (segment, false)

def compareAndSwap (segment : Segment π) (key : String) (decision : Option Entry → SwapDecision) :
    Segment π × SwapOutcome :=
  match decision (segment.peek key) with
  | .store entry => (segment.insert key entry, { stored := some entry })
  | .expired =>
    let (segment, removed) := segment.remove key
    (segment, { expired := removed.isSome })
  | .fail => (segment, {})

/-- Empties the segment, tells the policy about every key, and counts them. -/
def clear (segment : Segment π) : Segment π × Nat :=
  let policy := segment.keys.foldl EvictionPolicy.recordRemoval segment.policy
  (⟨segment.capacity, .empty, policy⟩, segment.size)

/-- Visits a copy of the entries, eldest first. The visitor may change the
segment; what it changes is not visited. -/
def visit {σ : Type} (segment : Segment π)
    (visitor : Segment π → σ → String → Entry → Segment π × σ) (start : σ) : Segment π × σ :=
  segment.toList.foldl (fun (segment, s) (key, entry) => visitor segment s key entry)
    (segment, start)

end Segment

end ReplicatedCache
