import ReplicatedCache.Engine.Shards
import ReplicatedCache.ExpiryQueue
import ReplicatedCache.Notice
import ReplicatedCache.Stats

/-! # The engine

An engine holds the shards, the queue of pending expiries, the counter that
mints tokens, and the statistics. It has an audience, which hears of every
signal at the moment it is issued: each operation takes the way in which its
signals are heard as its first argument. What an audience does when it hears a
signal may change the engine, and the operation goes on with the engine that
the audience leaves.

Every operation takes the current time as an argument; no time passes inside
an operation.
-/

namespace ReplicatedCache

structure EngineConfig where
  /-- The total number of entries across all segments. -/
  capacity : Nat
  segments : Nat
  eviction : EvictionKind
deriving DecidableEq, Inhabited, Repr

/-- A local cache with an audience of type `A`. -/
structure Engine (A : Type) where
  shards : Shards
  expiries : ExpiryQueue
  /-- The queue of pending expiries is compacted once it holds more notes. -/
  compactAbove : Nat
  nextToken : Token
  stats : Stats
  audience : A

/-- How an audience hears a signal: the engine once everybody has been told. -/
abbrev Hearing (A : Type) := Engine A → Signal → Engine A

inductive SwapAnswer
  /-- Stored under the new token. -/
  | stored (token : Token)
  /-- The key is live but carries another token. -/
  | conflict
  /-- The key is absent or expired. -/
  | notFound
deriving DecidableEq, Inhabited, Repr

namespace SwapAnswer

def isStored : SwapAnswer → Bool
  | stored _ => true
  | _ => false

end SwapAnswer

namespace Engine

variable {A : Type}

/-- The queue of pending expiries is never compacted below this size. -/
def minCompaction : Nat := 64

/-- The capacity of each segment: an equal share, rounded up, and at least one. -/
def shareOf (config : EngineConfig) : Nat :=
  let count := max 1 config.segments
  max 1 ((config.capacity + count - 1) / count)

def create (config : EngineConfig) (audience : A) : Engine A :=
  -- the product wraps around, while its double stops at the largest number of 64 bits
  let capacity := UInt64.ofNat (shareOf config) * UInt64.ofNat (max 1 config.segments)
  { shards := Shards.create config.segments (shareOf config) config.eviction
    expiries := .empty
    compactAbove := max minCompaction (min (2 * capacity.toNat) (UInt64.size - 1))
    nextToken := 1
    stats := {}
    audience }

def segmentCount (engine : Engine A) : Nat := engine.shards.count

def capacity (engine : Engine A) : Nat := engine.shards.capacity

/-- The number of stored entries, with those that are expired but not yet taken out. -/
def size (engine : Engine A) : Nat := engine.shards.size

def isEmpty (engine : Engine A) : Bool := engine.shards.isEmpty

def pendingExpiries (engine : Engine A) : Nat := engine.expiries.size

def count (engine : Engine A) (counter : Counter) : Engine A :=
  { engine with stats := engine.stats.count counter }

/-- The token that the next storing write will carry: the counter, which skips zero. -/
def freshToken (engine : Engine A) : Token :=
  if engine.nextToken = 0 then 1 else engine.nextToken

def mint (engine : Engine A) : Engine A × Token :=
  ({ engine with nextToken := engine.freshToken + 1 }, engine.freshToken)

def onHome {α : Type} (engine : Engine A) (key : String)
    (operation : Segment StandardPolicy → Segment StandardPolicy × α) : Engine A × α :=
  match engine with
  | ⟨shards, expiries, compactAbove, nextToken, stats, audience⟩ =>
    let (shards, answer) := shards.onHome key operation
    (⟨shards, expiries, compactAbove, nextToken, stats, audience⟩, answer)

/-- Whether a note still speaks of the entry that its segment holds. -/
def isCurrent (shards : Shards) (note : Pending) : Bool :=
  match shards.segments[note.segment]? with
  | some segment => segment.deadlineOf note.key == some note.deadline
  | none => false

/-- Drops the notes whose entries were replaced or removed, and all duplicates. -/
def compactExpiries (engine : Engine A) : Engine A :=
  { engine with expiries := (engine.expiries.compact (isCurrent engine.shards)).queue }

/-- Notes when an entry will be due, unless it never is, and compacts the queue
if it has grown too long. -/
def trackExpiry (engine : Engine A) (key : String) (deadline : Instant) : Engine A :=
  if deadline ≤ 0 then engine else
    let engine := { engine with
      expiries := engine.expiries.push ⟨deadline, key, engine.shards.home key⟩ }
    if engine.compactAbove < engine.expiries.size then engine.compactExpiries else engine

section Operations

variable (hear : Hearing A)

def reportEvictions (engine : Engine A) (victims : List String) : Engine A :=
  victims.foldl (fun engine victim => hear (engine.count .evictions) (.removal victim .evicted))
    engine

def reportExpiry (engine : Engine A) (key : String) : Engine A :=
  hear (engine.count .expirations) (.removal key .expired)

/-- Stores a value if the policy of its segment admits the key. -/
def set (engine : Engine A) (now : Instant) (key : String) (value : Value) (ttl : Span) :
    Engine A × Bool :=
  let deadline := deadlineAfter now ttl
  let (engine, token) := engine.mint
  let (engine, outcome) := engine.onHome key (·.put key ⟨value, deadline, token⟩)
  -- a token is used up even if the write is rejected
  let engine := engine.reportEvictions hear outcome.evicted
  if outcome.stored then
    let engine := hear (engine.trackExpiry key deadline) (.event (.set key))
    (engine.count .sets, true)
  else
    (engine.count .rejectedSets, false)

/-- Reads a live value with its token. An expired entry is taken out. -/
def getWithToken (engine : Engine A) (now : Instant) (key : String) :
    Engine A × Option (Value × Token) :=
  let (engine, found) := engine.onHome key (·.get key)
  match found with
  | none => (engine.count .misses, none)
  | some entry =>
    if entry.expired now then
      let (engine, removed) := engine.onHome key (·.removeIfDue key entry.deadline)
      let engine := if removed then engine.reportExpiry hear key else engine
      (engine.count .misses, none)
    else
      (engine.count .hits, some (entry.value, entry.token))

def get (engine : Engine A) (now : Instant) (key : String) : Engine A × Option Value :=
  let (engine, found) := engine.getWithToken hear now key
  (engine, found.map (·.1))

/-- Deletes a key and tells whether it was live. -/
def delete (engine : Engine A) (now : Instant) (key : String) : Engine A × Bool :=
  let (engine, removed) := engine.onHome key (·.remove key)
  match removed with
  | none => (engine, false)
  | some entry =>
    if entry.expired now then
      (engine.reportExpiry hear key, false)
    else
      let engine := hear (engine.count .deletes) (.event (.delete key))
      (hear engine (.removal key .deleted), true)

/-- The deadline that a compare-and-swap gives an entry: the empty span keeps
the deadline that the entry has. -/
def swapDeadline (now : Instant) (ttl : Span) (found : Entry) : Instant :=
  if ttl.nanos = 0 then found.deadline else deadlineAfter now ttl

def swapDecision (now : Instant) (value : Value) (expected : Token) (ttl : Span) (fresh : Token) :
    Option Entry → SwapDecision
  | none => .fail
  | some found =>
    if found.expired now then .expired
    else if found.token ≠ expected then .fail
    else .store ⟨value, swapDeadline now ttl found, fresh⟩

/-- Replaces a value if the key still carries the expected token. A token is
minted only if the value is stored. -/
def compareAndSwap (engine : Engine A) (now : Instant) (key : String) (value : Value)
    (expected : Token) (ttl : Span) : Engine A × SwapAnswer :=
  -- an entry that is there but neither replaced nor expired carries another token
  let present := ((engine.shards.segmentOf key).peek key).isSome
  let fresh := engine.freshToken
  let (engine, outcome) := engine.onHome key
    (·.compareAndSwap key (swapDecision now value expected ttl fresh))
  match outcome.stored with
  | some entry =>
    let engine := { engine with nextToken := fresh + 1 }
    let engine := hear (engine.trackExpiry key entry.deadline) (.event (.set key))
    (engine.count .sets, .stored entry.token)
  | none =>
    if outcome.expired then (engine.reportExpiry hear key, .notFound)
    else (engine, if present then .conflict else .notFound)

/-- Takes out the entry of one due note if the entry still carries its deadline. -/
def reapOne (engine : Engine A) (note : Pending) : Engine A × Bool :=
  if h : note.segment < engine.shards.segments.size then
    let (shards, removed) := engine.shards.onSegment note.segment h
      (·.removeIfDue note.key note.deadline)
    let engine := { engine with shards }
    if removed then (engine.reportExpiry hear note.key, true) else (engine, false)
  else (engine, false)

/-- Takes out every entry that is due and counts them. -/
def reap (engine : Engine A) (now : Instant) : Engine A × Nat :=
  let (later, due) := engine.expiries.drainDue now
  -- the queue is relieved of the due notes before anybody hears of the first removal
  due.foldl (fun (engine, reaped) note =>
      let (engine, removed) := engine.reapOne hear note
      (engine, if removed then reaped + 1 else reaped))
    ({ engine with expiries := later }, 0)

end Operations

/-- Whether a key is live. Neither the access order nor the statistics change. -/
def contains (engine : Engine A) (now : Instant) (key : String) : Bool :=
  match (engine.shards.segmentOf key).peek key with
  | some entry => entry.live now
  | none => false

/-- Drops every entry. Nobody is told. -/
def clear (engine : Engine A) : Engine A :=
  { engine with expiries := .empty, shards := engine.shards.clear }

end Engine

end ReplicatedCache
