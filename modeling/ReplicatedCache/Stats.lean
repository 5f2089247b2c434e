import ReplicatedCache.Time

/-! # Counters

What an engine counts. Every counter has 64 bits and wraps around.
-/

namespace ReplicatedCache

inductive Counter
  | hits
  | misses
  | sets
  | rejectedSets
  | deletes
  | evictions
  | expirations
deriving DecidableEq, Repr

namespace Counter

def all : List Counter := [hits, misses, sets, rejectedSets, deletes, evictions, expirations]

def name : Counter → String
  | hits => "hits"
  | misses => "misses"
  | sets => "sets"
  | rejectedSets => "rejected_sets"
  | deletes => "deletes"
  | evictions => "evictions"
  | expirations => "expirations"

def ofName? (name : String) : Option Counter := all.find? fun counter => counter.name == name

end Counter

/-- The values of all counters, and the total time spent in storing writes. -/
structure Stats where
  hits : UInt64 := 0
  misses : UInt64 := 0
  sets : UInt64 := 0
  rejectedSets : UInt64 := 0
  deletes : UInt64 := 0
  evictions : UInt64 := 0
  expirations : UInt64 := 0
  setMicros : UInt64 := 0
deriving DecidableEq, Inhabited, Repr

namespace Stats

def get (stats : Stats) : Counter → UInt64
  | .hits => stats.hits
  | .misses => stats.misses
  | .sets => stats.sets
  | .rejectedSets => stats.rejectedSets
  | .deletes => stats.deletes
  | .evictions => stats.evictions
  | .expirations => stats.expirations

def add (stats : Stats) (counter : Counter) (amount : UInt64) : Stats :=
  match counter with
  | .hits => { stats with hits := stats.hits + amount }
  | .misses => { stats with misses := stats.misses + amount }
  | .sets => { stats with sets := stats.sets + amount }
  | .rejectedSets => { stats with rejectedSets := stats.rejectedSets + amount }
  | .deletes => { stats with deletes := stats.deletes + amount }
  | .evictions => { stats with evictions := stats.evictions + amount }
  | .expirations => { stats with expirations := stats.expirations + amount }

def count (stats : Stats) (counter : Counter) : Stats := stats.add counter 1

/-- Adds the time one storing write took, in whole microseconds. A time too
long for 64 bits counts as the longest one. -/
def recordLatency (stats : Stats) (elapsed : Span) : Stats :=
  { stats with setMicros := stats.setMicros + UInt64.ofNat (min elapsed.micros (UInt64.size - 1)) }

/-- The share of lookups that found a live entry, zero before the first lookup. -/
def hitRatio (stats : Stats) : Float :=
  let lookups := stats.hits + stats.misses
  if lookups = 0 then 0.0 else stats.hits.toFloat / lookups.toFloat

@[simp] theorem get_add_self (stats : Stats) (counter : Counter) (amount : UInt64) :
    (stats.add counter amount).get counter = stats.get counter + amount := by
  cases counter <;> rfl

theorem add_zero (stats : Stats) (counter : Counter) : stats.add counter 0 = stats := by
  cases counter <;> simp [add]

/-- A counter is not disturbed by what another one counts. -/
theorem get_add_of_ne (stats : Stats) {counter other : Counter} (amount : UInt64)
    (h : other ≠ counter) : (stats.add counter amount).get other = stats.get other := by
  cases counter <;> cases other <;> first | rfl | exact absurd rfl h

end Stats

end ReplicatedCache
