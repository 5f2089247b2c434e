import ReplicatedCache.Time

/-! # The queue of pending expiries

Every entry stored with a deadline leaves a note in a queue: which key, in
which segment, is due when. The queue hands out due notes in order and forgets
the others only when told to. A note may be stale, because its entry has been
replaced since, and the same note may be queued more than once.
-/

namespace ReplicatedCache

/-- A note that a key of a segment is due at a deadline. -/
structure Pending where
  deadline : Instant
  key : String
  segment : Nat
deriving DecidableEq, Inhabited, Repr

namespace Pending

/-- Notes are ordered by deadline, then key, then segment. -/
def order : Pending → Pending → Ordering :=
  compareLex (compareOn deadline) (compareLex (compareOn key) (compareOn segment))

instance : Ord Pending := ⟨order⟩

def le (a b : Pending) : Bool := (compare a b).isLE

end Pending

/-- The pending notes, newest first. Only their number and how often each
occurs can be observed. -/
structure ExpiryQueue where
  pending : List Pending := []
deriving DecidableEq, Inhabited

namespace ExpiryQueue

def empty : ExpiryQueue := {}

def size (queue : ExpiryQueue) : Nat := queue.pending.length

def isEmpty (queue : ExpiryQueue) : Bool := queue.pending.isEmpty

def push (queue : ExpiryQueue) (note : Pending) : ExpiryQueue := ⟨note :: queue.pending⟩

/-- Takes out every note whose deadline is at or before `now`, in order. -/
def drainDue (queue : ExpiryQueue) (now : Instant) : ExpiryQueue × List Pending :=
  let (due, later) := queue.pending.partition (fun note => decide (note.deadline ≤ now))
  (⟨later⟩, due.mergeSort Pending.le)

/-- Each pending note once, in order. -/
def distinct (queue : ExpiryQueue) : List Pending :=
  (queue.pending.mergeSort Pending.le).eraseReps

/-- What a compaction did: the state in which the predicate is left, how many notes left
the queue, and the queue that remains. -/
structure Compaction (σ : Type) where
  state : σ
  dropped : Nat
  queue : ExpiryQueue

/-- Asks a predicate, which carries a state, about a note. Notes that it accepts are put
in front of those that it has accepted before. -/
def sift {σ : Type} (keep : σ → Pending → σ × Bool) (sifted : σ × List Pending)
    (note : Pending) : σ × List Pending :=
  let (state, accepted) := keep sifted.1 note
  (state, if accepted then note :: sifted.2 else sifted.2)

/-- Keeps one copy of each note that a predicate accepts. The predicate is asked about
every distinct note once. -/
def compactWith {σ : Type} (queue : ExpiryQueue) (keep : σ → Pending → σ × Bool) (start : σ) :
    Compaction σ :=
  let (state, kept) := queue.distinct.foldl (sift keep) (start, [])
  { state, dropped := queue.size - kept.length, queue := ⟨kept.reverse⟩ }

/-- Compacts with a predicate that carries no state but what it was asked about. -/
def compact (queue : ExpiryQueue) (keep : Pending → Bool) : Compaction (List Pending) :=
  queue.compactWith (fun asked note => (note :: asked, keep note)) []

/-- The notes that were asked about, in order. -/
def Compaction.asked (compaction : Compaction (List Pending)) : List Pending :=
  compaction.state.reverse

end ExpiryQueue

end ReplicatedCache
