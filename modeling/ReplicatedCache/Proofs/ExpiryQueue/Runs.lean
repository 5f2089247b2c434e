import Mathlib.Data.List.Perm.Subperm
import ReplicatedCache.Proofs.ExpiryQueue
import ReplicatedCache.Proofs.TextOrder

/-! # What becomes of pending notes

A queue is a multiset of notes. Draining hands out the notes that are due, as often as
they were pushed and in order, which is what comes out of a heap when its least note is
taken as long as it is due. A compaction asks about each distinct note once and leaves
one copy of those that are kept. So every note that was ever pushed has been handed out,
has been dropped by a compaction or by emptying the queue, or is still pending.
-/

namespace ReplicatedCache

namespace Pending

end Pending

namespace ExpiryQueue

variable {queue : ExpiryQueue} {now : Instant} {note : Pending}

/-! ## Draining -/

namespace Pops

variable {heap due rest : List Pending}

end Pops

section Compacting

variable {σ : Type} (keep : σ → Pending → σ × Bool)

/-- A predicate that writes down what it is asked and what it answers. -/
def watched (state : σ × List (Pending × Bool)) (note : Pending) :
    (σ × List (Pending × Bool)) × Bool :=
  let (after, accepted) := keep state.1 note
  ((after, state.2 ++ [(note, accepted)]), accepted)

/-- What a predicate is asked in a compaction, and what it answers. -/
def answered (queue : ExpiryQueue) (start : σ) : List (Pending × Bool) :=
  (queue.compactWith (watched keep) (start, [])).state.2

end Compacting

/-! ## Runs -/

inductive Call : Type 1
  | push (note : Pending)
  | drainDue (now : Instant)
  | compact {σ : Type} (keep : σ → Pending → σ × Bool) (start : σ)
  | clear

namespace Call

def drained (queue : ExpiryQueue) : Call → List Pending
  | .drainDue now => (queue.drainDue now).2
  | _ => []

/-- How many copies of a note a call drops. -/
def dropped (queue : ExpiryQueue) (note : Pending) : Call → Nat
  | .compact keep start =>
    if (note, true) ∈ queue.answered keep start then queue.pending.count note - 1
    else queue.pending.count note
  | .clear => queue.pending.count note
  | _ => 0

end Call

def apply (queue : ExpiryQueue) : Call → ExpiryQueue
  | .push note => queue.push note
  | .drainDue now => (queue.drainDue now).1
  | .compact keep start => (queue.compactWith keep start).queue
  | .clear => .empty

def run (queue : ExpiryQueue) (calls : List Call) : ExpiryQueue := calls.foldl apply queue

end ExpiryQueue

end ReplicatedCache
