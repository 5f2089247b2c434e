import ReplicatedCache.Engine.Contents
import ReplicatedCache.Proofs.Engine.Bindings

/-! # The operations signal by signal

Each operation as one expression: what it does to the shards, the queue and the
counter, and which signals it issues in between. What the home of a key answers is
told by the map from keys to entries that the shards are.
-/

namespace ReplicatedCache.Engine

variable {A : Type} (hear : Hearing A) (engine : Engine A) (now : Instant) (key : String)

theorem onHome_eq {α : Type}
    (operation : Segment StandardPolicy → Segment StandardPolicy × α) :
    engine.onHome key operation =
      ({ engine with shards := (engine.shards.onHome key operation).1 },
        (engine.shards.onHome key operation).2) := rfl

def fresh (value : Value) (deadline : Instant) : Entry := ⟨value, deadline, engine.freshToken⟩

def putOutcome (value : Value) (ttl : Span) : PutOutcome :=
  (engine.shards.put key (engine.fresh value (deadlineAfter now ttl))).2

def afterPut (value : Value) (ttl : Span) : Engine A :=
  { engine with
    nextToken := engine.freshToken + 1
    shards := (engine.shards.put key (engine.fresh value (deadlineAfter now ttl))).1 }

/-- A `set` asks the segment first, then tells the evictions, and tracks the deadline and tells
the key last. -/
theorem set_eq (value : Value) (ttl : Span) :
    engine.set hear now key value ttl =
      let told := (engine.afterPut now key value ttl).reportEvictions hear
        (engine.putOutcome now key value ttl).evicted
      if (engine.putOutcome now key value ttl).stored then
        ((hear (told.trackExpiry key (deadlineAfter now ttl)) (.event (.set key))).count .sets,
          true)
      else (told.count .rejectedSets, false) := by
  unfold set mint
  dsimp only
  rw [onHome_eq]
  rfl

theorem getWithToken_eq :
    engine.getWithToken hear now key =
      let looked : Engine A := { engine with shards := engine.shards.get key }
      match engine.shards.find? key with
      | none => (looked.count .misses, none)
      | some entry =>
        if entry.expired now then
          ((({ looked with shards := looked.shards.remove key }).reportExpiry hear key).count
            .misses, none)
        else (looked.count .hits, some (entry.value, entry.token)) := by
  unfold getWithToken
  rw [onHome_eq, Shards.onHome_snd, Segment.get_snd]
  change (match engine.shards.find? key with | none => _ | some entry => _) = _
  cases hfind : engine.shards.find? key with
  | none => rfl
  | some entry =>
      dsimp only
      split
      next =>
        have hdue : ((engine.shards.get key).segmentOf key).deadlineOf key =
            some entry.deadline := by
          apply Segment.deadlineOf_eq_some_iff.mpr
          exact ⟨entry, (Shards.find?_get engine.shards key key).trans hfind, rfl⟩
        have hremove : ((engine.shards.get key).onHome key
              (·.removeIfDue key entry.deadline)).1 = (engine.shards.get key).remove key :=
          Shards.onHome_congr ((Segment.removeIfDue_fst _ _ _).trans (if_pos hdue))
        rw [← Shards.get, onHome_eq]
        dsimp only
        rw [Shards.onHome_snd, Segment.removeIfDue_snd, decide_eq_true hdue, hremove]
        rfl
      next => rfl

theorem delete_eq :
    engine.delete hear now key =
      let removed : Engine A := { engine with shards := engine.shards.remove key }
      match engine.shards.find? key with
      | none => (removed, false)
      | some entry =>
        if entry.expired now then (removed.reportExpiry hear key, false)
        else
          (hear (hear (removed.count .deletes) (.event (.delete key))) (.removal key .deleted),
            true) := by
  unfold delete
  rw [onHome_eq, Shards.onHome_snd, Segment.remove_snd]
  rfl

theorem compareAndSwap_eq (value : Value) (expected : Token) (ttl : Span) :
    engine.compareAndSwap hear now key value expected ttl =
      match engine.shards.find? key with
      | none => (engine, .notFound)
      | some found =>
        if found.expired now then
          (({ engine with shards := engine.shards.remove key }).reportExpiry hear key, .notFound)
        else if found.token ≠ expected then (engine, .conflict)
        else
          let entry := engine.fresh value (swapDeadline now ttl found)
          let stored : Engine A :=
            { engine with
              nextToken := engine.freshToken + 1
              shards := engine.shards.insert key entry }
          ((hear (stored.trackExpiry key entry.deadline) (.event (.set key))).count .sets,
            .stored entry.token) := by
  have hpeek : (engine.shards.segmentOf key).peek key = engine.shards.find? key := rfl
  unfold compareAndSwap
  dsimp only
  rw [onHome_eq, Shards.onHome_snd, Segment.compareAndSwap_eq, hpeek,
    Shards.onHome_compareAndSwap]
  cases hfind : engine.shards.find? key with
  | none => rfl
  | some found =>
      dsimp only
      by_cases hexpired : found.expired now
      · have hdecision : swapDecision now value expected ttl engine.freshToken (some found) =
            .expired := if_pos hexpired
        rw [hdecision, if_pos hexpired]
        rfl
      · by_cases hstale : found.token ≠ expected
        · have hdecision : swapDecision now value expected ttl engine.freshToken (some found) =
              .fail := (if_neg hexpired).trans (if_pos hstale)
          rw [hdecision, if_neg hexpired, if_pos hstale]
          rfl
        · have hdecision : swapDecision now value expected ttl engine.freshToken (some found) =
              .store (engine.fresh value (swapDeadline now ttl found)) :=
            (if_neg hexpired).trans (if_neg hstale)
          rw [hdecision, if_neg hexpired, if_neg hstale]

/-- The queue once a deadline has been noted. -/
def tracked (deadline : Instant) : ExpiryQueue :=
  if deadline ≤ 0 then engine.expiries else
    let queue := engine.expiries.push ⟨deadline, key, engine.shards.home key⟩
    if engine.compactAbove < queue.size then (queue.compact (isCurrent engine.shards)).queue
    else queue

theorem trackExpiry_eq (deadline : Instant) :
    engine.trackExpiry key deadline =
      { engine with expiries := engine.tracked key deadline } := by
  unfold trackExpiry tracked
  split
  next => rfl
  next =>
    dsimp only
    split
    next => rfl
    next => rfl

/-- A note takes the entry that it speaks of out of its segment. -/
theorem reapOne_eq (note : Pending) :
    engine.reapOne hear note =
      if isCurrent engine.shards note then
        (({ engine with
          shards := engine.shards.removeAt note.segment note.key }).reportExpiry hear note.key,
          true)
      else (engine, false) := by
  unfold reapOne isCurrent Shards.removeAt
  split
  next hlt =>
    rw [Array.getElem?_eq_getElem hlt]
    dsimp only
    rw [Shards.onSegment_eq, Segment.removeIfDue_snd, Segment.removeIfDue_fst]
    by_cases hdue : engine.shards.segments[note.segment].deadlineOf note.key = some note.deadline
    · simp only [hdue, if_true, decide_true, beq_self_eq_true, Shards.onSegment_eq]
    · simp only [hdue, if_false, decide_false, beq_eq_false_iff_ne.mpr hdue,
        Array.set_getElem_self, Bool.false_eq_true]
  next hge =>
    rw [Array.getElem?_eq_none (Nat.not_lt.mp hge)]
    rfl

def reapStep (state : Engine A × Nat) (note : Pending) : Engine A × Nat :=
  ((state.1.reapOne hear note).1,
    if (state.1.reapOne hear note).2 then state.2 + 1 else state.2)

/-- The notes that are due, in order. -/
def dueNotes : List Pending :=
  (engine.expiries.pending.filter fun note => decide (note.deadline ≤ now)).mergeSort Pending.le

/-- The engine once the due notes have been taken from the queue. -/
def drained : Engine A :=
  { engine with expiries :=
    ⟨engine.expiries.pending.filter fun note => !decide (note.deadline ≤ now)⟩ }

/-- A sweep drains the due notes first, and only then takes them one by one. -/
theorem reap_eq :
    engine.reap hear now =
      (engine.dueNotes now).foldl (reapStep hear) (engine.drained now, 0) := by
  unfold reap ExpiryQueue.drainDue
  rw [List.partition_eq_filter_filter]
  rfl

theorem replay_set_eq (value : Value) (deadline : Instant) :
    engine.replay now (.set key value deadline) =
      if 0 < deadline ∧ deadline ≤ now then
        { engine with shards := engine.shards.remove key }
      else
        ({ engine with
          nextToken := engine.freshToken + 1
          shards := (engine.shards.putForce key (engine.fresh value deadline)).1
          stats := engine.stats.add .evictions (UInt64.ofNat
            (engine.shards.putForce key (engine.fresh value deadline)).2.evicted.length)
          }).trackExpiry key deadline := by
  unfold replay mint
  dsimp only
  by_cases hover : 0 < deadline ∧ deadline ≤ now
  · rw [if_pos hover, if_pos hover]
    rfl
  · rw [if_neg hover, if_neg hover, onHome_eq]
    rfl

end ReplicatedCache.Engine
