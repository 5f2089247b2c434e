import ReplicatedCache.Engine.Basic

/-! # Contents of an engine

Dumps, visits, fingerprints, and the silent path by which recorded contents
return into an engine. Restoring tells nobody: it publishes no events and
removal listeners do not hear of the keys that it displaces.
-/

namespace ReplicatedCache

inductive Record
  | set (key : String) (value : Value) (deadline : Instant)
  | delete (key : String)
deriving DecidableEq, Inhabited

/-- How many records of a restored list were applied, and how many could not be
decoded. -/
structure RestoreSummary where
  applied : Nat := 0
  skipped : Nat := 0
deriving DecidableEq, Inhabited, Repr

namespace Engine

variable {A : Type}

/-- The live entries, segment by segment, eldest first in each. -/
def dump (engine : Engine A) (now : Instant) : List (String × Entry) :=
  engine.shards.entries.filter fun (_, entry) => entry.live now

/-- Visits every live entry, segment by segment. A segment is copied when the
visit reaches it, so the visitor may change the engine; liveness is judged by
the time at which the visit began. -/
def visit {σ : Type} (engine : Engine A) (now : Instant)
    (visitor : Engine A → σ → String → Entry → Engine A × σ) (start : σ) : Engine A × σ :=
  (List.range engine.segmentCount).foldl (fun (engine, s) i =>
      (engine.shards.entriesAt i).foldl (fun (engine, s) (key, entry) =>
          if entry.expired now then (engine, s) else visitor engine s key entry)
        (engine, s))
    (engine, start)

def fingerprintSeed : UInt64 := 0x2545F4914F6CDD1D

def entryDigest (key : String) (value : Value) (deadline : Instant) : UInt64 :=
  let h : UInt64 := 17
  let h := h * 31 + Hash.text key
  let h := h * 31 + Hash.bytes value
  h * 31 + deadline.toUInt64

/-- A digest of the live entries that does not depend on their order. -/
def fingerprint (engine : Engine A) (now : Instant) : UInt64 :=
  (engine.dump now).foldl
    (fun sum (key, entry) => sum + entryDigest key entry.value entry.deadline) fingerprintSeed

/-- Applies one recorded change. A recorded entry that is over by now takes its
key out instead; any other enters without asking for admission. -/
def replay (engine : Engine A) (now : Instant) : Record → Engine A
  | .delete key => (engine.onHome key (·.remove key)).1
  | .set key value deadline =>
    if 0 < deadline ∧ deadline ≤ now then (engine.onHome key (·.remove key)).1
    else
      let (engine, token) := engine.mint
      let (engine, outcome) := engine.onHome key (·.putForce key ⟨value, deadline, token⟩)
      let engine := { engine with
        stats := engine.stats.add .evictions (UInt64.ofNat outcome.evicted.length) }
      engine.trackExpiry key deadline

/-- Applies a list of records, of which those that could not be decoded are
skipped. -/
def restore (engine : Engine A) (now : Instant) (records : List (Option Record)) :
    Engine A × RestoreSummary :=
  records.foldl (fun (engine, summary) record =>
      match record with
      | some record => (engine.replay now record, { summary with applied := summary.applied + 1 })
      | none => (engine, { summary with skipped := summary.skipped + 1 }))
    (engine, {})

def records (engine : Engine A) (now : Instant) : List (Option Record) :=
  (engine.dump now).map fun (key, entry) => some (.set key entry.value entry.deadline)

end Engine

end ReplicatedCache
