import Mathlib.Algebra.BigOperators.Group.Finset.Basic
import Mathlib.Data.UInt
import ReplicatedCache.Proofs.Engine.Restoring

/-! # What a fingerprint depends on

A fingerprint adds up digests of the live entries, one for each, and the sum wraps
around. No key is bound twice, so the sum runs over the set of what is live, and
neither the segments that hold the entries, nor their order, nor what is over and still
there leaves a trace in it.
-/

namespace ReplicatedCache

namespace Seen

def digest (seen : Seen) : UInt64 := Engine.entryDigest seen.key seen.value seen.deadline

/-- The fingerprint of a set of live entries. -/
def fingerprintOf (contents : Finset Seen) : UInt64 :=
  Engine.fingerprintSeed + ∑ seen ∈ contents, seen.digest

end Seen

namespace Engine

variable {A : Type} {engine : Engine A} {now : Instant}

/-- The keys with values and deadlines that an engine holds and that are not over. -/
def contents (engine : Engine A) (now : Instant) : Finset Seen :=
  ((engine.shards.entries.map Seen.of).filter (·.live now)).toFinset

/-- A visit shows the contents, each of them once. -/
theorem toFinset_seen (engine : Engine A) (now : Instant) :
    (engine.seen now).toFinset = engine.contents now := by
  rw [contents, List.filter_map, seen_eq, dump]
  rfl

theorem nodup_seen (hs : engine.shards.Sound) (now : Instant) : (engine.seen now).Nodup :=
  (nodup_keys_seen hs now).of_map

/-- Digests that are added up one by one are added to where the sum starts. -/
theorem foldl_digest (list : List Seen) (start : UInt64) :
    list.foldl (fun sum seen => sum + seen.digest) start =
      start + (list.map Seen.digest).sum := by
  induction list generalizing start with
  | nil => exact (add_zero start).symm
  | cons first rest ih => rw [List.foldl_cons, ih, List.map_cons, List.sum_cons, add_assoc]

/-- The fingerprint is that of the set of what is live. -/
theorem fingerprint_eq_fingerprintOf (hs : engine.shards.Sound) (now : Instant) :
    engine.fingerprint now = Seen.fingerprintOf (engine.contents now) :=
  calc engine.fingerprint now
      = (engine.seen now).foldl (fun sum seen => sum + seen.digest) fingerprintSeed :=
        fingerprint_eq engine now
    _ = fingerprintSeed + ((engine.seen now).map Seen.digest).sum := foldl_digest _ _
    _ = fingerprintSeed + ∑ seen ∈ (engine.seen now).toFinset, seen.digest := by
        rw [List.sum_toFinset _ (nodup_seen hs now)]
    _ = Seen.fingerprintOf (engine.contents now) := by rw [toFinset_seen]; rfl

/-- An engine into which a list was restored that any of its segments has places for
holds all of it, whatever its segments are. -/
theorem Restored.contents_eq {config : EngineConfig} {list : List Seen}
    (h : Restored config list engine) (hfits : list.length ≤ shareOf config) (now : Instant) :
    engine.contents now = (list.filter (·.live now)).toFinset := by
  have hhomed (i : Nat) :
      (engine.shards.entriesAt i).map Seen.of = Seen.homed config i list := by
    rw [h.entriesAt_eq, rtake_of_length_le]
    exact Nat.le_trans (List.length_filter_le _ _) hfits
  have hcount : engine.shards.count = max 1 config.segments :=
    Shards.size_segments_of_capacities h.capacities
  have hall (seen : Seen) : seen ∈ engine.shards.entries.map Seen.of ↔ seen ∈ list := by
    rw [Shards.entries_eq_flatMap, List.map_flatMap, List.mem_flatMap]
    simp only [hhomed]
    constructor
    · rintro ⟨i, -, hmem⟩
      exact List.mem_of_mem_filter hmem
    · intro hmem
      have hlt : config.home seen.key < engine.shards.count := by
        rw [hcount]
        exact Nat.mod_lt _ (Nat.lt_of_lt_of_le Nat.zero_lt_one (Nat.le_max_left ..))
      exact ⟨config.home seen.key, List.mem_range.mpr hlt,
        List.mem_filter.mpr ⟨hmem, decide_eq_true rfl⟩⟩
  ext seen
  rw [contents, List.mem_toFinset, List.mem_toFinset, List.mem_filter, List.mem_filter, hall]

end Engine

namespace Program

variable {ρ σ : Type}

/-- Whatever two programs do with engines of whatever configurations, and whenever one
looks at them, in between or in the end and at whatever times: engines with the same
live keys, values and deadlines have the same fingerprint. -/
theorem fingerprint_of_contents_throughout (config config' : EngineConfig) (depth depth' : Nat)
    (program : Program ρ) (program' : Program σ) :
    program.Faithful config depth ∧ program'.Faithful config' depth' ∧
      ∀ sight ∈ program.sights config depth, ∀ sight' ∈ program'.sights config' depth',
        ∀ now now', sight.contents now = sight'.contents now' →
          sight.fingerprint now = sight'.fingerprint now' := by
  obtain ⟨hfaithful, hmoments⟩ := program.witnessed_spec config depth
  obtain ⟨hfaithful', hmoments'⟩ := program'.witnessed_spec config' depth'
  refine ⟨hfaithful, hfaithful', ?_⟩
  intro sight hsight sight' hsight' now now' hcontents
  have hs := (hmoments sight hsight).orderly.shards
  have hs' := (hmoments' sight' hsight').orderly.shards
  rw [Engine.fingerprint_eq_fingerprintOf hs, Engine.fingerprint_eq_fingerprintOf hs', hcontents]

/-- The same entries in another order, in three segments instead of one, and beside them
a key that is over in the meantime. -/
theorem fingerprint_restoring :
    let one := restoring 0 [⟨"a", "v".toUTF8, 0⟩, ⟨"b", "w".toUTF8, 9⟩]
    let other := restoring 0 [⟨"b", "w".toUTF8, 9⟩, ⟨"c", "v".toUTF8, 1⟩, ⟨"a", "v".toUTF8, 0⟩]
    (one.carriedOut ⟨4, 1, .lru⟩ 0).1.fingerprint 5 =
      (other.carriedOut ⟨9, 3, .lfu⟩ 0).1.fingerprint 7 := by
  intro one other
  have hone := (restored_restoring ⟨4, 1, .lru⟩ 0 0
    [⟨"a", "v".toUTF8, 0⟩, ⟨"b", "w".toUTF8, 9⟩]
    (by decide) (by decide)).contents_eq (by decide) 5
  have hother := (restored_restoring ⟨9, 3, .lfu⟩ 0 0
    [⟨"b", "w".toUTF8, 9⟩, ⟨"c", "v".toUTF8, 1⟩, ⟨"a", "v".toUTF8, 0⟩]
    (by decide) (by decide)).contents_eq (by decide) 7
  obtain ⟨-, -, hsame⟩ :=
    fingerprint_of_contents_throughout ⟨4, 1, .lru⟩ ⟨9, 3, .lfu⟩ 0 0 one other
  exact hsame _ (List.mem_append_right _ List.mem_cons_self) _
    (List.mem_append_right _ List.mem_cons_self) 5 7
    (hone.trans ((by decide +kernel : _ = _).trans hother.symm))

end Program

end ReplicatedCache
