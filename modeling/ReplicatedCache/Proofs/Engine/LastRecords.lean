import Mathlib.Data.List.ReduceOption
import ReplicatedCache.Proofs.Engine.Thinning

/-! # The last record of a key decides

Records that are restored at one time are applied in order. As long as nobody has to leave
for them, the last record of each key decides what is held under it, and a record that
cannot be decoded is nobody's last one. Nothing is counted then, nothing is published, and
no listener is told.
-/

namespace ReplicatedCache

namespace Record

/-- What a record leaves under its key at a time, if anything: the value with its
deadline, unless that has passed. -/
def leaves (now : Instant) : Record → Option (Value × Instant)
  | .set _ value deadline =>
    if deadline ≤ 0 ∨ now < deadline then some (value, deadline) else none
  | .delete _ => none

theorem leaves_set (now : Instant) (key : String) (value : Value) (deadline : Instant) :
    (Record.set key value deadline).leaves now =
      if 0 < deadline ∧ deadline ≤ now then none else some (value, deadline) := by
  have hopen : deadline ≤ 0 ∨ now < deadline ↔ ¬ (0 < deadline ∧ deadline ≤ now) := by
    rw [not_and_or, Int64.not_lt, Int64.not_le]
  exact (if_congr hopen rfl rfl).trans (ite_not ..)

/-- The last record of a key among those that can be decoded. -/
def last? (key : String) (records : List (Option Record)) : Option Record :=
  (records.reduceOption.filter fun record => decide (record.key = key)).getLast?

/-- The last record for a key among two lists is sought in the second one first. -/
theorem last?_append (key : String) (first second : List (Option Record)) :
    last? key (first ++ second) = (last? key second).or (last? key first) := by
  rw [last?, List.reduceOption_append, List.filter_append, List.getLast?_append, last?, last?]

theorem last?_singleton (key : String) (record : Record) :
    last? key [some record] = if record.key = key then some record else none := by
  rw [last?, List.reduceOption_singleton, Option.toList_some, List.filter_singleton]
  by_cases heq : record.key = key
  · simp [heq]
  · simp [heq]

end Record

namespace Shards

variable {shards : Shards} {key : String} {entry : Entry}

/-- A restoring write for which nobody leaves binds its key and changes no other. -/
theorem find?_putForce_of_plain (h : (shards.putForce key entry).2.Plain) (other : String) :
    (shards.putForce key entry).1.find? other =
      if other = key then some entry else shards.find? other := by
  have hnobody := h.2
  rw [putForce, onHome_snd] at hnobody
  have hinsert : (shards.putForce key entry).1 = shards.insert key entry :=
    onHome_congr (Segment.putForce_of_nobody hnobody)
  rw [hinsert, find?_insert]

end Shards

namespace Engine

variable {A : Type} {engine : Engine A} {now : Instant}

/-- What is held under a key, live or not: the value and the deadline. -/
def held (engine : Engine A) (key : String) : Option (Value × Instant) :=
  (engine.shards.find? key).map fun entry => (entry.value, entry.deadline)

/-- Records have been applied to an engine: the last one of each key decides, the other
keys are as they were, nothing was counted and the audience has heard nothing. -/
structure Applied (now : Instant) (records : List (Option Record)) (engine after : Engine A) :
    Prop where
  held_eq : ∀ key record, Record.last? key records = some record →
    after.held key = record.leaves now
  find?_eq : ∀ key, Record.last? key records = none →
    after.shards.find? key = engine.shards.find? key
  stats_eq : after.stats = engine.stats
  audience_eq : after.audience = engine.audience

namespace Applied

/-- Records that are nobody's leave an engine as it is. -/
theorem nothing (now : Instant) (records : List (Option Record))
    (hnothing : ∀ key, Record.last? key records = none) (engine : Engine A) :
    Applied now records engine engine where
  held_eq key _ hlast := nomatch (hnothing key).symm.trans hlast
  find?_eq _ _ := rfl
  stats_eq := rfl
  audience_eq := rfl

/-- Applying one list and then another is applying both. -/
theorem append {first second : List (Option Record)} {between after : Engine A}
    (h : Applied now first engine between) (h' : Applied now second between after) :
    Applied now (first ++ second) engine after where
  held_eq key record hlast := by
    rw [Record.last?_append] at hlast
    cases hlater : Record.last? key second with
    | none =>
        rw [hlater, Option.none_or] at hlast
        rw [held, h'.find?_eq key hlater]
        exact h.held_eq key record hlast
    | some later =>
        rw [hlater, Option.some_or] at hlast
        exact h'.held_eq key record (hlater.trans hlast)
  find?_eq key hlast := by
    rw [Record.last?_append, Option.or_eq_none_iff] at hlast
    exact (h'.find?_eq key hlast.1).trans (h.find?_eq key hlast.2)
  stats_eq := h'.stats_eq.trans h.stats_eq
  audience_eq := h'.audience_eq.trans h.audience_eq

/-- One record changes what is held under its key, and that is all. -/
theorem singleton {record : Record} {after : Engine A}
    (hheld : after.held record.key = record.leaves now)
    (hothers : ∀ key, key ≠ record.key → after.shards.find? key = engine.shards.find? key)
    (hstats : after.stats = engine.stats) (haudience : after.audience = engine.audience) :
    Applied now [some record] engine after where
  held_eq key last hlast := by
    rw [Record.last?_singleton] at hlast
    split at hlast
    next heq =>
      rw [← heq, hheld, Option.some.inj hlast]
    next => exact nomatch hlast
  find?_eq key hlast := by
    rw [Record.last?_singleton] at hlast
    split at hlast
    next => exact nomatch hlast
    next hne => exact hothers key (Ne.symm hne)
  stats_eq := hstats
  audience_eq := haudience

end Applied

/-- A record that leaves nothing takes its key out. -/
theorem applied_remove {record : Record} (hleaves : record.leaves now = none) :
    Applied now [some record] engine
      { engine with shards := engine.shards.remove record.key } := by
  refine .singleton ?_ (fun key hne => ?_) rfl rfl
  · rw [hleaves, held, Shards.find?_remove, if_pos rfl, Option.map_none]
  · rw [Shards.find?_remove, if_neg hne]

/-- A record that evicts nothing decides what its key is bound to, and disturbs no other key. -/
theorem applied_replay {record : Record} (h : engine.GentleRecord now (some record)) :
    Applied now [some record] engine (engine.replay now record) := by
  cases record with
  | delete key => exact applied_remove rfl
  | set key value deadline =>
      by_cases hover : 0 < deadline ∧ deadline ≤ now
      · rw [replay_set_of_over now key value deadline engine hover]
        have hleaves := Record.leaves_set now key value deadline
        rw [if_pos hover] at hleaves
        exact applied_remove hleaves
      · have hplain := h hover
        have hstats : engine.stats.add .evictions (UInt64.ofNat
            (engine.replayOutcome key value deadline).evicted.length) = engine.stats := by
          rw [hplain.2]
          exact Stats.add_zero engine.stats .evictions
        rw [replay_set_eq, if_neg hover, trackExpiry_eq]
        refine .singleton ?_ (fun other hne => ?_) hstats rfl
        · rw [Record.leaves_set, if_neg hover, held, Shards.find?_putForce_of_plain hplain]
          exact congrArg _ (if_pos rfl)
        · exact (Shards.find?_putForce_of_plain hplain other).trans (if_neg hne)

/-- Records that evict nothing are applied in turn: the last one for each key prevails. -/
theorem applied_foldl {records : List (Option Record)} (h : engine.GentleRecords now records) :
    Applied now records engine
      (records.foldl (fun engine record => engine.replayIfAny now record) engine) := by
  induction records generalizing engine with
  | nil => exact .nothing now [] (fun _ => rfl) engine
  | cons record rest ih =>
      obtain ⟨hrecord, hrest⟩ := h
      have hfirst : Applied now [record] engine (engine.replayIfAny now record) := by
        cases record with
        | none => exact .nothing now [none] (fun _ => rfl) engine
        | some record => exact applied_replay hrecord
      exact hfirst.append (ih hrest)

/-- Records of whatever engine, restored at a time so that nobody has to leave for them: a
key of which one could be decoded holds what its last record leaves, and every other key
the entry that it had. All records are accounted for, nothing is counted or published, and
no listener is told. -/
theorem restore_last_records (hear : Hearing A) (engine : Engine A) (now : Instant)
    (records : List (Option Record)) (hgentle : engine.GentleRecords now records) :
    let (restored, answer) := engine.apply hear now (.restore records)
    (∀ key, match Record.last? key records with
      | some record => restored.held key = record.leaves now
      | none => restored.shards.find? key = engine.shards.find? key) ∧
    (∃ summary, answer = .restored summary ∧
      summary.applied + summary.skipped = records.length ∧
      summary.skipped = records.countP Option.isNone) ∧
    restored.audience = engine.audience ∧ restored.stats = engine.stats := by
  have happlied := applied_foldl hgentle
  rw [apply_restore, restore_eq]
  refine ⟨fun key => ?_, ⟨tally records, rfl, ?_, rfl⟩, happlied.audience_eq, happlied.stats_eq⟩
  · cases hlast : Record.last? key records with
    | none => exact happlied.find?_eq key hlast
    | some record => exact happlied.held_eq key record hlast
  · have hnone : records.countP Option.isNone =
        records.countP fun record => decide ¬ record.isSome = true :=
      List.countP_congr fun record _ => by cases record <;> simp
    rw [tally, hnone]
    exact (List.length_eq_countP_add_countP Option.isSome).symm

/-- A key is written twice, one is deleted that was there, and one is over already. -/
theorem restore_last_records_mixed :
    let engine := ((Program.restoring 0 [⟨"b", "u".toUTF8, 0⟩]).carriedOut ⟨4, 1, .lfu⟩ 0).1
    let records : List (Option Record) :=
      [some (.set "a" "v".toUTF8 0), none, some (.set "a" "w".toUTF8 9), some (.delete "b"),
        some (.set "c" "x".toUTF8 1)]
    let (restored, answer) := engine.apply (Audience.hear 5 Audience.nesting) 5 (.restore records)
    restored.held "a" = some ("w".toUTF8, 9) ∧ restored.held "b" = none ∧
      restored.held "c" = none ∧ answer = .restored { applied := 4, skipped := 1 } ∧
      restored.audience = engine.audience ∧ restored.stats = engine.stats := by
  intro engine records
  have hone := Program.restored_restoring ⟨4, 1, .lfu⟩ 0 0 [⟨"b", "u".toUTF8, 0⟩] (by decide)
    (by decide)
  have htwo : Restored _ ([⟨"b", "u".toUTF8, 0⟩] ++ [⟨"a", "v".toUTF8, 0⟩])
      (engine.replay 5 (.set "a" "v".toUTF8 0)) := hone.replay (by decide) (by decide)
  have hgentle : engine.GentleRecords 5 records :=
    ⟨fun _ => (hone.hasRoom (by decide) "a").putForce_plain hone.sound, trivial,
      fun _ => (htwo.hasRoom (by decide) "a").putForce_plain htwo.sound, trivial,
      fun hopen => absurd (by decide) hopen, trivial⟩
  obtain ⟨hkeys, -, haudience, hstats⟩ :=
    restore_last_records (Audience.hear 5 Audience.nesting) engine 5 records hgentle
  exact ⟨hkeys "a", hkeys "b", hkeys "c", rfl, haudience, hstats⟩

end Engine

end ReplicatedCache
