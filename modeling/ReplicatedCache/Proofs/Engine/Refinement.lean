import ReplicatedCache.Proofs.Engine.Reaping
import ReplicatedCache.Proofs.Engine.TtlMap

/-! # An engine is a plain map with deadlines

As long as the clock does not go back, an engine that is only watched answers
every call as the plain map does. The map takes from the segments which writes
they turn down and which keys leave for the others, and nothing else: lazy
expiry, sweeps with stale notes, compactions of the queue and restored records
cannot be told apart from a map in which nothing expires but by its deadline.
-/

namespace ReplicatedCache.Engine

variable {A ρ : Type}

/-! ## What the segments decide -/

/-- What the segment of a key says to a record. -/
def recordVerdict (engine : Engine A) : Option Record → PutOutcome
  | some (.set key value deadline) => engine.replayOutcome key value deadline
  | _ => { stored := true }

/-- What the segments say to records that are applied one after another. -/
def restoreVerdicts (engine : Engine A) (now : Instant) : List (Option Record) → List PutOutcome
  | [] => []
  | record :: rest =>
    engine.recordVerdict record :: (engine.replayIfAny now record).restoreVerdicts now rest

/-- What the segments say to the writes of a call. -/
def verdicts (engine : Engine A) (now : Instant) : EngineCall → List PutOutcome
  | .set key value ttl => [engine.putOutcome now key value ttl]
  | .replay record => [engine.recordVerdict (some record)]
  | .restore records => engine.restoreVerdicts now records
  | _ => []

/-- The calls of a run, each with what the segments say to its writes. -/
def judged (hear : Instant → Hearing A) (engine : Engine A) :
    List (Instant × EngineCall) → List ((Instant × EngineCall) × List PutOutcome)
  | [] => []
  | (now, call) :: rest =>
    ((now, call), engine.verdicts now call) ::
      (engine.apply (hear now) now call).1.judged hear rest

/-! ## The simulation -/

/-- An engine holds the bindings of a map that no call has met after their
deadline, and would mint the same token next. -/
structure Refines (engine : Engine A) (now : Instant) (map : TtlMap) : Prop where
  sound : engine.Sound
  nextToken_eq : map.nextToken = engine.nextToken
  find?_eq : ∀ key, engine.shards.find? key = map.unmet key
  metOver : map.MetOver now

namespace Refines

section General

variable {engine : Engine A} {now : Instant} {map : TtlMap}

/-- Time alone does not part an engine from its map. -/
theorem mono {later : Instant} (h : Refines engine now map) (hle : now ≤ later) :
    Refines engine later map :=
  ⟨h.sound, h.nextToken_eq, h.find?_eq, h.metOver.mono hle⟩

theorem freshToken_eq (h : Refines engine now map) : map.freshToken = engine.freshToken := by
  rw [TtlMap.freshToken, Engine.freshToken, h.nextToken_eq]

/-- An engine and its map show the same under every key. -/
theorem lookup_eq (h : Refines engine now map) (key : String) :
    engine.lookup now key = map.lookup now key := by
  rw [map.lookup_eq now key h.metOver, lookup, h.find?_eq]

/-- A new engine refines the empty map, at any time. -/
theorem create (config : EngineConfig) (audience : A) (now : Instant) :
    Refines (create config audience) now {} := by
  refine ⟨sound_create config audience, rfl, fun key => ?_, ?_⟩
  · rw [Engine.create, Shards.find?_create]
    rfl
  · intro key b hfind
    exact absurd hfind (by simp)

/-- A write that is stored on both sides. -/
theorem store (h : Refines engine now map) {after : Engine A} {key : String} {value : Value}
    {deadline : Instant} {leaving : List String} (hsound : after.Sound)
    (hnext : after.nextToken = engine.freshToken + 1)
    (hfind : ∀ other, after.shards.find? other =
      if other = key then some (engine.fresh value deadline)
      else if other ∈ leaving then none else engine.shards.find? other) :
    Refines after now (map.store key value deadline leaving) := by
  refine ⟨hsound, ?_, ?_, h.metOver.store key value deadline leaving⟩
  · rw [hnext, ← h.freshToken_eq]
    rfl
  · intro other
    rw [hfind, TtlMap.unmet_store, h.find?_eq, h.freshToken_eq]
    rfl

/-- A key that is taken out on both sides. -/
theorem erase (h : Refines engine now map) {after : Engine A} {key : String}
    (hsound : after.Sound) (hnext : after.nextToken = engine.nextToken)
    (hfind : ∀ other, after.shards.find? other =
      if other = key then none else engine.shards.find? other) :
    Refines after now (map.erase key) := by
  refine ⟨hsound, h.nextToken_eq.trans hnext.symm, ?_, h.metOver.erase key⟩
  intro other
  rw [hfind, TtlMap.unmet_erase, h.find?_eq]

/-- A call that takes the entry of a key out if it is over. -/
theorem meet (h : Refines engine now map) {after : Engine A} {key : String}
    (hsound : after.Sound) (hnext : after.nextToken = engine.nextToken)
    (hfind : ∀ other, after.shards.find? other =
      if other = key then engine.lookup now key else engine.shards.find? other) :
    Refines after now (map.meet now key) := by
  refine ⟨hsound, h.nextToken_eq.trans hnext.symm, ?_, h.metOver.meet key⟩
  intro other
  rw [hfind, TtlMap.unmet_meet, lookup, h.find?_eq, h.find?_eq]

/-- Replaying a record does to the map what the segment's verdict says. -/
theorem replay (h : Refines engine now map) (record : Record) :
    Refines (engine.replay now record) now
      (map.replay now (engine.recordVerdict (some record)).evicted record) := by
  have hsound := h.sound.replay now record
  cases record with
  | delete key => exact h.erase hsound rfl fun other => Shards.find?_remove _ _ _
  | set key value deadline =>
      by_cases hover : 0 < deadline ∧ deadline ≤ now
      · rw [TtlMap.replay, if_pos hover]
        rw [replay_set_of_over now key value deadline engine hover] at hsound ⊢
        exact h.erase hsound rfl fun other => Shards.find?_remove _ _ _
      · rw [TtlMap.replay, if_neg hover]
        exact h.store hsound (nextToken_replay_set now key value deadline engine hover)
          (h.sound.replay_stores now key value deadline hover).find?_eq

/-- A restored dump does to the map what the verdicts on its records say, one after another. -/
theorem restore (h : Refines engine now map) (records : List (Option Record)) :
    Refines (engine.restore now records).1 now
      (map.restore now (records.zip ((engine.restoreVerdicts now records).map
        PutOutcome.evicted))) := by
  rw [restore_eq]
  dsimp only
  induction records generalizing engine map with
  | nil => exact h
  | cons first rest ih =>
      cases first with
      | none => exact ih h
      | some record => exact ih (h.replay record)

end General

end Refines

/-! ## One call -/

/-- A call has the same answer on both sides and keeps the simulation. -/
structure Agrees (record : Signal → List ρ) (engine : Engine (List ρ)) (now : Instant)
    (map : TtlMap) (call : EngineCall) : Prop where
  refines : Refines (engine.apply (recording record) now call).1 now
    (map.apply now (engine.verdicts now call) call).1
  answer_eq : (engine.apply (recording record) now call).2 =
    (map.apply now (engine.verdicts now call) call).2
  fair : map.Fair now (engine.verdicts now call) call

namespace Refines

variable {engine : Engine (List ρ)} {now : Instant} {map : TtlMap} (record : Signal → List ρ)
  (key : String)

/-- A `set` of the engine agrees with that of the map, told who was evicted and whether it was
rejected. -/
theorem set (h : Refines engine now map) (value : Value) (ttl : Span) :
    Agrees record engine now map (.set key value ttl) := by
  have hanswer : (engine.apply (recording record) now (.set key value ttl)).2 =
      .holds (engine.putOutcome now key value ttl).stored := by
    rw [apply_set, set_snd]
  have hsound := h.sound.set record now key value ttl
  have hnext := nextToken_set record now key value ttl engine
  cases hstored : (engine.putOutcome now key value ttl).stored with
  | true =>
      have hmap : map.apply now (engine.verdicts now (.set key value ttl)) (.set key value ttl) =
          (map.store key value (deadlineAfter now ttl)
            (engine.putOutcome now key value ttl).evicted, .holds true) := if_pos hstored
      have hstores := h.sound.set_stored record now key value ttl hstored
      constructor
      · rw [hmap, apply_set]
        exact h.store hsound hnext hstores.find?_eq
      · rw [hanswer, hmap, hstored]
      · exact fun hrejected => absurd (hstored.symm.trans hrejected) (by decide)
  | false =>
      have hmap : map.apply now (engine.verdicts now (.set key value ttl)) (.set key value ttl) =
          (map.mint, .holds false) := if_neg (ne_true_of_eq_false hstored)
      obtain ⟨houtcome, hnew, hsame⟩ := h.sound.set_rejected record now key value ttl hstored
      constructor
      · rw [hmap, apply_set]
        refine ⟨hsound, ?_, fun other => (hsame other).trans (h.find?_eq other), h.metOver⟩
        rw [TtlMap.mint, h.freshToken_eq]
        exact hnext.symm
      · rw [hanswer, hmap, hstored]
      · refine fun _ => ⟨?_, congrArg PutOutcome.evicted houtcome⟩
        rw [← h.lookup_eq]
        exact lookup_of_find hnew

theorem getWithToken (h : Refines engine now map) :
    Refines (engine.getWithToken (recording record) now key).1 now (map.meet now key) ∧
      (engine.getWithToken (recording record) now key).2 =
        (map.lookup now key).map fun entry => (entry.value, entry.token) := by
  constructor
  · exact h.meet (h.sound.getWithToken record now key)
      (nextToken_getWithToken record now key engine)
      fun other => find?_getWithToken record now key other engine
  · rw [getWithToken_snd, h.lookup_eq]

/-- A swap agrees: it compares the same tokens and mints the same one. -/
theorem compareAndSwap (h : Refines engine now map) (value : Value) (expected : Token)
    (ttl : Span) : Agrees record engine now map (.compareAndSwap key value expected ttl) := by
  have hsound := h.sound.compareAndSwap record now key value expected ttl
  suffices hagree :
      Refines (engine.compareAndSwap (recording record) now key value expected ttl).1 now
          (map.apply now [] (.compareAndSwap key value expected ttl)).1 ∧
        EngineAnswer.swapped
            (engine.compareAndSwap (recording record) now key value expected ttl).2 =
          (map.apply now [] (.compareAndSwap key value expected ttl)).2 from
    ⟨hagree.1, hagree.2, trivial⟩
  rw [TtlMap.apply, ← h.lookup_eq]
  cases hlookup : engine.lookup now key with
  | none =>
      obtain ⟨hanswer, stats, audience, heq⟩ :=
        compareAndSwap_of_none record now key value expected ttl hlookup
      refine ⟨h.meet hsound (by rw [heq]) fun other => ?_, by rw [hanswer]⟩
      rw [hlookup]
      exact find?_compareAndSwap_of_none record now key other value expected ttl hlookup
  | some found =>
      dsimp only
      by_cases htoken : found.token = expected
      · obtain ⟨hanswer, stats, audience, heq⟩ :=
          compareAndSwap_of_eq record now key value expected ttl hlookup htoken
        rw [if_pos htoken]
        refine ⟨h.store hsound (by rw [heq]) fun other => ?_, ?_⟩
        · rw [if_neg List.not_mem_nil]
          exact find?_compareAndSwap_of_eq record now key other value expected ttl h.sound
            hlookup htoken
        · rw [hanswer, h.freshToken_eq]
      · rw [if_neg htoken, compareAndSwap_of_ne record now key value expected ttl hlookup htoken]
        exact ⟨h, rfl⟩

theorem clear (h : Refines engine now map) :
    Refines engine.clear now { map with bindings := ∅ } := by
  refine ⟨h.sound.clear, h.nextToken_eq, fun key => ?_, ?_⟩
  · rw [Engine.clear, Shards.find?_clear]
    rfl
  · intro key b hfind
    exact absurd hfind (by simp)

/-- A sweep counts the entries that are over and that no call has met. -/
theorem length_overdue (h : Refines engine now map) :
    (engine.overdue now).length = map.unmetOver now := by
  have hkeys := (map.bindings.filter fun _ b => !b.met && b.entry.expired now).nodup_keys
  rw [← Std.ExtTreeMap.map_fst_toList_eq_keys] at hkeys
  have hperm : (engine.overdue now).Perm
      ((map.bindings.filter fun _ b => !b.met && b.entry.expired now).toList.map
        fun (key, b) => (key, b.entry)) := by
    apply (List.perm_ext_iff_of_nodup (overdue_keys_nodup h.sound now).of_map ?_).mpr
    · rintro ⟨key, entry⟩
      rw [mem_overdue_iff h.sound, h.find?_eq, TtlMap.unmet, List.mem_map]
      constructor
      · rintro ⟨hfind, hexpired⟩
        obtain ⟨b, hb, rfl⟩ := Option.map_eq_some_iff.mp hfind
        obtain ⟨hb, hmet⟩ := Option.filter_eq_some_iff.mp hb
        refine ⟨(key, b), ?_, rfl⟩
        rw [Std.ExtTreeMap.mem_toList_iff_getElem?_eq_some, Std.ExtTreeMap.getElem?_filter',
          Option.filter_eq_some_iff, Bool.and_eq_true]
        exact ⟨hb, hmet, hexpired⟩
      · rintro ⟨⟨own, b⟩, hmem, heq⟩
        obtain ⟨rfl, rfl⟩ := Prod.ext_iff.mp heq
        rw [Std.ExtTreeMap.mem_toList_iff_getElem?_eq_some, Std.ExtTreeMap.getElem?_filter',
          Option.filter_eq_some_iff, Bool.and_eq_true] at hmem
        obtain ⟨hb, hmet, hexpired⟩ := hmem
        exact ⟨Option.map_eq_some_iff.mpr ⟨b, Option.filter_eq_some_iff.mpr ⟨hb, hmet⟩, rfl⟩,
          hexpired⟩
    · refine List.Nodup.of_map Prod.fst ?_
      rw [List.map_map]
      exact hkeys
  rw [hperm.length_eq, List.length_map, Std.ExtTreeMap.length_toList]
  rfl

/-- A sweep agrees with meeting every key at once. -/
theorem reap (h : Refines engine now map) : Agrees record engine now map .reap := by
  constructor
  · have hsound := h.sound.reap record now
    rw [apply_reap]
    rw [reap_recording] at hsound ⊢
    refine ⟨hsound, h.nextToken_eq, fun key => ?_, h.metOver.meetAll⟩
    exact (find?_swept h.sound now key).trans
      ((congrArg _ (h.find?_eq key)).trans (map.unmet_meetAll now key).symm)
  · rw [apply_reap, reap_recording, length_notices h.sound, h.length_overdue]
    rfl
  · trivial

/-- Every call agrees: the answer is that of the map, and the engine still refines it. -/
theorem apply (h : Refines engine now map) (call : EngineCall) :
    Agrees record engine now map call := by
  cases call with
  | set key value ttl => exact h.set record key value ttl
  | get key =>
      obtain ⟨hafter, hanswer⟩ := h.getWithToken record key
      refine ⟨hafter, ?_, trivial⟩
      rw [apply_get, hanswer, Option.map_map]
      rfl
  | getWithToken key =>
      obtain ⟨hafter, hanswer⟩ := h.getWithToken record key
      refine ⟨hafter, ?_, trivial⟩
      rw [apply_getWithToken, hanswer]
      rfl
  | contains key =>
      refine ⟨h, ?_, trivial⟩
      exact congrArg EngineAnswer.holds ((contains_eq engine now key).trans
        (congrArg Option.isSome (h.lookup_eq key)))
  | delete key =>
      refine ⟨?_, ?_, trivial⟩
      · exact h.erase (h.sound.delete record now key) (nextToken_delete record now key engine)
          fun other => find?_delete record now key other engine
      · rw [apply_delete, delete_snd, h.lookup_eq]
        rfl
  | compareAndSwap key value expected ttl => exact h.compareAndSwap record key value expected ttl
  | clear => exact ⟨h.clear, rfl, trivial⟩
  | replay change => exact ⟨h.replay change, rfl, trivial⟩
  | restore records =>
      refine ⟨h.restore records, ?_, trivial⟩
      rw [apply_restore, restore_eq]
      rfl
  | reap => exact h.reap record

end Refines

/-! ## Runs -/

/-- As long as the clock does not go back, the simulation is kept. -/
theorem Refines.run {engine : Engine (List ρ)} {past : Instant} {map : TtlMap}
    (record : Signal → List ρ) (h : Refines engine past map)
    {steps : List (Instant × EngineCall)} (hpast : ∀ step ∈ steps, past ≤ step.1)
    (hclock : (steps.map (·.1)).Pairwise (· ≤ ·)) :
    let judged := engine.judged (fun _ => recording record) steps
    (engine.run (fun _ => recording record) steps).2 = (map.run judged).2 ∧
      map.FairRun judged ∧
      ∀ now, past ≤ now → (∀ step ∈ steps, step.1 ≤ now) →
        Refines (engine.run (fun _ => recording record) steps).1 now (map.run judged).1 := by
  induction steps generalizing engine past map with
  | nil => exact ⟨rfl, trivial, fun now hnow _ => h.mono hnow⟩
  | cons step rest ih =>
      obtain ⟨now, call⟩ := step
      rw [List.map_cons, List.pairwise_cons] at hclock
      have hagrees := (h.mono (hpast _ List.mem_cons_self)).apply record call
      have hrest : ∀ step ∈ rest, now ≤ step.1 :=
        fun step hmem => hclock.1 step.1 (List.mem_map_of_mem hmem)
      obtain ⟨hanswers, hfair, hlast⟩ := ih hagrees.refines hrest hclock.2
      refine ⟨?_, ⟨hagrees.fair, hfair⟩, ?_⟩
      · exact congrArg₂ List.cons hagrees.answer_eq hanswers
      · intro later _ hlater
        exact hlast later (hlater _ List.mem_cons_self)
          fun step hmem => hlater step (List.mem_cons_of_mem _ hmem)

section Transcripts

variable {kind : A → Prop} {heard : A → List ρ} {record : Signal → List ρ} {engine : Engine A}
  {mirror : Engine (List ρ)}

theorem Follows.restoreVerdicts (h : Follows kind heard engine mirror) (now : Instant)
    (records : List (Option Record)) :
    mirror.restoreVerdicts now records = engine.restoreVerdicts now records := by
  induction records generalizing engine mirror with
  | nil => rfl
  | cons first rest ih =>
      have hverdict : mirror.recordVerdict first = engine.recordVerdict first :=
        h.mirror_eq ▸ rfl
      cases first with
      | none => exact congrArg₂ List.cons hverdict (ih h)
      | some change => exact congrArg₂ List.cons hverdict (ih (h.replay now change))

theorem Follows.verdicts (h : Follows kind heard engine mirror) (now : Instant)
    (call : EngineCall) : mirror.verdicts now call = engine.verdicts now call := by
  cases call with
  | restore records => exact h.restoreVerdicts now records
  | _ => exact h.mirror_eq ▸ rfl

/-- The verdicts in a run are those in the run of its transcript. -/
theorem Follows.judged {hear : Instant → Hearing A}
    (hw : ∀ now, Watches kind heard record (hear now)) (h : Follows kind heard engine mirror)
    (steps : List (Instant × EngineCall)) :
    mirror.judged (fun _ => recording record) steps = engine.judged hear steps := by
  induction steps generalizing engine mirror with
  | nil => rfl
  | cons step rest ih =>
      obtain ⟨now, call⟩ := step
      have hnext := ih (h.apply now (hw now) call).1
      exact congrArg₂ List.cons (congrArg (Prod.mk (now, call)) (h.verdicts now call)) hnext

/-- The answers of a new engine that is only watched are those of a new map, its
segments turn writes down fairly, and in the end the same entries are live. -/
theorem run_refines_ttlMap {hear : Instant → Hearing A}
    (hw : ∀ now, Watches kind heard record (hear now)) (config : EngineConfig) {audience : A}
    (haudience : kind audience) {steps : List (Instant × EngineCall)}
    (hclock : (steps.map (·.1)).Pairwise (· ≤ ·)) :
    let engine := create config audience
    let judged := engine.judged hear steps
    (engine.run hear steps).2 = (TtlMap.run {} judged).2 ∧
      TtlMap.FairRun {} judged ∧
      ∀ now, (∀ step ∈ steps, step.1 ≤ now) → ∀ key,
        (engine.run hear steps).1.lookup now key = (TtlMap.run {} judged).1.lookup now key := by
  intro engine judged
  have hcreated : Follows kind heard engine (create config (heard audience)) :=
    ⟨haudience, rfl⟩
  obtain ⟨hrun, hanswers⟩ := hcreated.run hw steps
  have hjudged := hcreated.judged hw steps
  obtain ⟨heq, hfair, hlast⟩ := (Refines.create config (heard audience) Int64.minValue).run record
    (fun step _ => Int64.minValue_le step.1) hclock
  rw [hjudged] at heq hfair hlast
  refine ⟨hanswers.symm.trans heq, hfair, ?_⟩
  intro now hnow key
  rw [← (hlast now (Int64.minValue_le now) hnow).lookup_eq, hrun.mirror_eq]
  rfl

end Transcripts

/-- An engine with room for one entry, whose segment lets a key leave. -/
theorem run_refines_ttlMap_quiet :
    let audience : Audience := { listeners := #[.probing] }
    let engine := create ⟨1, 1, .lru⟩ audience
    let steps : List (Instant × EngineCall) :=
      [(1, .set "a" "x".toUTF8 (.ofMillis 2)), (2, .set "b" "y".toUTF8 .zero), (2, .get "a"),
        (3, .reap)]
    let judged := engine.judged (fun now => Audience.hear now Audience.nesting) steps
    audience.Quiet ∧ (steps.map (·.1)).Pairwise (· ≤ ·) ∧
      (engine.run (fun now => Audience.hear now Audience.nesting) steps).2 =
        (TtlMap.run {} judged).2 := by
  intro audience engine steps judged
  have hquiet : audience.Quiet := by
    intro listener hmem log key cause
    obtain rfl : listener = .probing := by simpa [audience] using hmem
    exact .contains fun _ => .size fun _ => .write .finish
  have hclock : (steps.map (·.1)).Pairwise (· ≤ ·) :=
    (by decide : ([1, 2, 2, 3] : List Instant).Pairwise (· ≤ ·))
  exact ⟨hquiet, hclock, (run_refines_ttlMap (fun now => Audience.watches_quiet now _)
    ⟨1, 1, .lru⟩ hquiet hclock).1⟩

end ReplicatedCache.Engine
