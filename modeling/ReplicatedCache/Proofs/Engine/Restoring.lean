import Mathlib.Data.List.Induction
import ReplicatedCache.Proofs.Engine.Sights

/-! # Restoring what an engine shows

A visit shows the live entries without their tokens. Restored one after another into a
new engine, they fill its segments in the order in which they were shown, and each
segment is left with the last of those that are at home in it, as many as it has places
for. If the new engine has the segments of the old one, nothing is lost, and it shows
what the old one shows.
-/

namespace ReplicatedCache

variable {A : Type}

/-! ## What a visit shows -/

namespace Shards

/-- All entries are those of the segments in order. -/
theorem entries_eq_flatMap (shards : Shards) :
    shards.entries = (List.range shards.count).flatMap shards.entriesAt := by
  rw [entries, List.flatMap_def, List.flatMap_def]
  congr 1
  apply List.ext_getElem
  · simp [count]
  · intro i hi _
    rw [List.length_map, Array.length_toList] at hi
    simp [entriesAt, hi]

/-- The entries that are at home in a segment are those that it holds. -/
theorem Sound.filter_entries {shards : Shards} (hs : shards.Sound) (i : Nat) :
    shards.entries.filter (fun binding => decide (shards.home binding.1 = i)) =
      shards.entriesAt i := by
  have hpart (j : Nat) : (shards.entriesAt j).filter
      (fun binding => decide (shards.home binding.1 = i)) =
        if j = i then shards.entriesAt i else [] := by
    split
    next heq =>
      subst heq
      exact List.filter_eq_self.mpr fun _ hmem => decide_eq_true (hs.home_of_mem_entriesAt hmem)
    next hne =>
      apply List.filter_eq_nil_iff.mpr
      intro binding hmem hhome
      exact hne ((hs.home_of_mem_entriesAt hmem).symm.trans (of_decide_eq_true hhome))
  have hrange (count : Nat) : ((List.range count).flatMap fun j =>
      if j = i then shards.entriesAt i else []) = if i < count then shards.entriesAt i else [] := by
    induction count with
    | zero => rfl
    | succ count ih =>
        rw [List.range_succ, List.flatMap_append, ih, List.flatMap_singleton]
        rcases Nat.lt_trichotomy i count with hlt | rfl | hgt
        · rw [if_pos hlt, if_neg (Nat.ne_of_gt hlt), if_pos (Nat.lt_succ_of_lt hlt),
            List.append_nil]
        · rw [if_neg (Nat.lt_irrefl i), if_pos rfl, if_pos (Nat.lt_succ_self i), List.nil_append]
        · rw [if_neg (Nat.lt_asymm hgt), if_neg (Nat.ne_of_lt hgt),
            if_neg (Nat.not_lt.mpr hgt), List.append_nil]
  rw [entries_eq_flatMap, List.filter_flatMap]
  simp only [hpart, hrange]
  split
  next => rfl
  next hge => rw [entriesAt, Array.getElem?_eq_none (Nat.not_lt.mp hge)]

end Shards

/-- What a visitor sees of an entry. Its token stays hidden. -/
structure Seen where
  key : String
  value : Value
  deadline : Instant
deriving DecidableEq

namespace Seen

def of (binding : String × Entry) : Seen := ⟨binding.1, binding.2.value, binding.2.deadline⟩

/-- Whether it is not over at a time. -/
def live (seen : Seen) (now : Instant) : Bool :=
  !(decide (0 < seen.deadline) && decide (seen.deadline ≤ now))

/-- An entry is seen as live unless it has a deadline that has come. -/
theorem live_iff {seen : Seen} {now : Instant} :
    seen.live now = true ↔ ¬ (0 < seen.deadline ∧ seen.deadline ≤ now) := by
  rw [live, Bool.not_eq_true', ← Bool.not_eq_true, Bool.and_eq_true, decide_eq_true_iff,
    decide_eq_true_iff]

/-- The record that restores an entry. -/
def record (seen : Seen) : Record := .set seen.key seen.value seen.deadline

end Seen

namespace Engine

variable {engine : Engine A} {now : Instant}

/-- A visitor that leaves the engine alone sees the live entries in order. -/
theorem visit_eq {σ : Type} (engine : Engine A) (now : Instant) (look : σ → String → Entry → σ)
    (start : σ) :
    engine.visit now (fun engine s key entry => (engine, look s key entry)) start =
      (engine, (engine.dump now).foldl (fun s binding => look s binding.1 binding.2) start) := by
  have hpart (list : List (String × Entry)) (s : σ) :
      list.foldl (fun (state : Engine A × σ) (binding : String × Entry) =>
          if binding.2.expired now then state
          else (state.1, look state.2 binding.1 binding.2)) (engine, s) =
        (engine, (list.filter fun binding => binding.2.live now).foldl
          (fun s binding => look s binding.1 binding.2) s) := by
    induction list generalizing s with
    | nil => rfl
    | cons first rest ih =>
        rw [List.foldl_cons]
        by_cases hexpired : first.2.expired now
        · rw [if_pos hexpired, ih, List.filter_cons, if_neg (by simp [Entry.live, hexpired])]
        · rw [if_neg hexpired, ih, List.filter_cons, if_pos (by simp [Entry.live, hexpired]),
            List.foldl_cons]
  rw [dump, Shards.entries_eq_flatMap, List.filter_flatMap, List.foldl_flatMap, visit,
    segmentCount]
  induction List.range engine.shards.count generalizing start with
  | nil => rfl
  | cons i rest ih =>
      rw [List.foldl_cons, List.foldl_cons]
      refine Eq.trans ?_ (ih _)
      exact congrArg (List.foldl _ · rest) (hpart (engine.shards.entriesAt i) start)

def seen (engine : Engine A) (now : Instant) : List Seen :=
  (engine.visit now (fun engine seen key entry => (engine, seen ++ [.of (key, entry)])) []).2

/-- A visitor that only looks sees the dump without the tokens. -/
theorem seen_eq (engine : Engine A) (now : Instant) :
    engine.seen now = (engine.dump now).map .of := by
  have hlist (list : List (String × Entry)) (before : List Seen) :
      list.foldl (fun seen binding => seen ++ [.of binding]) before = before ++ list.map .of := by
    induction list generalizing before with
    | nil => exact (List.append_nil before).symm
    | cons first rest ih => rw [List.foldl_cons, ih, List.append_assoc]; rfl
  rw [seen, visit_eq]
  exact hlist _ []

end Engine

/-! ## Restoring one after another -/

/-- The segment in which an engine of a configuration keeps a key. -/
def EngineConfig.home (config : EngineConfig) (key : String) : Nat :=
  (Hash.text key).toNat % max 1 config.segments

/-- Those that are at home in a segment of an engine of a configuration. -/
def Seen.homed (config : EngineConfig) (i : Nat) (list : List Seen) : List Seen :=
  list.filter fun seen => decide (config.home seen.key = i)

namespace Seen

variable {config : EngineConfig} {i : Nat} {seen : Seen} (list : List Seen)

theorem homed_concat_self (h : config.home seen.key = i) :
    homed config i (list ++ [seen]) = homed config i list ++ [seen] := by
  simp [homed, List.filter_append, h]

theorem homed_concat_of_ne (h : config.home seen.key ≠ i) :
    homed config i (list ++ [seen]) = homed config i list := by
  simp [homed, List.filter_append, h]

end Seen

namespace Engine

/-- Something has been restored into a new engine: each segment holds the last of what
is at home in it. Nobody had to leave unless there was too much for some segment. -/
structure Restored (config : EngineConfig) (list : List Seen) (engine : Engine A) : Prop where
  sound : engine.shards.Sound
  capacities : engine.shards.capacities =
    List.replicate (max 1 config.segments) (shareOf config)
  entriesAt_eq : ∀ i, (engine.shards.entriesAt i).map Seen.of =
    (Seen.homed config i list).rtake (shareOf config)
  stats_eq : (∀ i, (Seen.homed config i list).length ≤ shareOf config) → engine.stats = {}

namespace Restored

variable {config : EngineConfig} {list : List Seen} {engine : Engine A} {now : Instant}
  {seen : Seen} (h : Restored config list engine)
include h

theorem home_eq (key : String) : engine.shards.home key = config.home key := by
  rw [Shards.home, Shards.size_segments_of_capacities h.capacities]
  rfl

theorem capacity_segmentOf (key : String) :
    (engine.shards.segmentOf key).capacity = shareOf config :=
  Shards.capacity_of_mem h.capacities (Array.getElem_mem (engine.shards.home_lt key))

/-- A key's home holds the last of what was restored there, as far as there are places. -/
theorem toList_segmentOf (key : String) : (engine.shards.segmentOf key).toList.map Seen.of =
    (Seen.homed config (config.home key) list).rtake (shareOf config) := by
  rw [← Shards.entriesAt_home, h.entriesAt_eq, h.home_eq]

/-- What was not restored is not there. -/
theorem not_mem_keys {key : String} (hnew : key ∉ list.map Seen.key) :
    key ∉ (engine.shards.segmentOf key).keys := by
  rw [Segment.mem_keys_iff]
  rintro ⟨entry, hmem⟩
  have hseen : Seen.of (key, entry) ∈ (engine.shards.segmentOf key).toList.map Seen.of :=
    List.mem_map_of_mem hmem
  rw [h.toList_segmentOf] at hseen
  have hlist := List.mem_of_mem_filter (List.mem_of_mem_drop hseen)
  exact hnew (List.mem_map_of_mem (f := Seen.key) hlist)

/-- As long as fewer entries were restored than a segment has places for, there is room. -/
theorem hasRoom (hfew : list.length < shareOf config) (key : String) :
    engine.shards.HasRoom key := by
  have hlength := congrArg List.length (h.toList_segmentOf key)
  rw [List.length_map, ← Segment.size_eq_length] at hlength
  refine Or.inr ?_
  rw [hlength, h.capacity_segmentOf, List.rtake]
  refine Nat.lt_of_le_of_lt ?_ hfew
  exact ((List.drop_sublist _ _).trans List.filter_sublist).length_le

/-- What was restored is there, as long as a segment has places for all of it. -/
theorem exists_find? (hfits : list.length ≤ shareOf config) (hmem : seen ∈ list) :
    ∃ token, engine.shards.find? seen.key = some ⟨seen.value, seen.deadline, token⟩ := by
  have hhomed : (Seen.homed config (config.home seen.key) list).length ≤ shareOf config :=
    (List.length_filter_le _ _).trans hfits
  have hthere : seen ∈ (engine.shards.entriesAt (config.home seen.key)).map Seen.of := by
    rw [h.entriesAt_eq, rtake_of_length_le hhomed]
    exact List.mem_filter.mpr ⟨hmem, decide_eq_true rfl⟩
  obtain ⟨⟨key, entry⟩, hentry, rfl⟩ := List.mem_map.mp hthere
  exact ⟨entry.token, h.sound.find?_of_mem_entriesAt hentry⟩

/-- One more, under a new key and not over yet. -/
theorem replay (hnew : seen.key ∉ list.map Seen.key)
    (hlive : ¬ (0 < seen.deadline ∧ seen.deadline ≤ now)) :
    Restored config (list ++ [seen]) (engine.replay now seen.record) := by
  have hs := h.sound
  have hfit := hs.fits_home seen.key
  have hroom := hs.roomy_home seen.key
  have hnot := h.not_mem_keys hnew
  obtain ⟨-, hstored⟩ := Segment.stored_putForce hfit hroom seen.key
    (engine.fresh seen.value seen.deadline)
  rw [Seen.record, replay_set_eq, if_neg hlive, trackExpiry_eq]
  constructor
  · exact (hs.stores_putForce seen.key _).2.sound
  · exact (hs.capacities_putForce seen.key _).trans h.capacities
  · intro i
    dsimp only
    rw [Shards.putForce, Shards.onHome_eq, Shards.entriesAt_onSegment]
    split
    next heq =>
      have hhome : config.home seen.key = i := by rw [← h.home_eq, heq]
      have hseen : Seen.of (seen.key, engine.fresh seen.value seen.deadline) = seen := rfl
      change List.map Seen.of ((engine.shards.segmentOf seen.key).putForce seen.key _).1.toList = _
      rw [hstored.toList_eq_rtake hnot hfit hroom, ← rtake_map, List.map_append,
        h.toList_segmentOf, h.capacity_segmentOf, hhome, List.map_singleton, hseen,
        rtake_rtake_concat, Seen.homed_concat_self _ hhome]
    next hne =>
      have hhome : config.home seen.key ≠ i := by
        rw [← h.home_eq]
        exact Ne.symm hne
      rw [h.entriesAt_eq, Seen.homed_concat_of_ne _ hhome]
  · intro hfits
    have hsize : (engine.shards.segmentOf seen.key).size + 1 ≤
        (engine.shards.segmentOf seen.key).capacity := by
      have hhomed := hfits (config.home seen.key)
      have hlength := congrArg List.length (h.toList_segmentOf seen.key)
      rw [Seen.homed_concat_self _ rfl, List.length_append, List.length_singleton] at hhomed
      rw [List.length_map, ← Segment.size_eq_length,
        rtake_of_length_le (Nat.le_of_succ_le hhomed)] at hlength
      rwa [h.capacity_segmentOf, hlength]
    have hnobody : (engine.shards.putForce seen.key
        (engine.fresh seen.value seen.deadline)).2.evicted.length = 0 := by
      rw [Shards.putForce, Shards.onHome_snd, hstored.length_evicted hnot hfit hroom]
      exact Nat.sub_eq_zero_of_le hsize
    have hbefore : engine.stats = {} := by
      refine h.stats_eq fun i => Nat.le_trans ?_ (hfits i)
      exact ((List.sublist_append_left list [seen]).filter _).length_le
    dsimp only
    rw [hbefore, hnobody]
    rfl

end Restored

theorem restored_create (config : EngineConfig) (audience : A) :
    Restored config [] (create config audience) := by
  have horderly := orderly_create config audience
  refine ⟨horderly.shards, horderly.capacities, fun i => ?_, fun _ => rfl⟩
  have hempty : (create config audience).shards.entriesAt i = [] := by
    rw [Shards.entriesAt]
    split
    next segment hsegment => exact (Shards.toList_create _ (Array.mem_of_getElem? hsegment)).1
    next => rfl
  rw [hempty]
  exact (List.rtake_nil _).symm

/-- All that a list shows is restored, if the keys differ and nothing is over yet. -/
theorem restored_foldl (config : EngineConfig) (audience : A) {now : Instant} {list : List Seen}
    (hnodup : (list.map Seen.key).Nodup) (hlive : ∀ seen ∈ list, seen.live now = true) :
    Restored config list
      (list.foldl (fun engine seen => engine.replay now seen.record) (create config audience)) := by
  induction list using List.reverseRecOn with
  | nil => exact restored_create config audience
  | append_singleton list seen ih =>
      rw [List.map_append, List.nodup_append] at hnodup
      obtain ⟨hbefore, -, hnew⟩ := hnodup
      have hrestored := ih hbefore fun other hmem => hlive other (List.mem_append_left _ hmem)
      rw [List.foldl_append]
      refine hrestored.replay (fun hmem => ?_)
        (Seen.live_iff.mp (hlive seen (List.mem_append_right _ List.mem_cons_self)))
      exact hnew _ hmem _ List.mem_cons_self rfl

/-! ## Back and forth -/

section RoundTrip

variable {config : EngineConfig} {engine : Engine A} {now : Instant}

/-- Nothing is shown that is over. -/
theorem live_of_mem_seen {seen : Seen} (h : seen ∈ engine.seen now) : seen.live now = true := by
  rw [seen_eq] at h
  obtain ⟨binding, hmem, rfl⟩ := List.mem_map.mp h
  exact (List.mem_filter.mp hmem).2

/-- What is seen, segment by segment. -/
theorem seen_eq_flatMap (engine : Engine A) (now : Instant) :
    engine.seen now = (List.range engine.shards.count).flatMap fun i =>
      ((engine.shards.entriesAt i).map Seen.of).filter (·.live now) := by
  rw [seen_eq, dump, Shards.entries_eq_flatMap, List.filter_flatMap, List.map_flatMap]
  congr 1
  funext i
  rw [List.filter_map]
  rfl

/-- The fingerprint depends on what is seen. -/
theorem fingerprint_eq (engine : Engine A) (now : Instant) :
    engine.fingerprint now = (engine.seen now).foldl
      (fun sum seen => sum + entryDigest seen.key seen.value seen.deadline) fingerprintSeed := by
  rw [fingerprint, seen_eq, List.foldl_map]
  rfl

/-- No key is shown twice. -/
theorem nodup_keys_seen (hs : engine.shards.Sound) (now : Instant) :
    ((engine.seen now).map Seen.key).Nodup := by
  rw [seen_eq, List.map_map]
  exact hs.keys_nodup.sublist (List.filter_sublist.map _)

namespace Orderly

variable (h : Orderly config engine)
include h

theorem home_eq (key : String) : engine.shards.home key = config.home key := by
  rw [Shards.home, Shards.size_segments_of_capacities h.capacities]
  rfl

/-- What is seen of a segment. -/
theorem homed_seen (now : Instant) (i : Nat) : Seen.homed config i (engine.seen now) =
    ((engine.shards.entriesAt i).map Seen.of).filter (·.live now) := by
  have hhome (binding : String × Entry) :
      config.home (Seen.of binding).key = engine.shards.home binding.1 :=
    (h.home_eq binding.1).symm
  rw [Seen.homed, seen_eq, dump, List.filter_map, List.filter_filter, ← h.shards.filter_entries i,
    List.filter_map, List.filter_filter]
  congr 1
  apply List.filter_congr
  intro binding _
  simp only [Function.comp, hhome, Bool.and_comm]
  rfl

/-- A segment holds no more than it has places for. -/
theorem length_entriesAt_le (i : Nat) : (engine.shards.entriesAt i).length ≤ shareOf config := by
  rw [Shards.entriesAt]
  split
  next segment hsegment =>
    obtain ⟨hi, rfl⟩ := Array.getElem?_eq_some_iff.mp hsegment
    rw [← Segment.size_eq_length, ← Shards.capacity_of_mem h.capacities (Array.getElem_mem hi)]
    exact h.shards.fits i hi
  next => exact Nat.zero_le _

/-- A segment shows no more than it has places for. -/
theorem length_homed_le (now : Instant) (i : Nat) :
    (Seen.homed config i (engine.seen now)).length ≤ shareOf config := by
  rw [h.homed_seen]
  refine Nat.le_trans (List.length_filter_le _ _) ?_
  rw [List.length_map]
  exact h.length_entriesAt_le i

end Orderly

def restoredInto (engine : Engine A) (now : Instant) (target : EngineConfig) :
    LiveEngine × RestoreSummary :=
  (LiveEngine.create target).restore now ((engine.seen now).map fun seen => some seen.record)

/-- Restoring what is seen applies every record and skips none. -/
theorem restoredInto_eq (engine : Engine A) (now : Instant) (target : EngineConfig) :
    engine.restoredInto now target =
      ((engine.seen now).foldl (fun engine seen => engine.replay now seen.record)
          (LiveEngine.create target),
        { applied := (engine.dump now).length, skipped := 0 }) := by
  have happlied : (engine.dump now).length = (engine.seen now).length := by
    rw [seen_eq, List.length_map]
  rw [restoredInto, restore_eq, List.foldl_map, happlied]
  congr 1
  simp [tally, List.countP_map, Function.comp_def]

/-- What comes of restoring what is seen of an engine at a time. -/
structure RoundTrips (config : EngineConfig) (engine : LiveEngine) (now : Instant) : Prop where
  /-- Everything that is live is applied, and nothing is skipped. -/
  summary_eq : ∀ target, (engine.restoredInto now target).2 =
    { applied := (engine.dump now).length, skipped := 0 }
  /-- A new engine of the same size shows the same, and nobody had to leave. -/
  same : ∀ target, target.capacity = config.capacity → target.segments = config.segments →
    let restored := (engine.restoredInto now target).1
    restored.seen now = engine.seen now ∧
      restored.fingerprint now = engine.fingerprint now ∧ restored.stats = {}
  /-- A segment of a new engine of any size holds the last of what is at home in it, as
  many as it has places for and in the order in which they were seen. -/
  last : ∀ target i, ((engine.restoredInto now target).1.shards.entriesAt i).map Seen.of =
    (Seen.homed target i (engine.seen now)).rtake (shareOf target)

/-- An orderly engine can be restored from what is seen of it. -/
theorem Orderly.roundTrips {engine : LiveEngine} (h : Orderly config engine) (now : Instant) :
    RoundTrips config engine now := by
  have hrestored (target : EngineConfig) :
      Restored target (engine.seen now) (engine.restoredInto now target).1 := by
    rw [restoredInto_eq]
    exact restored_foldl target _ (nodup_keys_seen h.shards now) fun _ => live_of_mem_seen
  refine ⟨fun target => by rw [restoredInto_eq], fun target hcapacity hsegments => ?_,
    fun target => (hrestored target).entriesAt_eq⟩
  intro restored
  have hr : Restored target (engine.seen now) restored := hrestored target
  have hshare : shareOf target = shareOf config := by
    rw [shareOf, shareOf, hcapacity, hsegments]
  have hhome : target.home = config.home := by
    funext key
    rw [EngineConfig.home, EngineConfig.home, hsegments]
  have hhomed (i : Nat) : Seen.homed target i (engine.seen now) =
      Seen.homed config i (engine.seen now) := by
    rw [Seen.homed, hhome]
    rfl
  have hcount : restored.shards.count = engine.shards.count := by
    rw [Shards.count, Shards.count, ← Shards.length_capacities, ← Shards.length_capacities,
      hr.capacities, h.capacities, hsegments, hshare]
  -- every segment has places for all that was seen of it
  have hfits (i : Nat) : (Seen.homed target i (engine.seen now)).length ≤ shareOf target := by
    rw [hhomed, hshare]
    exact h.length_homed_le now i
  have hseen : restored.seen now = engine.seen now := by
    rw [seen_eq_flatMap restored, seen_eq_flatMap engine, hcount]
    apply List.flatMap_congr
    intro i _
    rw [hr.entriesAt_eq, rtake_of_length_le (hfits i), hhomed, h.homed_seen, List.filter_filter]
    simp only [Bool.and_self]
  exact ⟨hseen, by rw [fingerprint_eq, fingerprint_eq, hseen], hr.stats_eq hfits⟩

end RoundTrip

end Engine

namespace Program

variable {ρ : Type}

def restoring (now : Instant) (list : List Seen) : Program Unit :=
  .call now (.restore (list.map fun seen => some seen.record)) fun _ => .finish ()

theorem carriedOut_restoring (config : EngineConfig) (depth : Nat) (now : Instant)
    (list : List Seen) : ((restoring now list).carriedOut config depth).1 =
      ((LiveEngine.create config).restore now (list.map fun seen => some seen.record)).1 := rfl

theorem restored_restoring (config : EngineConfig) (depth : Nat) (now : Instant)
    (list : List Seen) (hnodup : (list.map Seen.key).Nodup)
    (hlive : ∀ seen ∈ list, seen.live now = true) :
    Engine.Restored config list ((restoring now list).carriedOut config depth).1 := by
  have hrestored := Engine.restored_foldl config ({} : Audience) hnodup hlive
  rwa [carriedOut_restoring, Engine.restore_eq, List.foldl_map]

/-- Whenever a listener is told and after every call, at whatever time: what is seen of
the engine can be restored. A new engine of the same size shows the same in the same
order, with the same fingerprint, and has evicted nothing; a segment of a new engine of
another size is left with the last of what is at home in it. -/
theorem restorable_throughout (config : EngineConfig) (depth : Nat) (program : Program ρ) :
    program.Faithful config depth ∧
      ∀ sight ∈ program.sights config depth, ∀ now, Engine.RoundTrips config sight now := by
  obtain ⟨hfaithful, hmoments⟩ := program.witnessed_spec config depth
  exact ⟨hfaithful, fun sight hmem => (hmoments sight hmem).orderly.roundTrips⟩

/-- An engine with an entry that is over and a key that was read again. -/
theorem restorable_reread :
    let program : Program Unit :=
      .call 0 (.set "a" "v".toUTF8 (.ofMillis 1)) fun _ =>
      .call 0 (.set "b" "v".toUTF8 .zero) fun _ =>
      .call 0 (.set "c" "v".toUTF8 (.ofMillis 9)) fun _ =>
      .call 0 (.get "b") fun _ => .finish ()
    Engine.RoundTrips ⟨3, 1, .lfu⟩ (program.carriedOut ⟨3, 1, .lfu⟩ 1).1 5 := by
  intro program
  exact (restorable_throughout ⟨3, 1, .lfu⟩ 1 program).2 _
    (List.mem_append_right _ List.mem_cons_self) 5

end Program

end ReplicatedCache
