import Mathlib.Data.List.Perm.Subperm
import ReplicatedCache.Proofs.Engine.Capacity
import ReplicatedCache.Proofs.Engine.Sweep

/-! # What holds in the middle of operations

Listeners may look at an engine, and call it again, between two silent steps of an
operation. An engine is orderly if its shards are sound and have the capacity that was
asked for, and its queue holds no more notes than are allowed, each of a deadline to
come and at the home of its key. Every silent step keeps this, and so it holds at
every moment of every run.

The queue keeps its bound because a compaction leaves at most one note for each key
that is there.
-/

namespace ReplicatedCache.Engine

variable {A : Type} {engine after : Engine A} {shards : Shards}

/-! ## Compaction -/

/-- A compacted queue has at most one note for a key: two current notes of a key are the
same. -/
theorem nodup_keys_compact (hs : shards.Sound) (queue : ExpiryQueue) :
    ((queue.compact (isCurrent shards)).queue.pending.map Pending.key).Nodup := by
  apply List.Nodup.map_on _ (queue.nodup_compact _)
  intro a ha b hb hkey
  rw [ExpiryQueue.mem_compact_iff] at ha hb
  exact eq_of_isCurrent hs ha.2 hb.2 hkey

/-- A compacted queue holds no more notes than there are entries. -/
theorem size_compact_le (hs : shards.Sound) (queue : ExpiryQueue) :
    (queue.compact (isCurrent shards)).queue.size ≤ shards.size := by
  have hsubset : (queue.compact (isCurrent shards)).queue.pending.map Pending.key ⊆
      shards.entries.map (·.1) := by
    intro key hmem
    obtain ⟨note, hnote, rfl⟩ := List.mem_map.mp hmem
    obtain ⟨-, entry, hfind, -⟩ := (isCurrent_iff hs).mp (ExpiryQueue.mem_compact_iff.mp hnote).2
    exact List.mem_map.mpr ⟨(note.key, entry), hs.mem_entries_iff.mpr hfind, rfl⟩
  have hle := (List.subperm_of_subset (nodup_keys_compact hs queue) hsubset).length_le
  rwa [List.length_map, List.length_map, ← Shards.size_eq_length_entries] at hle

/-- The engine with a note of a deadline, before its queue is compacted. -/
def noted (engine : Engine A) (key : String) (deadline : Instant) : Engine A :=
  { engine with expiries := engine.expiries.push ⟨deadline, key, engine.shards.home key⟩ }

/-! ## Order -/

/-- The number of places that a configuration asks for. -/
def placesOf (config : EngineConfig) : Nat := max 1 config.segments * shareOf config

/-- The number of places for entries. It is the capacity that is reported, as long as
64 bits hold it. -/
def places (engine : Engine A) : Nat := engine.shards.places

/-- The shards are sound and of the size that a configuration asks for, and the queue
is bounded and speaks of homes and of deadlines to come. The threshold is meant to be
above the number of places, but the capacity that it is made of may have wrapped around. -/
structure Orderly (config : EngineConfig) (engine : Engine A) : Prop where
  shards : engine.shards.Sound
  capacities : engine.shards.capacities =
    List.replicate (max 1 config.segments) (shareOf config)
  noted : ∀ note ∈ engine.expiries.pending,
    0 < note.deadline ∧ note.segment = engine.shards.home note.key
  bounded : engine.pendingExpiries ≤ max engine.compactAbove engine.places
  threshold : engine.compactAbove =
    max minCompaction (min (2 * engine.capacity) (UInt64.size - 1))

namespace Orderly

variable {config : EngineConfig} (h : Orderly config engine)
include h

/-- Shards may change as long as they stay sound and of the same size. -/
theorem reshard (hshards : after.shards.Sound)
    (hcapacities : after.shards.capacities = engine.shards.capacities)
    (hexpiries : after.expiries = engine.expiries)
    (hthreshold : after.compactAbove = engine.compactAbove) : Orderly config after := by
  constructor
  · exact hshards
  · exact hcapacities.trans h.capacities
  · intro note hmem
    rw [Shards.home_of_capacities hcapacities]
    exact h.noted note (hexpiries ▸ hmem)
  · have hplaces : after.places = engine.places := congrArg List.sum hcapacities
    rw [pendingExpiries, hexpiries, hthreshold, hplaces]
    exact h.bounded
  · have hcapacity : after.capacity = engine.capacity :=
      Shards.capacity_of_capacities hcapacities
    rw [hthreshold, h.threshold, hcapacity]

/-- An orderly engine has the places that its configuration asks for. -/
theorem places_eq : engine.places = placesOf config := by
  rw [places, Shards.places, h.capacities, List.sum_replicate_nat, placesOf]

/-- The reported capacity is what 64 bits tell of the places that were asked for. -/
theorem capacity_eq : engine.capacity = placesOf config % UInt64.size := by
  rw [← h.places_eq]
  exact engine.shards.capacity_eq

/-- The queue stays within its bound when a deadline is noted, for it is compacted
when it would not. -/
theorem track (key : String) (deadline : Instant) :
    Orderly config (engine.trackExpiry key deadline) := by
  rw [trackExpiry_eq]
  refine ⟨h.shards, h.capacities, ?_, ?_, h.threshold⟩
  · intro note hmem
    rcases of_mem_tracked hmem with hold | ⟨hpos, rfl⟩
    · exact h.noted note hold
    · exact ⟨hpos, rfl⟩
  · change (engine.tracked key deadline).size ≤ max engine.compactAbove engine.places
    unfold tracked
    split
    next => exact h.bounded
    next =>
      dsimp only
      split
      -- A compaction leaves one note for an entry at most.
      next =>
        refine (size_compact_le h.shards _).trans ?_
        exact h.shards.size_le_places.trans (Nat.le_max_right _ _)
      next hfits => exact (Nat.not_lt.mp hfits).trans (Nat.le_max_left _ _)

/-- Silent steps keep an engine orderly. -/
theorem silent (hstep : Silent engine after) : Orderly config after := by
  have hs := h.shards
  cases hstep with
  | count => exact ⟨hs, h.capacities, h.noted, h.bounded, h.threshold⟩
  | put now key value ttl =>
      refine h.reshard ?_ (hs.capacities_put key _) rfl rfl
      rcases hs.put_cases key (engine.fresh value (deadlineAfter now ttl)) with
        ⟨-, -, hsound, -⟩ | ⟨-, hstores⟩
      · exact hsound
      · exact hstores.sound
  | putForce key value deadline =>
      exact h.reshard (hs.stores_putForce key _).2.sound (hs.capacities_putForce key _) rfl rfl
  | swap key value deadline hfind =>
      -- The insert asks for no room, but the key is there, so that the segment does not grow.
      exact h.reshard (hs.stores_insert hfind _).sound (Shards.capacities_insert _ _ _) rfl rfl
  | get key => exact h.reshard (hs.get key) (Shards.capacities_get _ key) rfl rfl
  | remove key => exact h.reshard (hs.remove key) (Shards.capacities_remove _ key) rfl rfl
  | removeAt i key =>
      exact h.reshard (hs.removeAt i key) (Shards.capacities_removeAt _ i key) rfl rfl
  | track key deadline => exact h.track key deadline
  | drain now =>
      refine ⟨hs, h.capacities, ?_, ?_, h.threshold⟩
      · exact fun note hmem => h.noted note (List.mem_of_mem_filter hmem)
      · exact Nat.le_trans (List.length_filter_le _ _) h.bounded
  | clear =>
      have hcleared : Orderly config { engine with shards := engine.shards.clear } :=
        h.reshard hs.clear (Shards.capacities_clear _) rfl rfl
      exact ⟨hcleared.shards, hcleared.capacities, nofun, Nat.zero_le _, hcleared.threshold⟩

end Orderly

/-- A new engine is in order; its threshold is made of the capacity that it reports. -/
theorem orderly_create (config : EngineConfig) (audience : A) :
    Orderly config (create config audience) := by
  have hcapacities : (create config audience).shards.capacities =
      List.replicate (max 1 config.segments) (shareOf config) := by
    rw [create, Shards.capacities_create]
    congr 1
    exact Nat.max_eq_right (Nat.le_max_left 1 _)
  refine ⟨Shards.sound_create _ _ _, hcapacities, fun _ hmem => absurd hmem List.not_mem_nil,
    Nat.zero_le _, ?_⟩
  -- the product is what the capacities of the segments add up to
  have hcapacity : (create config audience).capacity =
      (UInt64.ofNat (shareOf config) * UInt64.ofNat (max 1 config.segments)).toNat := by
    rw [capacity, Shards.capacity_eq, Shards.places, hcapacities, List.sum_replicate_nat,
      UInt64.toNat_mul, UInt64.toNat_ofNat', UInt64.toNat_ofNat', ← Nat.mul_mod, Nat.mul_comm]
  rw [hcapacity]
  rfl

/-! ## Moments -/

/-- An engine at some moment of a run: new, after a silent step, or after something has
happened to its audience. -/
inductive Moment (config : EngineConfig) : Engine A → Prop
  | created (audience : A) : Moment config (create config audience)
  | silent {engine after : Engine A} (h : Moment config engine) (hstep : Silent engine after) :
    Moment config after
  | heard {engine : Engine A} (h : Moment config engine) (audience : A) :
    Moment config { engine with audience }

/-- At every moment of a run the engine is in order, whatever its audience has become. -/
theorem Moment.orderly {config : EngineConfig} (h : Moment config engine) :
    Orderly config engine := by
  induction h with
  | created audience => exact orderly_create config audience
  | silent _ hstep ih => exact ih.silent hstep
  | heard _ audience ih => exact ⟨ih.shards, ih.capacities, ih.noted, ih.bounded, ih.threshold⟩

end ReplicatedCache.Engine
