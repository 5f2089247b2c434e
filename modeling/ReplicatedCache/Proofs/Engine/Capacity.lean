import Mathlib.Algebra.GroupWithZero.Nat
import ReplicatedCache.Proofs.Engine.Bindings

/-! # How much shards hold

No operation changes the capacity of a segment or the number of segments. Sound
shards hold as many entries as they hold keys, and no more than they have places. The
capacity that they report is this number in 64 bits.
-/

namespace ReplicatedCache.Shards

variable {α : Type} {shards after : Shards} {key : String} {entry : Entry}

/-- The capacities of the segments, in order. -/
def capacities (shards : Shards) : List Nat := shards.segments.toList.map Segment.capacity

theorem length_capacities (shards : Shards) : shards.capacities.length = shards.segments.size := by
  rw [capacities, List.length_map, Array.length_toList]

section Alike

variable {count capacity : Nat} (h : shards.capacities = List.replicate count capacity)
include h

theorem size_segments_of_capacities : shards.segments.size = count := by
  rw [← length_capacities, h, List.length_replicate]

theorem capacity_of_mem {segment : Segment StandardPolicy} (hmem : segment ∈ shards.segments) :
    segment.capacity = capacity := by
  have hcapacity : segment.capacity ∈ shards.capacities :=
    List.mem_map_of_mem (Array.mem_toList_iff.mpr hmem)
  rw [h] at hcapacity
  exact List.eq_of_mem_replicate hcapacity

end Alike

/-- Where keys live depends on the number of segments only. -/
theorem home_of_capacities (h : after.capacities = shards.capacities) (key : String) :
    after.home key = shards.home key := by
  rw [home, home, ← length_capacities, ← length_capacities, h]

/-- The capacity at a key's home is that of the segment to which the key belongs. -/
theorem getElem?_capacities_home (shards : Shards) (key : String) :
    shards.capacities[shards.home key]? = some (shards.segmentOf key).capacity := by
  have hhome : shards.home key < shards.segments.size := shards.home_lt key
  rw [capacities, List.getElem?_map, Array.getElem?_toList, Array.getElem?_eq_getElem hhome]
  rfl

theorem capacity_segmentOf_of_capacities (h : after.capacities = shards.capacities)
    (key : String) : (after.segmentOf key).capacity = (shards.segmentOf key).capacity := by
  apply Option.some.inj
  rw [← getElem?_capacities_home, ← getElem?_capacities_home, h, home_of_capacities h]

/-- The number of places in all segments together. -/
def places (shards : Shards) : Nat := shards.capacities.sum

/-- The capacity that is reported is what 64 bits tell of the number of places. -/
theorem capacity_eq (shards : Shards) : shards.capacity = shards.places % UInt64.size := by
  rw [capacity, places, capacities]
  induction shards.segments.toList with
  | nil => rfl
  | cons segment rest ih =>
      rw [List.foldr_cons, List.map_cons, List.sum_cons, UInt64.toNat_add, ih, UInt64.toNat_ofNat']
      exact (Nat.add_mod _ _ _).symm

/-- Shards with the same capacities, one by one, report the same capacity. -/
theorem capacity_of_capacities (h : after.capacities = shards.capacities) :
    after.capacity = shards.capacity := by
  rw [capacity_eq, capacity_eq, places, places, h]

/-- The size counts the entries. -/
theorem size_eq_length_entries (shards : Shards) : shards.size = shards.entries.length := by
  rw [size, entries]
  induction shards.segments.toList with
  | nil => rfl
  | cons segment rest ih =>
      rw [List.foldr_cons, List.flatMap_cons, List.length_append, ih, Segment.size_eq_length]

/-- There are no more entries than places. -/
theorem Sound.size_le_places (hs : shards.Sound) : shards.size ≤ shards.places := by
  have hfits : ∀ segment ∈ shards.segments.toList, segment.size ≤ segment.capacity := by
    intro segment hmem
    obtain ⟨i, hi, rfl⟩ := Array.mem_iff_getElem.mp (Array.mem_toList_iff.mp hmem)
    exact hs.fits i hi
  rw [size, places, capacities]
  generalize shards.segments.toList = segments at hfits ⊢
  induction segments with
  | nil => exact Nat.le_refl 0
  | cons segment rest ih =>
      obtain ⟨hsegment, hrest⟩ := List.forall_mem_cons.mp hfits
      exact Nat.add_le_add hsegment (ih hrest)

/-! ## Operations -/

/-- An operation that keeps the capacity of its segment keeps all of them. -/
theorem capacities_onSegment {i : Nat} (h : i < shards.segments.size)
    (operation : Segment StandardPolicy → Segment StandardPolicy × α)
    (hcapacity : (operation shards.segments[i]).1.capacity = shards.segments[i].capacity) :
    (shards.onSegment i h operation).1.capacities = shards.capacities := by
  rw [onSegment_eq, capacities, capacities, Array.toList_set, List.map_set, hcapacity]
  apply List.ext_getElem
  · rw [List.length_set]
  · intro j hj _
    rw [List.getElem_set]
    split
    next heq =>
      subst heq
      rw [List.getElem_map, Array.getElem_toList]
    next => rfl

theorem capacities_onHome (operation : Segment StandardPolicy → Segment StandardPolicy × α)
    (hcapacity : (operation (shards.segmentOf key)).1.capacity =
      (shards.segmentOf key).capacity) :
    (shards.onHome key operation).1.capacities = shards.capacities :=
  capacities_onSegment (shards.home_lt key) operation hcapacity

@[simp] theorem capacities_get (shards : Shards) (key : String) :
    (shards.get key).capacities = shards.capacities :=
  capacities_onHome _ (Segment.capacity_get _ _)

@[simp] theorem capacities_remove (shards : Shards) (key : String) :
    (shards.remove key).capacities = shards.capacities :=
  capacities_onHome _ (Segment.capacity_remove _ _)

@[simp] theorem capacities_removeAt (shards : Shards) (i : Nat) (key : String) :
    (shards.removeAt i key).capacities = shards.capacities := by
  unfold removeAt
  split
  next h => exact capacities_onSegment h _ (Segment.capacity_remove _ _)
  next => rfl

@[simp] theorem capacities_insert (shards : Shards) (key : String) (entry : Entry) :
    (shards.insert key entry).capacities = shards.capacities :=
  capacities_onHome _ (Segment.capacity_insert _ _ _)

@[simp] theorem capacities_clear (shards : Shards) :
    shards.clear.capacities = shards.capacities := by
  rw [clear, capacities, capacities, Array.toList_map, List.map_map]
  rfl

theorem capacities_create (count capacity : Nat) (eviction : EvictionKind) :
    (create count capacity eviction).capacities =
      List.replicate (max 1 count) (max 1 capacity) := by
  rw [create, capacities, Array.toList_replicate, List.map_replicate]
  rfl

namespace Sound

/-- Putting never changes how much a segment may hold, whether the entry is stored or not. -/
theorem capacities_put (hs : shards.Sound) (key : String) (entry : Entry) :
    (shards.put key entry).1.capacities = shards.capacities := by
  apply capacities_onHome
  rcases Segment.put_cases (hs.fits_home key) (hs.roomy_home key) key entry with
    ⟨-, -, -, hcapacity⟩ | ⟨-, hput⟩
  · exact hcapacity
  · exact hput.capacity_eq

theorem capacities_putForce (hs : shards.Sound) (key : String) (entry : Entry) :
    (shards.putForce key entry).1.capacities = shards.capacities :=
  capacities_onHome _
    (Segment.stored_putForce (hs.fits_home key) (hs.roomy_home key) key entry).2.capacity_eq

theorem removeAt (hs : shards.Sound) (i : Nat) (key : String) : (shards.removeAt i key).Sound := by
  unfold Shards.removeAt
  split
  next h =>
    refine hs.onSegment h _ ?_ (Segment.capacity_remove _ _) ?_
    · intro other hmem
      rw [Segment.keys_remove] at hmem
      exact Or.inr (List.mem_of_mem_filter hmem)
    · refine Nat.le_trans ?_ (hs.fits i h)
      rw [Segment.size_eq_length, Segment.toList_remove, Segment.size_eq_length]
      exact List.length_filter_le _ _
  next => exact hs

end Sound

end ReplicatedCache.Shards
