import ReplicatedCache.Segment

/-! # Shards

The key space of an engine is cut into segments. A key's home is fixed by its
hash, so that every key lives in exactly one segment.
-/

namespace ReplicatedCache

/-- The segments of an engine, at least one. -/
structure Shards where
  segments : Array (Segment StandardPolicy)
  nonempty : 0 < segments.size

namespace Shards

/-- `count` empty segments of a capacity; a count of zero counts as one. -/
def create (count capacity : Nat) (eviction : EvictionKind) : Shards where
  segments := Array.replicate (max 1 count) (.ofCapacity capacity (eviction.build capacity))
  nonempty := by rw [Array.size_replicate]; omega

def count (shards : Shards) : Nat := shards.segments.size

/-- The segment in which a key lives. -/
def home (shards : Shards) (key : String) : Nat := (Hash.text key).toNat % shards.segments.size

theorem home_lt (shards : Shards) (key : String) : shards.home key < shards.segments.size :=
  Nat.mod_lt _ shards.nonempty

/-- The entries of a segment, eldest first; none for a number out of range. -/
def entriesAt (shards : Shards) (i : Nat) : List (String × Entry) :=
  match shards.segments[i]? with
  | some segment => segment.toList
  | none => []

def segmentOf (shards : Shards) (key : String) : Segment StandardPolicy :=
  have := shards.home_lt key
  shards.segments[shards.home key]

def onSegment {α : Type} (shards : Shards) (i : Nat) (h : i < shards.segments.size)
    (operation : Segment StandardPolicy → Segment StandardPolicy × α) : Shards × α :=
  match shards, h with
  | ⟨segments, nonempty⟩, h =>
    let segment := segments[i]
    -- the place is blanked first, so that the operation holds the only copy of the segment
    let others := segments.set i default h
    let (segment, answer) := operation segment
    (⟨others.set i segment (by simpa [others] using h), by simpa [others] using nonempty⟩, answer)

def onHome {α : Type} (shards : Shards) (key : String)
    (operation : Segment StandardPolicy → Segment StandardPolicy × α) : Shards × α :=
  shards.onSegment (shards.home key) (shards.home_lt key) operation

def size (shards : Shards) : Nat :=
  shards.segments.toList.foldr (fun segment total => segment.size + total) 0

/-- The capacities of all segments, added up in 64 bits: the sum wraps around. -/
def capacity (shards : Shards) : Nat :=
  (shards.segments.toList.foldr
    (fun segment total => UInt64.ofNat segment.capacity + total) 0).toNat

def isEmpty (shards : Shards) : Bool := shards.segments.toList.all Segment.isEmpty

/-- All entries, segment by segment, eldest first in each. -/
def entries (shards : Shards) : List (String × Entry) :=
  shards.segments.toList.flatMap Segment.toList

def clear (shards : Shards) : Shards :=
  ⟨shards.segments.map fun segment => segment.clear.1, by simpa using shards.nonempty⟩

/-- An operation on one segment leaves the number of segments and every other segment alone. -/
theorem onSegment_eq {α : Type} (shards : Shards) (i : Nat) (h : i < shards.segments.size)
    (operation : Segment StandardPolicy → Segment StandardPolicy × α) :
    shards.onSegment i h operation =
      (⟨shards.segments.set i (operation shards.segments[i]).1 h, by simpa using shards.nonempty⟩,
        (operation shards.segments[i]).2) := by
  simp [onSegment]

end Shards

end ReplicatedCache
