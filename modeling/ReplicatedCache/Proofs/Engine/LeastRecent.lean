import ReplicatedCache.Proofs.Engine.Bindings
import ReplicatedCache.Proofs.Segment.LeastRecent

/-! # Shards that let the least recently used keys leave

The policy has no state, so it stays what it is in every segment, whatever happens to the
shards, and no write is turned down.
-/

namespace ReplicatedCache

namespace Shards

variable {α : Type} {shards : Shards}

/-- All segments ask the policy of the least recently used key. -/
def IsLru (shards : Shards) : Prop := ∀ segment ∈ shards.segments, segment.IsLru

namespace IsLru

theorem home (h : shards.IsLru) (key : String) : (shards.segmentOf key).IsLru :=
  h _ (Array.getElem_mem (shards.home_lt key))

/-- An operation that leaves one segment under the policy of the least recent key leaves all
under it. -/
theorem onSegment (h : shards.IsLru) {i : Nat} (hi : i < shards.segments.size)
    {operation : Segment StandardPolicy → Segment StandardPolicy × α}
    (hoperation : (operation shards.segments[i]).1.IsLru) :
    (shards.onSegment i hi operation).1.IsLru := by
  rw [onSegment_eq]
  intro segment hmem
  rcases Array.mem_or_eq_of_mem_set (w := hi) hmem with hold | rfl
  · exact h segment hold
  · exact hoperation

theorem onHome (h : shards.IsLru) {key : String}
    {operation : Segment StandardPolicy → Segment StandardPolicy × α}
    (hoperation : (operation (shards.segmentOf key)).1.IsLru) :
    (shards.onHome key operation).1.IsLru :=
  h.onSegment (shards.home_lt key) hoperation

theorem removeAt (h : shards.IsLru) (i : Nat) (key : String) : (shards.removeAt i key).IsLru := by
  unfold Shards.removeAt
  split
  next hi => exact h.onSegment hi ((h _ (Array.getElem_mem hi)).remove key)
  next => exact h

theorem remove (h : shards.IsLru) (key : String) : (shards.remove key).IsLru :=
  h.onHome ((h.home key).remove key)

theorem get (h : shards.IsLru) (key : String) : (shards.get key).IsLru :=
  h.onHome ((h.home key).get key)

theorem insert (h : shards.IsLru) (key : String) (entry : Entry) :
    (shards.insert key entry).IsLru :=
  h.onHome ((h.home key).insert key entry)

/-- Where the least recent key leaves, every put is stored. -/
theorem put (h : shards.IsLru) (key : String) (entry : Entry) :
    (shards.put key entry).1.IsLru ∧ (shards.put key entry).2.stored = true := by
  obtain ⟨hafter, hstored⟩ := (h.home key).put key entry
  refine ⟨h.onHome hafter, ?_⟩
  rw [Shards.put, onHome_snd]
  exact hstored

theorem putForce (h : shards.IsLru) (key : String) (entry : Entry) :
    (shards.putForce key entry).1.IsLru :=
  h.onHome ((h.home key).putForce key entry)

theorem clear (h : shards.IsLru) : shards.clear.IsLru := by
  intro segment hmem
  obtain ⟨old, hold, rfl⟩ := Array.mem_map.mp hmem
  exact (Segment.policy_clear old).trans (h old hold)

end IsLru

theorem isLru_create (count capacity : Nat) : (create count capacity .lru).IsLru := by
  intro segment hmem
  rw [create, Array.mem_replicate] at hmem
  rw [hmem.2]
  rfl

end Shards

end ReplicatedCache
