import Mathlib.Data.List.Nodup
import ReplicatedCache.Cluster.Ring

/-! # Replicas are distinct

A walk around the ring lists no replica twice, and neither does the list of all
nodes. The replicas are nodes, and all of them if there are enough.
-/

namespace ReplicatedCache.Ring

/-- Removing repetitions leaves none. -/
theorem nodup_eraseDups {α : Type} [BEq α] [LawfulBEq α] : ∀ items : List α, items.eraseDups.Nodup
  | [] => by simp
  | item :: items => by
      have hshorter : (items.filter fun other => !other == item).length < items.length + 1 :=
        Nat.lt_succ_of_le (List.length_filter_le _ _)
      rw [List.eraseDups_cons, List.nodup_cons]
      refine ⟨?_, nodup_eraseDups _⟩
      simp [List.mem_eraseDups]
termination_by items => items.length

/-- No node is a replica of a key twice. -/
theorem nodup_replicas (ring : Ring) (key : String) (count : Nat) :
    (ring.replicas key count).Nodup :=
  (nodup_eraseDups _).sublist (List.take_sublist _ _)

theorem nodup_nodes (ring : Ring) : ring.nodes.Nodup :=
  (List.mergeSort_perm _ _).nodup_iff.mpr (nodup_eraseDups _)

/-- A walk meets every owned position once. -/
theorem walk_perm (ring : Ring) (start : UInt64) : (ring.walk start).Perm ring.owners.toList := by
  have hsplit := List.filter_append_perm (fun place : UInt64 × String => decide (start ≤ place.1))
    ring.owners.toList
  refine List.Perm.trans (List.Perm.of_eq ?_) hsplit
  rw [walk]
  congr 1
  apply List.filter_congr
  rintro ⟨position, owner⟩ -
  rw [← decide_not, decide_eq_decide, UInt64.not_le]

/-- All nodes, in the order in which a walk from the position of a key meets them. -/
theorem mem_walk_iff (ring : Ring) (key id : String) :
    id ∈ ((ring.walk (Hash.text key)).map (·.2)).eraseDups ↔ id ∈ ring.nodes := by
  rw [List.mem_eraseDups, ((ring.walk_perm (Hash.text key)).map (·.2)).mem_iff, nodes,
    List.mem_mergeSort, List.mem_eraseDups]
  rfl

/-- Replicas are nodes of the ring. -/
theorem mem_nodes_of_mem_replicas {ring : Ring} {key id : String} {count : Nat}
    (h : id ∈ ring.replicas key count) : id ∈ ring.nodes :=
  (ring.mem_walk_iff key id).mp (List.mem_of_mem_take h)

/-- With as many replicas as nodes, every node is a replica of every key. -/
theorem mem_replicas_iff (ring : Ring) (key id : String) {count : Nat}
    (h : ring.nodes.length ≤ count) : id ∈ ring.replicas key count ↔ id ∈ ring.nodes := by
  have hperm : (((ring.walk (Hash.text key)).map (·.2)).eraseDups).Perm ring.nodes :=
    (List.perm_ext_iff_of_nodup (nodup_eraseDups _) ring.nodup_nodes).mpr (ring.mem_walk_iff key)
  rw [replicas, List.take_of_length_le (hperm.length_eq.symm ▸ h)]
  exact ring.mem_walk_iff key id

end ReplicatedCache.Ring
