import Mathlib.Order.Bounds.Defs
import ReplicatedCache.Proofs.Cluster.Disruption

/-! # Replicas by distance

The circle has 2 ^ 64 positions, and the way up from one of them to another may lead past
zero. A node is as far from a key as the nearest position that it owns. No two nodes are
equally far, and the replicas of a key are the nodes that are nearest to it.
-/

namespace ReplicatedCache.Ring

variable {ring : Ring} {start : UInt64}

/-! ## The way around -/

/-- The way up from `start` to a position, around the circle if need be. -/
def distance (start position : UInt64) : Nat := (position - start).toNat

theorem distance_of_le {position : UInt64} (h : start ≤ position) :
    distance start position = position.toNat - start.toNat :=
  UInt64.toNat_sub_of_le _ _ h

/-- Zero is passed on the way to a position below the start. -/
theorem distance_of_lt {position : UInt64} (h : position < start) :
    distance start position = 2 ^ 64 - start.toNat + position.toNat := by
  have hlt := UInt64.lt_iff_toNat_lt.mp h
  have hstart := start.toNat_lt
  rw [distance, UInt64.toNat_sub, Nat.mod_eq_of_lt (by omega)]

example : distance 5 3 = 2 ^ 64 - 2 := by decide

/-- A walk gets farther and farther from its start. -/
theorem pairwise_walk (ring : Ring) (start : UInt64) :
    (ring.walk start).Pairwise fun place later =>
      distance start place.1 < distance start later.1 := by
  have hsorted : ring.owners.toList.Pairwise fun place later => place.1.toNat < later.1.toNat :=
    List.Pairwise.imp (fun h => UInt64.lt_iff_toNat_lt.mp (Std.compare_eq_lt.mp h))
      Std.ExtTreeMap.ordered_keys_toList
  rw [walk, List.pairwise_append]
  refine ⟨?above, ?below, ?around⟩
  case above =>
    refine (hsorted.filter _).imp_of_mem fun {place later} hplace hlater hlt => ?_
    have hfrom := of_decide_eq_true (List.mem_filter.mp hplace).2
    have hfrom' := of_decide_eq_true (List.mem_filter.mp hlater).2
    rw [distance_of_le hfrom, distance_of_le hfrom']
    exact Nat.sub_lt_sub_right (UInt64.le_iff_toNat_le.mp hfrom) hlt
  case below =>
    refine (hsorted.filter _).imp_of_mem fun {place later} hplace hlater hlt => ?_
    rw [distance_of_lt (of_decide_eq_true (List.mem_filter.mp hplace).2),
      distance_of_lt (of_decide_eq_true (List.mem_filter.mp hlater).2)]
    exact Nat.add_lt_add_left hlt _
  case around =>
    intro place hplace later hlater
    rw [distance_of_le (of_decide_eq_true (List.mem_filter.mp hplace).2),
      distance_of_lt (of_decide_eq_true (List.mem_filter.mp hlater).2)]
    have hposition := place.1.toNat_lt
    have hstart := start.toNat_lt
    omega

/-! ## Nodes by their nearest positions -/

def distances (ring : Ring) (start : UInt64) (id : String) : List Nat :=
  (ring.owners.toList.filter (·.2 == id)).map (distance start ·.1)

/-- The way up from `start` to the first position of a node. A node without positions
is out of reach. -/
def nearest (ring : Ring) (start : UInt64) (id : String) : Nat :=
  (ring.distances start id).min?.getD UInt64.size

/-- All nodes, the nearest first. -/
def byDistance (ring : Ring) (start : UInt64) : List String :=
  ring.nodes.mergeSort fun id other =>
    decide (ring.nearest start id ≤ ring.nearest start other)

/-- The distances of a node are those of the positions that it owns. -/
theorem mem_distances_iff {id : String} {way : Nat} :
    way ∈ ring.distances start id ↔
      ∃ p : UInt64, ring.owners[p]? = some id ∧ distance start p = way := by
  simp [distances, Std.ExtTreeMap.mem_toList_iff_getElem?_eq_some]

/-- No position of a node lies nearer than its nearest one. -/
theorem nearest_le {id : String} {p : UInt64} (h : ring.owners[p]? = some id) :
    ring.nearest start id ≤ distance start p :=
  List.min?_getD_le_of_mem (mem_distances_iff.mpr ⟨p, h, rfl⟩)

/-- A node owns the position by which it is near, and none that is nearer. -/
theorem isLeast_nearest {id : String} (h : id ∈ ring.nodes) :
    IsLeast { way | ∃ p : UInt64, ring.owners[p]? = some id ∧ distance start p = way }
      (ring.nearest start id) := by
  obtain ⟨p, howned⟩ := mem_ownerList_iff.mp (mem_nodes_iff.mp h)
  constructor
  · cases hleast : (ring.distances start id).min? with
    | none =>
        rw [List.min?_eq_none_iff] at hleast
        exact absurd (mem_distances_iff.mpr ⟨p, howned, rfl⟩) (hleast ▸ List.not_mem_nil)
    | some way =>
        rw [nearest, hleast]
        exact mem_distances_iff.mp (List.min?_eq_some_iff.mp hleast).1
  · rintro way ⟨p, howned, rfl⟩
    exact nearest_le howned

/-! ## The order of a walk -/

/-- Where entries come in the order of a measure, one owner comes before another only if
it has an entry that measures less than all of the other's. -/
theorem pairwise_eraseDups_owners {α : Type} (measure : α → Nat) (owner : α → String) :
    ∀ entries : List α, (entries.Pairwise fun entry later => measure entry < measure later) →
      (entries.map owner).eraseDups.Pairwise fun id other =>
        ∃ entry ∈ entries, owner entry = id ∧
          ∀ later ∈ entries, owner later = other → measure entry < measure later
  | [], _ => by simp
  | first :: rest, hsorted => by
      have hshorter : (rest.filter fun entry => !owner entry == owner first).length <
          rest.length + 1 :=
        Nat.lt_succ_of_le (List.length_filter_le _ _)
      obtain ⟨hfirst, hrest⟩ := List.pairwise_cons.mp hsorted
      have hothers : (rest.map owner).filter (fun id => !id == owner first) =
          (rest.filter fun entry => !owner entry == owner first).map owner :=
        List.filter_map
      have hne {other : String} (h : other ∈ ((rest.map owner).filter
          fun id => !id == owner first).eraseDups) : owner first ≠ other := by
        have hkept := (List.mem_filter.mp (List.mem_eraseDups.mp h)).2
        exact fun heq => by simp [heq] at hkept
      rw [List.map_cons, List.eraseDups_cons, List.pairwise_cons]
      constructor
      · intro other hother
        refine ⟨first, List.mem_cons_self, rfl, fun later hlater howner => ?_⟩
        rcases List.mem_cons.mp hlater with rfl | hlater
        · exact absurd howner (hne hother)
        · exact hfirst later hlater
      · have ih := pairwise_eraseDups_owners measure owner _ (hrest.filter fun entry =>
          !owner entry == owner first)
        rw [← hothers] at ih
        refine ih.imp_of_mem ?_
        rintro id other - hother ⟨entry, hentry, howner, hbefore⟩
        refine ⟨entry, List.mem_cons_of_mem _ (List.mem_filter.mp hentry).1, howner, ?_⟩
        intro later hlater howner
        rcases List.mem_cons.mp hlater with rfl | hlater
        · exact absurd howner (hne hother)
        · have hkept : owner later ≠ owner first := fun heq => hne hother (heq.symm.trans howner)
          exact hbefore later (List.mem_filter.mpr ⟨hlater, by simpa using hkept⟩) howner
termination_by entries => entries.length

/-- A walk meets the nearer node first. -/
theorem pairwise_circuit (ring : Ring) (key : String) :
    (ring.circuit key).Pairwise fun id other =>
      ring.nearest (Hash.text key) id < ring.nearest (Hash.text key) other := by
  have hmem (place : UInt64 × String) :
      place ∈ ring.walk (Hash.text key) ↔ ring.owners[place.1]? = some place.2 := by
    rw [(ring.walk_perm _).mem_iff, Std.ExtTreeMap.mem_toList_iff_getElem?_eq_some]
  refine (pairwise_eraseDups_owners _ _ _ (ring.pairwise_walk (Hash.text key))).imp_of_mem ?_
  rintro id other - hother ⟨place, hplace, rfl, hbefore⟩
  obtain ⟨⟨p, howned, hway⟩, -⟩ := isLeast_nearest ((ring.mem_walk_iff key other).mp hother)
  calc ring.nearest (Hash.text key) place.2
      ≤ distance (Hash.text key) place.1 := nearest_le ((hmem place).mp hplace)
    _ < distance (Hash.text key) p := hbefore (p, other) ((hmem _).mpr howned) rfl
    _ = ring.nearest (Hash.text key) other := hway

/-- No two nodes are equally far. -/
theorem eq_of_nearest_eq (key : String) {id other : String} (hid : id ∈ ring.nodes)
    (hother : other ∈ ring.nodes)
    (h : ring.nearest (Hash.text key) id = ring.nearest (Hash.text key) other) : id = other := by
  have hapart : ((ring.circuit key).map (ring.nearest (Hash.text key))).Nodup :=
    List.pairwise_map.mpr ((ring.pairwise_circuit key).imp Nat.ne_of_lt)
  exact List.inj_on_of_nodup_map hapart ((ring.mem_walk_iff key id).mpr hid)
    ((ring.mem_walk_iff key other).mpr hother) h

/-- The walk around the ring meets the nodes in the order of their least distances. -/
theorem circuit_eq_byDistance (ring : Ring) (key : String) :
    ring.circuit key = ring.byDistance (Hash.text key) := by
  have hperm : (ring.circuit key).Perm (ring.byDistance (Hash.text key)) :=
    (ring.circuit_perm key).trans (List.mergeSort_perm _ _).symm
  have hsorted : (ring.byDistance (Hash.text key)).Pairwise fun id other =>
      ring.nearest (Hash.text key) id ≤ ring.nearest (Hash.text key) other := by
    refine (List.pairwise_mergeSort ?_ ?_ _).imp of_decide_eq_true
    · intro a b c hab hbc
      exact decide_eq_true (Nat.le_trans (of_decide_eq_true hab) (of_decide_eq_true hbc))
    · intro a b
      simpa using Nat.le_total _ _
  refine hperm.eq_of_pairwise ?_ ((ring.pairwise_circuit key).imp Nat.le_of_lt) hsorted
  intro id other hid hother hle hge
  exact eq_of_nearest_eq key ((ring.circuit_perm key).mem_iff.mp hid)
    (List.mem_mergeSort.mp hother) (Nat.le_antisymm hle hge)

/-- The replicas of a key are the first nodes by the way up from its position to the
nearest position that they own, and no two nodes tie. So no node is a replica twice,
there are as many replicas as asked for or as there are nodes, and who asks for one more
gets the same ones and perhaps another. -/
theorem replicas_eq_take_byDistance (ring : Ring) (key : String) (count : Nat) :
    let start := Hash.text key
    ring.replicas key count = (ring.byDistance start).take count ∧
      (∀ id ∈ ring.nodes,
        IsLeast { way | ∃ p : UInt64, ring.owners[p]? = some id ∧ distance start p = way }
          (ring.nearest start id)) ∧
      (∀ id ∈ ring.nodes, ∀ other ∈ ring.nodes,
        ring.nearest start id = ring.nearest start other → id = other) ∧
      (ring.replicas key count).Nodup ∧
      (ring.replicas key count).length = min count ring.nodeCount ∧
      ring.replicas key count <+: ring.replicas key (count + 1) := by
  intro start
  refine ⟨?_, fun _ => isLeast_nearest, fun id hid other hother => ?_,
    ring.nodup_replicas key count,
    ?_, ?_⟩
  · rw [replicas_eq_take, circuit_eq_byDistance]
  · exact eq_of_nearest_eq key hid hother
  · rw [replicas_eq_take, List.length_take, (ring.circuit_perm key).length_eq, nodeCount]
  · exact List.take_prefix_take_left (Nat.le_succ count)

end ReplicatedCache.Ring
