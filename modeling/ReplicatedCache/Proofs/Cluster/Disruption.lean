import ReplicatedCache.Proofs.Cluster.Membership

/-! # One node more or less

A key meets the nodes of a ring in some order, leader first. When a node leaves, the
others keep their order, and those behind it move up. When a node joins on positions
that are free, it is put somewhere in between. Either way no other node changes places
with another, so the only leader a key can lose is the node that leaves, and the only
one it can get is the node that joins.
-/

namespace ReplicatedCache.Ring

variable {ring : Ring} {id : String}

/-! ## All nodes in the order of a key -/

/-- All nodes, in the order in which a walk from the position of a key meets them. -/
def circuit (ring : Ring) (key : String) : List String :=
  ((ring.walk (Hash.text key)).map (·.2)).eraseDups

/-- The replicas of a key are the first nodes that the walk from its position meets. -/
theorem replicas_eq_take (ring : Ring) (key : String) (count : Nat) :
    ring.replicas key count = (ring.circuit key).take count := rfl

theorem circuit_perm (ring : Ring) (key : String) : (ring.circuit key).Perm ring.nodes :=
  (List.perm_ext_iff_of_nodup (nodup_eraseDups _) ring.nodup_nodes).mpr (ring.mem_walk_iff key)

theorem replicas_nodeCount (ring : Ring) (key : String) :
    ring.replicas key ring.nodeCount = ring.circuit key := by
  rw [replicas_eq_take, nodeCount, List.take_of_length_le (ring.circuit_perm key).length_eq.le]

/-- It does not matter whether items are dropped before the repetitions are or after. -/
theorem filter_eraseDups {α : Type} [BEq α] [LawfulBEq α] (keep : α → Bool) :
    ∀ items : List α, (items.filter keep).eraseDups = items.eraseDups.filter keep
  | [] => by simp
  | item :: items => by
      have hshorter : (items.filter fun other => !other == item).length < items.length + 1 :=
        Nat.lt_succ_of_le (List.length_filter_le _ _)
      have ih := filter_eraseDups keep (items.filter fun other => !other == item)
      rw [List.eraseDups_cons, List.filter_cons]
      cases hitem : keep item with
      | true =>
          rw [if_pos rfl, List.eraseDups_cons, List.filter_cons_of_pos hitem, ← ih,
            List.filter_filter, List.filter_filter]
          simp only [Bool.and_comm]
      | false =>
          -- the repetitions of a dropped item are dropped with it
          have hdropped : (items.filter fun other => !other == item).filter keep =
              items.filter keep := by
            rw [List.filter_filter]
            refine List.filter_congr fun other _ => ?_
            cases heq : other == item with
            | true => simp [eq_of_beq heq, hitem]
            | false => simp
          rw [if_neg Bool.false_ne_true, List.filter_cons_of_neg (by simp [hitem]), ← ih, hdropped]
termination_by items => items.length

/-- If one ring is another without a node, so is the order of its nodes. -/
theorem circuit_of_owners_eq_filter {less : Ring}
    (h : less.owners = ring.owners.filter fun _ owner => decide (owner ≠ id)) (key : String) :
    less.circuit key = (ring.circuit key).filter fun owner => decide (owner ≠ id) := by
  have hwalk (start : UInt64) :
      less.walk start = (ring.walk start).filter fun place => decide (place.2 ≠ id) := by
    rw [walk, walk, h, Std.ExtTreeMap.toList_filter, List.filter_append]
    simp only [List.filter_filter, Bool.and_comm]
  rw [circuit, circuit, hwalk, ← filter_eraseDups, List.filter_map]
  rfl

/-! ## Owners and positions -/

/-- Nobody owns a position that is not one of its own. -/
def Placed (ring : Ring) : Prop :=
  ∀ p id, ring.owners[p]? = some id → p ∈ ring.placesOf id

/-- Joining and leaving keep every node at the positions of its own labels. -/
theorem Placed.apply (h : ring.Placed) (step : RingStep) : (ring.apply step).Placed := by
  intro p owner howned
  rw [placesOf_of_virtualNodes (ring.virtualNodes_apply step)]
  cases step with
  | add id =>
      rw [Ring.apply, getElem?_add] at howned
      split at howned
      next hplace =>
        obtain rfl : id = owner := Option.some.inj howned
        exact hplace
      next => exact h p owner howned
  | remove id =>
      rw [Ring.apply, getElem?_remove] at howned
      split at howned
      next => exact absurd howned (by simp)
      next => exact h p owner howned

theorem Placed.run (h : ring.Placed) (steps : List RingStep) : (ring.run steps).Placed := by
  induction steps generalizing ring with
  | nil => exact h
  | cons step steps ih => exact ih (h.apply step)

/-- In any history from an empty ring, every node stands at the positions of its own labels. -/
theorem placed_run_ofVirtualNodes (virtualNodes : Nat) (steps : List RingStep) :
    ((ofVirtualNodes virtualNodes).run steps).Placed := by
  have hempty : (ofVirtualNodes virtualNodes).Placed := by
    intro p id howned
    simp [ofVirtualNodes] at howned
  exact hempty.run steps

/-- A node that leaves takes along all that it owns and nothing else, even where labels
collide. -/
theorem owners_remove (h : ring.Placed) (id : String) :
    (ring.remove id).owners = ring.owners.filter fun _ owner => decide (owner ≠ id) := by
  refine Std.ExtTreeMap.ext_getElem? fun p => ?_
  rw [getElem?_remove, Std.ExtTreeMap.getElem?_filter, Option.pfilter_eq_filter]
  cases howner : ring.owners[p]? with
  | none => simp
  | some owner =>
      by_cases heq : owner = id
      · have hplace : p ∈ ring.placesOf id := heq ▸ h p owner howner
        simp [heq, hplace, Option.filter_some]
      · simp [heq, Option.filter_some]

/-- None of the positions of a node is owned by anyone. -/
def Free (ring : Ring) (id : String) : Prop :=
  ∀ p ∈ ring.placesOf id, ring.owners[p]? = none

/-- Decided along the positions of the node, not along all there are. -/
instance (ring : Ring) (id : String) : Decidable (ring.Free id) :=
  List.decidableBAll (fun p => ring.owners[p]? = none) (ring.placesOf id)

/-- A node that joins on free positions takes nothing from anyone. -/
theorem owners_of_add (h : ring.Placed) (hfree : ring.Free id) :
    ring.owners = (ring.add id).owners.filter fun _ owner => decide (owner ≠ id) := by
  refine Std.ExtTreeMap.ext_getElem? fun p => ?_
  rw [Std.ExtTreeMap.getElem?_filter, Option.pfilter_eq_filter, getElem?_add]
  split
  next hplace => simp [hfree p hplace, Option.filter_some]
  next hplace =>
    cases howner : ring.owners[p]? with
    | none => rfl
    | some owner =>
        have hne : owner ≠ id := by
          rintro rfl
          exact hplace (h p owner howner)
        simp [hne, Option.filter_some]

/-! ## What changes for a key -/

/-- When a node leaves, every key keeps its other owners, in the order in which they stood. -/
theorem replicas_remove (h : ring.Placed) (id key : String) (count : Nat) :
    (ring.remove id).replicas key count =
      ((ring.replicas key ring.nodeCount).filter fun owner => decide (owner ≠ id)).take count := by
  rw [replicas_nodeCount, replicas_eq_take, circuit_of_owners_eq_filter (owners_remove h id)]

/-- When a node joins, the walk without it is the walk as it was before. -/
theorem filter_replicas_add (h : ring.Placed) (hfree : ring.Free id) (key : String) :
    ((ring.add id).replicas key (ring.add id).nodeCount).filter (fun owner => decide (owner ≠ id)) =
      ring.replicas key ring.nodeCount := by
  rw [replicas_nodeCount, replicas_nodeCount, circuit_of_owners_eq_filter (owners_of_add h hfree)]

/-- If one ring is another without a node, only that node gives up its lead. -/
theorem head?_replicas_of_owners_eq_filter {less : Ring}
    (h : less.owners = ring.owners.filter fun _ owner => decide (owner ≠ id)) {key : String}
    {count : Nat} (hchanged : (less.replicas key count).head? ≠ (ring.replicas key count).head?) :
    (ring.replicas key count).head? = some id := by
  rw [replicas_eq_take, replicas_eq_take, circuit_of_owners_eq_filter h] at hchanged
  rw [replicas_eq_take]
  cases count with
  | zero => exact absurd rfl hchanged
  | succ count =>
      cases hall : ring.circuit key with
      | nil => simp [hall] at hchanged
      | cons leader others =>
          by_cases heq : leader = id
          · simp [heq]
          · simp [hall, heq] at hchanged

/-- When a node leaves, the replicas of every key are the earlier nodes in the same order
without it. When one joins on free positions, the nodes of a key without it are the
earlier ones in the same order. So leadership passes only from the one and to the other. -/
theorem minimal_disruption (virtualNodes : Nat) (steps : List RingStep) (id key : String) :
    let ring := (ofVirtualNodes virtualNodes).run steps
    let left := ring.remove id
    let joined := ring.add id
    (∀ count, left.replicas key count =
        ((ring.replicas key ring.nodeCount).filter fun owner => decide (owner ≠ id)).take count) ∧
      (∀ count, (left.replicas key count).head? ≠ (ring.replicas key count).head? →
        (ring.replicas key count).head? = some id) ∧
      (ring.Free id →
        (joined.replicas key joined.nodeCount).filter (fun owner => decide (owner ≠ id)) =
            ring.replicas key ring.nodeCount ∧
          ∀ count, (joined.replicas key count).head? ≠ (ring.replicas key count).head? →
            (joined.replicas key count).head? = some id) := by
  intro ring left joined
  have hplaced : ring.Placed := placed_run_ofVirtualNodes virtualNodes steps
  refine ⟨replicas_remove hplaced id key, fun count => ?_, fun hfree => ⟨?_, fun count => ?_⟩⟩
  · exact head?_replicas_of_owners_eq_filter (owners_remove hplaced id)
  · exact filter_replicas_add hplaced hfree key
  · exact fun hchanged =>
      head?_replicas_of_owners_eq_filter (owners_of_add hplaced hfree) hchanged.symm

/-- A third node joins two others on free positions. -/
theorem minimal_disruption_third :
    let ring := (ofVirtualNodes 2).run [.add "a", .add "b"]
    let joined := ring.add "c"
    ring.Free "c" ∧
      (joined.replicas "k" joined.nodeCount).filter (fun owner => decide (owner ≠ "c")) =
        ring.replicas "k" ring.nodeCount := by
  intro ring joined
  have hfree : ring.Free "c" := by decide +kernel
  exact ⟨hfree, ((minimal_disruption 2 [.add "a", .add "b"] "c" "k").2.2 hfree).1⟩

end ReplicatedCache.Ring
