import Mathlib.Data.List.Nodup
import ReplicatedCache.Cluster.Handoff

/-! # What the queues of hints hold

Recording appends to the queue of one node and handing over takes from its
front; the queues of other nodes stay as they are. A handover delivers the hints
that the node answers before it first fails.
-/

namespace ReplicatedCache.Handoff

variable {handoff : Handoff} {id other : String}

/-- A recorded write waits behind everything that waits already. -/
theorem pending_record_self (handoff : Handoff) (id : String) (write : Write) :
    (handoff.record id write).pending id = handoff.pending id ++ [write] := by
  rw [record, pending, Std.ExtTreeMap.getD_insert_self]

/-- A write recorded for one node waits for no other. -/
theorem pending_record_of_ne (h : other ≠ id) (write : Write) :
    (handoff.record other write).pending id = handoff.pending id := by
  rw [record, pending, Std.ExtTreeMap.getD_insert, if_neg (mt Std.compare_eq_iff_eq.mp h)]
  rfl

theorem pending_setQueue_self (handoff : Handoff) (id : String) (hints : List Write) :
    (handoff.setQueue id hints).pending id = hints := by
  cases hints with
  | nil =>
      rw [setQueue, pending, if_pos List.isEmpty_nil, Std.ExtTreeMap.getD_erase_self]
  | cons hint hints =>
      rw [setQueue, pending, if_neg (by simp), Std.ExtTreeMap.getD_insert_self]

/-- Replacing the queue of one node leaves the others' queues alone. -/
theorem pending_setQueue_of_ne (h : other ≠ id) (hints : List Write) :
    (handoff.setQueue other hints).pending id = handoff.pending id := by
  have hne : ¬ compare other id = .eq := mt Std.compare_eq_iff_eq.mp h
  cases hints with
  | nil =>
      rw [setQueue, pending, if_pos List.isEmpty_nil, Std.ExtTreeMap.getD_erase, if_neg hne]
      rfl
  | cons hint hints =>
      rw [setQueue, pending, if_neg (by simp), Std.ExtTreeMap.getD_insert, if_neg hne]
      rfl

/-- A pass visits no node twice. -/
theorem nodup_pendingNodes (handoff : Handoff) : handoff.pendingNodes.Nodup := by
  have hkeys : (handoff.queues.toList.map (·.1)).Nodup := by
    rw [Std.ExtTreeMap.map_fst_toList_eq_keys]
    exact Std.ExtTreeMap.nodup_keys
  exact hkeys.sublist (List.filter_sublist.map _)

/-- A pass visits the nodes for which hints wait. -/
theorem mem_pendingNodes_iff : id ∈ handoff.pendingNodes ↔ handoff.pending id ≠ [] := by
  simp only [pendingNodes, List.mem_map, List.mem_filter, pending,
    Std.ExtTreeMap.getD_eq_getD_getElem?]
  constructor
  · rintro ⟨⟨found, hints⟩, ⟨hmem, hsome⟩, rfl⟩
    rw [Std.ExtTreeMap.mem_toList_iff_getElem?_eq_some.mp hmem]
    simpa using hsome
  · intro hsome
    cases hhints : handoff.queues[id]? with
    | none => simp [hhints] at hsome
    | some hints =>
        refine ⟨(id, hints), ⟨?_, ?_⟩, rfl⟩
        · exact Std.ExtTreeMap.mem_toList_iff_getElem?_eq_some.mpr hhints
        · simpa [hhints] using hsome

section Deliver

variable {N : Type} [Node N]

/-- What a node answers to the hints that are handed over to it, up to the first
on which it fails. -/
def answers (node : N) (now : Instant) : List Write → List Bool
  | [] => []
  | hint :: hints =>
    match Node.perform node now hint.call with
    | (_, .error _) => []
    | (node, .ok answer) => answer :: answers node now hints

/-- A handover delivers a prefix of the queue, in order, and leaves the rest. -/
theorem deliver_eq (node : N) (now : Instant) (hints : List Write) :
    (deliver node now hints).delivered = (answers node now hints).length ∧
      (deliver node now hints).left = hints.drop (answers node now hints).length := by
  induction hints generalizing node with
  | nil => exact ⟨rfl, rfl⟩
  | cons hint hints ih =>
      rw [deliver, answers]
      rcases hperform : Node.perform node now hint.call with ⟨next, failure | answer⟩
      · exact ⟨rfl, rfl⟩
      · obtain ⟨hdelivered, hleft⟩ := ih next
        exact ⟨congrArg (· + 1) hdelivered, hleft⟩

end Deliver

end ReplicatedCache.Handoff
