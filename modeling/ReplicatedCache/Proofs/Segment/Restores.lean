import ReplicatedCache.Proofs.Segment.Displacement
import ReplicatedCache.Proofs.Segment.LeastRecent

/-! # Writes and restores under the least recently used key

A write asks the policy and lets one key leave for another where it is told so; a
restoring write makes room first and asks nobody. Where the least recently used key is the
one to leave, nothing can be told afterwards which of them it was, also when conditional
writes have brought the segment beyond its capacity: in both cases the entry goes to the
newest end, and of what stands there as many leave as are too many.
-/

namespace ReplicatedCache.Segment

/-! ## The line that a write leaves -/

section Line

variable {π : Type} (segment : Segment π) (key : String) (entry : Entry)

/-- The entries in access order when one has been written, before any leaves. -/
def line : List (String × Entry) :=
  segment.toList.filter (fun binding => decide (binding.1 ≠ key)) ++ [(key, entry)]

/-- A write was stored, and for it the eldest keys have left that were too many. -/
structure Lines (segment : Segment π) (key : String) (entry : Entry)
    (result : Segment π × PutOutcome) : Prop where
  outcome_eq : result.2 =
    { stored := true
      evicted := ((segment.line key entry).map (·.1)).take
        ((segment.line key entry).length - segment.capacity) }
  toList_eq : result.1.toList = (segment.line key entry).rtake segment.capacity

variable [EvictionPolicy π]

/-- The eldest keys that are too many leave. -/
theorem toList_shrink : segment.shrink.1.toList = segment.toList.rtake segment.capacity ∧
    segment.shrink.2 =
      (segment.toList.map (·.1)).take (segment.toList.length - segment.capacity) := by
  rw [List.rtake, ← size_eq_length]
  exact segment.toList_shed (segment.size - segment.capacity)

/-- From a full segment the eldest key leaves in any case, sooner or later. -/
theorem line_of_eldest {victim : String} {own : Entry} {rest : List (String × Entry)}
    (hlist : segment.toList = (victim, own) :: rest) (hnew : key ∉ segment.keys)
    (hremove : (segment.remove victim).1.toList = rest) :
    segment.line key entry = (victim, own) :: (segment.remove victim).1.line key entry ∧
      ((segment.remove victim).1.line key entry).length = segment.size := by
  rw [keys_eq, hlist, List.map_cons, List.mem_cons, not_or] at hnew
  have hothers : rest.filter (fun binding => decide (binding.1 ≠ key)) = rest := by
    refine List.filter_eq_self.mpr fun binding hmem => decide_eq_true ?_
    rintro rfl
    exact hnew.2 (List.mem_map_of_mem hmem)
  rw [line, line, hremove, hlist, hothers, List.filter_cons,
    if_pos (decide_eq_true (Ne.symm hnew.1)), hothers, size_eq_length, hlist, List.length_append]
  exact ⟨rfl, rfl⟩

/-- A restoring write lets those leave that are too many, whatever the policy. -/
theorem lines_putForce (hroom : 0 < segment.capacity) :
    segment.Lines key entry (segment.putForce key entry) := by
  by_cases hfree : key ∈ segment.keys ∨ segment.size < segment.capacity
  · obtain ⟨hlist, hleft⟩ := toList_shrink (segment.insert key entry)
    rw [toList_insert, capacity_insert] at hlist hleft
    rw [putForce_eq, makeRoom_of_room hfree]
    exact ⟨congrArg (PutOutcome.mk true) hleft, hlist⟩
  · obtain ⟨hnew, hfull⟩ := not_or.mp hfree
    obtain ⟨victim, own, rest, hrest, heldest, hremove⟩ :=
      exists_eldest hroom (Nat.not_lt.mp hfull)
    obtain ⟨hline, hlength⟩ := segment.line_of_eldest key entry hrest hnew hremove
    obtain ⟨hlist, hleft⟩ := toList_shrink ((segment.remove victim).1.insert key entry)
    rw [toList_insert, capacity_insert, capacity_remove] at hlist hleft
    rw [putForce_eq, makeRoom_of_full hfree heldest]
    -- the key that made room is one of those that are too many
    have hmany : (segment.line key entry).length - segment.capacity =
        ((segment.remove victim).1.line key entry).length - segment.capacity + 1 := by
      rw [hline, List.length_cons]
      omega
    constructor
    · rw [hmany, hline]
      exact congrArg (fun late => PutOutcome.mk true (victim :: late)) hleft
    · rw [List.rtake, hmany, hline]
      exact hlist

end Line

/-! ## Both kinds of write -/

namespace IsLru

variable {segment : Segment StandardPolicy}

/-- The policy has nothing to remember of who has asked. -/
theorem askAdmission_fst (h : segment.IsLru) (key : String) :
    (segment.askAdmission key).1 = segment := by
  have hpolicy : (segment.askAdmission key).1.policy = segment.policy :=
    (h.askAdmission key).1.trans h.symm
  exact congrArg (Segment.mk segment.capacity segment.residents) hpolicy

/-- Nor of who was used. -/
theorem insert_eq_place (h : segment.IsLru) (key : String) (entry : Entry) :
    segment.insert key entry = segment.place key entry := by
  have hpolicy : (segment.insert key entry).policy = segment.policy :=
    (h.insert key entry).trans h.symm
  exact congrArg (Segment.mk segment.capacity (segment.residents.insert key entry)) hpolicy

/-- A write and a restoring write do the same, down to the places in the arena. -/
theorem put_eq_putForce (h : segment.IsLru) (hroom : 0 < segment.capacity) (key : String)
    (entry : Entry) : segment.put key entry = segment.putForce key entry := by
  obtain ⟨answer, hask⟩ : ∃ answer, segment.askAdmission key = (segment, answer) :=
    ⟨_, Prod.ext (h.askAdmission_fst key) rfl⟩
  rw [putForce_eq]
  by_cases hfree : key ∈ segment.keys ∨ segment.size < segment.capacity
  · have haccept : answer = .accept := by
      rw [← askAdmission_of_room hfree, hask]
    rw [put_of_accept (haccept ▸ hask), makeRoom_of_room hfree]
    rfl
  · obtain ⟨victim, own, rest, hrest, heldest, -⟩ :=
      exists_eldest hroom (Nat.not_lt.mp (not_or.mp hfree).2)
    have hevict : answer = .evict victim := by
      have hanswer := askAdmission_of_full hfree heldest
      have hadmitted := (h.askAdmission key).2
      rw [hask] at hanswer hadmitted
      exact hanswer.resolve_right hadmitted
    have hfound : segment.peek victim = some own :=
      peek_eq_some_iff.mpr (hrest ▸ List.mem_cons_self)
    rw [put_of_evict (hevict ▸ hask), makeRoom_of_full hfree heldest, remove_snd, hfound,
      (h.remove victim).insert_eq_place]
    rfl

/-- Nothing that is asked of a segment makes it forget its policy. -/
theorem apply (h : segment.IsLru) (call : SegmentCall) : (segment.apply call).1.IsLru := by
  cases call with
  | put key entry => exact (h.put key entry).1
  | putForce key entry => exact h.putForce key entry
  | get key => exact h.get key
  | remove key => exact h.remove key
  | removeIfDue key deadline =>
      rw [Segment.apply, removeIfDue_fst]
      split
      next => exact h.remove key
      next => exact h
  | compareAndSwap key decision =>
      rw [Segment.apply, compareAndSwap_eq]
      cases decision (segment.peek key) with
      | store entry => exact h.insert key entry
      | expired => exact h.remove key
      | fail => exact h
  | clear => exact (policy_clear segment).trans h
  | peek key => exact h
  | deadlineOf key => exact h
  | toList => exact h
  | size => exact h

theorem run (h : segment.IsLru) (calls : List SegmentCall) : (segment.run calls).1.IsLru := by
  induction calls generalizing segment with
  | nil => exact h
  | cons call calls ih => exact ih (h.apply call)

end IsLru

/-- In every state that a segment can come to under this policy, a write and a restoring
write have the same outcome and leave the same segment. What they leave is the entry at the
newest end behind the others, less the eldest that are too many, and those are told. -/
theorem restores_as_it_writes (capacity : Nat) (calls : List SegmentCall) (key : String)
    (entry : Entry) :
    let segment := ((ofCapacity capacity (EvictionKind.lru.build capacity)).run calls).1
    segment.put key entry = segment.putForce key entry ∧
      segment.Lines key entry (segment.put key entry) := by
  intro segment
  have hroom : 0 < segment.capacity := capacity_run_pos _ capacity calls
  have hstart : (ofCapacity capacity StandardPolicy.lru).IsLru := rfl
  have hlru : segment.IsLru := hstart.run calls
  have hsame := hlru.put_eq_putForce hroom key entry
  exact ⟨hsame, hsame ▸ segment.lines_putForce key entry hroom⟩

end ReplicatedCache.Segment
