import Mathlib.Data.List.Dedup
import ReplicatedCache.Proofs.Segment.Uses

/-! # Segments that let the least recently used key leave

A segment under this policy lets every key in, for the eldest one if need be. The
policy has no state, so it stays what it is whatever happens to the segment.

Such a segment can be read off the uses of its keys: it holds the keys that were used
last, each once and in the order of their last uses, as many as it has places for. One
more use moves its key to the end of this list or adds it there, and a key leaves for it
only by falling out of the list.
-/

namespace ReplicatedCache

/-! ## The keys used last -/

/-- The keys used last, in the order of their last uses, at most a number of them. -/
def lastUsed (count : Nat) (uses : List String) : List String := uses.dedup.rtake count

/-- A use takes its key from where it stood to the end. -/
theorem dedup_concat (uses : List String) (key : String) :
    (uses ++ [key]).dedup = uses.dedup.filter (fun other => decide (other ≠ key)) ++ [key] := by
  induction uses with
  | nil => rfl
  | cons use uses ih =>
      rw [List.cons_append, List.dedup_cons, List.dedup_cons, ih]
      by_cases hlater : use ∈ uses
      · rw [if_pos hlater, if_pos (List.mem_append_left _ hlater)]
      · rw [if_neg hlater, List.filter_cons]
        by_cases heq : use = key
        · subst heq
          rw [if_pos (List.mem_append_right _ List.mem_cons_self), if_neg (by simp)]
        · rw [if_neg (by simp [hlater, heq]), if_pos (decide_eq_true heq)]
          rfl

/-- Of distinct keys at most one is another. -/
theorem length_le_filter_ne {keys : List String} (hnodup : keys.Nodup) (key : String) :
    keys.length ≤ (keys.filter fun other => decide (other ≠ key)).length + 1 := by
  have hle : keys.length - 1 ≤ (keys.erase key).length := List.le_length_erase
  have hothers : keys.filter (· != key) = keys.filter fun other => decide (other ≠ key) :=
    List.filter_congr fun other _ => by simp [bne, beq_eq_decide]
  rw [hnodup.erase_eq_filter, hothers] at hle
  omega

theorem rtake_append_of_le {α : Type} {count : Nat} {last : List α} (h : count ≤ last.length)
    (list : List α) : (list ++ last).rtake count = last.rtake count := by
  rw [List.rtake, List.length_append, Nat.add_sub_assoc h, List.drop_length_add_append, List.rtake]

/-- Of distinct keys only the last matter for the last ones after one more use. -/
theorem rtake_filter_concat {keys : List String} (hnodup : keys.Nodup) (key : String)
    (count : Nat) :
    ((keys.rtake count).filter (fun other => decide (other ≠ key)) ++ [key]).rtake count =
      (keys.filter (fun other => decide (other ≠ key)) ++ [key]).rtake count := by
  rcases Nat.le_total keys.length count with hfew | hmany
  · rw [rtake_of_length_le hfew]
  · have hlast : (keys.rtake count).Nodup := hnodup.sublist (List.drop_sublist _ _)
    have hlength : (keys.rtake count).length = count := by
      rw [List.rtake, List.length_drop]
      omega
    -- at most one of the last keys is taken away, and one is added
    have henough := length_le_filter_ne hlast key
    rw [hlength] at henough
    obtain ⟨first, hsplit⟩ : ∃ first, keys = first ++ keys.rtake count :=
      ⟨_, (List.take_append_drop _ _).symm⟩
    conv_rhs => rw [hsplit, List.filter_append, List.append_assoc]
    refine (rtake_append_of_le ?_ _).symm
    rwa [List.length_append, List.length_singleton]

theorem lastUsed_concat (count : Nat) (uses : List String) (key : String) :
    lastUsed count (uses ++ [key]) =
      ((lastUsed count uses).filter (fun other => decide (other ≠ key)) ++ [key]).rtake count := by
  rw [lastUsed, lastUsed, dedup_concat, rtake_filter_concat uses.nodup_dedup]

namespace SegmentCall

/-- The call is a write that asks for admission, or a read. -/
def PutsOrGets : SegmentCall → Prop
  | .put _ _ => True
  | .get _ => True
  | _ => False

end SegmentCall

namespace Segment

/-! ## One more use -/

namespace Stored

variable {π : Type} {segment after : Segment π} {key : String} {entry : Entry}
  {evicted : List String}

/-- A key that enters is the last of the keys, of which those that are too many leave. -/
theorem keys_eq_rtake (h : Stored segment key entry after evicted)
    (hfit : segment.size ≤ segment.capacity) (hroom : 0 < segment.capacity) :
    after.keys = (segment.keys.filter (fun other => decide (other ≠ key)) ++ [key]).rtake
      segment.capacity := by
  by_cases hmem : key ∈ segment.keys
  · have hnobody : evicted = [] := h.evicted_eq.trans (if_pos (Or.inl hmem))
    have hkeys : after.keys =
        segment.keys.filter (fun other => decide (other ≠ key)) ++ [key] := by
      rw [keys_eq, h.toList_eq, hnobody, List.map_append, keys_filter_ne]
      rfl
    rw [← hkeys, rtake_of_length_le]
    rw [length_keys, ← h.capacity_eq]
    exact h.size_le hfit hroom
  · have hothers : segment.keys.filter (fun other => decide (other ≠ key)) = segment.keys :=
      List.filter_eq_self.mpr fun other hother =>
        decide_eq_true fun heq => hmem (heq ▸ hother)
    rw [keys_eq, h.toList_eq_rtake hmem hfit hroom, ← rtake_map, List.map_append, hothers]
    rfl

/-- The keys that leave are those that are there no more, and there is one at most. -/
theorem evicted_eq_filter (h : Stored segment key entry after evicted) :
    evicted = segment.keys.filter (fun other => decide (other ∉ after.keys)) ∧
      evicted.length ≤ 1 := by
  have hsplit : segment.keys = evicted ++ segment.keys.drop evicted.length := by
    conv_lhs => rw [← List.take_append_drop evicted.length segment.keys, ← h.evicted_eq_take]
  have hnodup := segment.keys_nodup
  rw [hsplit, List.nodup_append] at hnodup
  have hgone : evicted.filter (fun other => decide (other ∉ after.keys)) = evicted := by
    refine List.filter_eq_self.mpr fun other hother => decide_eq_true ?_
    rw [h.mem_keys_iff]
    rintro (rfl | ⟨-, hnot⟩)
    · exact h.not_mem_evicted hother
    · exact hnot hother
  have hstay : (segment.keys.drop evicted.length).filter
      (fun other => decide (other ∉ after.keys)) = [] := by
    refine List.filter_eq_nil_iff.mpr fun other hother hnot => of_decide_eq_true hnot ?_
    rw [h.mem_keys_iff]
    refine Or.inr ⟨List.mem_of_mem_drop hother, fun hevicted => ?_⟩
    exact hnodup.2.2 other hevicted other hother rfl
  constructor
  · conv_rhs => rw [hsplit, List.filter_append, hgone, hstay, List.append_nil]
  · rw [h.evicted_eq, displaced]
    split
    next => exact Nat.zero_le 1
    next => exact (List.length_take_le 1 segment.keys)

end Stored

variable {segment : Segment StandardPolicy}

/-- The segment asks the policy of the least recently used key. -/
def IsLru (segment : Segment StandardPolicy) : Prop := segment.policy = .lru

namespace IsLru

theorem remove (h : segment.IsLru) (key : String) : (segment.remove key).1.IsLru :=
  (policy_remove segment key).trans h

theorem shrink (h : segment.IsLru) : segment.shrink.1.IsLru := (policy_shed segment _).trans h

theorem insert (h : segment.IsLru) (key : String) (entry : Entry) :
    (segment.insert key entry).IsLru := by
  change StandardPolicy.recordAccess segment.policy key = .lru
  rw [h]
  rfl

theorem get (h : segment.IsLru) (key : String) : (segment.get key).1.IsLru := by
  rw [get_fst]
  cases segment.peek key with
  | none => exact h
  | some entry => exact h.insert key entry

/-- Whoever asks is let in. -/
theorem askAdmission (h : segment.IsLru) (key : String) :
    (segment.askAdmission key).1.IsLru ∧ (segment.askAdmission key).2 ≠ .reject := by
  change (StandardPolicy.admission segment.policy key _ segment.capacity).1 = _ ∧
    (StandardPolicy.admission segment.policy key _ segment.capacity).2 ≠ _
  unfold StandardPolicy.admission
  rw [h]
  split
  next => exact ⟨rfl, nofun⟩
  next =>
    cases (segment.occupancy key).eldest with
    | none => exact ⟨rfl, nofun⟩
    | some victim => exact ⟨rfl, nofun⟩

/-- No write is turned down. -/
theorem put (h : segment.IsLru) (key : String) (entry : Entry) :
    (segment.put key entry).1.IsLru ∧ (segment.put key entry).2.stored = true := by
  obtain ⟨hasked, hanswer⟩ := h.askAdmission key
  rcases hask : segment.askAdmission key with ⟨asked, answer⟩
  rw [hask] at hasked hanswer
  cases answer with
  | accept =>
      rw [put_of_accept hask]
      exact ⟨(hasked.insert key entry).shrink, rfl⟩
  | evict victim =>
      rw [put_of_evict hask]
      exact ⟨IsLru.shrink (hasked.remove victim), rfl⟩
  | reject => exact absurd rfl hanswer

theorem putForce (h : segment.IsLru) (key : String) (entry : Entry) :
    (segment.putForce key entry).1.IsLru := by
  have hroom : (segment.makeRoom key).1.IsLru := by
    unfold makeRoom
    split
    next => exact (policy_shed segment 1).trans h
    next => exact h
  exact (hroom.insert key entry).shrink

end IsLru

/-- A segment of a capacity that asks this policy and holds the keys used last. -/
structure Recalls (capacity : Nat) (segment : Segment StandardPolicy) (used : List String) :
    Prop where
  lru : segment.IsLru
  capacity_eq : segment.capacity = capacity
  roomy : 0 < segment.capacity
  fits : segment.size ≤ segment.capacity
  keys_eq : segment.keys = lastUsed capacity used

theorem recalls_ofCapacity {capacity : Nat} (hcapacity : 1 ≤ capacity) :
    (ofCapacity capacity StandardPolicy.lru).Recalls capacity [] where
  lru := rfl
  capacity_eq := Nat.max_eq_right hcapacity
  roomy := Nat.le_max_left 1 capacity
  fits := Nat.zero_le _
  keys_eq := (List.rtake_nil _).symm

namespace Recalls

variable {capacity : Nat} {used : List String} (h : Recalls capacity segment used)
include h

/-- A key that enters has been used. -/
theorem store {key : String} {entry : Entry} {after : Segment StandardPolicy}
    {evicted : List String} (hstored : Stored segment key entry after evicted)
    (hlru : after.IsLru) : Recalls capacity after (used ++ [key]) where
  lru := hlru
  capacity_eq := hstored.capacity_eq.trans h.capacity_eq
  roomy := hstored.capacity_eq ▸ h.roomy
  fits := hstored.size_le h.fits h.roomy
  keys_eq := by
    rw [hstored.keys_eq_rtake h.fits h.roomy, h.keys_eq, h.capacity_eq, lastUsed_concat]

/-- A write is stored, and what falls out for it leaves. -/
theorem put (key : String) (entry : Entry) :
    Recalls capacity (segment.put key entry).1 (used ++ [key]) ∧
      (segment.put key entry).2.stored = true ∧
      (segment.put key entry).2.evicted = (lastUsed capacity used).filter (fun other =>
        decide (other ∉ lastUsed capacity (used ++ [key]))) ∧
      (segment.put key entry).2.evicted.length ≤ 1 := by
  obtain ⟨hlru, hstored⟩ := h.lru.put key entry
  have hput := stored_put h.fits h.roomy hstored
  have hafter := h.store hput hlru
  obtain ⟨hevicted, hone⟩ := hput.evicted_eq_filter
  rw [hafter.keys_eq, h.keys_eq] at hevicted
  exact ⟨hafter, hstored, hevicted, hone⟩

/-- A read that finds its key renews it. -/
theorem get (key : String) : Recalls capacity (segment.get key).1
    (used ++ ((segment.get key).2.map fun _ => key).toList) := by
  have hlru := h.lru.get key
  rw [get_snd]
  rw [get_fst] at hlru ⊢
  cases hpeek : segment.peek key with
  | none =>
      rw [Option.map_none, Option.toList_none, List.append_nil]
      exact h
  | some entry =>
      rw [hpeek] at hlru
      exact h.store (stored_insert (Or.inl (mem_keys_of_peek hpeek)) h.fits entry).2 hlru

theorem apply {call : SegmentCall} (hcall : call.PutsOrGets) :
    Recalls capacity (segment.apply call).1
      (used ++ (call.use? (segment.apply call).2).toList) := by
  cases call with
  | put key entry => exact (h.put key entry).1
  | get key => exact h.get key
  | _ => exact hcall.elim

theorem run {calls : List SegmentCall} (hcalls : ∀ call ∈ calls, call.PutsOrGets) :
    Recalls capacity (segment.run calls).1
      (used ++ SegmentCall.uses calls (segment.run calls).2) := by
  induction calls generalizing segment used with
  | nil =>
      have hnothing : SegmentCall.uses [] (segment.run []).2 = [] := rfl
      rw [hnothing, List.append_nil]
      exact h
  | cons call calls ih =>
      obtain ⟨hcall, hlater⟩ := List.forall_mem_cons.mp hcalls
      rw [Segment.run, SegmentCall.uses_cons, ← List.append_assoc]
      exact ih (h.apply hcall) hlater

end Recalls

/-- Over writes and reads, a segment holds the keys that were used last, each once and in
the order of their last uses, as many as it has places for. Every write is stored, and for
it leaves the key that falls out of them, if one does. -/
theorem keeps_last_used {capacity : Nat} (hcapacity : 1 ≤ capacity) {calls : List SegmentCall}
    (hcalls : ∀ call ∈ calls, call.PutsOrGets) :
    let (segment, answers) := (ofCapacity capacity (EvictionKind.lru.build capacity)).run calls
    segment.toList.map (·.1) = lastUsed capacity (SegmentCall.uses calls answers) ∧
      ∀ earlier key entry later, calls = earlier ++ .put key entry :: later →
        let before := SegmentCall.uses earlier (answers.take earlier.length)
        ∃ evicted, answers[earlier.length]? = some (.put { stored := true, evicted }) ∧
          evicted = (lastUsed capacity before).filter (fun other =>
            decide (other ∉ lastUsed capacity (before ++ [key]))) ∧
          evicted.length ≤ 1 := by
  have hstart := recalls_ofCapacity hcapacity
  refine ⟨(hstart.run hcalls).keys_eq, ?_⟩
  rintro earlier key entry later rfl
  have hbefore := hstart.run fun call hmem => hcalls call (List.mem_append_left _ hmem)
  obtain ⟨-, hstored, hevicted, hone⟩ := hbefore.put key entry
  obtain ⟨hearlier, hanswer⟩ := answers_of_split (ofCapacity capacity StandardPolicy.lru) earlier
    (.put key entry) later
  intro before
  have hused : before = SegmentCall.uses earlier _ := congrArg (SegmentCall.uses earlier) hearlier
  refine ⟨_, hanswer.trans ?_, hused ▸ hevicted, hone⟩
  rw [← hstored]
  rfl

/-- A key that is read stays when another one comes, and the one that was not leaves. -/
theorem keeps_last_used_reread :
    let entry : Entry := ⟨"v".toUTF8, 0, 1⟩
    let calls : List SegmentCall :=
      [.put "a" entry, .put "b" entry, .get "a", .get "x", .put "c" entry]
    let (segment, answers) := (ofCapacity 2 (EvictionKind.lru.build 2)).run calls
    segment.toList.map (·.1) = ["a", "c"] ∧
      answers[4]? = some (.put { stored := true, evicted := ["b"] }) := by
  intro entry calls
  let earlier : List SegmentCall := [.put "a" entry, .put "b" entry, .get "a", .get "x"]
  have hcalls : ∀ call ∈ calls, call.PutsOrGets := by simp [calls, SegmentCall.PutsOrGets]
  -- the reads find what the two writes before them have left
  have hstart := recalls_ofCapacity (show 1 ≤ 2 by decide)
  have hkeys := ((hstart.put "a" entry).1.put "b" entry).1.keys_eq
  have hreads (later : List SegmentCall) : ∃ segment : Segment StandardPolicy,
      SegmentCall.uses (.put "a" entry :: .put "b" entry :: .get "a" :: .get "x" :: later)
          ((ofCapacity 2 StandardPolicy.lru).run
            (.put "a" entry :: .put "b" entry :: .get "a" :: .get "x" :: later)).2 =
        "a" :: "b" :: "a" :: SegmentCall.uses later (segment.run later).2 := by
    rw [uses_put, uses_put, uses_get_of_mem _ (hkeys ▸ by decide), uses_get_of_not_mem]
    · exact ⟨_, rfl⟩
    · rw [mem_keys_get, hkeys]
      decide
  obtain ⟨last, hused⟩ := hreads [.put "c" entry]
  rw [uses_put last] at hused
  obtain ⟨_, hbefore⟩ := hreads []
  have htake : ((ofCapacity 2 StandardPolicy.lru).run calls).2.take earlier.length = _ :=
    (answers_of_split _ earlier (.put "c" entry) []).1
  have hkeeps := keeps_last_used (show 1 ≤ 2 by decide) hcalls
  rcases hrun : (ofCapacity 2 (EvictionKind.lru.build 2)).run calls with ⟨segment, answers⟩
  rw [hrun] at hkeeps
  obtain rfl : ((ofCapacity 2 StandardPolicy.lru).run calls).2 = answers := congrArg Prod.snd hrun
  obtain ⟨hlast, hwrites⟩ := hkeeps
  obtain ⟨evicted, hanswer, hevicted, -⟩ := hwrites earlier "c" entry [] rfl
  rw [htake, hbefore] at hevicted
  refine ⟨hlast.trans (congrArg (lastUsed 2) hused), hanswer.trans ?_⟩
  rw [hevicted]
  rfl

end Segment

end ReplicatedCache
