import ReplicatedCache.Proofs.Eviction.Sketch
import ReplicatedCache.Proofs.Segment.Displacement
import ReplicatedCache.Proofs.Segment.Uses

/-! # Every use is counted once

A segment that asks the policy of the least frequently used key tells its sketch of every
use, once and in order: a candidate that has to contend for its place is counted when it
asks, whatever comes of it, and every other use when the entry is placed or found.
-/

namespace ReplicatedCache.Segment

variable {segment : Segment StandardPolicy} {sketch : Sketch} {key : String}

/-! ## Asking -/

/-- Only a candidate that is let in for nothing has not been counted yet. -/
theorem askAdmission_counts (h : segment.policy = .lfu sketch) (key : String) :
    (segment.askAdmission key).2 = .accept ∧
        (segment.askAdmission key).1.policy = .lfu sketch ∨
      (segment.askAdmission key).2 ≠ .accept ∧
        (segment.askAdmission key).1.policy = .lfu (sketch.increment key) := by
  change (StandardPolicy.admission segment.policy key _ segment.capacity).2 = _ ∧
      (StandardPolicy.admission segment.policy key _ segment.capacity).1 = _ ∨
    (StandardPolicy.admission segment.policy key _ segment.capacity).2 ≠ _ ∧
      (StandardPolicy.admission segment.policy key _ segment.capacity).1 = _
  unfold StandardPolicy.admission
  rw [h]
  split
  next => exact Or.inl ⟨rfl, rfl⟩
  next =>
    cases (segment.occupancy key).eldest with
    | none => exact Or.inl ⟨rfl, rfl⟩
    | some eldest =>
        refine Or.inr ⟨?_, rfl⟩
        dsimp only
        split <;> exact nofun

/-- A candidate for which there is no place contends with the eldest key, and this very
attempt counts for it. -/
theorem askAdmission_contended (h : segment.policy = .lfu sketch) {eldest : String}
    (hfull : ¬ (key ∈ segment.keys ∨ segment.size < segment.capacity))
    (heldest : segment.residents.eldest? = some eldest) :
    (segment.askAdmission key).2 =
      if (sketch.increment key).estimate eldest < (sketch.increment key).estimate key then
        .evict eldest
      else .reject := by
  have hseen : (segment.occupancy key).eldest = some eldest := heldest
  change (StandardPolicy.admission segment.policy key _ segment.capacity).2 = _
  unfold StandardPolicy.admission
  rw [if_neg (mt hasRoom_occupancy_iff.mp hfull), hseen, h]

/-! ## One call -/

/-- The policy has the sketch in which the uses of a call are counted. -/
def Counts (segment : Segment StandardPolicy) (sketch : Sketch) (used : List String) : Prop :=
  segment.policy = .lfu (used.foldl Sketch.increment sketch)

theorem counts_insert (h : segment.policy = .lfu sketch) (key : String) (entry : Entry) :
    (segment.insert key entry).Counts sketch [key] := by
  change StandardPolicy.recordAccess segment.policy key = _
  rw [h]
  rfl

theorem Counts.shrink {used : List String} (h : segment.Counts sketch used) :
    segment.shrink.1.Counts sketch used :=
  (policy_shed segment _).trans h

theorem Counts.remove {used : List String} (h : segment.Counts sketch used) (key : String) :
    (segment.remove key).1.Counts sketch used :=
  (policy_remove segment key).trans h

/-- A write is counted once: by asking, or else when its entry is placed. -/
theorem counts_put (h : segment.policy = .lfu sketch) (key : String) (entry : Entry) :
    (segment.put key entry).1.Counts sketch [key] := by
  have hasked := askAdmission_counts h key
  rcases hask : segment.askAdmission key with ⟨asked, answer⟩
  rw [hask] at hasked
  cases answer with
  | accept =>
      have hpolicy : asked.policy = .lfu sketch := hasked.elim And.right fun hno => absurd rfl hno.1
      rw [put_of_accept hask]
      exact (counts_insert hpolicy key entry).shrink
  | evict victim =>
      have hcounted : asked.Counts sketch [key] := hasked.elim (fun hno => nomatch hno.1) And.right
      have hplaced : ((asked.remove victim).1.place key entry).Counts sketch [key] :=
        hcounted.remove victim
      rw [put_of_evict hask]
      exact hplaced.shrink
  | reject =>
      rw [put_of_reject hask]
      exact hasked.elim (fun hno => nomatch hno.1) And.right

/-- A forced put counts one use of its key, however many keys leave for it. -/
theorem counts_putForce (h : segment.policy = .lfu sketch) (key : String) (entry : Entry) :
    (segment.putForce key entry).1.Counts sketch [key] := by
  have hroom : (segment.makeRoom key).1.policy = .lfu sketch := by
    unfold makeRoom
    split
    next => exact (policy_shed segment 1).trans h
    next => exact h
  rw [putForce_eq]
  exact (counts_insert hroom key entry).shrink

/-- What a call uses is counted, and nothing else. -/
theorem counts_apply (h : segment.policy = .lfu sketch) (call : SegmentCall) :
    (segment.apply call).1.Counts sketch (call.use? (segment.apply call).2).toList := by
  have hnothing : segment.Counts sketch [] := h
  cases call with
  | put key entry => exact counts_put h key entry
  | putForce key entry => exact counts_putForce h key entry
  | get key =>
      rw [apply, get_fst, get_snd]
      cases segment.peek key with
      | none => exact h
      | some entry => exact counts_insert h key entry
  | remove key => exact hnothing.remove key
  | removeIfDue key deadline =>
      rw [apply, removeIfDue_fst]
      split
      next => exact hnothing.remove key
      next => exact h
  | compareAndSwap key decision =>
      rw [apply, compareAndSwap_eq]
      cases decision (segment.peek key) with
      | store entry => exact counts_insert h key entry
      | expired => exact hnothing.remove key
      | fail => exact h
  | clear => exact (policy_clear segment).trans h
  | peek key => exact h
  | deadlineOf key => exact h
  | toList => exact h
  | size => exact h

/-! ## Runs -/

/-- After a run the sketch has been fed the uses of the run, in order. -/
theorem counts_run (h : segment.policy = .lfu sketch) (calls : List SegmentCall) :
    (segment.run calls).1.Counts sketch (SegmentCall.uses calls (segment.run calls).2) := by
  induction calls generalizing segment sketch with
  | nil => exact h
  | cons call calls ih =>
      rw [Counts, run, SegmentCall.uses_cons, List.foldl_append]
      exact ih (counts_apply h call)

/-- A write under a new key into a segment that is just full is stored if it is used more
often than the eldest key, its own attempt included. It then takes the place of that key,
and otherwise all is left as it was. -/
theorem put_contended (h : segment.policy = .lfu sketch) (hroom : 0 < segment.capacity)
    (hnew : key ∉ segment.keys) (hfull : segment.size = segment.capacity) (entry : Entry) :
    ∃ eldest rest own, segment.toList = (eldest, own) :: rest ∧
      let put := segment.put key entry
      if (sketch.increment key).estimate eldest < (sketch.increment key).estimate key then
        put.2 = { stored := true, evicted := [eldest] } ∧ put.1.toList = rest ++ [(key, entry)]
      else put.2 = { stored := false } ∧ put.1.toList = segment.toList := by
  have hcontended : ¬ (key ∈ segment.keys ∨ segment.size < segment.capacity) :=
    not_or.mpr ⟨hnew, Nat.not_lt.mpr hfull.ge⟩
  obtain ⟨eldest, own, rest, hlist, heldest, -⟩ := exists_eldest hroom hfull.ge
  have hanswer := askAdmission_contended h hcontended heldest
  refine ⟨eldest, rest, own, hlist, ?_⟩
  dsimp only
  -- how the estimates come about does not matter from here on
  generalize (sketch.increment key).estimate eldest = eldestUses at hanswer ⊢
  generalize (sketch.increment key).estimate key = ownUses at hanswer ⊢
  by_cases hmore : eldestUses < ownUses
  · rw [if_pos hmore]
    rw [if_pos hmore] at hanswer
    have haccepted : (segment.askAdmission key).2 ≠ .reject := by
      rw [hanswer]
      exact nofun
    obtain ⟨hstored, -, -⟩ := put_displaces hroom haccepted entry
    have hput := stored_put hfull.le hroom hstored
    have hevicted : (segment.put key entry).2.evicted = [eldest] := by
      rw [hput.evicted_eq, displaced, if_neg hcontended, keys_eq, hlist]
      rfl
    have hothers : rest.filter (fun binding => decide (binding.1 ≠ key)) = rest := by
      apply List.filter_eq_self.mpr
      rintro ⟨other, found⟩ hmem
      refine decide_eq_true fun heq => hnew ?_
      exact heq ▸ mem_keys_iff.mpr ⟨found, hlist ▸ List.mem_cons_of_mem _ hmem⟩
    constructor
    · rw [← hevicted, ← hstored]
    · rw [hput.toList_eq, hevicted, hlist]
      exact congrArg (· ++ [(key, entry)]) hothers
  · rw [if_neg hmore]
    rw [if_neg hmore] at hanswer
    exact put_of_rejected hanswer entry

/-- Over any run, the sketch counts each write, stored or not, each read that finds its key
and each conditional write that stores, once and in order, and counts nothing else. A write
under a new key into a segment that is just full is stored if and only if, this attempt
included, its estimate is above that of the eldest key, which alone leaves for it. -/
theorem counts_every_use_once (capacity limit : Nat) (calls : List SegmentCall) :
    let (segment, answers) :=
      (ofCapacity capacity (EvictionKind.lfu.build limit)).run calls
    let sketch := Sketch.ofUses limit (SegmentCall.uses calls answers)
    segment.policy = .lfu sketch ∧
      ∀ key entry, key ∉ segment.keys → segment.size = segment.capacity →
        ∃ eldest rest own, segment.toList = (eldest, own) :: rest ∧
          let counted := sketch.increment key
          let put := segment.put key entry
          if counted.estimate eldest < counted.estimate key then
            put.2 = { stored := true, evicted := [eldest] } ∧
              put.1.toList = rest ++ [(key, entry)]
          else put.2 = { stored := false } ∧ put.1.toList = segment.toList := by
  have hcounted : ((ofCapacity capacity (EvictionKind.lfu.build limit)).run calls).1.policy = _ :=
    counts_run rfl calls
  refine ⟨hcounted, fun key entry hnew hfull => ?_⟩
  exact put_contended hcounted (capacity_run_pos _ capacity calls) hnew hfull entry

end ReplicatedCache.Segment
