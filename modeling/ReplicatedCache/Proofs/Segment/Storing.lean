import Mathlib.Data.List.DropRight
import ReplicatedCache.Proofs.Segment.Contents

/-! # Storing into a segment within its capacity

A write that asks for a place either is rejected, which happens to absent keys
only and changes no entry, or stores its entry at the newest end. A segment
that keeps its capacity then gives up its eldest entry if it is full and the key
is new, and nothing otherwise. Restoring writes take the same way without
asking.
-/

namespace ReplicatedCache

/-! ## The last of a list -/

theorem rtake_map {α β : Type} (f : α → β) (count : Nat) (list : List α) :
    (list.map f).rtake count = (list.rtake count).map f := by
  rw [List.rtake, List.rtake, List.length_map, List.map_drop]

theorem rtake_of_length_le {α : Type} {count : Nat} {list : List α} (h : list.length ≤ count) :
    list.rtake count = list := by
  rw [List.rtake, Nat.sub_eq_zero_of_le h, List.drop_zero]

/-- Only the last elements of a list matter for the last ones with one more. -/
theorem rtake_rtake_concat {α : Type} (list : List α) (last : α) (count : Nat) :
    (list.rtake count ++ [last]).rtake count = (list ++ [last]).rtake count := by
  cases count with
  | zero => rw [List.rtake_zero, List.rtake_zero]
  | succ count =>
      rw [List.rtake_concat_succ, List.rtake_concat_succ]
      congr 1
      simp only [List.rtake, List.length_drop, List.drop_drop]
      congr 1
      omega

end ReplicatedCache

namespace ReplicatedCache.Segment

variable {π : Type}

/-- The keys that leave for a key that enters. -/
def displaced (segment : Segment π) (key : String) : List String :=
  if key ∈ segment.keys ∨ segment.size < segment.capacity then [] else segment.keys.take 1

/-- A key has been stored at the newest end, for which some keys left. -/
structure Stored (segment : Segment π) (key : String) (entry : Entry) (after : Segment π)
    (evicted : List String) : Prop where
  capacity_eq : after.capacity = segment.capacity
  evicted_eq : evicted = segment.displaced key
  toList_eq : after.toList =
    (segment.toList.drop evicted.length).filter (fun binding => decide (binding.1 ≠ key)) ++
      [(key, entry)]

namespace Stored

variable {segment after : Segment π} {key other : String} {entry : Entry} {evicted : List String}

theorem not_mem_evicted (h : Stored segment key entry after evicted) : key ∉ evicted := by
  rw [h.evicted_eq]
  unfold displaced
  split
  next => exact List.not_mem_nil
  next hfull => exact fun hmem => hfull (Or.inl (List.mem_of_mem_take hmem))

theorem evicted_eq_take (h : Stored segment key entry after evicted) :
    evicted = segment.keys.take evicted.length := by
  have hevicted := h.evicted_eq
  unfold displaced at hevicted
  split at hevicted
  next => rw [hevicted]; rfl
  next =>
    cases hkeys : segment.keys with
    | nil =>
        rw [hkeys] at hevicted
        rw [hevicted]
        rfl
    | cons eldest rest =>
        rw [hkeys] at hevicted
        rw [hevicted]
        rfl

theorem mem_keys_of_mem_evicted (h : Stored segment key entry after evicted)
    (hmem : other ∈ evicted) : other ∈ segment.keys := by
  rw [h.evicted_eq_take] at hmem
  exact List.mem_of_mem_take hmem

/-- The entries that remain are those whose keys were not evicted. -/
theorem mem_drop_iff (h : Stored segment key entry after evicted) {binding : String × Entry} :
    binding ∈ segment.toList.drop evicted.length ↔
      binding ∈ segment.toList ∧ binding.1 ∉ evicted := by
  have hsplit := List.take_append_drop evicted.length segment.toList
  have hnodup := segment.keys_nodup
  rw [keys_eq, ← hsplit, List.map_append, List.nodup_append] at hnodup
  have htake : (segment.toList.take evicted.length).map (·.1) = evicted := by
    rw [List.map_take, ← keys_eq]
    exact h.evicted_eq_take.symm
  rw [htake] at hnodup
  constructor
  · intro hmem
    refine ⟨List.mem_of_mem_drop hmem, fun hevicted => ?_⟩
    exact hnodup.2.2 _ hevicted _ (List.mem_map_of_mem hmem) rfl
  · rintro ⟨hmem, hnot⟩
    rw [← hsplit] at hmem
    rcases List.mem_append.mp hmem with hleft | hright
    · exact absurd (htake ▸ List.mem_map_of_mem hleft) hnot
    · exact hright

theorem peek_eq (h : Stored segment key entry after evicted) (other : String) :
    after.peek other =
      if other = key then some entry
      else if other ∈ evicted then none else segment.peek other := by
  split
  next heq =>
    rw [peek_eq_some_iff, h.toList_eq, heq]
    exact List.mem_append_right _ List.mem_cons_self
  next hne =>
    split
    next hevicted =>
      rw [peek_eq_none_iff, mem_keys_iff]
      rintro ⟨found, hmem⟩
      simp only [h.toList_eq, List.mem_append, List.mem_filter, h.mem_drop_iff] at hmem
      rcases hmem with ⟨⟨-, hnot⟩, -⟩ | hlast
      · exact hnot hevicted
      · exact hne (Prod.ext_iff.mp (List.mem_singleton.mp hlast)).1
    next hnot =>
      apply peek_congr
      intro found
      simp [h.toList_eq, h.mem_drop_iff, hne, hnot]

theorem mem_keys_iff (h : Stored segment key entry after evicted) :
    other ∈ after.keys ↔ other = key ∨ (other ∈ segment.keys ∧ other ∉ evicted) := by
  rw [← not_iff_not, ← peek_eq_none_iff, h.peek_eq]
  by_cases heq : other = key
  · simp [heq]
  · by_cases hevicted : other ∈ evicted
    · simp [heq, hevicted]
    · simp [heq, hevicted, peek_eq_none_iff]

/-- A write keeps the capacity that the segment kept before. -/
theorem size_le (h : Stored segment key entry after evicted)
    (hfit : segment.size ≤ segment.capacity) (hroom : 0 < segment.capacity) :
    after.size ≤ after.capacity := by
  have hle := List.length_filter_le (fun binding : String × Entry => decide (binding.1 ≠ key))
    (segment.toList.drop evicted.length)
  rw [h.capacity_eq, size_eq_length, h.toList_eq, List.length_append, List.length_singleton]
  rw [List.length_drop, ← size_eq_length] at hle
  have hevicted := h.evicted_eq
  unfold displaced at hevicted
  split at hevicted
  next hfree =>
    rcases hfree with hmem | hlt
    · have hlt : ((segment.toList.drop evicted.length).filter
          fun binding => decide (binding.1 ≠ key)).length < segment.size := by
        rw [hevicted, size_eq_length]
        apply List.length_filter_lt_length_iff_exists.mpr
        obtain ⟨found, hfound⟩ := Segment.mem_keys_iff.mp hmem
        exact ⟨(key, found), hfound, by simp⟩
      omega
    · omega
  next hfull =>
    have hlength : evicted.length = min 1 segment.size := by
      rw [hevicted, List.length_take, length_keys]
    have hfull := (not_or.mp hfull).2
    omega

/-- For a new key as many keys leave as are too many with it. -/
theorem length_evicted (h : Stored segment key entry after evicted) (hnew : key ∉ segment.keys)
    (hfit : segment.size ≤ segment.capacity) (hroom : 0 < segment.capacity) :
    evicted.length = segment.size + 1 - segment.capacity := by
  rw [h.evicted_eq, displaced]
  split
  next hfree =>
    have hlt := hfree.resolve_left hnew
    rw [List.length_nil]
    omega
  next hfull =>
    have hle := Nat.not_lt.mp (not_or.mp hfull).2
    rw [List.length_take, length_keys]
    omega

/-- With a new key a segment keeps the newest of its entries. -/
theorem toList_eq_rtake (h : Stored segment key entry after evicted) (hnew : key ∉ segment.keys)
    (hfit : segment.size ≤ segment.capacity) (hroom : 0 < segment.capacity) :
    after.toList = (segment.toList ++ [(key, entry)]).rtake segment.capacity := by
  have hothers : (segment.toList.drop evicted.length).filter
      (fun binding => decide (binding.1 ≠ key)) = segment.toList.drop evicted.length := by
    apply List.filter_eq_self.mpr
    rintro ⟨other, own⟩ hmem
    exact decide_eq_true fun heq =>
      hnew (heq ▸ Segment.mem_keys_iff.mpr ⟨own, List.mem_of_mem_drop hmem⟩)
  rw [h.toList_eq, hothers, h.length_evicted hnew hfit hroom, List.rtake, List.length_append,
    List.length_singleton, ← size_eq_length, List.drop_append_of_le_length]
  rw [← size_eq_length]
  omega

end Stored

variable [EvictionPolicy π]

/-- A segment that has room for a key, or already holds it, sheds nothing for it. -/
theorem stored_insert {segment : Segment π} {key : String}
    (hfree : key ∈ segment.keys ∨ segment.size < segment.capacity)
    (hfit : segment.size ≤ segment.capacity) (entry : Entry) :
    (segment.insert key entry).shrink = (segment.insert key entry, []) ∧
      Stored segment key entry (segment.insert key entry) [] := by
  constructor
  · apply shrink_of_le
    rw [size_insert, capacity_insert]
    split
    next => exact hfit
    next hnot => exact hfree.resolve_left hnot
  · exact ⟨rfl, by rw [displaced, if_pos hfree], segment.toList_insert key entry⟩

/-- The eldest entry of a full segment, and the entries that are left without it. -/
theorem exists_eldest {segment : Segment π} (hroom : 0 < segment.capacity)
    (hfull : segment.capacity ≤ segment.size) :
    ∃ victim entry rest, segment.toList = (victim, entry) :: rest ∧
      segment.residents.eldest? = some victim ∧ (segment.remove victim).1.toList = rest := by
  have hnodup := segment.keys_nodup
  have heldest : segment.residents.eldest? = segment.keys.head? := segment.residents.eldest?_eq
  rw [keys_eq] at hnodup heldest
  cases hlist : segment.toList with
  | nil =>
      rw [size_eq_length, hlist, List.length_nil] at hfull
      omega
  | cons first rest =>
      obtain ⟨victim, entry⟩ := first
      rw [hlist] at hnodup heldest
      refine ⟨victim, entry, rest, rfl, heldest, ?_⟩
      rw [toList_remove, hlist]
      exact filter_ne_head hnodup

omit [EvictionPolicy π] in
/-- A new key that takes the place of the eldest one in a full segment. -/
theorem stored_of_eldest {segment after : Segment π} {key victim : String} {own entry : Entry}
    {rest : List (String × Entry)} (hlist : segment.toList = (victim, own) :: rest)
    (hnew : key ∉ segment.keys) (hfull : segment.capacity ≤ segment.size)
    (hcapacity : after.capacity = segment.capacity)
    (hafter : after.toList =
      rest.filter (fun binding => decide (binding.1 ≠ key)) ++ [(key, entry)]) :
    Stored segment key entry after [victim] := by
  refine ⟨hcapacity, ?_, ?_⟩
  · rw [displaced, if_neg (not_or.mpr ⟨hnew, Nat.not_lt.mpr hfull⟩), keys_eq, hlist]
    rfl
  · rw [hafter, hlist]
    rfl

omit [EvictionPolicy π] in
/-- Exchanging the eldest entry for a new one keeps the number of entries. -/
theorem size_of_eldest {segment after : Segment π} {key victim : String} {own entry : Entry}
    {rest : List (String × Entry)} (hlist : segment.toList = (victim, own) :: rest)
    (hafter : after.toList =
      rest.filter (fun binding => decide (binding.1 ≠ key)) ++ [(key, entry)]) :
    after.size ≤ segment.size := by
  have hle := List.length_filter_le (fun binding : String × Entry => decide (binding.1 ≠ key)) rest
  rw [size_eq_length, size_eq_length, hlist, hafter, List.length_append, List.length_singleton,
    List.length_cons]
  omega

/-! ## The answer of the policy -/

theorem residents_askAdmission (segment : Segment π) (key : String) :
    (segment.askAdmission key).1.residents = segment.residents := rfl

theorem put_of_reject {segment asked : Segment π} {key : String} {entry : Entry}
    (h : segment.askAdmission key = (asked, .reject)) :
    segment.put key entry = (asked, { stored := false }) := by
  unfold put
  rw [h]

theorem put_of_accept {segment asked : Segment π} {key : String} {entry : Entry}
    (h : segment.askAdmission key = (asked, .accept)) :
    segment.put key entry = ((asked.insert key entry).shrink.1,
      { stored := true, evicted := (asked.insert key entry).shrink.2 }) := by
  unfold put
  rw [h]

theorem put_of_evict {segment asked : Segment π} {key victim : String} {entry : Entry}
    (h : segment.askAdmission key = (asked, .evict victim)) :
    segment.put key entry = (((asked.remove victim).1.place key entry).shrink.1,
      { stored := true
        evicted := (if (asked.remove victim).2.isSome then [victim] else []) ++
          ((asked.remove victim).1.place key entry).shrink.2 }) := by
  unfold put
  rw [h]

theorem hasRoom_occupancy_iff {segment : Segment StandardPolicy} {key : String} :
    (segment.occupancy key).hasRoom segment.capacity = true ↔
      key ∈ segment.keys ∨ segment.size < segment.capacity := by
  rw [Occupancy.hasRoom, Bool.or_eq_true, decide_eq_true_iff]
  exact or_congr_left contains_residents_iff

/-- A key that is there, or for which there is room, is let in. -/
theorem askAdmission_of_room {segment : Segment StandardPolicy} {key : String}
    (h : key ∈ segment.keys ∨ segment.size < segment.capacity) :
    (segment.askAdmission key).2 = .accept := by
  change (StandardPolicy.admission segment.policy key _ segment.capacity).2 = _
  unfold StandardPolicy.admission
  rw [if_pos (hasRoom_occupancy_iff.mpr h)]

/-- Any other key takes the place of the eldest one or is rejected. -/
theorem askAdmission_of_full {segment : Segment StandardPolicy} {key victim : String}
    (h : ¬ (key ∈ segment.keys ∨ segment.size < segment.capacity))
    (heldest : segment.residents.eldest? = some victim) :
    (segment.askAdmission key).2 = .evict victim ∨ (segment.askAdmission key).2 = .reject := by
  have hseen : (segment.occupancy key).eldest = some victim := heldest
  change (StandardPolicy.admission segment.policy key _ segment.capacity).2 = _ ∨
    (StandardPolicy.admission segment.policy key _ segment.capacity).2 = _
  unfold StandardPolicy.admission
  rw [if_neg (mt hasRoom_occupancy_iff.mp h), hseen]
  cases segment.policy with
  | lru => exact Or.inl rfl
  | lfu sketch =>
      dsimp only
      split
      · exact Or.inl rfl
      · exact Or.inr rfl

/-- A write is rejected, which happens to absent keys only and changes no entry,
or it is stored. -/
theorem put_cases {segment : Segment StandardPolicy} (hfit : segment.size ≤ segment.capacity)
    (hroom : 0 < segment.capacity) (key : String) (entry : Entry) :
    ((segment.put key entry).2 = { stored := false } ∧ key ∉ segment.keys ∧
        (segment.put key entry).1.toList = segment.toList ∧
        (segment.put key entry).1.capacity = segment.capacity) ∨
      ((segment.put key entry).2.stored = true ∧
        Stored segment key entry (segment.put key entry).1 (segment.put key entry).2.evicted) := by
  -- asking may change the policy, which neither view shows
  obtain ⟨asked, hasked⟩ : ∃ asked, asked = (segment.askAdmission key).1 := ⟨_, rfl⟩
  have hlist : asked.toList = segment.toList := hasked ▸ rfl
  have hcapacity : asked.capacity = segment.capacity := hasked ▸ rfl
  have hask : ∀ answer, (segment.askAdmission key).2 = answer →
      segment.askAdmission key = (asked, answer) :=
    fun answer h => Prod.ext hasked.symm h
  have hsize : asked.size = segment.size := by rw [size_eq_length, hlist, ← size_eq_length]
  have hkeys : asked.keys = segment.keys := by rw [keys_eq, hlist, ← keys_eq]
  by_cases hfree : key ∈ segment.keys ∨ segment.size < segment.capacity
  · have hfree' : key ∈ asked.keys ∨ asked.size < asked.capacity := by
      rwa [hkeys, hsize, hcapacity]
    obtain ⟨hshrink, hstored⟩ := stored_insert hfree' (by rwa [hsize, hcapacity]) entry
    rw [put_of_accept (hask _ (askAdmission_of_room hfree)), hshrink]
    refine Or.inr ⟨rfl, hstored.capacity_eq.trans hcapacity, ?_, ?_⟩
    · rw [displaced, if_pos hfree]
    · rw [hstored.toList_eq, hlist]
  · obtain ⟨hnew, hfull⟩ := not_or.mp hfree
    have hroom' : 0 < asked.capacity := by rwa [hcapacity]
    have hfull' : asked.capacity ≤ asked.size := by
      rw [hsize, hcapacity]
      exact Nat.not_lt.mp hfull
    obtain ⟨victim, own, rest, hrest, heldest, hremove⟩ := exists_eldest hroom' hfull'
    have heldest' : segment.residents.eldest? = some victim := by
      rwa [hasked, residents_askAdmission] at heldest
    rcases askAdmission_of_full hfree heldest' with hanswer | hanswer
    · have hafter : ((asked.remove victim).1.place key entry).toList =
          rest.filter (fun binding => decide (binding.1 ≠ key)) ++ [(key, entry)] := by
        rw [toList_place, hremove]
      have hremoved : (asked.remove victim).2 = some own := by
        rw [remove_snd, peek_eq_some_iff, hrest]
        exact List.mem_cons_self
      have hsame : ((asked.remove victim).1.place key entry).capacity = segment.capacity := by
        rw [capacity_place, capacity_remove, hcapacity]
      have hle := size_of_eldest hrest hafter
      have hshrink : ((asked.remove victim).1.place key entry).shrink =
          ((asked.remove victim).1.place key entry, []) := shrink_of_le (by omega)
      rw [put_of_evict (hask _ hanswer), hremoved, hshrink]
      exact Or.inr ⟨rfl, stored_of_eldest (hlist ▸ hrest) hnew (Nat.not_lt.mp hfull) hsame hafter⟩
    · rw [put_of_reject (hask _ hanswer)]
      exact Or.inl ⟨rfl, hnew, hlist, hcapacity⟩

/-- A write that is not rejected has come in. -/
theorem stored_put {segment : Segment StandardPolicy} {key : String} {entry : Entry}
    (hfit : segment.size ≤ segment.capacity) (hroom : 0 < segment.capacity)
    (hstored : (segment.put key entry).2.stored = true) :
    Stored segment key entry (segment.put key entry).1 (segment.put key entry).2.evicted := by
  rcases put_cases hfit hroom key entry with ⟨hrejected, -⟩ | ⟨-, hput⟩
  · rw [hrejected] at hstored
    exact absurd hstored Bool.false_ne_true
  · exact hput

/-! ## Restoring writes -/

/-- Where nobody is shed, nothing changes. -/
theorem shed_of_nobody {segment : Segment π} {count : Nat} (h : (segment.shed count).2 = []) :
    (segment.shed count).1 = segment := by
  cases count with
  | zero => rfl
  | succ count =>
      unfold shed at h ⊢
      cases heldest : segment.residents.eldest? with
      | none => rfl
      | some victim =>
          rw [heldest] at h
          exact absurd h (List.cons_ne_nil _ _)

theorem putForce_eq (segment : Segment π) (key : String) (entry : Entry) :
    segment.putForce key entry = (((segment.makeRoom key).1.insert key entry).shrink.1,
      { stored := true
        evicted := (segment.makeRoom key).2 ++
          ((segment.makeRoom key).1.insert key entry).shrink.2 }) := rfl

theorem makeRoom_of_room {segment : Segment π} {key : String}
    (h : key ∈ segment.keys ∨ segment.size < segment.capacity) :
    segment.makeRoom key = (segment, []) := by
  unfold makeRoom
  rw [if_neg]
  rw [Bool.and_eq_true, Bool.not_eq_true', ← Bool.not_eq_true, contains_residents_iff,
    decide_eq_true_iff]
  exact fun hfull => h.elim hfull.1 (Nat.not_lt.mpr hfull.2)

theorem makeRoom_of_full {segment : Segment π} {key victim : String}
    (h : ¬ (key ∈ segment.keys ∨ segment.size < segment.capacity))
    (heldest : segment.residents.eldest? = some victim) :
    segment.makeRoom key = ((segment.remove victim).1, [victim]) := by
  obtain ⟨hnew, hfull⟩ := not_or.mp h
  unfold makeRoom
  rw [if_pos]
  · rw [shed, heldest]
    rfl
  · rw [Bool.and_eq_true, Bool.not_eq_true', ← Bool.not_eq_true, contains_residents_iff,
      decide_eq_true_iff]
    exact ⟨hnew, Nat.not_lt.mp hfull⟩

/-- A restoring write for which nobody leaves places its entry and does nothing else. -/
theorem putForce_of_nobody {segment : Segment π} {key : String} {entry : Entry}
    (h : (segment.putForce key entry).2.evicted = []) :
    (segment.putForce key entry).1 = segment.insert key entry := by
  rw [putForce_eq] at h ⊢
  obtain ⟨hearly, hlate⟩ := List.append_eq_nil_iff.mp h
  have hroom : (segment.makeRoom key).1 = segment := by
    unfold makeRoom at hearly ⊢
    split at hearly
    next hfull =>
      rw [if_pos hfull]
      exact shed_of_nobody hearly
    next hfree => rw [if_neg hfree]
  rw [hroom] at hlate ⊢
  exact shed_of_nobody hlate

/-- A restoring write is always stored. -/
theorem stored_putForce {segment : Segment π} (hfit : segment.size ≤ segment.capacity)
    (hroom : 0 < segment.capacity) (key : String) (entry : Entry) :
    (segment.putForce key entry).2.stored = true ∧
      Stored segment key entry (segment.putForce key entry).1
        (segment.putForce key entry).2.evicted := by
  rw [putForce_eq]
  by_cases hfree : key ∈ segment.keys ∨ segment.size < segment.capacity
  · obtain ⟨hshrink, hstored⟩ := stored_insert hfree hfit entry
    rw [makeRoom_of_room hfree, hshrink]
    exact ⟨rfl, hstored⟩
  · obtain ⟨hnew, hfull⟩ := not_or.mp hfree
    obtain ⟨victim, own, rest, hrest, heldest, hremove⟩ :=
      exists_eldest hroom (Nat.not_lt.mp hfull)
    have hafter : ((segment.remove victim).1.insert key entry).toList =
        rest.filter (fun binding => decide (binding.1 ≠ key)) ++ [(key, entry)] := by
      rw [toList_insert, hremove]
    have hsame : ((segment.remove victim).1.insert key entry).capacity = segment.capacity := by
      rw [capacity_insert, capacity_remove]
    have hle := size_of_eldest hrest hafter
    have hshrink : ((segment.remove victim).1.insert key entry).shrink =
        ((segment.remove victim).1.insert key entry, []) := shrink_of_le (by omega)
    rw [makeRoom_of_full hfree heldest, hshrink]
    exact ⟨rfl, stored_of_eldest hrest hnew (Nat.not_lt.mp hfull) hsame hafter⟩

/-! ## What operations leave alone -/

theorem capacity_shed (segment : Segment π) (count : Nat) :
    (segment.shed count).1.capacity = segment.capacity := by
  induction count generalizing segment with
  | zero => rfl
  | succ count ih =>
      unfold shed
      cases segment.residents.eldest? with
      | none => rfl
      | some victim => exact (ih _).trans (capacity_remove segment victim)

@[simp] theorem policy_remove (segment : Segment StandardPolicy) (key : String) :
    (segment.remove key).1.policy = segment.policy := by
  obtain ⟨capacity, residents, policy⟩ := segment
  unfold remove
  dsimp only
  cases residents.find? key <;> rfl

theorem policy_shed (segment : Segment StandardPolicy) (count : Nat) :
    (segment.shed count).1.policy = segment.policy := by
  induction count generalizing segment with
  | zero => rfl
  | succ count ih =>
      unfold shed
      cases segment.residents.eldest? with
      | none => rfl
      | some victim => exact (ih _).trans (policy_remove segment victim)

theorem policy_clear (segment : Segment StandardPolicy) :
    segment.clear.1.policy = segment.policy := by
  have hkeys (keys : List String) (policy : StandardPolicy) :
      keys.foldl EvictionPolicy.recordRemoval policy = policy := by
    induction keys with
    | nil => rfl
    | cons key keys ih => exact ih
  exact hkeys _ _

end ReplicatedCache.Segment
