import ReplicatedCache.Proofs.Segment.Refinement

/-! # What a write takes away

A write that is stored puts its entry at the newest end and tells which keys left for it.
Nothing else changes, whatever the policy has answered and however far conditional writes
have brought the segment beyond its capacity.
-/

namespace ReplicatedCache

namespace Roster

/-- Entries under distinct keys, less those whose keys are the first ones. -/
theorem filter_not_mem_take {entries : List (String × Entry)} (h : (entries.map (·.1)).Nodup)
    (count : Nat) :
    (entries.filter fun binding => decide (binding.1 ∉ (entries.map (·.1)).take count)) =
      entries.drop count := by
  have hsplit := List.take_append_drop count entries
  have hdistinct := h
  rw [← hsplit, List.map_append, List.nodup_append] at hdistinct
  have hnone : (entries.take count).filter
      (fun binding => decide (binding.1 ∉ (entries.map (·.1)).take count)) = [] := by
    apply List.filter_eq_nil_iff.mpr
    intro binding hmem
    rw [decide_eq_true_iff, not_not, ← List.map_take]
    exact List.mem_map_of_mem hmem
  have hall : (entries.drop count).filter
      (fun binding => decide (binding.1 ∉ (entries.map (·.1)).take count)) =
        entries.drop count := by
    apply List.filter_eq_self.mpr
    intro binding hmem
    rw [decide_eq_true_iff, ← List.map_take]
    exact fun hfirst => hdistinct.2.2 _ hfirst _ (List.mem_map_of_mem hmem) rfl
  conv_lhs => arg 2; rw [← hsplit]
  rw [List.filter_append, hnone, hall, List.nil_append]

theorem mem_keys_filter (entries : List (String × Entry)) (stays : String → Prop)
    [DecidablePred stays] (key : String) :
    key ∈ (entries.filter fun binding => decide (stays binding.1)).map (·.1) ↔
      key ∈ entries.map (·.1) ∧ stays key := by
  have hkeys : (entries.filter fun binding => decide (stays binding.1)).map (·.1) =
      (entries.map (·.1)).filter fun own => decide (stays own) := by
    rw [List.filter_map]
    rfl
  rw [hkeys, List.mem_filter, decide_eq_true_iff]

theorem mem_keys_erase_iff {roster : Roster} {key other : String} :
    other ∈ (roster.erase key).keys ↔ other ∈ roster.keys ∧ other ≠ key :=
  mem_keys_filter roster.entries (· ≠ key) other

theorem keys_renew (roster : Roster) (key : String) (entry : Entry) :
    (roster.renew key entry).keys = (roster.erase key).keys ++ [key] :=
  List.map_append

section Surplus

variable {roster : Roster} {key : String} {entry : Entry} {count : Nat}

/-- The surplus that an entry brings about is older than itself, as there is room for one. -/
theorem surplus_renew_le (hroom : 0 < roster.capacity) :
    (roster.renew key entry).surplus ≤ (roster.erase key).entries.length := by
  have hlength : (roster.renew key entry).entries.length =
      (roster.erase key).entries.length + 1 := List.length_append
  have hcapacity : (roster.renew key entry).capacity = roster.capacity := rfl
  rw [surplus]
  omega

theorem take_keys_renew (hcount : count ≤ (roster.erase key).entries.length) :
    (roster.renew key entry).keys.take count = (roster.erase key).keys.take count := by
  rw [keys_renew, List.take_append_of_le_length]
  rwa [keys, List.length_map]

theorem entries_drop_renew (hcount : count ≤ (roster.erase key).entries.length) :
    ((roster.renew key entry).drop count).entries =
      ((roster.erase key).entries.filter fun binding =>
        decide (binding.1 ∉ (roster.erase key).keys.take count)) ++ [(key, entry)] := by
  have hdropped : ((roster.renew key entry).drop count).entries =
      (roster.erase key).entries.drop count ++ [(key, entry)] :=
    List.drop_append_of_le_length hcount
  rw [hdropped, ← filter_not_mem_take (roster.erase key).distinct]
  rfl

end Surplus

/-- An entry has come in at the newest end, for which some keys left. -/
structure Displaces (roster : Roster) (key : String) (entry : Entry) (left : List String)
    (after : Roster) : Prop where
  capacity_eq : after.capacity = roster.capacity
  length_le : after.entries.length ≤ after.capacity
  entries_eq : after.entries =
    (roster.entries.filter fun binding => decide (binding.1 ≠ key ∧ binding.1 ∉ left)) ++
      [(key, entry)]
  nodup : left.Nodup
  mem_keys : ∀ other ∈ left, other ∈ roster.keys

namespace Displaces

variable {roster after : Roster} {key other : String} {entry : Entry} {left : List String}

/-- After a displacement the keys are the new one and those that did not leave. -/
theorem mem_keys_iff (h : roster.Displaces key entry left after) :
    other ∈ after.keys ↔ other = key ∨ (other ∈ roster.keys ∧ other ∉ left) := by
  rw [keys, h.entries_eq, List.map_append, List.mem_append,
    mem_keys_filter roster.entries fun own => own ≠ key ∧ own ∉ left]
  change _ ∨ other ∈ [key] ↔ _
  rw [List.mem_singleton, keys]
  tauto

/-- The keys that left are those that were there and are not any more. -/
theorem mem_left_iff (h : roster.Displaces key entry left after) (hother : other ≠ key) :
    other ∈ left ↔ other ∈ roster.keys ∧ other ∉ after.keys := by
  rw [h.mem_keys_iff]
  have := h.mem_keys other
  tauto

end Displaces

/-- An entry comes in after some keys have left; then the surplus leaves, which the entry
itself does not belong to. -/
theorem exists_enter_displaces {roster : Roster} (hroom : 0 < roster.capacity) (base : Roster)
    (hcapacity : base.capacity = roster.capacity) {left : List String} (hnodup : left.Nodup)
    (hleft : ∀ other ∈ left, other ∈ roster.keys)
    (hbase : base.entries = roster.entries.filter fun binding => decide (binding.1 ∉ left))
    (key : String) (entry : Entry) (heard : List PolicyCall) :
    ∃ late, key ∉ late ∧
      (base.enter key entry left heard).answer =
        .put { stored := true, evicted := left ++ late } ∧
      (base.enter key entry left heard).told = heard ++ late.map .removal ∧
      roster.Displaces key entry (left ++ late) (base.enter key entry left heard).after := by
  have hfull : (base.renew key entry).surplus ≤ (base.erase key).entries.length :=
    surplus_renew_le (hcapacity ▸ hroom)
  obtain ⟨late, hlate⟩ : ∃ late, late = (base.erase key).keys.take (base.renew key entry).surplus :=
    ⟨_, rfl⟩
  have htaken : (base.renew key entry).keys.take (base.renew key entry).surplus = late :=
    (take_keys_renew hfull).trans hlate.symm
  -- what leaves late was there from the beginning, did not leave early, and is another key
  have hold (other : String) (hmem : other ∈ late) : other ∈ base.keys ∧ other ≠ key :=
    mem_keys_erase_iff.mp (List.mem_of_mem_take (hlate ▸ hmem))
  have hstayed (other : String) : other ∈ base.keys ↔ other ∈ roster.keys ∧ other ∉ left := by
    rw [keys, hbase]
    exact mem_keys_filter roster.entries (· ∉ left) other
  refine ⟨late, fun hmem => (hold key hmem).2 rfl, ?_, ?_, ?_⟩
  · rw [enter, htaken]
  · rw [enter, htaken]
  constructor
  case capacity_eq => exact hcapacity
  case length_le =>
    have hlength : ((base.renew key entry).drop (base.renew key entry).surplus).entries.length =
        (base.renew key entry).entries.length - (base.renew key entry).surplus :=
      List.length_drop
    change ((base.renew key entry).drop _).entries.length ≤ (base.renew key entry).capacity
    rw [hlength, surplus]
    omega
  case entries_eq =>
    change ((base.renew key entry).drop _).entries = _
    have hothers : (base.erase key).entries = (roster.entries.filter fun binding =>
        decide (binding.1 ∉ left)).filter fun binding => decide (binding.1 ≠ key) := by
      rw [← hbase]
      rfl
    rw [entries_drop_renew hfull, ← hlate, hothers, List.filter_filter, List.filter_filter]
    congr 1
    apply List.filter_congr
    intro binding _
    rw [← Bool.decide_and, ← Bool.decide_and, decide_eq_decide, List.mem_append]
    tauto
  case nodup =>
    have hdistinct : late.Nodup := hlate ▸ (base.erase key).distinct.sublist (List.take_sublist _ _)
    refine List.nodup_append.mpr ⟨hnodup, hdistinct, ?_⟩
    rintro other hearly _ hmem rfl
    exact ((hstayed other).mp (hold other hmem).1).2 hearly
  case mem_keys =>
    intro other hother
    rcases List.mem_append.mp hother with hearly | hmem
    · exact hleft other hearly
    · exact ((hstayed other).mp (hold other hmem).1).1

theorem mem_held_iff {roster : Roster} {key other : String} :
    other ∈ roster.held key ↔ other = key ∧ key ∈ roster.keys := by
  unfold held
  split
  next hmem => rw [List.mem_singleton, and_iff_left hmem]
  next hnot => exact iff_of_false List.not_mem_nil fun h => hnot h.2

theorem nodup_held (roster : Roster) (key : String) : (roster.held key).Nodup := by
  unfold held
  split
  next => exact List.nodup_singleton key
  next => exact List.nodup_nil

/-- Without a key there are the entries of the others, whether it was held or not. -/
theorem entries_erase (roster : Roster) (key : String) : (roster.erase key).entries =
    roster.entries.filter fun binding => decide (binding.1 ∉ roster.held key) := by
  apply List.filter_congr
  intro binding hmem
  rw [decide_eq_decide, mem_held_iff, not_and]
  refine ⟨fun hne heq => absurd heq hne, fun hnot heq => hnot heq ?_⟩
  exact heq ▸ List.mem_map_of_mem hmem

/-- What the policy is told of a candidate, apart from the keys that leave for it. -/
def introduction (roster : Roster) (asked : Admission) (key : String) : List PolicyCall :=
  .admission key (roster.occupancy key) roster.capacity asked ::
    if asked = .accept then [.access key] else []

/-- A write that is let in, for another key or not. Its own key leaves only if the policy
wants it to. -/
theorem exists_put_displaces (roster : Roster) (hroom : 0 < roster.capacity) {asked : Admission}
    (hasked : asked ≠ .reject) (key : String) (entry : Entry) :
    ∃ evicted, (key ∈ evicted ↔ key ∈ roster.keys ∧ asked = .evict key) ∧
      (roster.apply asked (.put key entry)).answer = .put { stored := true, evicted } ∧
      (roster.apply asked (.put key entry)).told =
        roster.introduction asked key ++ evicted.map .removal ∧
      roster.Displaces key entry evicted (roster.apply asked (.put key entry)).after := by
  cases asked with
  | reject => exact absurd rfl hasked
  | accept =>
      obtain ⟨late, hnew, hanswer, htold, hdisplaces⟩ := exists_enter_displaces hroom roster
        rfl List.nodup_nil nofun (List.filter_eq_self.mpr fun _ _ => rfl).symm key entry
        (roster.introduction .accept key)
      exact ⟨late, iff_of_false hnew nofun, hanswer, htold, hdisplaces⟩
  | evict victim =>
      have hheld : ∀ other ∈ roster.held victim, other ∈ roster.keys := fun other hother =>
        (mem_held_iff.mp hother).1 ▸ (mem_held_iff.mp hother).2
      obtain ⟨late, hnew, hanswer, htold, hdisplaces⟩ := exists_enter_displaces hroom
        (roster.erase victim) rfl (roster.nodup_held victim) hheld (roster.entries_erase victim)
        key entry
        (roster.introduction (.evict victim) key ++ (roster.held victim).map .removal)
      refine ⟨roster.held victim ++ late, ?_, hanswer, ?_, hdisplaces⟩
      · rw [List.mem_append, or_iff_left hnew, mem_held_iff, Admission.evict.injEq]
        constructor
        · rintro ⟨rfl, hmem⟩
          exact ⟨hmem, rfl⟩
        · rintro ⟨hmem, rfl⟩
          exact ⟨rfl, hmem⟩
      · rw [List.map_append, ← List.append_assoc]
        exact htold

/-- A restoring write is always let in, and its own key does not leave for it. -/
theorem exists_putForce_displaces (roster : Roster) (hroom : 0 < roster.capacity)
    (asked : Admission) (key : String) (entry : Entry) :
    ∃ early late, key ∉ early ++ late ∧
      (roster.apply asked (.putForce key entry)).answer =
        .put { stored := true, evicted := early ++ late } ∧
      (roster.apply asked (.putForce key entry)).told =
        early.map .removal ++ [.access key] ++ late.map .removal ∧
      roster.Displaces key entry (early ++ late)
        (roster.apply asked (.putForce key entry)).after := by
  obtain ⟨room, hneeded⟩ : ∃ room, room =
      if key ∉ roster.keys ∧ roster.capacity ≤ roster.entries.length then 1 else 0 := ⟨_, rfl⟩
  have hother : key ∉ roster.keys.take room := by
    intro hmem
    have hheld := List.mem_of_mem_take hmem
    rw [hneeded, if_neg fun h => h.1 hheld] at hmem
    exact List.not_mem_nil hmem
  obtain ⟨late, hnew, hanswer, htold, hdisplaces⟩ := exists_enter_displaces hroom
    (roster.drop room) rfl (roster.distinct.sublist (List.take_sublist room _))
    (fun _ => List.mem_of_mem_take) (filter_not_mem_take roster.distinct room).symm key entry
    ((roster.keys.take room).map .removal ++ [.access key])
  rw [hneeded] at hother hanswer htold hdisplaces
  refine ⟨_, late, fun hmem => ?_, hanswer, htold, hdisplaces⟩
  exact (List.mem_append.mp hmem).elim hother hnew

theorem capacity_apply (roster : Roster) (asked : Admission) (call : SegmentCall) :
    (roster.apply asked call).after.capacity = roster.capacity := by
  cases call with
  | put key entry => cases asked <;> rfl
  | get key =>
      rw [apply]
      cases roster.find? key <;> rfl
  | removeIfDue key deadline =>
      rw [apply]
      split <;> rfl
  | compareAndSwap key decision =>
      rw [apply]
      cases decision (roster.find? key) <;> rfl
  | _ => rfl

end Roster

namespace Segment

variable {π : Type}

/-! ## Segments as rosters -/

/-- The roster that a segment keeps. -/
def roster (segment : Segment π) : Roster := ⟨segment.capacity, segment.toList, segment.keys_nodup⟩

/-- The same segment, whose policy takes down what it hears from now on. -/
def traced (segment : Segment π) : Segment (Traced π) :=
  ⟨segment.capacity, segment.residents, ⟨segment.policy, []⟩⟩

theorem tracks_roster (segment : Segment (Traced π)) :
    segment.Tracks segment.roster segment.policy.calls := ⟨rfl, rfl, rfl⟩

theorem Tracks.roster_eq {segment : Segment (Traced π)} {roster : Roster}
    {heard : List PolicyCall} (h : segment.Tracks roster heard) : segment.roster = roster :=
  Roster.ext h.capacity_eq h.toList_eq

variable [EvictionPolicy π]

/-- A write is a turn of the roster in which the policy answers what it is asked. -/
theorem roster_put (segment : Segment π) (key : String) (entry : Entry) :
    let turn := segment.roster.apply (segment.askAdmission key).2 (.put key entry)
    .put (segment.put key entry).2 = turn.answer ∧
      (segment.put key entry).1.roster = turn.after := by
  obtain ⟨hanswer, htracks⟩ := segment.traced.tracks_roster.put key entry
  have hput : segment.put key entry = _ := put_untraced segment.traced key entry
  rw [hput]
  exact ⟨hanswer, htracks.roster_eq⟩

theorem roster_putForce (segment : Segment π) (key : String) (entry : Entry) (asked : Admission) :
    let turn := segment.roster.apply asked (.putForce key entry)
    .put (segment.putForce key entry).2 = turn.answer ∧
      (segment.putForce key entry).1.roster = turn.after := by
  obtain ⟨hanswer, htracks⟩ := segment.traced.tracks_roster.putForce key entry asked
  have hput : segment.putForce key entry = _ := putForce_untraced segment.traced key entry
  rw [hput]
  exact ⟨hanswer, htracks.roster_eq⟩

theorem capacity_apply (segment : Segment π) (call : SegmentCall) :
    (segment.apply call).1.capacity = segment.capacity := by
  obtain ⟨asked, -, htracks⟩ := segment.traced.tracks_roster.apply call
  have happly : segment.apply call = _ := apply_untraced segment.traced call
  rw [happly]
  exact htracks.capacity_eq.trans (Roster.capacity_apply _ asked call)

/-- The capacity of a segment is fixed, whatever is called. -/
theorem capacity_run (segment : Segment π) (calls : List SegmentCall) :
    (segment.run calls).1.capacity = segment.capacity := by
  induction calls generalizing segment with
  | nil => rfl
  | cons call calls ih => exact (ih (segment.apply call).1).trans (segment.capacity_apply call)

theorem capacity_run_pos (policy : π) (capacity : Nat) (calls : List SegmentCall) :
    0 < ((ofCapacity capacity policy).run calls).1.capacity := by
  rw [capacity_run]
  exact Nat.le_max_left 1 capacity

/-! ## What a write takes away -/

/-- An entry has been written at the newest end of a segment, for which some keys left.
Apart from its own key, these are the keys that were there and are not any more; the
others have kept their entries and their order. -/
structure Displaces (segment : Segment π) (key : String) (entry : Entry)
    (evicted : List String) (after : Segment π) : Prop where
  capacity_eq : after.capacity = segment.capacity
  size_le : after.size ≤ after.capacity
  toList_eq : after.toList = (segment.toList.filter fun binding =>
    decide (binding.1 ≠ key ∧ binding.1 ∉ evicted)) ++ [(key, entry)]
  nodup : evicted.Nodup
  mem_evicted_iff : ∀ other, other ≠ key →
    (other ∈ evicted ↔ other ∈ segment.keys ∧ other ∉ after.keys)

omit [EvictionPolicy π] in
theorem displaces_of_roster {segment after : Segment π} {key : String} {entry : Entry}
    {evicted : List String} (h : segment.roster.Displaces key entry evicted after.roster) :
    segment.Displaces key entry evicted after where
  capacity_eq := h.capacity_eq
  size_le := Nat.le_trans (Nat.le_of_eq after.size_eq_length) h.length_le
  toList_eq := h.entries_eq
  nodup := h.nodup
  mem_evicted_iff := fun _ hother => h.mem_left_iff hother

/-- A write that the policy turns down leaves everything but the policy as it was. -/
theorem put_of_rejected {segment : Segment π} {key : String}
    (hasked : (segment.askAdmission key).2 = .reject) (entry : Entry) :
    (segment.put key entry).2 = { stored := false } ∧
      (segment.put key entry).1.toList = segment.toList := by
  have hask : segment.askAdmission key = ((segment.askAdmission key).1, .reject) :=
    Prod.ext rfl hasked
  rw [put_of_reject hask]
  exact ⟨rfl, rfl⟩

/-- A put that the policy does not reject is stored; its own key is among the evicted ones only
if the policy named it as the victim. -/
theorem put_displaces {segment : Segment π} {key : String} (hroom : 0 < segment.capacity)
    (hasked : (segment.askAdmission key).2 ≠ .reject) (entry : Entry) :
    let put := segment.put key entry
    put.2.stored = true ∧ segment.Displaces key entry put.2.evicted put.1 ∧
      (key ∈ put.2.evicted ↔ key ∈ segment.keys ∧ (segment.askAdmission key).2 = .evict key) := by
  intro put
  obtain ⟨hturn, hafter⟩ := segment.roster_put key entry
  obtain ⟨evicted, hown, hanswer, -, hdisplaces⟩ :=
    segment.roster.exists_put_displaces hroom hasked key entry
  have houtcome : put.2 = { stored := true, evicted } :=
    SegmentAnswer.put.inj (hturn.trans hanswer)
  rw [← hafter] at hdisplaces
  rw [houtcome]
  exact ⟨rfl, displaces_of_roster hdisplaces, hown⟩

/-- A forced put is always stored, and its own key does not leave for it. -/
theorem putForce_displaces {segment : Segment π} (hroom : 0 < segment.capacity) (key : String)
    (entry : Entry) :
    let forced := segment.putForce key entry
    forced.2.stored = true ∧ segment.Displaces key entry forced.2.evicted forced.1 ∧
      key ∉ forced.2.evicted := by
  intro forced
  obtain ⟨hturn, hafter⟩ := segment.roster_putForce key entry .accept
  obtain ⟨early, late, hown, hanswer, -, hdisplaces⟩ :=
    segment.roster.exists_putForce_displaces hroom .accept key entry
  have houtcome : forced.2 = { stored := true, evicted := early ++ late } :=
    SegmentAnswer.put.inj (hturn.trans hanswer)
  rw [← hafter] at hdisplaces
  rw [houtcome]
  exact ⟨rfl, displaces_of_roster hdisplaces, hown⟩

/-- In every state that a segment can come to, a write that is turned down changes no
entry, and a write that is stored takes away what it tells and nothing else. -/
theorem writes_take_what_they_tell (policy : π) (capacity : Nat) (calls : List SegmentCall)
    (key : String) (entry : Entry) :
    let segment := ((ofCapacity capacity policy).run calls).1
    let put := segment.put key entry
    let forced := segment.putForce key entry
    (put.2 = { stored := false } ∧ put.1.toList = segment.toList ∨
      put.2.stored = true ∧ segment.Displaces key entry put.2.evicted put.1 ∧
        (key ∈ put.2.evicted ↔ key ∈ segment.keys ∧ (segment.askAdmission key).2 = .evict key)) ∧
      forced.2.stored = true ∧ segment.Displaces key entry forced.2.evicted forced.1 ∧
        key ∉ forced.2.evicted := by
  intro segment put forced
  have hroom : 0 < segment.capacity := capacity_run_pos policy capacity calls
  refine ⟨?_, putForce_displaces hroom key entry⟩
  by_cases hasked : (segment.askAdmission key).2 = .reject
  · exact Or.inl (put_of_rejected hasked entry)
  · exact Or.inr (put_displaces hroom hasked entry)

end Segment

end ReplicatedCache
