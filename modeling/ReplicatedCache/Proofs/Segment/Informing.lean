import Mathlib.Data.Finset.Dedup
import Mathlib.Data.Finset.Erase
import Mathlib.Data.Finset.SDiff
import ReplicatedCache.Proofs.Segment.Displacement

/-! # What a policy knows of its segment

A policy does not see the keys of its segment, but it can keep note of them: it hears of
every key that is used and of every key that leaves, and an admission that it has granted
at the expense of another key counts as a use. As long as it never wants a candidate to
leave for itself, its notes are right after every call.
-/

namespace ReplicatedCache

namespace PolicyCall

/-- The keys in the segment, as a policy notes them that hears a call. -/
def noted (present : Finset String) : PolicyCall → Finset String
  | .access key => insert key present
  | .admission candidate _ _ (.evict _) => insert candidate present
  | .admission _ _ _ _ => present
  | .removal key => present.erase key

def removed? : PolicyCall → Option String
  | .removal key => some key
  | _ => none

/-- No candidate was let in at its own expense. -/
def SparesCandidates (calls : List PolicyCall) : Prop :=
  ∀ candidate seen limit, .admission candidate seen limit (.evict candidate) ∉ calls

theorem SparesCandidates.of_earlier {calls more : List PolicyCall} (h : SparesCandidates more)
    (hearlier : calls <+: more) : SparesCandidates calls :=
  fun candidate seen limit hmem => h candidate seen limit (hearlier.subset hmem)

theorem foldl_noted_removal (present : Finset String) (keys : List String) :
    (keys.map .removal).foldl noted present = present \ keys.toFinset := by
  induction keys generalizing present with
  | nil => exact (Finset.sdiff_empty).symm
  | cons key keys ih =>
      rw [List.map_cons, List.foldl_cons, ih, List.toFinset_cons]
      ext other
      simp only [noted, Finset.mem_sdiff, Finset.mem_erase, Finset.mem_insert]
      tauto

theorem filterMap_removed_removal (keys : List String) :
    (keys.map .removal).filterMap removed? = keys := by
  rw [List.filterMap_map]
  exact List.filterMap_some

end PolicyCall

open PolicyCall

namespace Roster

variable {roster : Roster}

/-- What the policy is told in a turn is what happens: its notes of the keys stay right,
and it is told once of every key that leaves. -/
structure Informs (roster : Roster) (turn : Turn) : Prop where
  noted_eq : turn.told.foldl noted roster.keys.toFinset = turn.after.keys.toFinset
  nodup : (turn.told.filterMap removed?).Nodup
  mem_removed_iff : ∀ key, key ∈ turn.told.filterMap removed? ↔
    key ∈ roster.keys ∧ key ∉ turn.after.keys

theorem mem_keys_renew_iff {key other : String} {entry : Entry} :
    other ∈ (roster.renew key entry).keys ↔ other = key ∨ other ∈ roster.keys := by
  rw [keys_renew, List.mem_append, mem_keys_erase_iff, List.mem_singleton]
  tauto

/-! ## One turn -/

/-- Nothing happens, and nothing is told that would say otherwise. -/
theorem informs_unchanged (answer : SegmentAnswer) {heard : List PolicyCall}
    (hnoted : ∀ present, heard.foldl noted present = present)
    (hremoved : heard.filterMap removed? = []) : roster.Informs ⟨roster, answer, heard⟩ := by
  refine ⟨hnoted _, ?_, fun key => ?_⟩
  · rw [hremoved]
    exact List.nodup_nil
  · rw [hremoved]
    exact iff_of_false List.not_mem_nil fun h => h.2 h.1

/-- A key that is read or written without more ado. -/
theorem informs_renew (key : String) (entry : Entry) (answer : SegmentAnswer) :
    roster.Informs ⟨roster.renew key entry, answer, [.access key]⟩ := by
  refine ⟨?_, List.nodup_nil, fun other => ?_⟩
  · ext other
    simp only [List.foldl_cons, List.foldl_nil, noted, Finset.mem_insert, List.mem_toFinset,
      mem_keys_renew_iff]
  · rw [mem_keys_renew_iff]
    exact iff_of_false List.not_mem_nil fun h => h.2 (Or.inr h.1)

/-- A key that leaves, if it is there. -/
theorem informs_erase (key : String) (answer : SegmentAnswer) :
    roster.Informs ⟨roster.erase key, answer, (roster.held key).map .removal⟩ := by
  have hheld (other : String) : other ∈ roster.held key ↔
      other ∈ roster.keys ∧ other ∉ (roster.erase key).keys := by
    rw [mem_held_iff, mem_keys_erase_iff]
    constructor
    · rintro ⟨rfl, hmem⟩
      exact ⟨hmem, fun h => h.2 rfl⟩
    · rintro ⟨hmem, hnot⟩
      have heq : other = key := by tauto
      exact ⟨heq, heq ▸ hmem⟩
  refine ⟨?_, ?_, fun other => ?_⟩
  · ext other
    rw [foldl_noted_removal, Finset.mem_sdiff, List.mem_toFinset, List.mem_toFinset,
      List.mem_toFinset, hheld]
    have hkept : other ∈ (roster.erase key).keys → other ∈ roster.keys := fun hmem =>
      (mem_keys_erase_iff.mp hmem).1
    tauto
  · rw [filterMap_removed_removal]
    exact roster.nodup_held key
  · rw [filterMap_removed_removal]
    exact hheld other

/-- All keys leave. -/
theorem informs_clear (answer : SegmentAnswer) :
    roster.Informs ⟨{ capacity := roster.capacity }, answer, roster.keys.map .removal⟩ := by
  refine ⟨?_, ?_, fun other => ?_⟩
  · rw [foldl_noted_removal, Finset.sdiff_self]
    rfl
  · rw [filterMap_removed_removal]
    exact roster.distinct
  · rw [filterMap_removed_removal]
    exact (and_iff_left List.not_mem_nil).symm

/-- An entry that comes in, for which other keys leave before and after. The policy hears
of its key in between. -/
theorem Displaces.informs {key : String} {entry : Entry} {after : Roster}
    (early late : List String) (h : roster.Displaces key entry (early ++ late) after)
    (hown : key ∉ early ++ late) (heard : List PolicyCall)
    (hnoted : ∀ present, heard.foldl noted present = insert key present)
    (hremoved : heard.filterMap removed? = []) (answer : SegmentAnswer) :
    roster.Informs
      ⟨after, answer, early.map .removal ++ heard ++ late.map .removal⟩ := by
  have hleft : (early.map removal ++ heard ++ late.map removal).filterMap removed? =
      early ++ late := by
    rw [List.filterMap_append, List.filterMap_append, hremoved, filterMap_removed_removal,
      filterMap_removed_removal, List.append_nil]
  refine ⟨?_, ?_, fun other => ?_⟩
  · ext other
    have hsub := h.mem_keys other
    rw [List.mem_append] at hsub hown
    rw [List.foldl_append, List.foldl_append, foldl_noted_removal, hnoted, foldl_noted_removal]
    simp only [Finset.mem_sdiff, Finset.mem_insert, List.mem_toFinset, h.mem_keys_iff,
      List.mem_append]
    by_cases heq : other = key
    · subst heq
      tauto
    · tauto
  · rw [hleft]
    exact h.nodup
  · rw [hleft]
    by_cases heq : other = key
    · subst heq
      rw [h.mem_keys_iff]
      tauto
    · exact h.mem_left_iff heq

/-- A candidate that is not turned down is noted, once. -/
theorem foldl_noted_introduction {asked : Admission} (hasked : asked ≠ .reject) (key : String)
    (present : Finset String) :
    (roster.introduction asked key).foldl noted present = insert key present := by
  cases asked with
  | reject => exact absurd rfl hasked
  | accept => rfl
  | evict victim => rfl

theorem filterMap_removed_introduction (asked : Admission) (key : String) :
    (roster.introduction asked key).filterMap removed? = [] := by
  cases asked <;> rfl

/-- A write lets its policy know, unless that wants the candidate to leave for itself. -/
theorem informs_put (hroom : 0 < roster.capacity) {asked : Admission} {key : String}
    (hasked : asked ≠ .evict key) (entry : Entry) :
    roster.Informs (roster.apply asked (.put key entry)) := by
  by_cases hreject : asked = .reject
  · subst hreject
    exact informs_unchanged _ (fun _ => rfl) rfl
  · obtain ⟨evicted, hown, -, htold, hdisplaces⟩ :=
      roster.exists_put_displaces hroom hreject key entry
    have hinforms := Displaces.informs [] evicted hdisplaces (fun hmem => hasked (hown.mp hmem).2)
      (roster.introduction asked key) (foldl_noted_introduction hreject key)
      (filterMap_removed_introduction asked key) (roster.apply asked (.put key entry)).answer
    rw [List.map_nil, List.nil_append, ← htold] at hinforms
    exact hinforms

theorem informs_putForce (hroom : 0 < roster.capacity) (asked : Admission) (key : String)
    (entry : Entry) : roster.Informs (roster.apply asked (.putForce key entry)) := by
  obtain ⟨early, late, hown, -, htold, hdisplaces⟩ :=
    roster.exists_putForce_displaces hroom asked key entry
  have hinforms := Displaces.informs early late hdisplaces hown [.access key] (fun _ => rfl) rfl
    (roster.apply asked (.putForce key entry)).answer
  rw [← htold] at hinforms
  exact hinforms

/-- Whatever the call, the policy hears what happens. -/
theorem informs_apply (hroom : 0 < roster.capacity) {asked : Admission} {call : SegmentCall}
    (hasked : ∀ key entry, call = .put key entry → asked ≠ .evict key) :
    roster.Informs (roster.apply asked call) := by
  cases call with
  | put key entry => exact informs_put hroom (hasked key entry rfl) entry
  | putForce key entry => exact informs_putForce hroom asked key entry
  | get key =>
      rw [apply]
      cases roster.find? key with
      | none => exact informs_unchanged _ (fun _ => rfl) rfl
      | some entry => exact informs_renew key entry _
  | removeIfDue key deadline =>
      rw [apply]
      split
      next => exact informs_erase key _
      next => exact informs_unchanged _ (fun _ => rfl) rfl
  | compareAndSwap key decision =>
      rw [apply]
      cases decision (roster.find? key) with
      | store entry => exact informs_renew key entry _
      | expired => exact informs_erase key _
      | fail => exact informs_unchanged _ (fun _ => rfl) rfl
  | remove key => exact informs_erase key _
  | clear => exact informs_clear _
  | peek key => exact informs_unchanged _ (fun _ => rfl) rfl
  | deadlineOf key => exact informs_unchanged _ (fun _ => rfl) rfl
  | toList => exact informs_unchanged _ (fun _ => rfl) rfl
  | size => exact informs_unchanged _ (fun _ => rfl) rfl

/-! ## Candidates -/

/-- A write asks about its key, tells of the use if nobody had to leave for it, and then
tells who has left. -/
theorem exists_told_put (roster : Roster) (asked : Admission) (key : String) (entry : Entry) :
    ∃ left : List String, (roster.apply asked (.put key entry)).told =
      roster.introduction asked key ++ left.map .removal := by
  cases asked with
  | reject => exact ⟨[], rfl⟩
  | accept => exact ⟨_, rfl⟩
  | evict victim =>
      obtain ⟨full, hfull⟩ : ∃ full, full = (roster.erase victim).renew key entry := ⟨_, rfl⟩
      refine ⟨roster.held victim ++ full.keys.take full.surplus, ?_⟩
      rw [List.map_append, ← List.append_assoc, hfull]
      rfl

/-- The policy is asked about the key of a write, and about nothing else. -/
theorem mem_told_iff {asked answer : Admission} {call : SegmentCall} {candidate : String}
    {seen : Occupancy} {limit : Nat} :
    .admission candidate seen limit answer ∈ (roster.apply asked call).told ↔
      (∃ entry, call = .put candidate entry) ∧ seen = roster.occupancy candidate ∧
        limit = roster.capacity ∧ answer = asked := by
  have hleft (left : List String) :
      .admission candidate seen limit answer ∉ left.map removal := by simp
  cases call with
  | put key entry =>
      obtain ⟨left, htold⟩ := roster.exists_told_put asked key entry
      rw [htold, List.mem_append, or_iff_left (hleft left), introduction]
      have hrest : .admission candidate seen limit answer ∉
          (if asked = .accept then [access key] else []) := by split <;> simp
      rw [List.mem_cons, or_iff_left hrest, PolicyCall.admission.injEq]
      constructor
      · rintro ⟨rfl, hseen⟩
        exact ⟨⟨entry, rfl⟩, hseen⟩
      · rintro ⟨⟨own, hcall⟩, hseen⟩
        obtain ⟨rfl, -⟩ := SegmentCall.put.inj hcall
        exact ⟨rfl, hseen⟩
  | putForce key entry =>
      refine iff_of_false (fun hmem => ?_) (by simp)
      rcases List.mem_append.mp hmem with hearly | hlate
      · rcases List.mem_append.mp hearly with hearly | huse
        · exact hleft _ hearly
        · simp at huse
      · exact hleft _ hlate
  | get key =>
      rw [apply]
      cases roster.find? key <;> simp
  | removeIfDue key deadline =>
      rw [apply]
      split <;> simp
  | compareAndSwap key decision =>
      rw [apply]
      cases decision (roster.find? key) <;> simp
  | remove key => simp [apply]
  | clear => simp [apply]
  | peek key => simp [apply]
  | deadlineOf key => simp [apply]
  | toList => simp [apply]
  | size => simp [apply]

end Roster

namespace Segment

variable {π : Type} [EvictionPolicy π]

/-! ## One call -/

/-- What the policy of a segment hears during a call. -/
def told (segment : Segment (Traced π)) (call : SegmentCall) : List PolicyCall :=
  (segment.apply call).1.policy.calls.drop segment.policy.calls.length

/-- A call of a segment is a turn of its roster. A candidate gets the answer of the policy. -/
theorem exists_turn (segment : Segment (Traced π)) (call : SegmentCall) :
    ∃ asked, (∀ key entry, call = .put key entry → asked = (segment.askAdmission key).2) ∧
      (segment.apply call).1.policy.calls = segment.policy.calls ++ segment.told call ∧
      segment.told call = (segment.roster.apply asked call).told ∧
      (segment.apply call).1.roster = (segment.roster.apply asked call).after := by
  have hturn (asked : Admission)
      (h : Takes (segment.apply call) (segment.roster.apply asked call) segment.policy.calls) :
      (segment.apply call).1.policy.calls = segment.policy.calls ++ segment.told call ∧
        segment.told call = (segment.roster.apply asked call).told ∧
        (segment.apply call).1.roster = (segment.roster.apply asked call).after := by
    have htold : segment.told call = (segment.roster.apply asked call).told := by
      rw [told, h.tracks.calls_eq, List.drop_left]
    exact ⟨htold ▸ h.tracks.calls_eq, htold, h.tracks.roster_eq⟩
  by_cases hput : ∃ key entry, call = .put key entry
  · obtain ⟨key, entry, rfl⟩ := hput
    refine ⟨_, fun own _ hcall => ?_, hturn _ (segment.tracks_roster.put key entry)⟩
    rw [(SegmentCall.put.inj hcall).1]
  · obtain ⟨asked, h⟩ := segment.tracks_roster.apply call
    exact ⟨asked, fun key entry hcall => absurd ⟨key, entry, hcall⟩ hput, hturn asked h⟩

/-- A call about which the policy hears what it needs. Its notes, kept from the beginning,
name the keys of the segment; it has been told once of each key that left, and of no other;
and it is asked once about a candidate, whose use it then hears of if nobody had to leave
for it. -/
structure KeepsInformed (before : Segment (Traced π)) (call : SegmentCall) : Prop where
  calls_eq : (before.apply call).1.policy.calls = before.policy.calls ++ before.told call
  noted_eq : (before.apply call).1.policy.calls.foldl noted ∅ =
    (before.apply call).1.keys.toFinset
  nodup : ((before.told call).filterMap removed?).Nodup
  mem_removed_iff : ∀ key, key ∈ (before.told call).filterMap removed? ↔
    key ∈ before.keys ∧ key ∉ (before.apply call).1.keys
  told_put : ∀ key entry, call = .put key entry →
    let answer := (before.askAdmission key).2
    ∃ left : List String, before.told call =
      .admission key (before.occupancy key) before.capacity answer ::
        (if answer = .accept then [.access key] else []) ++ left.map .removal

/-- The policy's notes of the keys are right. -/
def Informed (segment : Segment (Traced π)) : Prop :=
  segment.policy.calls.foldl noted ∅ = segment.keys.toFinset

variable {segment : Segment (Traced π)}

/-- A policy whose notes are right hears what it needs to keep them right, if it does not
want the candidate to leave for itself. -/
theorem Informed.keepsInformed (h : segment.Informed) (hroom : 0 < segment.capacity)
    {call : SegmentCall} (hspares : SparesCandidates (segment.apply call).1.policy.calls) :
    segment.KeepsInformed call := by
  obtain ⟨asked, hanswer, hcalls, htold, hafter⟩ := segment.exists_turn call
  have hasked : ∀ key entry, call = .put key entry → asked ≠ .evict key := by
    intro key entry hcall heq
    refine hspares key (segment.roster.occupancy key) segment.roster.capacity ?_
    rw [hcalls, htold]
    exact List.mem_append_right _ (Roster.mem_told_iff.mpr ⟨⟨entry, hcall⟩, rfl, rfl, heq.symm⟩)
  have hinforms : segment.roster.Informs (segment.roster.apply asked call) :=
    Roster.informs_apply hroom hasked
  have hkeys : (segment.apply call).1.keys = (segment.roster.apply asked call).after.keys :=
    congrArg Roster.keys hafter
  refine ⟨hcalls, ?_, ?_, fun key => ?_, ?_⟩
  · rw [hcalls, List.foldl_append, h, htold, hkeys]
    exact hinforms.noted_eq
  · rw [htold]
    exact hinforms.nodup
  · rw [htold, hkeys]
    exact hinforms.mem_removed_iff key
  · rintro key entry rfl answer
    obtain ⟨left, hleft⟩ := segment.roster.exists_told_put asked key entry
    refine ⟨left, ?_⟩
    rw [htold, hleft, hanswer key entry rfl, Roster.introduction,
      ← segment.tracks_roster.occupancy_eq]
    rfl

theorem Informed.apply (h : segment.Informed) (hroom : 0 < segment.capacity)
    {call : SegmentCall} (hspares : SparesCandidates (segment.apply call).1.policy.calls) :
    (segment.apply call).1.Informed :=
  (h.keepsInformed hroom hspares).noted_eq

/-! ## Runs -/

theorem calls_prefix_run (segment : Segment (Traced π)) (calls : List SegmentCall) :
    segment.policy.calls <+: (segment.run calls).1.policy.calls := by
  induction calls generalizing segment with
  | nil => exact List.prefix_rfl
  | cons call calls ih =>
      obtain ⟨-, -, hcalls, -⟩ := segment.exists_turn call
      have hfirst : segment.policy.calls <+: (segment.apply call).1.policy.calls :=
        hcalls ▸ List.prefix_append _ _
      exact hfirst.trans (ih (segment.apply call).1)

theorem Informed.run (h : segment.Informed) (hroom : 0 < segment.capacity)
    {calls : List SegmentCall} (hspares : SparesCandidates (segment.run calls).1.policy.calls) :
    (segment.run calls).1.Informed := by
  induction calls generalizing segment with
  | nil => exact h
  | cons call calls ih =>
      have hcall : SparesCandidates (segment.apply call).1.policy.calls :=
        hspares.of_earlier (calls_prefix_run (segment.apply call).1 calls)
      exact ih (h.apply hroom hcall) (by rwa [capacity_apply]) hspares

/-- A standard policy wants only keys that are there to leave, and only for keys that are
not. -/
theorem askAdmission_ne_evict_self (segment : Segment StandardPolicy)
    (hroom : 0 < segment.capacity) (key : String) : (segment.askAdmission key).2 ≠ .evict key := by
  by_cases hfree : key ∈ segment.keys ∨ segment.size < segment.capacity
  · rw [askAdmission_of_room hfree]
    exact nofun
  · obtain ⟨hnew, hfull⟩ := not_or.mp hfree
    obtain ⟨victim, own, rest, hlist, heldest, -⟩ := exists_eldest hroom (Nat.not_lt.mp hfull)
    have hthere : victim ∈ segment.keys := mem_keys_iff.mpr ⟨own, hlist ▸ List.mem_cons_self⟩
    rcases askAdmission_of_full hfree heldest with hanswer | hanswer
    · rw [hanswer]
      exact fun heq => hnew (Admission.evict.inj heq ▸ hthere)
    · rw [hanswer]
      exact nofun

/-- So no candidate has to leave for itself. -/
theorem sparesCandidates_apply {segment : Segment (Traced StandardPolicy)}
    (h : SparesCandidates segment.policy.calls) (hroom : 0 < segment.capacity)
    (call : SegmentCall) : SparesCandidates (segment.apply call).1.policy.calls := by
  obtain ⟨asked, hanswer, hcalls, htold, -⟩ := segment.exists_turn call
  intro candidate seen limit hmem
  rw [hcalls, List.mem_append] at hmem
  rcases hmem with hbefore | hnow
  · exact h candidate seen limit hbefore
  · rw [htold, Roster.mem_told_iff] at hnow
    obtain ⟨⟨entry, hcall⟩, -, -, hasked⟩ := hnow
    rw [hanswer candidate entry hcall] at hasked
    exact segment.untraced.askAdmission_ne_evict_self hroom candidate hasked.symm

theorem sparesCandidates_run {segment : Segment (Traced StandardPolicy)}
    (h : SparesCandidates segment.policy.calls) (hroom : 0 < segment.capacity)
    (calls : List SegmentCall) : SparesCandidates (segment.run calls).1.policy.calls := by
  induction calls generalizing segment with
  | nil => exact h
  | cons call calls ih => exact ih (sparesCandidates_apply h hroom call) (by rwa [capacity_apply])

theorem sparesCandidates_standard (policy : StandardPolicy) (capacity : Nat)
    (calls : List SegmentCall) (call : SegmentCall) :
    SparesCandidates
      (((ofCapacity capacity (Traced.mk policy [])).run calls).1.apply call).1.policy.calls :=
  sparesCandidates_apply
    (sparesCandidates_run (fun _ _ _ => List.not_mem_nil) (capacity_run_pos _ capacity []) calls)
    (capacity_run_pos _ capacity calls) call

/-- Whatever is asked of a segment, its policy keeps informed of the keys in it, provided
that it never wants a candidate to leave for itself. -/
theorem policy_keeps_up (policy : π) (capacity : Nat) (calls : List SegmentCall)
    (call : SegmentCall)
    (hspares : SparesCandidates
      (((ofCapacity capacity (Traced.mk policy [])).run calls).1.apply call).1.policy.calls) :
    let before := ((ofCapacity capacity (Traced.mk policy [])).run calls).1
    ((ofCapacity capacity policy).run calls).1 = before.untraced ∧ before.KeepsInformed call := by
  intro before
  have hempty : (ofCapacity capacity (Traced.mk policy [])).Informed := rfl
  obtain ⟨-, -, hcalls, -⟩ := before.exists_turn call
  have hbefore : SparesCandidates before.policy.calls :=
    hspares.of_earlier (hcalls ▸ List.prefix_append _ _)
  refine ⟨?_, ?_⟩
  · exact congrArg Prod.fst (run_untraced (ofCapacity capacity (Traced.mk policy [])) calls)
  · exact (hempty.run (capacity_run_pos _ capacity []) hbefore).keepsInformed
      (capacity_run_pos _ capacity calls) hspares

/-- The policy of the least recently used key, in a segment that a conditional write has
brought beyond its capacity. -/
theorem policy_keeps_up_overfull :
    let entry : Entry := ⟨"v".toUTF8, 0, 1⟩
    let calls : List SegmentCall :=
      [.put "a" entry, .putForce "b" entry, .compareAndSwap "c" fun _ => .store entry, .get "a"]
    let before := ((ofCapacity 2 (Traced.mk StandardPolicy.lru [])).run calls).1
    SparesCandidates (before.apply (.put "e" entry)).1.policy.calls ∧
      ((ofCapacity 2 StandardPolicy.lru).run calls).1 = before.untraced ∧
      before.KeepsInformed (.put "e" entry) :=
  ⟨sparesCandidates_standard StandardPolicy.lru 2 _ _,
    policy_keeps_up StandardPolicy.lru 2 _ _ (sparesCandidates_standard StandardPolicy.lru 2 _ _)⟩

end Segment

end ReplicatedCache
