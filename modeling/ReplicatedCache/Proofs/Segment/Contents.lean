import Mathlib.Data.List.Nodup
import ReplicatedCache.Segment

/-! # What the operations of a segment do to its contents

A segment is seen through `toList`, its entries in access order, and through
`peek`, the entry of one key. Every operation is stated through these two views
and the capacity, so that nothing else needs to open the recency map.
-/

namespace ReplicatedCache.Segment

variable {π : Type} {segment : Segment π} {key other : String} {entry : Entry}

/-! ## The views -/

theorem peek_eq_some_iff : segment.peek key = some entry ↔ (key, entry) ∈ segment.toList :=
  RecencyMap.find?_eq_some_iff

theorem peek_eq_none_iff : segment.peek key = none ↔ key ∉ segment.keys :=
  RecencyMap.find?_eq_none_iff

theorem keys_eq (segment : Segment π) : segment.keys = segment.toList.map (·.1) := rfl

theorem keys_nodup (segment : Segment π) : segment.keys.Nodup := segment.residents.keys_nodup

theorem size_eq_length (segment : Segment π) : segment.size = segment.toList.length :=
  segment.residents.size_eq

theorem length_keys (segment : Segment π) : segment.keys.length = segment.size := by
  rw [keys_eq, List.length_map, size_eq_length]

/-- The keys of a segment are those of its entries. -/
theorem mem_keys_iff : key ∈ segment.keys ↔ ∃ entry, (key, entry) ∈ segment.toList := by
  rw [keys_eq, List.mem_map]
  constructor
  · rintro ⟨⟨own, entry⟩, hmem, rfl⟩
    exact ⟨entry, hmem⟩
  · rintro ⟨entry, hmem⟩
    exact ⟨_, hmem, rfl⟩

theorem mem_keys_of_peek (h : segment.peek key = some entry) : key ∈ segment.keys :=
  mem_keys_iff.mpr ⟨entry, peek_eq_some_iff.mp h⟩

theorem contains_residents_iff : segment.residents.contains key = true ↔ key ∈ segment.keys :=
  RecencyMap.contains_iff

/-- Two segments that hold the same entries under a key agree on it. -/
theorem peek_congr {after : Segment π}
    (h : ∀ entry, (key, entry) ∈ after.toList ↔ (key, entry) ∈ segment.toList) :
    after.peek key = segment.peek key := by
  apply Option.ext
  intro entry
  exact peek_eq_some_iff.trans ((h entry).trans peek_eq_some_iff.symm)

theorem keys_filter_ne (list : List (String × Entry)) (key : String) :
    (list.filter fun binding => decide (binding.1 ≠ key)).map (·.1) =
      (list.map (·.1)).filter (fun other => decide (other ≠ key)) := by
  rw [List.filter_map]
  rfl

/-- A list of entries under distinct keys without its first key. -/
theorem filter_ne_head {list : List (String × Entry)}
    (h : (((key, entry) :: list).map (·.1)).Nodup) :
    ((key, entry) :: list).filter (fun binding => decide (binding.1 ≠ key)) = list := by
  rw [List.filter_cons_of_neg (by simp)]
  apply List.filter_eq_self.mpr
  intro binding hmem
  have hnot : key ∉ list.map (·.1) := (List.nodup_cons.mp h).1
  exact decide_eq_true fun heq => hnot (heq ▸ List.mem_map_of_mem hmem)

variable [EvictionPolicy π]

/-! ## Removing -/

@[simp] theorem remove_snd (segment : Segment π) (key : String) :
    (segment.remove key).2 = segment.peek key := by
  obtain ⟨capacity, residents, policy⟩ := segment
  unfold remove peek
  dsimp only
  cases residents.find? key <;> rfl

@[simp] theorem capacity_remove (segment : Segment π) (key : String) :
    (segment.remove key).1.capacity = segment.capacity := by
  obtain ⟨capacity, residents, policy⟩ := segment
  unfold remove
  dsimp only
  cases residents.find? key <;> rfl

@[simp] theorem toList_remove (segment : Segment π) (key : String) :
    (segment.remove key).1.toList =
      segment.toList.filter (fun binding => decide (binding.1 ≠ key)) := by
  obtain ⟨capacity, residents, policy⟩ := segment
  unfold remove
  dsimp only
  cases hfind : residents.find? key with
  | none =>
      have hnot := RecencyMap.find?_eq_none_iff.mp hfind
      apply Eq.symm
      apply List.filter_eq_self.mpr
      intro binding hmem
      exact decide_eq_true fun heq => hnot (heq ▸ List.mem_map_of_mem hmem)
  | some entry => exact residents.toList_erase key

/-- A key that is not there cannot be taken out. -/
theorem remove_of_absent (h : segment.peek key = none) : segment.remove key = (segment, none) := by
  obtain ⟨capacity, residents, policy⟩ := segment
  have hfind : residents.find? key = none := h
  unfold remove
  dsimp only
  rw [hfind]

theorem peek_remove (segment : Segment π) (key other : String) :
    (segment.remove key).1.peek other = if other = key then none else segment.peek other := by
  split
  next heq =>
    rw [peek_eq_none_iff, mem_keys_iff]
    rintro ⟨entry, hmem⟩
    simp [heq] at hmem
  next hne =>
    apply peek_congr
    intro entry
    simp [hne]

theorem keys_remove (segment : Segment π) (key : String) :
    (segment.remove key).1.keys = segment.keys.filter (fun other => decide (other ≠ key)) := by
  rw [keys_eq, toList_remove, keys_filter_ne, ← keys_eq]

@[simp] theorem removeIfDue_snd (segment : Segment π) (key : String) (deadline : Instant) :
    (segment.removeIfDue key deadline).2 = decide (segment.deadlineOf key = some deadline) := by
  unfold removeIfDue
  split <;> simp_all

/-- An entry leaves by its deadline only if that is the deadline it still has. -/
theorem removeIfDue_fst (segment : Segment π) (key : String) (deadline : Instant) :
    (segment.removeIfDue key deadline).1 =
      if segment.deadlineOf key = some deadline then (segment.remove key).1 else segment := by
  unfold removeIfDue
  split <;> rfl

omit [EvictionPolicy π] in
theorem deadlineOf_eq_some_iff {deadline : Instant} :
    segment.deadlineOf key = some deadline ↔
      ∃ entry, segment.peek key = some entry ∧ entry.deadline = deadline := by
  simp [deadlineOf, Option.map_eq_some_iff]

/-! ## Inserting -/

omit [EvictionPolicy π] in
@[simp] theorem toList_place (segment : Segment π) (key : String) (entry : Entry) :
    (segment.place key entry).toList =
      segment.toList.filter (fun binding => decide (binding.1 ≠ key)) ++ [(key, entry)] :=
  segment.residents.toList_insert key entry

omit [EvictionPolicy π] in
@[simp] theorem capacity_place (segment : Segment π) (key : String) (entry : Entry) :
    (segment.place key entry).capacity = segment.capacity := rfl

@[simp] theorem toList_insert (segment : Segment π) (key : String) (entry : Entry) :
    (segment.insert key entry).toList =
      segment.toList.filter (fun binding => decide (binding.1 ≠ key)) ++ [(key, entry)] :=
  segment.residents.toList_insert key entry

@[simp] theorem capacity_insert (segment : Segment π) (key : String) (entry : Entry) :
    (segment.insert key entry).capacity = segment.capacity := rfl

theorem peek_insert (segment : Segment π) (key other : String) (entry : Entry) :
    (segment.insert key entry).peek other =
      if other = key then some entry else segment.peek other := by
  split
  next heq =>
    rw [peek_eq_some_iff, toList_insert, heq]
    exact List.mem_append_right _ List.mem_cons_self
  next hne =>
    apply peek_congr
    intro found
    simp [hne]

theorem size_insert (segment : Segment π) (key : String) (entry : Entry) :
    (segment.insert key entry).size =
      if key ∈ segment.keys then segment.size else segment.size + 1 := by
  have hkeys : (segment.insert key entry).keys = segment.keys.erase key ++ [key] := by
    rw [keys_eq, toList_insert, List.map_append, keys_filter_ne, ← keys_eq,
      segment.keys_nodup.erase_eq_filter]
    congr 2
    funext other
    by_cases h : other = key <;> simp [h]
  rw [← length_keys, hkeys, List.length_append, List.length_singleton, ← length_keys]
  split
  next hmem =>
    have hpos := List.length_pos_of_mem hmem
    rw [List.length_erase_of_mem hmem]
    omega
  next hmem => rw [List.erase_of_not_mem hmem]

/-! ## Reading -/

@[simp] theorem get_snd (segment : Segment π) (key : String) :
    (segment.get key).2 = segment.peek key := by
  obtain ⟨capacity, residents, policy⟩ := segment
  unfold get peek
  dsimp only
  cases residents.find? key <;> rfl

@[simp] theorem capacity_get (segment : Segment π) (key : String) :
    (segment.get key).1.capacity = segment.capacity := by
  obtain ⟨capacity, residents, policy⟩ := segment
  unfold get
  dsimp only
  cases residents.find? key <;> rfl

/-- Looking a resident key up inserts its entry anew, which makes it the newest. -/
theorem get_fst (segment : Segment π) (key : String) :
    (segment.get key).1 =
      match segment.peek key with
      | none => segment
      | some entry => segment.insert key entry := by
  obtain ⟨capacity, residents, policy⟩ := segment
  unfold get peek
  dsimp only
  cases residents.find? key <;> rfl

/-- A lookup changes the order of the entries and nothing that is bound. -/
theorem peek_get (segment : Segment π) (key other : String) :
    (segment.get key).1.peek other = segment.peek other := by
  rw [get_fst]
  cases hpeek : segment.peek key with
  | none => rfl
  | some entry =>
      rw [peek_insert]
      split
      next heq => rw [heq, hpeek]
      next => rfl

theorem mem_keys_get : other ∈ (segment.get key).1.keys ↔ other ∈ segment.keys := by
  rw [← not_iff_not, ← peek_eq_none_iff, ← peek_eq_none_iff, peek_get]

theorem size_get (segment : Segment π) (key : String) :
    (segment.get key).1.size = segment.size := by
  rw [get_fst]
  cases hpeek : segment.peek key with
  | none => rfl
  | some entry => rw [size_insert, if_pos (mem_keys_of_peek hpeek)]

/-! ## Shedding -/

/-- Shedding takes the eldest entries, and tells their keys. -/
theorem toList_shed (segment : Segment π) (count : Nat) :
    (segment.shed count).1.toList = segment.toList.drop count ∧
      (segment.shed count).2 = segment.keys.take count := by
  induction count generalizing segment with
  | zero => exact ⟨rfl, rfl⟩
  | succ count ih =>
      have hnodup := segment.keys_nodup
      have heldest : segment.residents.eldest? = segment.keys.head? := segment.residents.eldest?_eq
      rw [keys_eq] at hnodup heldest ⊢
      unfold shed
      cases hlist : segment.toList with
      | nil =>
          rw [hlist] at heldest
          rw [heldest]
          exact ⟨hlist, rfl⟩
      | cons first rest =>
          obtain ⟨victim, entry⟩ := first
          rw [hlist] at hnodup heldest
          rw [heldest]
          have hrest : (segment.remove victim).1.toList = rest := by
            rw [toList_remove, hlist]
            exact filter_ne_head hnodup
          obtain ⟨hdrop, htake⟩ := ih (segment.remove victim).1
          rw [keys_eq, hrest] at htake
          rw [hrest] at hdrop
          exact ⟨hdrop, congrArg (victim :: ·) htake⟩

/-- A segment within its capacity has nothing to shed. -/
theorem shrink_of_le (h : segment.size ≤ segment.capacity) : segment.shrink = (segment, []) := by
  unfold shrink
  rw [Nat.sub_eq_zero_of_le h]
  rfl

/-! ## Clearing and conditional writes -/

@[simp] theorem toList_clear (segment : Segment π) : segment.clear.1.toList = [] := rfl

theorem compareAndSwap_eq (segment : Segment π) (key : String)
    (decision : Option Entry → SwapDecision) :
    segment.compareAndSwap key decision =
      match decision (segment.peek key) with
      | .store entry => (segment.insert key entry, { stored := some entry })
      | .expired =>
        ((segment.remove key).1, { expired := (segment.peek key).isSome })
      | .fail => (segment, {}) := by
  unfold compareAndSwap
  cases decision (segment.peek key) with
  | store entry => rfl
  | expired => rw [← remove_snd]
  | fail => rfl

end ReplicatedCache.Segment
