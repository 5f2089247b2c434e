import Std.Data.HashMap
import ReplicatedCache.Recency.Arena

/-! # The recency map

A map from keys to values that also remembers the order in which its keys were
last written, eldest first. An index finds the place of a key in an arena, and
the arena keeps the order, so that finding, writing, moving and erasing a key
all take constant time.

`toList` is the content in order. The lemmas state every operation through it,
so that nothing else needs to know about places and links.
-/

namespace ReplicatedCache

open Recency

/-- The index names exactly the places in line, each under its own key. -/
structure Recency.Indexed {α : Type} (arena : Arena (String × α)) (index : Std.HashMap String Nat)
    (order : List Nat) : Prop where
  sound : arena.Sound order
  index_iff : ∀ key i, index[key]? = some i ↔
    i ∈ order ∧ ∃ value, arena.value? i = some (key, value)

/-- Keys with their values, in the order of their last writes. -/
structure RecencyMap (α : Type) where
  arena : Arena (String × α)
  index : Std.HashMap String Nat
  indexed : ∃ order, Indexed arena index order

namespace Recency.Indexed

variable {α : Type} {arena : Arena (String × α)} {index : Std.HashMap String Nat}
  {order : List Nat}

theorem value_of_mem (h : Indexed arena index order) {i : Nat} (hi : i ∈ order) :
    ∃ entry, arena.value? i = some entry := by
  obtain ⟨value, hv⟩ := h.sound.threads.link i hi
  exact ⟨value, by simp [Arena.value?, hv]⟩

theorem index_value (h : Indexed arena index order) {i : Nat} (hi : i ∈ order)
    {entry : String × α} (hv : arena.value? i = some entry) : index[entry.1]? = some i :=
  (h.index_iff _ _).mpr ⟨hi, entry.2, hv⟩

theorem empty : Indexed (Arena.empty : Arena (String × α)) ∅ [] :=
  ⟨Arena.empty_sound, by simp⟩

theorem write (h : Indexed arena index order) {key : String} {i : Nat}
    (hi : index[key]? = some i) (value : α) :
    Indexed ((arena.setValue i (key, value)).moveToBack i) index (without order i ++ [i]) := by
  have hmem := ((h.index_iff key i).mp hi).1
  have hlt := Arena.lt_of_mem h.sound.threads hmem
  refine ⟨Arena.moveToBack_sound (Arena.setValue_sound h.sound i _) hmem, ?_⟩
  intro other j
  have hj : j ∈ without order i ++ [i] ↔ j ∈ order := by
    by_cases hji : j = i
    · subst hji; simp [hmem]
    · simp [hji]
  rw [hj, h.index_iff, Arena.value?_moveToBack, Arena.value?_setValue hlt]
  by_cases hij : i = j
  · subst hij
    obtain ⟨-, old, hold⟩ := (h.index_iff key i).mp hi
    simp [hold]
  · simp [hij]

theorem add (h : Indexed arena index order) {key : String} (hk : index[key]? = none) (value : α) :
    Indexed (arena.pushBack (key, value)).1 (index.insert key (arena.pushBack (key, value)).2)
      (order ++ [(arena.pushBack (key, value)).2]) := by
  refine ⟨Arena.pushBack_sound h.sound _, ?_⟩
  intro other j
  have hfresh := Arena.pushBack_fresh h.sound (key, value)
  by_cases hj : j ∈ order ++ [(arena.pushBack (key, value)).2]
  · simp only [hj, true_and, Arena.value?_pushBack h.sound (key, value) hj,
      Std.HashMap.getElem?_insert, beq_iff_eq]
    by_cases hij : (arena.pushBack (key, value)).2 = j
    · by_cases hko : key = other
      · subst hko
        simp [hij]
      · have : index[other]? ≠ some j := fun h' => hfresh (hij ▸ ((h.index_iff _ _).mp h').1)
        simp [hij, hko, this]
    · have hjo : j ∈ order := by
        rcases List.mem_append.mp hj with hjo | hjs
        · exact hjo
        · exact absurd (List.mem_singleton.mp hjs).symm hij
      by_cases hko : key = other
      · subst hko
        have : ¬ ∃ value, arena.value? j = some (key, value) := fun ⟨v, hv⟩ => by
          simp [h.index_value hjo hv] at hk
        simp [hij] at this ⊢
        exact this
      · simp [hij, hko, h.index_iff, hjo]
  · have hjo : j ∉ order := fun h' => hj (List.mem_append_left _ h')
    have hij : (arena.pushBack (key, value)).2 ≠ j := fun heq => hj (by simp [heq])
    have : index[other]? ≠ some j := fun h' => hjo ((h.index_iff _ _).mp h').1
    simp only [hj, false_and, iff_false, Std.HashMap.getElem?_insert, beq_iff_eq]
    split
    · simpa using hij
    · exact this

theorem erase (h : Indexed arena index order) {key : String} {i : Nat}
    (hi : index[key]? = some i) :
    Indexed (arena.remove i) (index.erase key) (without order i) := by
  obtain ⟨hmem, own, hown⟩ := (h.index_iff key i).mp hi
  refine ⟨Arena.remove_sound h.sound hmem, ?_⟩
  intro other j
  simp only [Std.HashMap.getElem?_erase, beq_iff_eq, mem_without, Arena.value?_remove]
  by_cases hko : key = other
  · subst hko
    simp only [if_pos, reduceCtorEq, false_iff, not_and, not_exists]
    rintro ⟨hjo, hji⟩ v hv
    have := h.index_value hjo hv
    simp only [hi, Option.some.injEq] at this
    exact hji this.symm
  · simp only [if_neg hko, h.index_iff]
    constructor
    · rintro ⟨hjo, v, hv⟩
      refine ⟨⟨hjo, fun heq => ?_⟩, v, hv⟩
      subst heq
      simp only [hown, Option.some.injEq, Prod.mk.injEq] at hv
      exact hko hv.1
    · rintro ⟨⟨hjo, -⟩, hv⟩
      exact ⟨hjo, hv⟩

end Recency.Indexed

namespace RecencyMap

variable {α : Type}

def empty : RecencyMap α := ⟨.empty, ∅, [], .empty⟩

instance : Inhabited (RecencyMap α) := ⟨empty⟩

/-- Entries in order, eldest first. -/
def toList (map : RecencyMap α) : List (String × α) := map.arena.toList

def size (map : RecencyMap α) : Nat := map.arena.size

def find? (map : RecencyMap α) (key : String) : Option α :=
  match map.index[key]? with
  | none => none
  | some i => (map.arena.value? i).map (·.2)

def contains (map : RecencyMap α) (key : String) : Bool := map.index.contains key

/-- The key whose last write is the longest ago. -/
def eldest? (map : RecencyMap α) : Option String := map.arena.front?.map (·.1)

/-- Writes a key, which becomes the newest one. -/
def insert (map : RecencyMap α) (key : String) (value : α) : RecencyMap α :=
  match map with
  | ⟨arena, index, indexed⟩ =>
    match hi : index[key]? with
    | some i => ⟨(arena.setValue i (key, value)).moveToBack i, index,
        indexed.elim fun _ h => ⟨_, h.write hi value⟩⟩
    | none =>
      let added := arena.pushBack (key, value)
      ⟨added.1, index.insert key added.2, indexed.elim fun _ h => ⟨_, h.add hi value⟩⟩

def erase (map : RecencyMap α) (key : String) : RecencyMap α :=
  match map with
  | ⟨arena, index, indexed⟩ =>
    match hi : index[key]? with
    | some i => ⟨arena.remove i, index.erase key, indexed.elim fun _ h => ⟨_, h.erase hi⟩⟩
    | none => ⟨arena, index, indexed⟩

/-- The keys in order, eldest first. -/
def keys (map : RecencyMap α) : List String := map.toList.map (·.1)

/-! ## The content in order -/

theorem toList_eq {m : RecencyMap α} {order : List Nat}
    (h : Indexed m.arena m.index order) :
    m.toList = order.filterMap m.arena.value? := by
  rw [toList, Arena.toList, Arena.places_eq h.sound]

private theorem filterMap_congr {β γ : Type} {l : List β} {f g : β → Option γ}
    (h : ∀ x ∈ l, f x = g x) : l.filterMap f = l.filterMap g := by
  induction l with
  | nil => rfl
  | cons x rest ih =>
    simp only [List.filterMap_cons, h x (by simp)]
    rw [ih fun y hy => h y (List.mem_cons_of_mem _ hy)]

private theorem filterMap_without {m : RecencyMap α} {order : List Nat}
    (h : Indexed m.arena m.index order) {key : String} {i : Nat}
    (hi : m.index[key]? = some i) {p : List Nat} (hpart : ∀ j ∈ p, j ∈ order) :
    (without p i).filterMap m.arena.value? =
      (p.filterMap m.arena.value?).filter (fun entry => decide (entry.1 ≠ key)) := by
  induction p with
  | nil => rfl
  | cons j rest ih =>
    have hj := hpart j (by simp)
    have ih := ih fun k hk => hpart k (List.mem_cons_of_mem _ hk)
    obtain ⟨entry, hv⟩ := h.value_of_mem hj
    have hij : entry.1 = key ↔ j = i := by
      constructor
      · intro heq
        have := h.index_value hj hv
        rw [heq, hi] at this
        exact (Option.some.inj this).symm
      · rintro rfl
        obtain ⟨-, own, hown⟩ := (h.index_iff key j).mp hi
        rw [hv] at hown
        exact congrArg Prod.fst (Option.some.inj hown)
    by_cases heq : j = i
    · have hkey : entry.1 = key := hij.mpr heq
      rw [without, List.filter_cons_of_neg (by simpa using heq)]
      rw [List.filterMap_cons_some hv, List.filter_cons_of_neg (by simpa using hkey)]
      exact ih
    · have hkey : entry.1 ≠ key := fun h' => heq (hij.mp h')
      rw [without, List.filter_cons_of_pos (by simpa using heq)]
      rw [List.filterMap_cons_some hv, List.filterMap_cons_some hv,
        List.filter_cons_of_pos (by simpa using hkey)]
      rw [← without, ih]

private theorem ne_of_index_none {m : RecencyMap α} {order : List Nat}
    (h : Indexed m.arena m.index order) {key : String} (hk : m.index[key]? = none) :
    ∀ entry ∈ m.toList, entry.1 ≠ key := by
  rw [toList_eq h]
  intro entry hentry heq
  obtain ⟨j, hj, hv⟩ := List.mem_filterMap.mp hentry
  have := h.index_value hj hv
  simp [heq, hk] at this

@[simp] theorem toList_empty : (empty : RecencyMap α).toList = [] := rfl

@[simp] theorem toList_insert (map : RecencyMap α) (key : String) (value : α) :
    (map.insert key value).toList =
      map.toList.filter (fun entry => decide (entry.1 ≠ key)) ++ [(key, value)] := by
  obtain ⟨arena, index, order, h⟩ := map
  simp only [insert]
  split
  · rename_i i hi
    have hw := h.write hi value
    have hmem := ((h.index_iff key i).mp hi).1
    have hlt := Arena.lt_of_mem h.sound.threads hmem
    rw [toList_eq (m := ⟨_, _, _, hw⟩) hw, toList_eq (m := ⟨arena, index, order, h⟩) h,
      List.filterMap_append]
    have hsame : (without order i).filterMap
        ((arena.setValue i (key, value)).moveToBack i).value? =
        (without order i).filterMap arena.value? := by
      refine filterMap_congr fun j hj => ?_
      have hji : i ≠ j := fun heq => (mem_without.mp hj).2 heq.symm
      rw [Arena.value?_moveToBack, Arena.value?_setValue hlt, if_neg hji]
    have hlast : ([i].filterMap ((arena.setValue i (key, value)).moveToBack i).value?) =
        [(key, value)] := by
      simp [Arena.value?_moveToBack, Arena.value?_setValue hlt]
    show List.filterMap _ _ ++ List.filterMap _ _ = _
    rw [hsame, hlast]
    have := filterMap_without (m := ⟨arena, index, order, h⟩) h hi (p := order)
      (fun j hj => hj)
    rw [this]
  · rename_i hk
    have ha := h.add hk value
    rw [toList_eq (m := ⟨_, _, _, ha⟩) ha, List.filterMap_append]
    have hsame : order.filterMap (arena.pushBack (key, value)).1.value? =
        order.filterMap arena.value? := by
      refine filterMap_congr fun j hj => ?_
      have hne : (arena.pushBack (key, value)).2 ≠ j := fun heq =>
        Arena.pushBack_fresh h.sound (key, value) (heq ▸ hj)
      rw [Arena.value?_pushBack h.sound _ (List.mem_append_left _ hj), if_neg hne]
    have hlast : [(arena.pushBack (key, value)).2].filterMap
        (arena.pushBack (key, value)).1.value? = [(key, value)] := by
      have := Arena.value?_pushBack h.sound (key, value)
        (j := (arena.pushBack (key, value)).2) (by simp)
      simp [this]
    show List.filterMap _ _ ++ List.filterMap _ _ = _
    rw [hsame, hlast]
    have hnone := ne_of_index_none (m := ⟨arena, index, order, h⟩) h hk
    rw [List.filter_eq_self.mpr fun entry hentry => by simpa using hnone entry hentry]
    rw [toList_eq (m := ⟨arena, index, order, h⟩) h]

@[simp] theorem toList_erase (map : RecencyMap α) (key : String) :
    (map.erase key).toList = map.toList.filter (fun entry => decide (entry.1 ≠ key)) := by
  obtain ⟨arena, index, order, h⟩ := map
  simp only [erase]
  split
  · rename_i i hi
    have he := h.erase hi
    rw [toList_eq (m := ⟨_, _, _, he⟩) he, toList_eq (m := ⟨arena, index, order, h⟩) h]
    have hsame : (without order i).filterMap (arena.remove i).value? =
        (without order i).filterMap arena.value? :=
      filterMap_congr fun j _ => Arena.value?_remove arena i j
    show List.filterMap _ _ = _
    rw [hsame]
    exact filterMap_without (m := ⟨arena, index, order, h⟩) h hi (fun j hj => hj)
  · rename_i hk
    have hnone := ne_of_index_none (m := ⟨arena, index, order, h⟩) h hk
    rw [List.filter_eq_self.mpr fun entry hentry => by simpa using hnone entry hentry]

/-- No key occurs twice. -/
theorem keys_nodup (map : RecencyMap α) : map.keys.Nodup := by
  obtain ⟨arena, index, order, h⟩ := map
  rw [keys, toList_eq (m := ⟨arena, index, order, h⟩) h, List.Nodup, List.pairwise_map,
    List.pairwise_filterMap]
  refine h.sound.threads.nodup.imp_of_mem ?_
  intro i j hi hj hne entry hv other hw heq
  have h₁ := h.index_value hi hv
  have h₂ := h.index_value hj hw
  rw [heq] at h₁
  exact hne (Option.some.inj (h₁.symm.trans h₂))

theorem find?_eq_some_iff {map : RecencyMap α} {key : String} {value : α} :
    map.find? key = some value ↔ (key, value) ∈ map.toList := by
  obtain ⟨arena, index, order, h⟩ := map
  rw [toList_eq (m := ⟨arena, index, order, h⟩) h, List.mem_filterMap]
  unfold find?
  constructor
  · intro hf
    split at hf
    · simp at hf
    · rename_i i hi
      obtain ⟨hmem, own, hown⟩ := (h.index_iff key i).mp hi
      refine ⟨i, hmem, ?_⟩
      simp only [hown, Option.map_some, Option.some.injEq] at hf
      rw [hown, hf]
  · rintro ⟨i, hi, hv⟩
    simp [h.index_value hi hv, hv]

theorem find?_eq_none_iff {map : RecencyMap α} {key : String} :
    map.find? key = none ↔ key ∉ map.keys := by
  rw [keys, List.mem_map]
  constructor
  · rintro hf ⟨⟨k, value⟩, hmem, rfl⟩
    rw [find?_eq_some_iff.mpr hmem] at hf
    simp at hf
  · intro hk
    cases hf : map.find? key with
    | none => rfl
    | some value => exact absurd ⟨(key, value), find?_eq_some_iff.mp hf, rfl⟩ hk

theorem contains_iff {map : RecencyMap α} {key : String} :
    map.contains key = true ↔ key ∈ map.keys := by
  obtain ⟨arena, index, order, h⟩ := map
  rw [keys, toList_eq (m := ⟨arena, index, order, h⟩) h, List.mem_map, contains,
    Std.HashMap.contains_eq_isSome_getElem?, Option.isSome_iff_exists]
  constructor
  · rintro ⟨i, hi⟩
    obtain ⟨hmem, own, hown⟩ := (h.index_iff key i).mp hi
    exact ⟨(key, own), List.mem_filterMap.mpr ⟨i, hmem, hown⟩, rfl⟩
  · rintro ⟨entry, hentry, rfl⟩
    obtain ⟨i, hi, hv⟩ := List.mem_filterMap.mp hentry
    exact ⟨i, h.index_value hi hv⟩

theorem size_eq (map : RecencyMap α) : map.size = map.toList.length := by
  obtain ⟨arena, index, order, h⟩ := map
  rw [toList_eq (m := ⟨arena, index, order, h⟩) h, size, h.sound.size_eq]
  have hall : ∀ part : List Nat, (∀ j ∈ part, j ∈ order) →
      (part.filterMap arena.value?).length = part.length := by
    intro part hpart
    induction part with
    | nil => rfl
    | cons j rest ih =>
      obtain ⟨entry, hv⟩ := h.value_of_mem (hpart j (by simp))
      rw [List.filterMap_cons_some hv, List.length_cons, List.length_cons,
        ih fun k hk => hpart k (List.mem_cons_of_mem _ hk)]
  exact (hall order fun j hj => hj).symm

theorem eldest?_eq (map : RecencyMap α) : map.eldest? = map.keys.head? := by
  obtain ⟨arena, index, order, h⟩ := map
  rw [keys, toList_eq (m := ⟨arena, index, order, h⟩) h, eldest?, Arena.front?,
    h.sound.threads.head]
  cases order with
  | nil => rfl
  | cons i rest =>
    obtain ⟨entry, hv⟩ := h.value_of_mem (i := i) (by simp)
    simp [hv]

end RecencyMap

end ReplicatedCache
