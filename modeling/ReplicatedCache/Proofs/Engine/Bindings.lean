import Mathlib.Data.List.Basic
import Mathlib.Order.Basic
import ReplicatedCache.Engine.Shards
import ReplicatedCache.Proofs.Segment.Storing

/-! # What the shards hold under a key

Shards are sound when every key lies in its home and every segment keeps its
capacity. Sound shards are one map from keys to entries: `find?` looks into the
home of a key only, and yet misses no entry. The lemmas say what each operation
on a segment does to this map.
-/

namespace ReplicatedCache.Shards

variable {α : Type} {shards : Shards} {key other : String} {entry : Entry}

/-- The entry that the home of a key holds under it, whether live or expired. -/
def find? (shards : Shards) (key : String) : Option Entry := (shards.segmentOf key).peek key

/-- Every key lies in its home, and no segment exceeds its capacity. -/
structure Sound (shards : Shards) : Prop where
  placed : ∀ (i : Nat) (h : i < shards.segments.size), ∀ key ∈ shards.segments[i].keys,
    shards.home key = i
  fits : ∀ (i : Nat) (h : i < shards.segments.size),
    shards.segments[i].size ≤ shards.segments[i].capacity
  roomy : ∀ (i : Nat) (h : i < shards.segments.size), 0 < shards.segments[i].capacity

def removeAt (shards : Shards) (i : Nat) (key : String) : Shards :=
  if h : i < shards.segments.size then (shards.onSegment i h (·.remove key)).1 else shards

section Home

variable (shards : Shards) (key : String) (entry : Entry)

def remove : Shards := (shards.onHome key (·.remove key)).1

/-- Makes a key the newest of its segment. -/
def get : Shards := (shards.onHome key (·.get key)).1

/-- Stores an entry under a key that is there. -/
def insert : Shards := (shards.onHome key fun segment => (segment.insert key entry, ())).1

def put : Shards × PutOutcome := shards.onHome key (·.put key entry)

def putForce : Shards × PutOutcome := shards.onHome key (·.putForce key entry)

end Home

/-- An entry has come in under a key, for which some keys left. -/
structure Stores (shards : Shards) (key : String) (entry : Entry) (after : Shards)
    (evicted : List String) : Prop where
  sound : after.Sound
  home_eq : ∀ other, after.home other = shards.home other
  not_mem : key ∉ evicted
  find?_eq : ∀ other, after.find? other =
    if other = key then some entry
    else if other ∈ evicted then none else shards.find? other

/-! ## One segment changes -/

section OnSegment

variable (operation : Segment StandardPolicy → Segment StandardPolicy × α)

theorem onHome_eq (shards : Shards) (key : String) : shards.onHome key operation =
    shards.onSegment (shards.home key) (shards.home_lt key) operation := rfl

@[simp] theorem size_onSegment (i : Nat) (h : i < shards.segments.size) :
    (shards.onSegment i h operation).1.segments.size = shards.segments.size := by
  rw [onSegment_eq, Array.size_set]

/-- The home of a key depends on the number of segments alone, so no operation moves it. -/
@[simp] theorem home_onSegment (i : Nat) (h : i < shards.segments.size) (key : String) :
    (shards.onSegment i h operation).1.home key = shards.home key := by
  unfold home
  rw [size_onSegment]

@[simp] theorem home_onHome (key other : String) :
    (shards.onHome key operation).1.home other = shards.home other :=
  home_onSegment operation _ _ _

@[simp] theorem onHome_snd (shards : Shards) (key : String) :
    (shards.onHome key operation).2 = (operation (shards.segmentOf key)).2 := by
  rw [onHome_eq, onSegment_eq]
  rfl

theorem getElem_onSegment {i j : Nat} (h : i < shards.segments.size)
    (hj : j < (shards.onSegment i h operation).1.segments.size) :
    (shards.onSegment i h operation).1.segments[j] =
      if i = j then (operation shards.segments[i]).1
      else getElem shards.segments j (by rwa [size_onSegment] at hj) := by
  simp only [onSegment_eq, Array.getElem_set]

/-- What an operation answers does not matter to the segments. -/
theorem onHome_congr {β : Type} {shards : Shards} {key : String}
    {operation : Segment StandardPolicy → Segment StandardPolicy × α}
    {other : Segment StandardPolicy → Segment StandardPolicy × β}
    (h : (operation (shards.segmentOf key)).1 = (other (shards.segmentOf key)).1) :
    (shards.onHome key operation).1 = (shards.onHome key other).1 := by
  unfold segmentOf at h
  simp only [onHome_eq, onSegment_eq, h]

theorem onHome_self {shards : Shards} {key : String}
    {operation : Segment StandardPolicy → Segment StandardPolicy × α}
    (h : (operation (shards.segmentOf key)).1 = shards.segmentOf key) :
    (shards.onHome key operation).1 = shards := by
  unfold segmentOf at h
  simp only [onHome_eq, onSegment_eq, h, Array.set_getElem_self]

/-- A compare-and-swap acts on the home of its key as its decision says. -/
theorem onHome_compareAndSwap (shards : Shards) (key : String)
    (decision : Option Entry → SwapDecision) :
    (shards.onHome key (·.compareAndSwap key decision)).1 =
      match decision (shards.find? key) with
      | .store entry => shards.insert key entry
      | .expired => shards.remove key
      | .fail => shards := by
  have hpeek : (shards.segmentOf key).peek key = shards.find? key := rfl
  cases hdecision : decision (shards.find? key) with
  | store entry =>
      apply onHome_congr
      rw [Segment.compareAndSwap_eq, hpeek, hdecision]
  | expired =>
      apply onHome_congr
      rw [Segment.compareAndSwap_eq, hpeek, hdecision]
  | fail =>
      apply onHome_self
      rw [Segment.compareAndSwap_eq, hpeek, hdecision]

/-- An operation on one segment changes the entries of that segment only. -/
theorem entriesAt_onSegment {i : Nat} (h : i < shards.segments.size) (j : Nat) :
    (shards.onSegment i h operation).1.entriesAt j =
      if j = i then (operation shards.segments[i]).1.toList else shards.entriesAt j := by
  unfold entriesAt
  rw [onSegment_eq, Array.getElem?_set]
  by_cases heq : i = j
  · rw [if_pos heq, if_pos heq.symm]
  · rw [if_neg heq, if_neg (Ne.symm heq)]

/-- What a key is bound to after an operation on a segment is asked of that segment if it is the
key's home, and is as before otherwise. -/
theorem find?_onSegment {i : Nat} (h : i < shards.segments.size) (other : String) :
    (shards.onSegment i h operation).1.find? other =
      if shards.home other = i then (operation shards.segments[i]).1.peek other
      else shards.find? other := by
  unfold find? segmentOf
  simp only [home_onSegment, getElem_onSegment]
  by_cases heq : shards.home other = i
  · rw [if_pos heq.symm, if_pos heq]
  · rw [if_neg (Ne.symm heq), if_neg heq]

theorem find?_onHome (shards : Shards) (key other : String) :
    (shards.onHome key operation).1.find? other =
      if shards.home other = shards.home key then
        (operation (shards.segmentOf key)).1.peek other
      else shards.find? other :=
  find?_onSegment operation (shards.home_lt key) other

end OnSegment

theorem find?_of_home (h : shards.home other = shards.home key) :
    shards.find? other = (shards.segmentOf key).peek other := by
  unfold find? segmentOf
  simp only [h]

theorem entriesAt_home (shards : Shards) (key : String) :
    shards.entriesAt (shards.home key) = (shards.segmentOf key).toList := by
  unfold entriesAt segmentOf
  rw [Array.getElem?_eq_getElem (shards.home_lt key)]

/-- A key is bound to an entry exactly if its home segment holds the two. -/
theorem find?_eq_some_iff :
    shards.find? key = some entry ↔ (key, entry) ∈ shards.entriesAt (shards.home key) := by
  rw [entriesAt_home]
  exact Segment.peek_eq_some_iff

namespace Sound

theorem fits_home (hs : shards.Sound) (key : String) :
    (shards.segmentOf key).size ≤ (shards.segmentOf key).capacity :=
  hs.fits _ (shards.home_lt key)

theorem roomy_home (hs : shards.Sound) (key : String) : 0 < (shards.segmentOf key).capacity :=
  hs.roomy _ (shards.home_lt key)

/-- In sound shards a segment holds only keys whose home it is. -/
theorem home_of_mem_keys (hs : shards.Sound) (h : other ∈ (shards.segmentOf key).keys) :
    shards.home other = shards.home key :=
  hs.placed _ (shards.home_lt key) other h

theorem home_of_mem_entriesAt (hs : shards.Sound) {i : Nat}
    (h : (key, entry) ∈ shards.entriesAt i) : shards.home key = i := by
  unfold entriesAt at h
  split at h
  next segment hsegment =>
    obtain ⟨hlt, rfl⟩ := Array.getElem?_eq_some_iff.mp hsegment
    exact hs.placed i hlt key (Segment.mem_keys_iff.mpr ⟨entry, h⟩)
  next => exact absurd h List.not_mem_nil

/-- An entry found in any segment of sound shards is what its key is bound to. -/
theorem find?_of_mem_entriesAt (hs : shards.Sound) {i : Nat}
    (h : (key, entry) ∈ shards.entriesAt i) : shards.find? key = some entry :=
  find?_eq_some_iff.mpr (hs.home_of_mem_entriesAt h ▸ h)

/-- The segment operations keep soundness that add no key but those at home in
the segment, and do not exceed its capacity. -/
theorem onSegment (hs : shards.Sound) {i : Nat} (h : i < shards.segments.size)
    (operation : Segment StandardPolicy → Segment StandardPolicy × α)
    (hkeys : ∀ key ∈ (operation shards.segments[i]).1.keys,
      shards.home key = i ∨ key ∈ shards.segments[i].keys)
    (hcapacity : (operation shards.segments[i]).1.capacity = shards.segments[i].capacity)
    (hsize : (operation shards.segments[i]).1.size ≤ shards.segments[i].capacity) :
    (shards.onSegment i h operation).1.Sound := by
  constructor
  · intro j hj key hmem
    rw [getElem_onSegment] at hmem
    rw [home_onSegment]
    split at hmem
    next heq =>
      subst heq
      exact (hkeys key hmem).elim id (hs.placed i h key)
    next => exact hs.placed j _ key hmem
  · intro j hj
    rw [getElem_onSegment]
    split
    next => exact hsize.trans_eq hcapacity.symm
    next => exact hs.fits j _
  · intro j hj
    rw [getElem_onSegment]
    split
    next => exact hcapacity ▸ hs.roomy i h
    next => exact hs.roomy j _

/-- An operation on a home segment keeps the shards sound, if it brings in no foreign key and
respects the capacity. -/
theorem onHome (hs : shards.Sound)
    (operation : Segment StandardPolicy → Segment StandardPolicy × α)
    (hkeys : ∀ other ∈ (operation (shards.segmentOf key)).1.keys,
      shards.home other = shards.home key ∨ other ∈ (shards.segmentOf key).keys)
    (hcapacity : (operation (shards.segmentOf key)).1.capacity =
      (shards.segmentOf key).capacity)
    (hsize : (operation (shards.segmentOf key)).1.size ≤ (shards.segmentOf key).capacity) :
    (shards.onHome key operation).1.Sound :=
  hs.onSegment (shards.home_lt key) operation hkeys hcapacity hsize

end Sound

/-! ## All entries -/

theorem mem_entries_iff_exists {binding : String × Entry} :
    binding ∈ shards.entries ↔ ∃ i, binding ∈ shards.entriesAt i := by
  unfold entries entriesAt
  rw [List.mem_flatMap]
  constructor
  · rintro ⟨segment, hsegment, hmem⟩
    obtain ⟨i, hi, rfl⟩ := Array.mem_iff_getElem.mp (Array.mem_toList_iff.mp hsegment)
    refine ⟨i, ?_⟩
    rwa [Array.getElem?_eq_getElem hi]
  · rintro ⟨i, hmem⟩
    split at hmem
    next segment hsegment =>
      exact ⟨segment, Array.mem_toList_iff.mpr (Array.mem_of_getElem? hsegment), hmem⟩
    next => exact absurd hmem List.not_mem_nil

/-- Listing all the entries shows each binding, and nothing else. -/
theorem Sound.mem_entries_iff (hs : shards.Sound) :
    (key, entry) ∈ shards.entries ↔ shards.find? key = some entry := by
  rw [mem_entries_iff_exists]
  constructor
  · rintro ⟨i, hmem⟩
    exact hs.find?_of_mem_entriesAt hmem
  · exact fun hfind => ⟨_, find?_eq_some_iff.mp hfind⟩

/-- No key is resident twice. -/
theorem Sound.keys_nodup (hs : shards.Sound) : (shards.entries.map (·.1)).Nodup := by
  unfold entries
  rw [List.map_flatMap, List.nodup_flatMap]
  constructor
  · exact fun segment _ => segment.keys_nodup
  · rw [List.pairwise_iff_getElem]
    intro i j hi hj hlt key hleft hright
    rw [Array.getElem_toList] at hleft hright
    rw [Array.length_toList] at hi hj
    have hi' := hs.placed i hi key hleft
    have hj' := hs.placed j hj key hright
    omega

/-- No binding is listed twice. -/
theorem Sound.entries_nodup (hs : shards.Sound) : shards.entries.Nodup :=
  List.Nodup.of_map _ hs.keys_nodup

/-! ## The operations on the home of a key -/

section Operations

variable (shards : Shards) (key other : String) (entry : Entry)

@[simp] theorem home_remove : (shards.remove key).home other = shards.home other :=
  home_onHome _ _ _

@[simp] theorem home_get : (shards.get key).home other = shards.home other :=
  home_onHome _ _ _

/-- Removing a key unbinds it and leaves every other key bound as it was. -/
theorem find?_remove :
    (shards.remove key).find? other = if other = key then none else shards.find? other := by
  rw [remove, find?_onHome]
  by_cases heq : other = key
  · rw [if_pos heq, heq, if_pos rfl, Segment.peek_remove, if_pos rfl]
  · rw [if_neg heq]
    split
    next hhome => rw [Segment.peek_remove, if_neg heq, find?_of_home hhome]
    next => rfl

theorem remove_of_absent (h : shards.find? key = none) : shards.remove key = shards :=
  onHome_self (congrArg Prod.fst (Segment.remove_of_absent h))

/-- Reading moves a key within its segment but changes no binding. -/
theorem find?_get : (shards.get key).find? other = shards.find? other := by
  rw [get, find?_onHome]
  split
  next hhome => rw [Segment.peek_get, find?_of_home hhome]
  next => rfl

/-- Inserting binds the key anew and leaves the others, also when that overfills the segment. -/
theorem find?_insert :
    (shards.insert key entry).find? other =
      if other = key then some entry else shards.find? other := by
  rw [insert, find?_onHome]
  by_cases heq : other = key
  · rw [if_pos heq, heq, if_pos rfl, Segment.peek_insert, if_pos rfl]
  · rw [if_neg heq]
    split
    next hhome => rw [Segment.peek_insert, if_neg heq, find?_of_home hhome]
    next => rfl

theorem find?_congr {operation : Segment StandardPolicy → Segment StandardPolicy × α}
    (hsame : (operation (shards.segmentOf key)).1.toList = (shards.segmentOf key).toList) :
    (shards.onHome key operation).1.find? other = shards.find? other := by
  rw [find?_onHome]
  split
  next hhome =>
    rw [find?_of_home hhome]
    apply Segment.peek_congr
    intro entry
    rw [hsame]
  next => rfl

end Operations

namespace Sound

theorem remove (hs : shards.Sound) (key : String) : (shards.remove key).Sound := by
  refine hs.onHome _ ?_ (Segment.capacity_remove _ _) ?_
  · intro other hmem
    rw [Segment.keys_remove] at hmem
    exact Or.inr (List.mem_of_mem_filter hmem)
  · refine Nat.le_trans ?_ (hs.fits_home key)
    rw [Segment.size_eq_length, Segment.toList_remove, Segment.size_eq_length]
    exact List.length_filter_le _ _

theorem get (hs : shards.Sound) (key : String) : (shards.get key).Sound := by
  refine hs.onHome _ ?_ (Segment.capacity_get _ _) ?_
  · exact fun other hmem => Or.inr (Segment.mem_keys_get.mp hmem)
  · exact (Segment.size_get _ _).trans_le (hs.fits_home key)

/-- What a segment stores for a key, its shards store: the evicted keys lose their bindings. -/
theorem stores (hs : shards.Sound) {evicted : List String}
    {operation : Segment StandardPolicy → Segment StandardPolicy × α}
    (hstored : Segment.Stored (shards.segmentOf key) key entry
      (operation (shards.segmentOf key)).1 evicted) :
    shards.Stores key entry (shards.onHome key operation).1 evicted := by
  refine ⟨?_, fun other => home_onHome _ _ _, hstored.not_mem_evicted, fun other => ?_⟩
  · refine hs.onHome _ ?_ hstored.capacity_eq ?_
    · intro other hmem
      rcases hstored.mem_keys_iff.mp hmem with rfl | ⟨hmem, -⟩
      · exact Or.inl rfl
      · exact Or.inr hmem
    · exact (hstored.size_le (hs.fits_home key) (hs.roomy_home key)).trans_eq hstored.capacity_eq
  · rw [find?_onHome]
    split
    next hhome => rw [hstored.peek_eq, find?_of_home hhome]
    next hhome =>
      have hne : other ≠ key := fun heq => hhome (heq ▸ rfl)
      have hnot : other ∉ evicted := fun hmem =>
        hhome (hs.home_of_mem_keys (hstored.mem_keys_of_mem_evicted hmem))
      rw [if_neg hne, if_neg hnot]

/-- Reordering a segment, or replacing its policy, keeps the shards sound. -/
theorem congr (hs : shards.Sound)
    {operation : Segment StandardPolicy → Segment StandardPolicy × α}
    (hsame : (operation (shards.segmentOf key)).1.toList = (shards.segmentOf key).toList)
    (hcapacity : (operation (shards.segmentOf key)).1.capacity =
      (shards.segmentOf key).capacity) : (shards.onHome key operation).1.Sound := by
  refine hs.onHome _ ?_ hcapacity ?_
  · intro other hmem
    obtain ⟨own, hmem⟩ := Segment.mem_keys_iff.mp hmem
    exact Or.inr (Segment.mem_keys_iff.mpr ⟨own, hsame ▸ hmem⟩)
  · refine Nat.le_trans (Nat.le_of_eq ?_) (hs.fits_home key)
    rw [Segment.size_eq_length, hsame, ← Segment.size_eq_length]

/-- Replacing the entry of a key that is there. -/
theorem stores_insert (hs : shards.Sound) {found : Entry}
    (hfind : shards.find? key = some found) (entry : Entry) :
    shards.Stores key entry (shards.insert key entry) [] :=
  hs.stores (Segment.stored_insert (Or.inl (Segment.mem_keys_of_peek hfind))
    (hs.fits_home key) entry).2

/-- A write is rejected, which happens to absent keys only and leaves the
bindings alone, or its entry is stored. -/
theorem put_cases (hs : shards.Sound) (key : String) (entry : Entry) :
    ((shards.put key entry).2 = { stored := false } ∧ shards.find? key = none ∧
        (shards.put key entry).1.Sound ∧
        (∀ other, (shards.put key entry).1.home other = shards.home other) ∧
        ∀ other, (shards.put key entry).1.find? other = shards.find? other) ∨
      ((shards.put key entry).2.stored = true ∧
        shards.Stores key entry (shards.put key entry).1 (shards.put key entry).2.evicted) := by
  unfold put
  rw [onHome_snd]
  rcases Segment.put_cases (hs.fits_home key) (hs.roomy_home key) key entry with
    ⟨houtcome, hnew, hsame, hcapacity⟩ | ⟨hstored, hput⟩
  · left
    refine ⟨houtcome, Segment.peek_eq_none_iff.mpr hnew, hs.congr hsame hcapacity, ?_, ?_⟩
    · exact fun other => home_onHome _ _ _
    · exact fun other => find?_congr shards key other hsame
  · exact Or.inr ⟨hstored, hs.stores hput⟩

/-- A write that is not rejected has come in. -/
theorem stores_put (hs : shards.Sound) (hstored : (shards.put key entry).2.stored = true) :
    shards.Stores key entry (shards.put key entry).1 (shards.put key entry).2.evicted := by
  unfold put at hstored ⊢
  rw [onHome_snd] at hstored ⊢
  exact hs.stores (Segment.stored_put (hs.fits_home key) (hs.roomy_home key) hstored)

/-- A restoring write is always stored. -/
theorem stores_putForce (hs : shards.Sound) (key : String) (entry : Entry) :
    (shards.putForce key entry).2.stored = true ∧
      shards.Stores key entry (shards.putForce key entry).1
        (shards.putForce key entry).2.evicted := by
  unfold putForce
  rw [onHome_snd]
  obtain ⟨hstored, hput⟩ :=
    Segment.stored_putForce (hs.fits_home key) (hs.roomy_home key) key entry
  exact ⟨hstored, hs.stores hput⟩

end Sound

/-- The home of a key holds it or has room for one more. -/
def HasRoom (shards : Shards) (key : String) : Prop :=
  key ∈ (shards.segmentOf key).keys ∨
    (shards.segmentOf key).size < (shards.segmentOf key).capacity

/-- A write for which there is room is never turned down. -/
theorem HasRoom.put_stored (h : shards.HasRoom key) (entry : Entry) :
    (shards.put key entry).2.stored = true := by
  rw [put, onHome_snd, Segment.put_of_accept (Prod.ext rfl (Segment.askAdmission_of_room h))]

/-- Nobody has to leave for a write for which there is room. -/
theorem HasRoom.put_evicted (h : shards.HasRoom key) (hs : shards.Sound) (entry : Entry) :
    (shards.put key entry).2.evicted = [] := by
  have hstored := h.put_stored entry
  rw [put, onHome_snd] at hstored ⊢
  have hput := Segment.stored_put (hs.fits_home key) (hs.roomy_home key) hstored
  exact hput.evicted_eq.trans (if_pos h)

/-- Shards that hold nothing have room for every key. -/
theorem Sound.hasRoom_of_empty (hs : shards.Sound) (hempty : ∀ key, shards.find? key = none)
    (key : String) : shards.HasRoom key := by
  have hnone : (shards.segmentOf key).keys = [] := by
    rw [List.eq_nil_iff_forall_not_mem]
    intro other hmem
    have hhome := hs.home_of_mem_keys hmem
    exact Segment.peek_eq_none_iff.mp ((find?_of_home hhome).symm.trans (hempty other)) hmem
  refine Or.inr ?_
  rw [← Segment.length_keys, hnone]
  exact hs.roomy_home key

/-! ## New and cleared shards -/

theorem sound_of_empty (hempty : ∀ segment ∈ shards.segments, segment.toList = [])
    (hroomy : ∀ segment ∈ shards.segments, 0 < segment.capacity) : shards.Sound := by
  constructor
  · intro i h key hmem
    rw [Segment.keys_eq, hempty _ (Array.getElem_mem h)] at hmem
    exact absurd hmem List.not_mem_nil
  · intro i h
    rw [Segment.size_eq_length, hempty _ (Array.getElem_mem h)]
    exact Nat.zero_le _
  · exact fun i h => hroomy _ (Array.getElem_mem h)

/-- Shards whose segments are all empty bind nothing. -/
theorem find?_of_empty (hempty : ∀ segment ∈ shards.segments, segment.toList = [])
    (key : String) : shards.find? key = none := by
  apply Segment.peek_eq_none_iff.mpr
  have hlist : (shards.segmentOf key).toList = [] :=
    hempty _ (Array.getElem_mem (shards.home_lt key))
  rw [Segment.keys_eq, hlist]
  exact List.not_mem_nil

theorem toList_create {count capacity : Nat} {eviction : EvictionKind} :
    ∀ segment ∈ (create count capacity eviction).segments,
      segment.toList = [] ∧ 0 < segment.capacity := by
  intro segment hmem
  rw [create, Array.mem_replicate] at hmem
  rw [hmem.2]
  exact ⟨rfl, Nat.lt_of_lt_of_le Nat.zero_lt_one (Nat.le_max_left 1 capacity)⟩

theorem sound_create (count capacity : Nat) (eviction : EvictionKind) :
    (create count capacity eviction).Sound :=
  sound_of_empty (fun segment hmem => (toList_create segment hmem).1)
    (fun segment hmem => (toList_create segment hmem).2)

theorem find?_create (count capacity : Nat) (eviction : EvictionKind) (key : String) :
    (create count capacity eviction).find? key = none :=
  find?_of_empty (fun segment hmem => (toList_create segment hmem).1) key

/-- New shards have room for every key. -/
theorem hasRoom_create (count capacity : Nat) (eviction : EvictionKind) (key : String) :
    (create count capacity eviction).HasRoom key := by
  obtain ⟨hempty, hroomy⟩ := toList_create ((create count capacity eviction).segmentOf key)
    (Array.getElem_mem ((create count capacity eviction).home_lt key))
  refine Or.inr ?_
  rw [Segment.size_eq_length, hempty]
  exact hroomy

theorem toList_clear : ∀ segment ∈ shards.clear.segments, segment.toList = [] := by
  intro segment hmem
  obtain ⟨old, -, rfl⟩ := Array.mem_map.mp hmem
  exact old.toList_clear

/-- Clearing keeps the shards sound, since every segment keeps its capacity. -/
theorem Sound.clear (hs : shards.Sound) : shards.clear.Sound := by
  apply sound_of_empty toList_clear
  intro segment hmem
  obtain ⟨old, hold, rfl⟩ := Array.mem_map.mp hmem
  obtain ⟨i, hi, rfl⟩ := Array.mem_iff_getElem.mp hold
  exact hs.roomy i hi

@[simp] theorem find?_clear (shards : Shards) (key : String) : shards.clear.find? key = none :=
  find?_of_empty toList_clear key

end ReplicatedCache.Shards
