import ReplicatedCache.Proofs.Engine.Restoring
import ReplicatedCache.Proofs.Engine.Revisions
import ReplicatedCache.Proofs.Segment.Mirroring

/-! # Shards of which one segment mirrors another

Two engines of one configuration may hold the same in one segment, but for the tokens, and
differ in all others. Whatever is done to the home of a key is done to one segment, so such
shards stay alike in the segment: when the same is done to it in both, when something is
done elsewhere in one of them, when both are cleared, and when both are swept.
-/

namespace ReplicatedCache

/-! ## Shards -/

namespace Shards

variable {α β : Type} {config : EngineConfig} {i : Nat} {kind : Token → Prop}
  {rename : Token → Token} {shards middle after mirror : Shards} {key : String}

theorem getElem?_home (shards : Shards) (key : String) :
    shards.segments[shards.home key]? = some (shards.segmentOf key) :=
  Array.getElem?_eq_getElem (shards.home_lt key)

/-- After an operation on a segment the others are found as they were. -/
theorem getElem?_onSegment (operation : Segment StandardPolicy → Segment StandardPolicy × α)
    {j : Nat} (hj : j < shards.segments.size) (i : Nat) :
    (shards.onSegment j hj operation).1.segments[i]? =
      if j = i then some (operation shards.segments[j]).1 else shards.segments[i]? := by
  rw [onSegment_eq, Array.getElem?_set]

theorem getElem?_onHome (shards : Shards) (key : String)
    (operation : Segment StandardPolicy → Segment StandardPolicy × α) (i : Nat) :
    (shards.onHome key operation).1.segments[i]? =
      if shards.home key = i then some (operation (shards.segmentOf key)).1
      else shards.segments[i]? :=
  getElem?_onSegment operation (shards.home_lt key) i

theorem entriesAt_of_getElem? {segment : Segment StandardPolicy}
    (h : shards.segments[i]? = some segment) : shards.entriesAt i = segment.toList := by
  rw [entriesAt, h]

/-- Shards that have the same segment at a place, among equally many. -/
structure SameAt (i : Nat) (shards after : Shards) : Prop where
  size_eq : after.segments.size = shards.segments.size
  getElem?_eq : after.segments[i]? = shards.segments[i]?

theorem SameAt.refl (shards : Shards) : SameAt i shards shards := ⟨rfl, rfl⟩

theorem SameAt.trans (h : SameAt i shards middle) (h' : SameAt i middle after) :
    SameAt i shards after :=
  ⟨h'.size_eq.trans h.size_eq, h'.getElem?_eq.trans h.getElem?_eq⟩

/-- Operations on the home of a key leave all other segments alone. -/
theorem sameAt_onHome (h : shards.home key ≠ i)
    (operation : Segment StandardPolicy → Segment StandardPolicy × α) :
    SameAt i shards (shards.onHome key operation).1 :=
  ⟨size_onSegment operation _ _, (getElem?_onHome shards key operation i).trans (if_neg h)⟩

section Elsewhere

variable (h : shards.home key ≠ i)
include h

theorem sameAt_remove : SameAt i shards (shards.remove key) := sameAt_onHome h _

theorem sameAt_get : SameAt i shards (shards.get key) := sameAt_onHome h _

theorem sameAt_insert (entry : Entry) : SameAt i shards (shards.insert key entry) :=
  sameAt_onHome h _

theorem sameAt_put (entry : Entry) : SameAt i shards (shards.put key entry).1 :=
  sameAt_onHome h _

theorem sameAt_putForce (entry : Entry) : SameAt i shards (shards.putForce key entry).1 :=
  sameAt_onHome h _

end Elsewhere

/-- The shards of engines of one configuration, of which one segment mirrors another. -/
structure Mirrors (config : EngineConfig) (i : Nat) (kind : Token → Prop)
    (rename : Token → Token) (shards mirror : Shards) : Prop where
  size_eq : shards.segments.size = max 1 config.segments
  mirror_size_eq : mirror.segments.size = max 1 config.segments
  segment : ∀ a b, shards.segments[i]? = some a → mirror.segments[i]? = some b →
    a.Mirrors kind rename b

/-- The home of a key is fixed by the number of segments in the configuration. -/
theorem home_of_size (h : shards.segments.size = max 1 config.segments) (key : String) :
    shards.home key = config.home key := by
  rw [home, h]
  rfl

theorem mirrors_create (config : EngineConfig) (i capacity : Nat) (eviction : EvictionKind)
    (kind : Token → Prop) (rename : Token → Token) :
    Mirrors config i kind rename (create config.segments capacity eviction)
      (create config.segments capacity eviction) := by
  refine ⟨Array.size_replicate, Array.size_replicate, fun a b ha hb => ?_⟩
  obtain rfl := Option.some.inj (ha.symm.trans hb)
  have hempty := (toList_create a (Array.mem_of_getElem? ha)).1
  refine ⟨rfl, rfl, ?_, fun binding hmem => ?_⟩
  · rw [hempty, List.map_nil]
  · rw [hempty] at hmem
    exact absurd hmem List.not_mem_nil

namespace Mirrors

variable (h : Mirrors config i kind rename shards mirror)
include h

theorem home_eq (key : String) : shards.home key = config.home key := home_of_size h.size_eq key

theorem mirror_home_eq (key : String) : mirror.home key = config.home key :=
  home_of_size h.mirror_size_eq key

/-- At its home a key is kept alike in the shards and in the mirror. -/
theorem segmentOf (hkey : config.home key = i) :
    (shards.segmentOf key).Mirrors kind rename (mirror.segmentOf key) := by
  refine h.segment _ _ ?_ ?_
  · rw [← hkey, ← h.home_eq]
    exact getElem?_home shards key
  · rw [← hkey, ← h.mirror_home_eq]
    exact getElem?_home mirror key

/-- Under a key of the segment the mirror finds the entry with its token renamed. -/
theorem find?_eq (hkey : config.home key = i) :
    mirror.find? key = (shards.find? key).map (Entry.renamed rename) :=
  (h.segmentOf hkey).peek_eq key

/-- The tokens in the segment are of the kind that is renamed. -/
theorem of_kind (hkey : config.home key = i) {entry : Entry}
    (hfind : shards.find? key = some entry) : kind entry.token :=
  (h.segmentOf hkey).of_kind _ (Segment.peek_eq_some_iff.mp hfind)

/-- The mirrored segment holds the same entries in the same order. -/
theorem entriesAt_eq : mirror.entriesAt i = (shards.entriesAt i).map (renamedBinding rename) := by
  by_cases hi : i < max 1 config.segments
  · have ha := Array.getElem?_eq_getElem (h.size_eq ▸ hi : i < shards.segments.size)
    have hb := Array.getElem?_eq_getElem (h.mirror_size_eq ▸ hi : i < mirror.segments.size)
    rw [entriesAt_of_getElem? ha, entriesAt_of_getElem? hb]
    exact (h.segment _ _ ha hb).toList_eq
  · rw [entriesAt, entriesAt, Array.getElem?_eq_none (h.mirror_size_eq ▸ Nat.not_lt.mp hi),
      Array.getElem?_eq_none (h.size_eq ▸ Nat.not_lt.mp hi)]
    rfl

/-- The same is done to both segments. -/
theorem onHome (hkey : config.home key = i)
    {operation : Segment StandardPolicy → Segment StandardPolicy × α}
    {operation' : Segment StandardPolicy → Segment StandardPolicy × β}
    (hboth : (operation (shards.segmentOf key)).1.Mirrors kind rename
      (operation' (mirror.segmentOf key)).1) :
    Mirrors config i kind rename (shards.onHome key operation).1
      (mirror.onHome key operation').1 := by
  refine ⟨(size_onSegment _ _ _).trans h.size_eq,
    (size_onSegment _ _ _).trans h.mirror_size_eq, fun a b ha hb => ?_⟩
  rw [getElem?_onHome, if_pos ((h.home_eq key).trans hkey)] at ha
  rw [getElem?_onHome, if_pos ((h.mirror_home_eq key).trans hkey)] at hb
  exact Option.some.inj ha ▸ Option.some.inj hb ▸ hboth

theorem remove (hkey : config.home key = i) :
    Mirrors config i kind rename (shards.remove key) (mirror.remove key) :=
  h.onHome hkey ((h.segmentOf hkey).remove key)

theorem get (hkey : config.home key = i) :
    Mirrors config i kind rename (shards.get key) (mirror.get key) :=
  h.onHome hkey ((h.segmentOf hkey).get key)

theorem insert (hkey : config.home key = i) {entry : Entry} (hentry : kind entry.token) :
    Mirrors config i kind rename (shards.insert key entry)
      (mirror.insert key (entry.renamed rename)) :=
  h.onHome hkey ((h.segmentOf hkey).insert hentry key)

/-- Putting a key of the segment goes alike in the shards and in the mirror. -/
theorem put (hkey : config.home key = i) {entry : Entry} (hentry : kind entry.token) :
    Mirrors config i kind rename (shards.put key entry).1
        (mirror.put key (entry.renamed rename)).1 ∧
      (mirror.put key (entry.renamed rename)).2 = (shards.put key entry).2 := by
  obtain ⟨hmirrors, hsame⟩ := (h.segmentOf hkey).put hentry key
  rw [Shards.put, Shards.put, onHome_snd, onHome_snd]
  exact ⟨h.onHome hkey hmirrors, hsame⟩

theorem putForce (hkey : config.home key = i) {entry : Entry} (hentry : kind entry.token) :
    Mirrors config i kind rename (shards.putForce key entry).1
      (mirror.putForce key (entry.renamed rename)).1 :=
  h.onHome hkey ((h.segmentOf hkey).putForce hentry key).1

theorem clear : Mirrors config i kind rename shards.clear mirror.clear := by
  refine ⟨Array.size_map.trans h.size_eq, Array.size_map.trans h.mirror_size_eq,
    fun a b ha hb => ?_⟩
  rw [Shards.clear, Array.getElem?_map, Option.map_eq_some_iff] at ha hb
  obtain ⟨old, hold, rfl⟩ := ha
  obtain ⟨old', hold', rfl⟩ := hb
  exact (h.segment _ _ hold hold').clear

/-- What happens in other segments is not noticed by the mirror. -/
theorem elsewhere (hsame : SameAt i shards after) : Mirrors config i kind rename after mirror :=
  ⟨hsame.size_eq.trans h.size_eq, h.mirror_size_eq,
    fun a b ha hb => h.segment a b (hsame.getElem?_eq ▸ ha) hb⟩

end Mirrors

end Shards

namespace Engine

variable {A : Type}

/-! ## Sweeps -/

/-- Removing a key from a segment keeps the capacity and the policy of each. -/
theorem segment_removeAt {shards : Shards} {j : Nat} {key : String} {i : Nat}
    {segment : Segment StandardPolicy}
    (h : (shards.removeAt j key).segments[i]? = some segment) :
    ∃ old, shards.segments[i]? = some old ∧ segment.capacity = old.capacity ∧
      segment.policy = old.policy := by
  unfold Shards.removeAt at h
  split at h
  next hlt =>
    rw [Shards.getElem?_onSegment] at h
    split at h
    next heq =>
      subst heq
      obtain rfl := Option.some.inj h
      exact ⟨_, Array.getElem?_eq_getElem hlt, Segment.capacity_remove _ _,
        Segment.policy_remove _ _⟩
    next => exact ⟨segment, h, rfl, rfl⟩
  next => exact ⟨segment, h, rfl, rfl⟩

/-- Sweeping a segment changes neither its capacity nor its policy. -/
theorem segment_swept {shards : Shards} {notes : List Pending} {i : Nat}
    {segment : Segment StandardPolicy} (h : (swept shards notes).segments[i]? = some segment) :
    ∃ old, shards.segments[i]? = some old ∧ segment.capacity = old.capacity ∧
      segment.policy = old.policy := by
  induction notes generalizing shards with
  | nil => exact ⟨segment, h, rfl, rfl⟩
  | cons note rest ih =>
      obtain ⟨middle, hmiddle, hcapacity, hpolicy⟩ := ih h
      obtain ⟨old, hold, hcapacity', hpolicy'⟩ := segment_removeAt hmiddle
      exact ⟨old, hold, hcapacity.trans hcapacity', hpolicy.trans hpolicy'⟩

theorem size_swept (shards : Shards) (notes : List Pending) :
    (swept shards notes).segments.size = shards.segments.size := by
  rw [← Shards.length_capacities, capacities_swept, Shards.length_capacities]

/-- A sweep leaves what is live, and tokens have no part in that. -/
theorem mirrors_swept {whole part : Engine A} (hs : whole.Sound) (hs' : part.Sound)
    {config : EngineConfig} {i : Nat} {kind : Token → Prop} {rename : Token → Token}
    (h : whole.shards.Mirrors config i kind rename part.shards) (now : Instant) :
    (swept whole.shards (whole.notices now)).Mirrors config i kind rename
      (swept part.shards (part.notices now)) := by
  refine ⟨(size_swept _ _).trans h.size_eq, (size_swept _ _).trans h.mirror_size_eq,
    fun a b ha hb => ?_⟩
  obtain ⟨old, hold, hcapacity, hpolicy⟩ := segment_swept ha
  obtain ⟨old', hold', hcapacity', hpolicy'⟩ := segment_swept hb
  have hmirrors := h.segment old old' hold hold'
  have hlive := entriesAt_swept hs now i
  have hlive' := entriesAt_swept hs' now i
  rw [Shards.entriesAt_of_getElem? ha, Shards.entriesAt_of_getElem? hold] at hlive
  rw [Shards.entriesAt_of_getElem? hb, Shards.entriesAt_of_getElem? hold'] at hlive'
  refine ⟨?_, ?_, ?_, fun binding hmem => ?_⟩
  · rw [hcapacity', hcapacity, hmirrors.capacity_eq]
  · rw [hpolicy', hpolicy, hmirrors.policy_eq]
  · rw [hlive', hlive, hmirrors.toList_eq, List.filter_map]
    rfl
  · rw [hlive] at hmem
    exact hmirrors.of_kind binding (List.mem_of_mem_filter hmem)

end Engine

end ReplicatedCache
