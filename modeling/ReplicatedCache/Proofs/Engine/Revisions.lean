import ReplicatedCache.Proofs.Engine.Calls
import ReplicatedCache.Proofs.Engine.Capacity

/-! # What a call does to the segment of its key

If no write is turned down and nobody has to leave, a call changes one segment, in one
way only: it takes its key out and places it at the newest end again, with the entry
that the key bears from now on, if it bears any.
-/

namespace ReplicatedCache

/-- A list of entries without a key, and with the entry of the key at the newest end, if
there is one. -/
def revised (key : String) (entry : Option Entry) (list : List (String × Entry)) :
    List (String × Entry) :=
  list.filter (fun binding => decide (binding.1 ≠ key)) ++ (entry.map (key, ·)).toList

theorem revised_none (key : String) (list : List (String × Entry)) :
    revised key none list = list.filter fun binding => decide (binding.1 ≠ key) :=
  List.append_nil _

/-- Only the last revision of a key shows. -/
theorem revised_none_revised (key : String) (entry : Option Entry) (list : List (String × Entry)) :
    revised key none (revised key entry list) = revised key none list := by
  rw [revised_none, revised_none, revised, List.filter_append, List.filter_filter]
  cases entry <;> simp

namespace Shards

variable {shards middle after : Shards} {key : String} {entry : Option Entry}

/-- A key is placed at the newest end of its home with an entry, or taken out. -/
structure Revises (shards : Shards) (key : String) (entry : Option Entry) (after : Shards) :
    Prop where
  capacities_eq : after.capacities = shards.capacities
  entriesAt_eq : ∀ i, after.entriesAt i =
    if i = shards.home key then revised key entry (shards.entriesAt i) else shards.entriesAt i

/-- An operation on the home of a key that revises the list of its entries. -/
theorem revises_onHome {α : Type}
    {operation : Segment StandardPolicy → Segment StandardPolicy × α}
    (hcapacities : (shards.onHome key operation).1.capacities = shards.capacities)
    (hlist : (operation (shards.segmentOf key)).1.toList =
      revised key entry (shards.segmentOf key).toList) :
    shards.Revises key entry (shards.onHome key operation).1 := by
  refine ⟨hcapacities, fun i => ?_⟩
  rw [onHome_eq, entriesAt_onSegment]
  split
  next heq => rw [heq, entriesAt_home]; exact hlist
  next => rfl

theorem revises_remove (shards : Shards) (key : String) :
    shards.Revises key none (shards.remove key) := by
  refine revises_onHome (capacities_remove shards key) ?_
  rw [Segment.toList_remove, revised_none]

/-- Taking a key out undoes whatever revision it had before. -/
theorem Revises.remove (h : shards.Revises key entry middle) :
    shards.Revises key none (middle.remove key) := by
  have hremove := revises_remove middle key
  refine ⟨hremove.capacities_eq.trans h.capacities_eq, fun i => ?_⟩
  rw [hremove.entriesAt_eq, h.entriesAt_eq, home_of_capacities h.capacities_eq]
  split
  next => exact revised_none_revised key entry _
  next => rfl

theorem revises_insert (shards : Shards) (key : String) (entry : Entry) :
    shards.Revises key (some entry) (shards.insert key entry) :=
  revises_onHome (capacities_insert shards key entry) (Segment.toList_insert _ _ _)

/-- Taking out a key that is absent changes nothing. -/
theorem revised_of_absent (h : shards.find? key = none) :
    revised key none (shards.segmentOf key).toList = (shards.segmentOf key).toList := by
  rw [revised_none, ← Segment.toList_remove, Segment.remove_of_absent h]

/-- Looking a key up makes it the newest one, if it is there. -/
theorem revises_get (shards : Shards) (key : String) :
    shards.Revises key (shards.find? key) (shards.get key) := by
  refine revises_onHome (capacities_get shards key) ?_
  rw [Segment.get_fst]
  have hpeek : (shards.segmentOf key).peek key = shards.find? key := rfl
  rw [hpeek]
  cases hfind : shards.find? key with
  | none => exact (revised_of_absent hfind).symm
  | some entry => exact Segment.toList_insert _ _ _

namespace Sound

variable {entry : Entry} (hs : shards.Sound)
include hs

/-- A write that is stored and for which nobody leaves. -/
theorem revises_put (h : (shards.put key entry).2.Plain) :
    shards.Revises key (some entry) (shards.put key entry).1 := by
  refine revises_onHome (hs.capacities_put key entry) ?_
  obtain ⟨hstored, hnobody⟩ := h
  rw [put, onHome_snd] at hstored hnobody
  rw [(Segment.stored_put (hs.fits_home key) (hs.roomy_home key) hstored).toList_eq, hnobody]
  rfl

theorem revises_putForce (h : (shards.putForce key entry).2.Plain) :
    shards.Revises key (some entry) (shards.putForce key entry).1 := by
  refine revises_onHome (hs.capacities_putForce key entry) ?_
  obtain ⟨-, hnobody⟩ := h
  rw [putForce, onHome_snd] at hnobody
  obtain ⟨-, hput⟩ := Segment.stored_putForce (hs.fits_home key) (hs.roomy_home key) key entry
  rw [hput.toList_eq, hnobody]
  rfl

/-- Somebody is turned down or has to leave if there is no room. -/
theorem hasRoom_of_displaced (h : (shards.segmentOf key).displaced key = []) :
    shards.HasRoom key := by
  by_contra hfull
  unfold HasRoom at hfull
  rw [Segment.displaced, if_neg hfull] at h
  have hempty : (shards.segmentOf key).size = 0 := by
    have hlength := congrArg List.length h
    rw [List.length_take, Segment.length_keys, List.length_nil] at hlength
    omega
  exact hfull (Or.inr (hempty ▸ hs.roomy_home key))

/-- A write for which nobody had to leave shows that there was room. -/
theorem hasRoom_of_put (h : (shards.put key entry).2.Plain) : shards.HasRoom key := by
  obtain ⟨hstored, hnobody⟩ := h
  rw [put, onHome_snd] at hstored hnobody
  have hput := Segment.stored_put (hs.fits_home key) (hs.roomy_home key) hstored
  exact hs.hasRoom_of_displaced (hput.evicted_eq.symm.trans hnobody)

theorem hasRoom_of_putForce (h : (shards.putForce key entry).2.Plain) : shards.HasRoom key := by
  obtain ⟨-, hnobody⟩ := h
  rw [putForce, onHome_snd] at hnobody
  obtain ⟨-, hput⟩ := Segment.stored_putForce (hs.fits_home key) (hs.roomy_home key) key entry
  exact hs.hasRoom_of_displaced (hput.evicted_eq.symm.trans hnobody)

end Sound

/-- Where there is room, writes are plain. -/
theorem HasRoom.put_plain {entry : Entry} (h : shards.HasRoom key) (hs : shards.Sound) :
    (shards.put key entry).2.Plain :=
  ⟨h.put_stored entry, h.put_evicted hs entry⟩

theorem HasRoom.putForce_plain {entry : Entry} (h : shards.HasRoom key) (hs : shards.Sound) :
    (shards.putForce key entry).2.Plain := by
  obtain ⟨hstored, hput⟩ :=
    Segment.stored_putForce (hs.fits_home key) (hs.roomy_home key) key entry
  rw [putForce, onHome_snd]
  exact ⟨hstored, hput.evicted_eq.trans (if_pos h)⟩

/-- No segment of cleared shards holds anything. -/
theorem entriesAt_clear (shards : Shards) (i : Nat) : shards.clear.entriesAt i = [] := by
  rw [entriesAt]
  split
  next segment hsegment => exact toList_clear segment (Array.mem_of_getElem? hsegment)
  next => rfl

end Shards

namespace Engine

variable {ρ : Type} (record : Signal → List ρ) {engine : Engine (List ρ)} {now : Instant}
  {key : String}

/-! ## Calls -/

/-- A read places its key at the newest end, or takes it out if its entry is over. -/
theorem revises_getWithToken (engine : Engine (List ρ)) (now : Instant) (key : String) :
    engine.shards.Revises key (engine.lookup now key)
      (engine.getWithToken (recording record) now key).1.shards := by
  obtain ⟨stats, audience, heq⟩ := getWithToken_fst record now key engine
  rw [heq]
  have hget := Shards.revises_get engine.shards key
  dsimp only
  split
  next hsame =>
    rw [← hsame]
    exact hget
  next hover =>
    have hnone : engine.lookup now key = none := by
      cases hlookup : engine.lookup now key with
      | none => rfl
      | some entry =>
          exact absurd ((lookup_eq_some_iff.mp hlookup).1.trans hlookup.symm) hover
    rw [hnone]
    exact hget.remove

/-- A delete revises its key away, whether the entry was live or not. -/
theorem revises_delete (engine : Engine (List ρ)) (now : Instant) (key : String) :
    engine.shards.Revises key none (engine.delete (recording record) now key).1.shards := by
  obtain ⟨stats, audience, heq⟩ := delete_fst record now key engine
  rw [heq]
  exact Shards.revises_remove engine.shards key

section Swap

variable (value : Value) (expected : Token) (ttl : Span)

/-- A swap that finds nothing live clears its key away. -/
theorem revises_compareAndSwap_of_none (h : engine.lookup now key = none) :
    engine.shards.Revises key none
      (engine.compareAndSwap (recording record) now key value expected ttl).1.shards := by
  obtain ⟨-, stats, audience, heq⟩ :=
    compareAndSwap_of_none record now key value expected ttl h
  rw [heq]
  exact Shards.revises_remove engine.shards key

/-- A swap that finds the expected token puts the new entry at the newest end. -/
theorem revises_compareAndSwap_of_eq {found : Entry} (h : engine.lookup now key = some found)
    (htoken : found.token = expected) :
    engine.shards.Revises key (some (engine.fresh value (swapDeadline now ttl found)))
      (engine.compareAndSwap (recording record) now key value expected ttl).1.shards := by
  obtain ⟨-, stats, audience, heq⟩ :=
    compareAndSwap_of_eq record now key value expected ttl h htoken
  rw [heq]
  exact Shards.revises_insert engine.shards key _

end Swap

theorem capacities_swept (shards : Shards) (notes : List Pending) :
    (swept shards notes).capacities = shards.capacities := by
  induction notes generalizing shards with
  | nil => rfl
  | cons note rest ih => exact (ih _).trans (Shards.capacities_removeAt shards _ _)

end Engine

end ReplicatedCache
