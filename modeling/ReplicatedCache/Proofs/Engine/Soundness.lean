import ReplicatedCache.Proofs.Engine.Onlookers
import ReplicatedCache.Proofs.ExpiryQueue

/-! # Sound engines

An engine is sound when its shards are, when every pending note bears a
positive deadline and names the home of its key, and when every entry with a
positive deadline has a note. Compacting the queue keeps this, for it drops
only duplicates and notes that no entry answers to.
-/

namespace ReplicatedCache

namespace Engine

variable {A B ρ : Type} {engine : Engine A} {key other : String} {entry : Entry}

/-- The shards hold every key in its home, and the queue knows of every entry
that will be due. -/
structure Sound (engine : Engine A) : Prop where
  shards : engine.shards.Sound
  noted : ∀ note ∈ engine.expiries.pending,
    0 < note.deadline ∧ note.segment = engine.shards.home note.key
  covered : ∀ {key : String} {entry : Entry}, engine.shards.find? key = some entry →
    0 < entry.deadline →
    ⟨entry.deadline, key, engine.shards.home key⟩ ∈ engine.expiries.pending

/-- Soundness is a matter of the shards and the queue. -/
theorem Sound.congr {after : Engine B} (h : engine.Sound) (hshards : after.shards = engine.shards)
    (hexpiries : after.expiries = engine.expiries) : after.Sound := by
  constructor
  · exact hshards ▸ h.shards
  · rw [hshards, hexpiries]
    exact h.noted
  · intro key entry
    rw [hshards, hexpiries]
    exact h.covered

/-! ## Notes -/

/-- A note is current if its key is bound at its home with the deadline of the note. -/
theorem isCurrent_iff {shards : Shards} (hs : shards.Sound) {note : Pending} :
    isCurrent shards note = true ↔ note.segment = shards.home note.key ∧
      ∃ entry, shards.find? note.key = some entry ∧ entry.deadline = note.deadline := by
  unfold isCurrent
  cases hsegment : shards.segments[note.segment]? with
  | none =>
      have hle := Array.getElem?_eq_none_iff.mp hsegment
      have hlt := shards.home_lt note.key
      simp only [Bool.false_eq_true, false_iff]
      rintro ⟨heq, -⟩
      omega
  | some segment =>
      obtain ⟨hlt, rfl⟩ := Array.getElem?_eq_some_iff.mp hsegment
      dsimp only
      rw [beq_iff_eq, Segment.deadlineOf_eq_some_iff]
      constructor
      · rintro ⟨entry, hpeek, hdeadline⟩
        have hhome := hs.placed _ hlt _ (Segment.mem_keys_of_peek hpeek)
        refine ⟨hhome.symm, entry, ?_, hdeadline⟩
        unfold Shards.find? Shards.segmentOf
        simp only [hhome, hpeek]
      · rintro ⟨hhome, entry, hfind, hdeadline⟩
        refine ⟨entry, ?_, hdeadline⟩
        simp only [hhome]
        exact hfind

/-- A current note takes its key out of the home of the key. -/
theorem removeAt_home (shards : Shards) (key : String) :
    shards.removeAt (shards.home key) key = (shards.remove key) :=
  dif_pos (shards.home_lt key)

/-- Noting a deadline adds no other note. -/
theorem of_mem_tracked {deadline : Instant} {note : Pending}
    (h : note ∈ (engine.tracked key deadline).pending) :
    note ∈ engine.expiries.pending ∨
      (0 < deadline ∧ note = ⟨deadline, key, engine.shards.home key⟩) := by
  unfold tracked at h
  split at h
  next => exact Or.inl h
  next hpos =>
    have hpushed :
        note ∈ (engine.expiries.push ⟨deadline, key, engine.shards.home key⟩).pending := by
      dsimp only at h
      split at h
      next => exact (ExpiryQueue.mem_compact_iff.mp h).1
      next => exact h
    rcases List.mem_cons.mp hpushed with hnew | hold
    · exact Or.inr ⟨Int64.not_le.mp hpos, hnew⟩
    · exact Or.inl hold

/-- Noting a deadline loses no note that an entry answers to. -/
theorem mem_tracked {deadline : Instant} {note : Pending}
    (hcurrent : isCurrent engine.shards note = true)
    (h : note ∈ engine.expiries.pending ∨
      (0 < deadline ∧ note = ⟨deadline, key, engine.shards.home key⟩)) :
    note ∈ (engine.tracked key deadline).pending := by
  unfold tracked
  split
  next hnever =>
    rcases h with hold | ⟨hpos, -⟩
    · exact hold
    · exact absurd hpos (Int64.not_lt.mpr hnever)
  next =>
    have hpushed : note ∈ (engine.expiries.push ⟨deadline, key, engine.shards.home key⟩).pending :=
      List.mem_cons.mpr (h.symm.imp_left And.right)
    dsimp only
    split
    next => exact ExpiryQueue.mem_compact_iff.mpr ⟨hpushed, hcurrent⟩
    next => exact hpushed

namespace Sound

/-- Noting the deadline of an entry makes up for the one note that may be missing. -/
theorem trackExpiry {deadline : Instant} (hs : engine.shards.Sound)
    (hnoted : ∀ note ∈ engine.expiries.pending,
      0 < note.deadline ∧ note.segment = engine.shards.home note.key)
    (hcovered : ∀ {other entry}, engine.shards.find? other = some entry → 0 < entry.deadline →
      ⟨entry.deadline, other, engine.shards.home other⟩ ∈ engine.expiries.pending ∨
        (other = key ∧ entry.deadline = deadline)) :
    (engine.trackExpiry key deadline).Sound := by
  rw [trackExpiry_eq]
  constructor
  · exact hs
  · intro note hmem
    rcases of_mem_tracked hmem with hold | ⟨hpos, rfl⟩
    · exact hnoted note hold
    · exact ⟨hpos, rfl⟩
  · intro other entry hfind hpos
    apply mem_tracked
    · exact (isCurrent_iff hs).mpr ⟨rfl, entry, hfind, rfl⟩
    · rcases hcovered hfind hpos with hold | ⟨rfl, rfl⟩
      · exact Or.inl hold
      · exact Or.inr ⟨hpos, rfl⟩

/-- Shards that keep their homes and gain no entry keep an engine sound. -/
theorem reshard (h : engine.Sound) {after : Engine B} (hexpiries : after.expiries = engine.expiries)
    (hs : after.shards.Sound) (hhome : ∀ other, after.shards.home other = engine.shards.home other)
    (hfind : ∀ {other entry}, after.shards.find? other = some entry →
      engine.shards.find? other = some entry) : after.Sound := by
  constructor
  · exact hs
  · intro note hmem
    rw [hhome]
    exact h.noted note (hexpiries ▸ hmem)
  · intro other entry hafter hpos
    rw [hhome, hexpiries]
    exact h.covered (hfind hafter) hpos

theorem remove (h : engine.Sound) {after : Engine B} (hexpiries : after.expiries = engine.expiries)
    (hshards : after.shards = engine.shards.remove key) : after.Sound := by
  refine h.reshard hexpiries (hshards ▸ h.shards.remove key) (fun other => ?_) ?_
  · rw [hshards, Shards.home_remove]
  · intro other entry hafter
    rw [hshards, Shards.find?_remove] at hafter
    split at hafter
    next => exact absurd hafter nofun
    next => exact hafter

theorem get (h : engine.Sound) {after : Engine B} (hexpiries : after.expiries = engine.expiries)
    (hshards : after.shards = engine.shards.get key) : after.Sound := by
  refine h.reshard hexpiries (hshards ▸ h.shards.get key) (fun other => ?_) ?_
  · rw [hshards, Shards.home_get]
  · intro other entry hafter
    rwa [hshards, Shards.find?_get] at hafter

/-- Storing an entry and noting its deadline keeps an engine sound. -/
theorem stores (h : engine.Sound) (after : Engine B) {evicted : List String}
    (hstores : engine.shards.Stores key entry after.shards evicted)
    (hexpiries : after.expiries = engine.expiries) :
    (after.trackExpiry key entry.deadline).Sound := by
  apply Sound.trackExpiry hstores.sound
  · intro note hmem
    rw [hstores.home_eq]
    exact h.noted note (hexpiries ▸ hmem)
  · intro other found hafter hpos
    rw [hstores.home_eq, hexpiries]
    rw [hstores.find?_eq] at hafter
    split at hafter
    next heq => exact Or.inr ⟨heq, congrArg Entry.deadline (Option.some.inj hafter).symm⟩
    next =>
      split at hafter
      next => exact absurd hafter nofun
      next => exact Or.inl (h.covered hafter hpos)

theorem clear (h : engine.Sound) : engine.clear.Sound := by
  constructor
  · exact h.shards.clear
  · exact fun note hmem => absurd hmem List.not_mem_nil
  · intro key entry hfind
    rw [Engine.clear, Shards.find?_clear] at hfind
    exact absurd hfind nofun

end Sound

/-- A new engine is sound: it has neither entries nor notes. -/
theorem sound_create (config : EngineConfig) (audience : A) : (create config audience).Sound := by
  constructor
  · exact Shards.sound_create _ _ _
  · exact fun note hmem => absurd hmem List.not_mem_nil
  · intro key entry hfind
    rw [create, Shards.find?_create] at hfind
    exact absurd hfind nofun

end Engine

end ReplicatedCache
