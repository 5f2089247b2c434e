import ReplicatedCache.Proofs.Engine.QuietListeners
import ReplicatedCache.Proofs.Engine.Steps

/-! # Reaping is exact

Whatever has happened to an engine before, and however the clock was moved, a
sweep takes out the entries that are over and no other, counts each once, and
tells of each once, the earliest deadline first.
-/

namespace ReplicatedCache.Engine

variable {A ρ : Type}

/-- One entry falls due before another: at an earlier deadline, or at the same
one under a lesser key. -/
def DueBefore (a b : String × Entry) : Prop :=
  a.2.deadline < b.2.deadline ∨ (a.2.deadline = b.2.deadline ∧ a.1 < b.1)

/-- What a sweep at a time should make of an engine, and the number that it
should answer. The audience hears of every overdue key once, and `heard` grows
by the records of these signals. -/
structure ExactSweep (heard : A → List ρ) (record : Signal → List ρ) (now : Instant)
    (engine after : Engine A) (reaped : Nat) : Prop where
  entriesAt_eq : ∀ i, after.shards.entriesAt i =
    (engine.shards.entriesAt i).filter fun binding => binding.2.live now
  reaped_eq : reaped = (engine.overdue now).length
  stats_eq : after.stats = engine.stats.add .expirations (UInt64.ofNat reaped)
  nextToken_eq : after.nextToken = engine.nextToken
  nodup_keys : ((engine.overdue now).map (·.1)).Nodup
  heard_eq : ∃ told : List (String × Entry),
    told.Perm (engine.overdue now) ∧ told.Pairwise DueBefore ∧
    heard after.audience =
      heard engine.audience ++ told.flatMap fun binding => record (.removal binding.1 .expired)

theorem overdue_keys_nodup {engine : Engine A} (h : engine.Sound) (now : Instant) :
    ((engine.overdue now).map (·.1)).Nodup :=
  h.shards.keys_nodup.sublist (List.filter_sublist.map _)

/-- Overdue are the bindings whose entries are past their deadlines. -/
theorem mem_overdue_iff {engine : Engine A} (h : engine.Sound) {now : Instant} {key : String}
    {entry : Entry} :
    (key, entry) ∈ engine.overdue now ↔
      engine.shards.find? key = some entry ∧ entry.expired now = true := by
  unfold overdue
  rw [List.mem_filter, h.shards.mem_entries_iff]

def announced (engine : Engine A) (note : Pending) : String × Entry :=
  (note.key, (engine.shards.find? note.key).getD default)

/-- A notice announces an overdue entry, and it was noted for the deadline of that entry. -/
theorem announced_of_mem {engine : Engine A} (h : engine.Sound) {now : Instant} {note : Pending}
    (hmem : note ∈ engine.notices now) :
    engine.announced note ∈ engine.overdue now ∧
      (engine.announced note).2.deadline = note.deadline := by
  obtain ⟨-, entry, hfind, hdeadline, hexpired⟩ := (mem_notices_iff h).mp hmem
  have heq : engine.announced note = (note.key, entry) := by rw [announced, hfind]; rfl
  rw [heq]
  exact ⟨(mem_overdue_iff h).mpr ⟨hfind, hexpired⟩, hdeadline⟩

/-- The notices of a sweep announce the overdue entries. -/
theorem announced_perm {engine : Engine A} (h : engine.Sound) (now : Instant) :
    ((engine.notices now).map engine.announced).Perm (engine.overdue now) := by
  have hkeys : (((engine.notices now).map engine.announced).map (·.1)).Nodup := by
    rw [List.map_map]
    exact nodup_effective h.shards (engine.dueNotes now)
  apply (List.perm_ext_iff_of_nodup hkeys.of_map
    (overdue_keys_nodup h now).of_map).mpr
  rintro ⟨key, entry⟩
  constructor
  · intro hmem
    obtain ⟨note, hnote, heq⟩ := List.mem_map.mp hmem
    exact heq ▸ (announced_of_mem h hnote).1
  · intro hmem
    obtain ⟨hfind, hexpired⟩ := (mem_overdue_iff h).mp hmem
    refine List.mem_map.mpr ⟨⟨entry.deadline, key, engine.shards.home key⟩, ?_, ?_⟩
    · exact (mem_notices_iff h).mpr ⟨rfl, entry, hfind, rfl, hexpired⟩
    · rw [announced, hfind]
      rfl

/-- The notices come in the order in which their entries fell due. -/
theorem announced_pairwise {engine : Engine A} (h : engine.Sound) (now : Instant) :
    ((engine.notices now).map engine.announced).Pairwise DueBefore := by
  rw [List.pairwise_map]
  refine (pairwise_notices h now).imp_of_mem ?_
  intro a b ha hb hbefore
  unfold DueBefore
  rw [(announced_of_mem h ha).2, (announced_of_mem h hb).2]
  exact hbefore

/-- A sweep gives one notice for every overdue entry. -/
theorem length_notices {engine : Engine A} (h : engine.Sound) (now : Instant) :
    (engine.notices now).length = (engine.overdue now).length := by
  rw [← (announced_perm h now).length_eq, List.length_map]

/-- Sweeping a sound engine is exact. -/
theorem Sound.exactSweep (record : Signal → List ρ) {engine : Engine (List ρ)} (h : engine.Sound)
    (now : Instant) :
    ExactSweep id record now engine (engine.reap (recording record) now).1
      (engine.reap (recording record) now).2 := by
  rw [reap_recording]
  constructor
  · exact entriesAt_swept h now
  · exact length_notices h now
  · rfl
  · rfl
  · exact overdue_keys_nodup h now
  · refine ⟨(engine.notices now).map engine.announced, announced_perm h now,
      announced_pairwise h now, ?_⟩
    rw [List.flatMap_map]
    rfl

variable {kind : A → Prop} {heard : A → List ρ} {record : Signal → List ρ}

/-- Whatever the transcript of an engine does exactly, the engine does. -/
theorem ExactSweep.of_follows {now : Instant} {engine after : Engine A}
    {mirror mirrored : Engine (List ρ)} {reaped : Nat}
    (hengine : Follows kind heard engine mirror) (hafter : Follows kind heard after mirrored)
    (h : ExactSweep id record now mirror mirrored reaped) :
    ExactSweep heard record now engine after reaped := by
  obtain ⟨-, rfl⟩ := hengine
  obtain ⟨-, rfl⟩ := hafter
  exact ⟨h.entriesAt_eq, h.reaped_eq, h.stats_eq, h.nextToken_eq, h.nodup_keys, h.heard_eq⟩

/-- An engine whose audience only watches sweeps exactly, whichever calls came
before and whenever they came. -/
theorem reap_exact {hear : Instant → Hearing A} (hw : ∀ now, Watches kind heard record (hear now))
    (config : EngineConfig) {audience : A} (haudience : kind audience)
    (steps : List (Instant × EngineCall)) (now : Instant) :
    let engine := ((create config audience).run hear steps).1
    ExactSweep heard record now engine (engine.reap (hear now) now).1
      (engine.reap (hear now) now).2 := by
  intro engine
  have hcreated : Follows kind heard (create config audience) (create config (heard audience)) :=
    ⟨haudience, rfl⟩
  obtain ⟨hrun, -⟩ := hcreated.run hw steps
  obtain ⟨hreap, hcount⟩ := hrun.reap now (hw now)
  have hsound := (sound_create config (heard audience)).run record steps
  rw [← hcount]
  exact (hsound.exactSweep record now).of_follows hrun hreap

/-- With a recorder in the audience, its log shows the sweep. -/
theorem reap_exact_recorder :
    let audience : Audience := { listeners := #[.recording] }
    let engine := ((create ⟨4, 2, .lru⟩ audience).run
      (fun now => Audience.hear now Audience.nesting)
      [(1, .set "a" "x".toUTF8 (.ofMillis 5)), (7, .set "b" "y".toUTF8 (.ofMillis 1)),
        (0, .set "a" "z".toUTF8 .zero)]).1
    let swept := engine.reap (Audience.hear 9 Audience.nesting) 9
    audience.Recorded 0 ∧
      ExactSweep (Audience.logOf 0) Audience.remarks 9 engine swept.1 swept.2 := by
  have hrecorded : Audience.Recorded 0 { listeners := #[.recording] } := by
    refine ⟨?_, [], rfl⟩
    intro listener hmem log key cause
    obtain rfl : listener = .recording := by simpa using hmem
    exact .write .finish
  exact ⟨hrecorded, reap_exact (fun now => Audience.watches_recorded 0 now 63) ⟨4, 2, .lru⟩
    hrecorded _ 9⟩

end ReplicatedCache.Engine
