import ReplicatedCache.Proofs.Engine.Soundness
import ReplicatedCache.Proofs.Time

/-! # What a sweep does

A sweep goes through the due notes in order. A note is effective if its entry
still answers to it when its turn comes. On a sound engine the effective notes
are those that are current at the beginning, each once and in order, and what
they take out is exactly what has expired.
-/

namespace ReplicatedCache

namespace Engine

variable {ρ : Type} {shards : Shards} {key other : String} {entry : Entry} {now : Instant}

/-- The notes to which an entry still answers when their turn comes. -/
def effective (shards : Shards) : List Pending → List Pending
  | [] => []
  | note :: rest =>
    if isCurrent shards note then
      note :: effective (shards.removeAt note.segment note.key) rest
    else effective shards rest

/-- The shards once notes have taken out their keys. -/
def swept (shards : Shards) (notes : List Pending) : Shards :=
  notes.foldl (fun shards note => shards.removeAt note.segment note.key) shards

theorem add_count (stats : Stats) (counter : Counter) (n : Nat) :
    (stats.count counter).add counter (UInt64.ofNat n) =
      stats.add counter (UInt64.ofNat (n + 1)) := by
  have hsum : ∀ start : UInt64, start + 1 + UInt64.ofNat n = start + UInt64.ofNat (n + 1) := by
    intro start
    rw [UInt64.ofNat_add, UInt64.add_assoc, UInt64.add_comm 1]
    rfl
  cases counter <;> simp only [Stats.count, Stats.add, hsum]

/-- A sweep takes out what the effective notes speak of, counts them, and tells
of each in turn. -/
theorem foldl_reapStep (record : Signal → List ρ) (engine : Engine (List ρ))
    (notes : List Pending) (reaped : Nat) :
    notes.foldl (reapStep (recording record)) (engine, reaped) =
      ({ engine with
        shards := swept engine.shards (effective engine.shards notes)
        stats := engine.stats.add .expirations
          (UInt64.ofNat (effective engine.shards notes).length)
        audience := engine.audience ++ (effective engine.shards notes).flatMap
          fun note => record (.removal note.key .expired) },
        reaped + (effective engine.shards notes).length) := by
  induction notes generalizing engine reaped with
  | nil => simp [effective, swept, Stats.add]
  | cons note rest ih =>
      rw [List.foldl_cons, reapStep, reapOne_eq]
      unfold effective
      by_cases hcurrent : isCurrent engine.shards note = true
      · simp only [hcurrent, if_true]
        have hstats := add_count engine.stats .expirations
          (effective (engine.shards.removeAt note.segment note.key) rest).length
        rw [ih]
        dsimp only [reportExpiry, recording, count]
        rw [hstats, List.length_cons, List.flatMap_cons, List.append_assoc, Nat.add_right_comm]
        rfl
      · simp only [hcurrent, if_false, Bool.false_eq_true]
        exact ih engine reaped

/-! ## Notes at home -/

theorem isCurrent_remove (hs : shards.Sound) (key : String) (note : Pending) :
    isCurrent (shards.remove key) note = true ↔
      isCurrent shards note = true ∧ note.key ≠ key := by
  rw [isCurrent_iff (hs.remove key), isCurrent_iff hs, Shards.home_remove, Shards.find?_remove]
  by_cases heq : note.key = key
  · simp [heq]
  · simp [heq]

/-- Two current notes of one key are the same note. -/
theorem eq_of_isCurrent (hs : shards.Sound) {a b : Pending} (ha : isCurrent shards a = true)
    (hb : isCurrent shards b = true) (hkey : a.key = b.key) : a = b := by
  obtain ⟨hsegment, entry, hfind, hdeadline⟩ := (isCurrent_iff hs).mp ha
  obtain ⟨hsegment', entry', hfind', hdeadline'⟩ := (isCurrent_iff hs).mp hb
  rw [hkey, hfind'] at hfind
  obtain rfl := Option.some.inj hfind
  obtain ⟨deadline, own, segment⟩ := a
  obtain ⟨deadline', own', segment'⟩ := b
  dsimp only at *
  subst hkey hsegment hsegment' hdeadline hdeadline'
  rfl

theorem sublist_effective (shards : Shards) (notes : List Pending) :
    (effective shards notes).Sublist notes := by
  induction notes generalizing shards with
  | nil => exact List.Sublist.slnil
  | cons note rest ih =>
      unfold effective
      split
      next => exact (ih _).cons_cons note
      next => exact (ih shards).cons note

/-- The effective notes are the current ones. -/
theorem mem_effective_iff (hs : shards.Sound) {notes : List Pending} {note : Pending} :
    note ∈ effective shards notes ↔ note ∈ notes ∧ isCurrent shards note = true := by
  induction notes generalizing shards with
  | nil => simp [effective]
  | cons first rest ih =>
      unfold effective
      split
      next hcurrent =>
        have hhome := ((isCurrent_iff hs).mp hcurrent).1
        rw [hhome, removeAt_home, List.mem_cons, List.mem_cons, ih (hs.remove _),
          isCurrent_remove hs]
        constructor
        · rintro (rfl | ⟨hmem, hnote, -⟩)
          · exact ⟨Or.inl rfl, hcurrent⟩
          · exact ⟨Or.inr hmem, hnote⟩
        · rintro ⟨hmem, hnote⟩
          by_cases hkey : note.key = first.key
          · exact Or.inl (eq_of_isCurrent hs hnote hcurrent hkey)
          · exact Or.inr ⟨hmem.resolve_left fun heq => hkey (heq ▸ rfl), hnote, hkey⟩
      next hstale =>
        rw [ih hs, List.mem_cons]
        constructor
        · exact fun ⟨hmem, hnote⟩ => ⟨Or.inr hmem, hnote⟩
        · rintro ⟨rfl | hmem, hnote⟩
          · exact absurd hnote hstale
          · exact ⟨hmem, hnote⟩

/-- No key is taken out twice. -/
theorem nodup_effective (hs : shards.Sound) (notes : List Pending) :
    ((effective shards notes).map Pending.key).Nodup := by
  induction notes generalizing shards with
  | nil => exact List.nodup_nil
  | cons first rest ih =>
      unfold effective
      split
      next hcurrent =>
        have hhome := ((isCurrent_iff hs).mp hcurrent).1
        rw [hhome, removeAt_home, List.map_cons, List.nodup_cons]
        refine ⟨?_, ih (hs.remove _)⟩
        intro hmem
        obtain ⟨note, hnote, hkey⟩ := List.mem_map.mp hmem
        rw [mem_effective_iff (hs.remove _), isCurrent_remove hs] at hnote
        exact hnote.2.2 hkey
      next => exact ih hs

/-! ## What is left -/

theorem Shards.entriesAt_remove (hs : shards.Sound) (key : String) (i : Nat) :
    (shards.remove key).entriesAt i =
      (shards.entriesAt i).filter fun binding => decide (binding.1 ≠ key) := by
  rw [Shards.remove, Shards.onHome_eq, Shards.entriesAt_onSegment]
  split
  next heq => rw [heq, Segment.toList_remove, Shards.entriesAt_home]; rfl
  next hne =>
    apply Eq.symm
    apply List.filter_eq_self.mpr
    rintro ⟨own, entry⟩ hmem
    have hhome := hs.home_of_mem_entriesAt hmem
    exact decide_eq_true fun heq => hne (heq ▸ hhome.symm)

/-- Notes at home take out their keys and nothing else. -/
theorem swept_spec (hs : shards.Sound) {notes : List Pending}
    (hhome : ∀ note ∈ notes, note.segment = shards.home note.key) :
    (swept shards notes).Sound ∧ (∀ key, (swept shards notes).home key = shards.home key) ∧
      ∀ i, (swept shards notes).entriesAt i = (shards.entriesAt i).filter
        fun binding => decide (binding.1 ∉ notes.map Pending.key) := by
  induction notes generalizing shards with
  | nil => exact ⟨hs, fun _ => rfl, fun i => by simp [swept]⟩
  | cons first rest ih =>
      have hfirst := hhome first List.mem_cons_self
      have hrest : ∀ note ∈ rest,
          note.segment = (shards.remove first.key).home note.key := by
        intro note hmem
        rw [Shards.home_remove]
        exact hhome note (List.mem_cons_of_mem _ hmem)
      obtain ⟨hsound, hhomes, hentries⟩ := ih (hs.remove first.key) hrest
      have hstep : swept shards (first :: rest) =
          swept (shards.remove first.key) rest := by
        unfold swept
        rw [List.foldl_cons, hfirst, removeAt_home]
      rw [hstep]
      refine ⟨hsound, fun key => (hhomes key).trans (Shards.home_remove _ _ _), ?_⟩
      intro i
      rw [hentries, Shards.entriesAt_remove hs, List.filter_filter]
      apply List.filter_congr
      intro binding _
      rw [Bool.eq_iff_iff]
      simp [and_comm]

/-! ## Sweeping a sound engine -/

section Reap

variable {A : Type} {engine : Engine A}

/-- The notes by which a sweep takes entries out, in order. -/
def notices (engine : Engine A) (now : Instant) : List Pending :=
  effective engine.shards (engine.dueNotes now)

/-- The entries that are over, segment by segment, eldest first in each. -/
def overdue (engine : Engine A) (now : Instant) : List (String × Entry) :=
  engine.shards.entries.filter fun binding => binding.2.expired now

/-- The due notes are those in the queue whose deadlines have come. -/
theorem mem_dueNotes_iff {note : Pending} :
    note ∈ engine.dueNotes now ↔ note ∈ engine.expiries.pending ∧ note.deadline ≤ now := by
  unfold dueNotes
  rw [List.mem_mergeSort, List.mem_filter, decide_eq_true_iff]

/-- A sweep has a notice for every entry that is over, and for no other. -/
theorem mem_notices_iff (h : engine.Sound) {note : Pending} :
    note ∈ engine.notices now ↔ note.segment = engine.shards.home note.key ∧
      ∃ entry, engine.shards.find? note.key = some entry ∧ entry.deadline = note.deadline ∧
        entry.expired now = true := by
  unfold notices
  rw [mem_effective_iff h.shards, mem_dueNotes_iff, isCurrent_iff h.shards]
  constructor
  · rintro ⟨⟨hmem, hdue⟩, hhome, entry, hfind, hdeadline⟩
    refine ⟨hhome, entry, hfind, hdeadline, Entry.expired_iff.mpr ?_⟩
    rw [hdeadline]
    exact ⟨(h.noted note hmem).1, hdue⟩
  · rintro ⟨hhome, entry, hfind, hdeadline, hexpired⟩
    obtain ⟨hpos, hdue⟩ := Entry.expired_iff.mp hexpired
    have hnote := h.covered hfind hpos
    rw [hdeadline, ← hhome] at hnote
    exact ⟨⟨hnote, hdeadline ▸ hdue⟩, hhome, entry, hfind, hdeadline⟩

/-- A sweep gives notice of a key exactly if its entry is over. -/
theorem mem_keys_notices_iff (h : engine.Sound) :
    key ∈ (engine.notices now).map Pending.key ↔
      ∃ entry, engine.shards.find? key = some entry ∧ entry.expired now = true := by
  rw [List.mem_map]
  constructor
  · rintro ⟨note, hmem, rfl⟩
    obtain ⟨-, entry, hfind, -, hexpired⟩ := (mem_notices_iff h).mp hmem
    exact ⟨entry, hfind, hexpired⟩
  · rintro ⟨entry, hfind, hexpired⟩
    refine ⟨⟨entry.deadline, key, engine.shards.home key⟩, ?_, rfl⟩
    exact (mem_notices_iff h).mpr ⟨rfl, entry, hfind, rfl, hexpired⟩

/-- Notices come by deadline, and by key where deadlines are equal. -/
theorem pairwise_notices (h : engine.Sound) (now : Instant) :
    (engine.notices now).Pairwise Pending.Before := by
  have hsorted : (engine.notices now).Pairwise fun a b => a.le b = true :=
    (List.pairwise_mergeSort Pending.le_trans Pending.le_total _).sublist (sublist_effective _ _)
  have hdistinct := List.pairwise_map.mp (nodup_effective h.shards (engine.dueNotes now))
  exact (hsorted.and hdistinct).imp fun ⟨hle, hne⟩ => Pending.before_of_le hle hne

theorem home_of_mem_notices (h : engine.Sound) {note : Pending}
    (hmem : note ∈ engine.notices now) : note.segment = engine.shards.home note.key :=
  ((mem_notices_iff h).mp hmem).1

/-- The entries at home in a segment that a sweep leaves are those that are live. -/
theorem entriesAt_swept (h : engine.Sound) (now : Instant) (i : Nat) :
    (swept engine.shards (engine.notices now)).entriesAt i =
      (engine.shards.entriesAt i).filter fun binding => binding.2.live now := by
  rw [(swept_spec h.shards fun note hmem => home_of_mem_notices h hmem).2.2]
  apply List.filter_congr
  rintro ⟨own, entry⟩ hmem
  have hfind := h.shards.find?_of_mem_entriesAt hmem
  rw [Bool.eq_iff_iff, decide_eq_true_iff, mem_keys_notices_iff h, Entry.live,
    Bool.not_eq_true', ← Bool.not_eq_true]
  simp [hfind]

/-- After a sweep a key is bound to its entry if that is live. -/
theorem find?_swept (h : engine.Sound) (now : Instant) (key : String) :
    (swept engine.shards (engine.notices now)).find? key =
      (engine.shards.find? key).filter fun entry => entry.live now := by
  obtain ⟨hsound, hhomes, -⟩ := swept_spec h.shards fun note hmem => home_of_mem_notices h hmem
  apply Option.ext
  intro entry
  rw [Shards.find?_eq_some_iff, entriesAt_swept h, List.mem_filter, hhomes,
    ← Shards.find?_eq_some_iff, Option.filter_eq_some_iff]

/-- The keys that a sweep gives notice of are gone, and no others. -/
theorem find?_swept_notices (h : engine.Sound) (now : Instant) (other : String) :
    (swept engine.shards (engine.notices now)).find? other =
      if other ∈ (engine.notices now).map Pending.key then none
      else engine.shards.find? other := by
  rw [find?_swept h]
  split
  next hmem =>
    obtain ⟨entry, hfind, hover⟩ := (mem_keys_notices_iff h).mp hmem
    rw [hfind, Option.filter_some, if_neg (by simp [Entry.live, hover])]
  next hnot =>
    cases hfind : engine.shards.find? other with
    | none => rfl
    | some entry =>
        have hlive : ¬ entry.expired now = true := fun hover =>
          hnot ((mem_keys_notices_iff h).mpr ⟨entry, hfind, hover⟩)
        rw [Option.filter_some, if_pos (by simp [Entry.live, hlive])]

end Reap

/-- A sweep takes the keys of its notices out, counts them and tells each as an expiry. -/
theorem reap_recording (record : Signal → List ρ) (engine : Engine (List ρ)) (now : Instant) :
    engine.reap (recording record) now =
      ({ engine.drained now with
        shards := swept engine.shards (engine.notices now)
        stats := engine.stats.add .expirations (UInt64.ofNat (engine.notices now).length)
        audience := engine.audience ++ (engine.notices now).flatMap
          fun note => record (.removal note.key .expired) },
        (engine.notices now).length) := by
  rw [reap_eq, foldl_reapStep, Nat.zero_add]
  rfl

theorem Sound.reap (record : Signal → List ρ) {engine : Engine (List ρ)} (h : engine.Sound)
    (now : Instant) : (engine.reap (recording record) now).1.Sound := by
  obtain ⟨hsound, hhomes, -⟩ := swept_spec h.shards fun note hmem => home_of_mem_notices h hmem
  rw [reap_recording]
  constructor
  · exact hsound
  · intro note hmem
    rw [hhomes]
    exact h.noted note (List.mem_of_mem_filter hmem)
  · intro key entry hfind hpos
    rw [find?_swept h, Option.filter_eq_some_iff] at hfind
    obtain ⟨hfind, hlive⟩ := hfind
    have hnotdue : ¬ entry.deadline ≤ now := by
      intro hdue
      rw [Entry.live, Entry.expired_iff.mpr ⟨hpos, hdue⟩] at hlive
      exact absurd hlive (by decide)
    rw [hhomes]
    refine List.mem_filter.mpr ⟨h.covered hfind hpos, ?_⟩
    simpa using hnotdue

end Engine

end ReplicatedCache
