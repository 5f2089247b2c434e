import Mathlib.Data.List.Nodup
import ReplicatedCache.ExpiryQueue

/-! # The order of pending notes, and what a compaction keeps

Notes are ordered by deadline first, then by key, then by segment. Draining
hands them out in that order; compacting keeps one copy of each note that is
asked for.
-/

namespace ReplicatedCache

namespace Pending

instance : Std.TransCmp order :=
  inferInstanceAs (Std.TransCmp (compareLex (compareOn deadline)
    (compareLex (compareOn key) (compareOn segment))))

/-- One note is due before another: earlier, or at the same time under a lesser key. -/
def Before (a b : Pending) : Prop :=
  a.deadline < b.deadline ∨ (a.deadline = b.deadline ∧ a.key < b.key)

theorem le_trans (a b c : Pending) (hab : a.le b = true) (hbc : b.le c = true) :
    a.le c = true := by
  change (order a c).isLE = true
  exact Std.TransCmp.isLE_trans hab hbc

theorem le_total (a b : Pending) : (a.le b || b.le a) = true := by
  unfold le
  rw [Bool.or_eq_true]
  cases h : (compare a b).isLE with
  | true => exact Or.inl rfl
  | false =>
      right
      have hswap : order b a = (order a b).swap := Std.OrientedCmp.eq_swap
      change (order a b).isLE = false at h
      change (order b a).isLE = true
      rw [hswap]
      cases hcompare : order a b with
      | lt => rw [hcompare] at h; exact absurd h (by decide)
      | eq => rfl
      | gt => rfl

/-- Notes of different keys are in order only if the first is due before the second. -/
theorem before_of_le {a b : Pending} (h : a.le b = true) (hne : a.key ≠ b.key) : a.Before b := by
  have hle : ((compare a.deadline b.deadline).then
      ((compare a.key b.key).then (compare a.segment b.segment))).isLE = true := h
  rw [Ordering.isLE_then_iff_or, Ordering.isLE_then_iff_or] at hle
  rcases hle with hlt | ⟨heq, hlt | ⟨hkey, -⟩⟩
  · exact Or.inl (compareOfLessAndEq_eq_lt.mp hlt)
  · exact Or.inr ⟨Std.LawfulEqOrd.eq_of_compare heq, compareOfLessAndEq_eq_lt.mp hlt⟩
  · exact absurd (Std.LawfulEqOrd.eq_of_compare hkey) hne

/-- Only equal notes may stand on either side of each other. -/
theorem eq_of_le_of_le {a b : Pending} (hab : a.le b = true) (hba : b.le a = true) : a = b := by
  have hcompare : order a b = .eq := Std.OrientedCmp.isLE_antisymm hab hba
  obtain ⟨deadline, key, segment⟩ := a
  obtain ⟨deadline', key', segment'⟩ := b
  have hparts : ((compare deadline deadline').then
      ((compare key key').then (compare segment segment'))) = .eq := hcompare
  rw [Ordering.then_eq_eq, Ordering.then_eq_eq] at hparts
  obtain ⟨hdeadline, hkey, hsegment⟩ := hparts
  obtain rfl := Std.LawfulEqOrd.eq_of_compare hdeadline
  obtain rfl := Std.LawfulEqOrd.eq_of_compare hkey
  obtain rfl := Std.LawfulEqOrd.eq_of_compare hsegment
  rfl

end Pending

namespace ExpiryQueue

private theorem mem_eraseReps_loop {last note : Pending} (rest acc : List Pending) :
    note ∈ List.eraseRepsBy.loop (· == ·) last rest acc ↔
      note ∈ acc ∨ note = last ∨ note ∈ rest := by
  induction rest generalizing last acc with
  | nil => simp [List.eraseRepsBy.loop, or_comm]
  | cons next rest ih =>
      unfold List.eraseRepsBy.loop
      split
      next heq =>
        rw [ih, ← beq_iff_eq.mp heq]
        simp
      next =>
        rw [ih]
        simp [or_assoc, or_comm, or_left_comm]

/-- Removing repetitions loses no note: it only forgets how often a note was there. -/
theorem mem_eraseReps_iff {note : Pending} (notes : List Pending) :
    note ∈ notes.eraseReps ↔ note ∈ notes := by
  cases notes with
  | nil => rfl
  | cons first rest => simp [List.eraseReps, List.eraseRepsBy, mem_eraseReps_loop]

/-- In an ordered list equal notes stand together, so that none is left twice. -/
private theorem nodup_eraseReps_loop {last : Pending} {rest acc : List Pending}
    (hsorted : (last :: rest).Pairwise fun a b => a.le b = true) (hacc : acc.Nodup)
    (hbefore : ∀ note ∈ acc, note.le last = true ∧ note ≠ last) :
    (List.eraseRepsBy.loop (· == ·) last rest acc).Nodup := by
  induction rest generalizing last acc with
  | nil =>
      rw [List.eraseRepsBy.loop, List.nodup_reverse, List.nodup_cons]
      exact ⟨fun hmem => (hbefore last hmem).2 rfl, hacc⟩
  | cons next rest ih =>
      obtain ⟨hlast, hrest⟩ := List.pairwise_cons.mp hsorted
      unfold List.eraseRepsBy.loop
      split
      next heq =>
        obtain rfl := beq_iff_eq.mp heq
        exact ih hrest hacc hbefore
      next hne =>
        have hne : last ≠ next := fun heq => by simp [heq] at hne
        refine ih hrest (List.nodup_cons.mpr ⟨fun hmem => (hbefore last hmem).2 rfl, hacc⟩) ?_
        intro note hmem
        rcases List.mem_cons.mp hmem with rfl | hold
        · exact ⟨hlast next List.mem_cons_self, hne⟩
        · obtain ⟨hle, hdistinct⟩ := hbefore note hold
          refine ⟨Pending.le_trans _ _ _ hle (hlast next List.mem_cons_self), ?_⟩
          rintro rfl
          exact hdistinct (Pending.eq_of_le_of_le hle (hlast note List.mem_cons_self))

/-- Each pending note is there once after duplicates have been dropped. -/
theorem nodup_distinct (queue : ExpiryQueue) : queue.distinct.Nodup := by
  have hsorted := List.pairwise_mergeSort Pending.le_trans Pending.le_total queue.pending
  unfold distinct
  cases hnotes : queue.pending.mergeSort Pending.le with
  | nil => exact List.nodup_nil
  | cons first rest =>
      rw [hnotes] at hsorted
      exact nodup_eraseReps_loop hsorted List.nodup_nil nofun

/-- Sorting a queue and dropping duplicates loses no note. -/
theorem mem_distinct_iff {queue : ExpiryQueue} {note : Pending} :
    note ∈ queue.distinct ↔ note ∈ queue.pending := by
  unfold distinct
  rw [mem_eraseReps_iff]
  exact List.mem_mergeSort

/-- If the answers do not depend on the state, the notes that are kept do not either. -/
theorem foldl_sift_eq {σ : Type} {keep : σ → Pending → σ × Bool} (accepts : Pending → Bool)
    (h : ∀ state note, (keep state note).2 = accepts note) (notes : List Pending) (state : σ)
    (kept : List Pending) :
    (notes.foldl (sift keep) (state, kept)).2 = (notes.filter accepts).reverse ++ kept := by
  induction notes generalizing state kept with
  | nil => rfl
  | cons note notes ih =>
      rw [List.foldl_cons, sift, ih, h, List.filter_cons]
      cases accepts note with
      | true => simp
      | false => simp

/-- When the answers do not depend on the state that is threaded through, a compaction is a
filter of the distinct notes. -/
theorem pending_compactWith {σ : Type} {keep : σ → Pending → σ × Bool} (accepts : Pending → Bool)
    (h : ∀ state note, (keep state note).2 = accepts note) (queue : ExpiryQueue) (start : σ) :
    (queue.compactWith keep start).queue.pending = queue.distinct.filter accepts := by
  rw [compactWith]
  dsimp only
  rw [foldl_sift_eq accepts h, List.append_nil, List.reverse_reverse]

theorem pending_compact (queue : ExpiryQueue) (keep : Pending → Bool) :
    (queue.compact keep).queue.pending = queue.distinct.filter keep :=
  pending_compactWith keep (fun _ _ => rfl) queue []

/-- A compacted queue holds a note exactly when the queue held it and it was accepted. -/
theorem mem_compact_iff {queue : ExpiryQueue} {keep : Pending → Bool} {note : Pending} :
    note ∈ (queue.compact keep).queue.pending ↔ note ∈ queue.pending ∧ keep note = true := by
  rw [pending_compact, List.mem_filter, mem_distinct_iff]

theorem nodup_compact (queue : ExpiryQueue) (keep : Pending → Bool) :
    (queue.compact keep).queue.pending.Nodup := by
  rw [pending_compact]
  exact queue.nodup_distinct.filter keep

end ExpiryQueue

end ReplicatedCache
