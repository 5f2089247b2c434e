import ReplicatedCache.Proofs.Engine.Digests

/-! # Fingerprints notice a single change

Contents that differ in one entry only have fingerprints that differ by the difference of
two digests, whatever the other entries are and wherever they lie. A digest takes a
deadline as it is and the hash of a value times an odd number, so that it is another one
as soon as one of the two is, and the other is not.
-/

namespace ReplicatedCache

namespace Seen

/-- Contents with the same keys, of which a single one has another value or deadline: an
entry has become another one, and nothing else is there or is gone. -/
structure SingleChange (contents contents' : Finset Seen) (old new : Seen) : Prop where
  old_mem : old ∈ contents
  new_mem : new ∈ contents'
  key_eq : new.key = old.key
  ne : new ≠ old
  others : ∀ other : Seen, other.key ≠ old.key → (other ∈ contents' ↔ other ∈ contents)

/-- What an entry counts for apart from its key. -/
def weight (seen : Seen) : UInt64 := 31 * Hash.bytes seen.value + seen.deadline.toUInt64

section Digests

open scoped UInt64.CommRing

/-- Under one key, digests are equal if and only if the weights are. -/
theorem digest_eq_iff {old new : Seen} (hkey : new.key = old.key) :
    new.digest = old.digest ↔ new.weight = old.weight := by
  have hsplit (seen : Seen) :
      seen.digest = 17 * 29791 + 961 * Hash.text seen.key + seen.weight := by
    rw [digest_eq, placeDigest, place, weight]
    ring
  rw [hsplit, hsplit, hkey, add_right_inj]

theorem weight_eq_iff_of_deadline {old new : Seen} (h : new.deadline = old.deadline) :
    new.weight = old.weight ↔ Hash.bytes new.value = Hash.bytes old.value := by
  rw [weight, weight, h, add_left_inj, mul_factor_inj]

theorem weight_eq_iff_of_value {old new : Seen} (h : new.value = old.value) :
    new.weight = old.weight ↔ new.deadline = old.deadline := by
  rw [weight, weight, h, add_right_inj]
  exact ⟨congrArg Int64.ofUInt64, congrArg _⟩

variable {contents contents' : Finset Seen} {old new : Seen}

/-- The key is the same, so the value or the deadline is another one. -/
theorem SingleChange.deadline_ne (h : SingleChange contents contents' old new)
    (hvalue : new.value = old.value) : new.deadline ≠ old.deadline := fun hdeadline =>
  h.ne ((Seen.mk.injEq ..).mpr ⟨h.key_eq, hvalue, hdeadline⟩)

/-- Without the entry that has changed, nothing has. -/
theorem SingleChange.erase_eq (h : SingleChange contents contents' old new)
    (hkeys : Set.InjOn Seen.key contents) (hkeys' : Set.InjOn Seen.key contents') :
    contents'.erase new = contents.erase old := by
  ext other
  constructor
  · intro hmem
    have hne : other.key ≠ old.key := h.key_eq ▸ key_ne_of_mem_erase hkeys' h.new_mem hmem
    exact Finset.mem_erase.mpr ⟨fun heq => hne (congrArg key heq),
      (h.others other hne).mp (Finset.mem_of_mem_erase hmem)⟩
  · intro hmem
    have hne : other.key ≠ old.key := key_ne_of_mem_erase hkeys h.old_mem hmem
    exact Finset.mem_erase.mpr ⟨fun heq => hne (heq ▸ h.key_eq),
      (h.others other hne).mpr (Finset.mem_of_mem_erase hmem)⟩

/-- A single change is noticed unless the entry weighs the same as before. -/
theorem SingleChange.fingerprintOf_eq_iff (h : SingleChange contents contents' old new)
    (hkeys : Set.InjOn Seen.key contents) (hkeys' : Set.InjOn Seen.key contents') :
    fingerprintOf contents' = fingerprintOf contents ↔ new.weight = old.weight := by
  rw [fingerprintOf, fingerprintOf, add_right_inj, ← Finset.sum_erase_add _ _ h.new_mem,
    ← Finset.sum_erase_add _ _ h.old_mem, h.erase_eq hkeys hkeys', add_right_inj,
    digest_eq_iff h.key_eq]

end Digests

end Seen

namespace Program

variable {ρ σ : Type}

/-- Whatever two programs do with engines of whatever configurations, and whenever one
looks at them: if the same keys are live and a single one has another value or deadline,
the fingerprints differ if and only if the weights of this one entry do. So another value
with another hash is noticed, and so is another deadline. -/
theorem fingerprint_detects_single_change (config config' : EngineConfig) (depth depth' : Nat)
    (program : Program ρ) (program' : Program σ) :
    program.Faithful config depth ∧ program'.Faithful config' depth' ∧
      ∀ sight ∈ program.sights config depth, ∀ sight' ∈ program'.sights config' depth',
        ∀ now now' old new,
          Seen.SingleChange (sight.contents now) (sight'.contents now') old new →
            (sight'.fingerprint now' = sight.fingerprint now ↔ new.weight = old.weight) ∧
            (new.deadline = old.deadline → Hash.bytes new.value ≠ Hash.bytes old.value →
              sight'.fingerprint now' ≠ sight.fingerprint now) ∧
            (new.value = old.value → sight'.fingerprint now' ≠ sight.fingerprint now) := by
  obtain ⟨hfaithful, hmoments⟩ := program.witnessed_spec config depth
  obtain ⟨hfaithful', hmoments'⟩ := program'.witnessed_spec config' depth'
  refine ⟨hfaithful, hfaithful', ?_⟩
  intro sight hsight sight' hsight' now now' old new hchange
  have hs := (hmoments sight hsight).orderly.shards
  have hs' := (hmoments' sight' hsight').orderly.shards
  have hiff := hchange.fingerprintOf_eq_iff (Engine.injOn_key_contents hs now)
    (Engine.injOn_key_contents hs' now')
  rw [Engine.fingerprint_eq_fingerprintOf hs, Engine.fingerprint_eq_fingerprintOf hs']
  refine ⟨hiff, ?_, ?_⟩
  · intro hdeadline hhash heq
    exact hhash ((Seen.weight_eq_iff_of_deadline hdeadline).mp (hiff.mp heq))
  · intro hvalue heq
    have hdeadline := (Seen.weight_eq_iff_of_value hvalue).mp (hiff.mp heq)
    exact hchange.deadline_ne hvalue hdeadline

/-- One of two keys lives a millisecond longer in the other engine, where both lie in
another order and in other segments. -/
theorem fingerprint_detects_longer_life :
    let one := restoring 0 [⟨"a", "v".toUTF8, 0⟩, ⟨"b", "w".toUTF8, 9⟩]
    let other := restoring 0 [⟨"b", "w".toUTF8, 10⟩, ⟨"a", "v".toUTF8, 0⟩]
    (other.carriedOut ⟨9, 3, .lfu⟩ 0).1.fingerprint 7 ≠
      (one.carriedOut ⟨4, 1, .lru⟩ 0).1.fingerprint 5 := by
  intro one other
  have hone : (one.carriedOut ⟨4, 1, .lru⟩ 0).1.contents 5 =
      {⟨"a", "v".toUTF8, 0⟩, ⟨"b", "w".toUTF8, 9⟩} :=
    ((restored_restoring ⟨4, 1, .lru⟩ 0 0 [⟨"a", "v".toUTF8, 0⟩, ⟨"b", "w".toUTF8, 9⟩]
      (by decide) (by decide)).contents_eq (by decide) 5).trans (by decide +kernel)
  have hother : (other.carriedOut ⟨9, 3, .lfu⟩ 0).1.contents 7 =
      {⟨"a", "v".toUTF8, 0⟩, ⟨"b", "w".toUTF8, 10⟩} :=
    ((restored_restoring ⟨9, 3, .lfu⟩ 0 0 [⟨"b", "w".toUTF8, 10⟩, ⟨"a", "v".toUTF8, 0⟩]
      (by decide) (by decide)).contents_eq (by decide) 7).trans (by decide +kernel)
  have hchange : Seen.SingleChange ((one.carriedOut ⟨4, 1, .lru⟩ 0).1.contents 5)
      ((other.carriedOut ⟨9, 3, .lfu⟩ 0).1.contents 7)
      ⟨"b", "w".toUTF8, 9⟩ ⟨"b", "w".toUTF8, 10⟩ := by
    rw [hone, hother]
    refine ⟨by simp, by simp, rfl, by decide, fun seen hne => ?_⟩
    simp only [Finset.mem_insert, Finset.mem_singleton]
    constructor
    · rintro (rfl | rfl)
      · exact Or.inl rfl
      · exact absurd rfl hne
    · rintro (rfl | rfl)
      · exact Or.inl rfl
      · exact absurd rfl hne
  obtain ⟨-, -, hnoticed⟩ :=
    fingerprint_detects_single_change ⟨4, 1, .lru⟩ ⟨9, 3, .lfu⟩ 0 0 one other
  exact (hnoticed _ (List.mem_append_right _ List.mem_cons_self) _
    (List.mem_append_right _ List.mem_cons_self) 5 7 _ _ hchange).2.2 rfl

end Program

end ReplicatedCache
