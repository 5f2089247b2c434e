import Mathlib.Algebra.BigOperators.Ring.Finset
import Mathlib.Tactic.Ring
import ReplicatedCache.Proofs.Engine.Fingerprints

/-! # What fingerprints can tell apart

The digest of an entry is linear in the hashes of its key and its value, and so is the sum
of the digests. As long as the live keys and their deadlines stay, the values count for the
sum of their hashes alone, whichever of the keys they stand under: an exchange of values
goes unnoticed, and another value under a single key is noticed unless its hash is the same.
-/

namespace ReplicatedCache

namespace Seen

/-- What remains of an entry when its value is taken away. -/
def place (seen : Seen) : String × Instant := (seen.key, seen.deadline)

/-- What a key and a deadline contribute to a digest. -/
def placeDigest (place : String × Instant) : UInt64 :=
  17 * 29791 + 961 * Hash.text place.1 + place.2.toUInt64

/-- The sum of the hashes of all values, which wraps around. -/
def valueSum (contents : Finset Seen) : UInt64 := ∑ seen ∈ contents, Hash.bytes seen.value

/-- Contents in which an entry has another value. -/
def replaced (contents : Finset Seen) (seen : Seen) (value : Value) : Finset Seen :=
  insert { seen with value } (contents.erase seen)

/-- Contents in which two entries have each other's values. -/
def exchanged (contents : Finset Seen) (first second : Seen) : Finset Seen :=
  replaced (replaced contents first second.value) second first.value

/-! ## Digests and their sums -/

section Sums

open scoped UInt64.CommRing

/-- The digest of what is seen splits into a part for its place and one for its value. -/
theorem digest_eq (seen : Seen) :
    seen.digest = placeDigest seen.place + 31 * Hash.bytes seen.value := by
  rw [digest, Engine.entryDigest, placeDigest, place]
  ring

/-- The factor is odd, so that nothing is lost when a product with it wraps around. -/
theorem mul_factor_inj {a b : UInt64} : 31 * a = 31 * b ↔ a = b := by
  have hinverse : (0xEF7BDEF7BDEF7BDF : UInt64) * 31 = 1 := by decide
  refine ⟨fun h => ?_, congrArg (31 * ·)⟩
  calc a = 0xEF7BDEF7BDEF7BDF * 31 * a := by rw [hinverse, one_mul]
    _ = 0xEF7BDEF7BDEF7BDF * 31 * b := by rw [mul_assoc, h, mul_assoc]
    _ = b := by rw [hinverse, one_mul]

variable {contents contents' : Finset Seen}

/-- With one entry per key a fingerprint is a sum over places and a sum over values. -/
theorem fingerprintOf_eq (hkeys : Set.InjOn Seen.key contents) :
    fingerprintOf contents = Engine.fingerprintSeed +
      ∑ place ∈ contents.image Seen.place, placeDigest place + 31 * valueSum contents := by
  have hplaces : Set.InjOn Seen.place contents :=
    fun seen hseen other hother h => hkeys hseen hother (congrArg Prod.fst h)
  rw [fingerprintOf, Finset.sum_congr rfl fun seen _ => seen.digest_eq, Finset.sum_add_distrib,
    ← Finset.mul_sum, Finset.sum_image hplaces, add_assoc, valueSum]

/-- Where the keys and deadlines are the same, only the sum of the values' hashes counts. -/
theorem fingerprintOf_eq_iff (hkeys : Set.InjOn Seen.key contents)
    (hkeys' : Set.InjOn Seen.key contents')
    (hplaces : contents'.image Seen.place = contents.image Seen.place) :
    fingerprintOf contents' = fingerprintOf contents ↔ valueSum contents' = valueSum contents := by
  rw [fingerprintOf_eq hkeys, fingerprintOf_eq hkeys', hplaces, add_right_inj, mul_factor_inj]

end Sums

/-! ## Other values -/

section Replaced

variable {contents : Finset Seen} {seen : Seen} (hkeys : Set.InjOn Seen.key contents)
  (hmem : seen ∈ contents)
include hmem

/-- An entry keeps its key and its deadline. -/
theorem image_place_replaced (value : Value) :
    (replaced contents seen value).image Seen.place = contents.image Seen.place := by
  conv_rhs => rw [← Finset.insert_erase hmem]
  rw [replaced, Finset.image_insert, Finset.image_insert]
  rfl

include hkeys

theorem key_ne_of_mem_erase {other : Seen} (h : other ∈ contents.erase seen) :
    other.key ≠ seen.key := fun heq =>
  (Finset.mem_erase.mp h).1 (hkeys (Finset.mem_of_mem_erase h) hmem heq)

/-- Replacing the value of one entry leaves one entry per key. -/
theorem injOn_key_replaced (value : Value) :
    Set.InjOn Seen.key (replaced contents seen value) := by
  have hothers (other : Seen) (h : other ∈ contents.erase seen) :=
    key_ne_of_mem_erase hkeys hmem h
  rw [replaced]
  rintro first hfirst second hsecond heq
  rw [Finset.mem_coe, Finset.mem_insert] at hfirst hsecond
  rcases hfirst with rfl | hfirst <;> rcases hsecond with rfl | hsecond
  · rfl
  · exact absurd heq.symm (hothers _ hsecond)
  · exact absurd heq (hothers _ hfirst)
  · exact hkeys (Finset.mem_of_mem_erase hfirst) (Finset.mem_of_mem_erase hsecond) heq

/-- The hash of the other value takes the place of the hash of the old one. -/
theorem valueSum_replaced (value : Value) :
    valueSum (replaced contents seen value) + Hash.bytes seen.value =
      valueSum contents + Hash.bytes value := by
  have hnew : { seen with value } ∉ contents.erase seen :=
    fun h => key_ne_of_mem_erase hkeys hmem h rfl
  rw [valueSum, replaced, Finset.sum_insert hnew, add_assoc, Finset.sum_erase_add _ _ hmem,
    add_comm, valueSum]

/-- Another value is noticed unless its hash is the same. -/
theorem fingerprintOf_replaced_iff (value : Value) :
    fingerprintOf (replaced contents seen value) = fingerprintOf contents ↔
      Hash.bytes value = Hash.bytes seen.value := by
  rw [fingerprintOf_eq_iff hkeys (injOn_key_replaced hkeys hmem value)
    (image_place_replaced hmem value)]
  have hsum := valueSum_replaced hkeys hmem value
  constructor
  · intro h
    rw [h, add_right_inj] at hsum
    exact hsum.symm
  · intro h
    rwa [h, add_left_inj] at hsum

/-- Nobody notices that two keys exchange their values. -/
theorem fingerprintOf_exchanged {other : Seen} (hother : other ∈ contents)
    (hne : seen.key ≠ other.key) :
    fingerprintOf (exchanged contents seen other) = fingerprintOf contents := by
  have hkeys' := injOn_key_replaced hkeys hmem other.value
  have hmem' : other ∈ replaced contents seen other.value :=
    Finset.mem_insert_of_mem (Finset.mem_erase.mpr ⟨fun heq => hne (congrArg _ heq.symm), hother⟩)
  rw [exchanged, fingerprintOf_eq_iff hkeys (injOn_key_replaced hkeys' hmem' seen.value)
    ((image_place_replaced hmem' _).trans (image_place_replaced hmem _))]
  have hfirst := valueSum_replaced hkeys hmem other.value
  have hsecond := valueSum_replaced hkeys' hmem' seen.value
  rw [hfirst] at hsecond
  exact add_right_cancel hsecond

end Replaced

end Seen

namespace Engine

variable {A : Type} {engine : Engine A}

/-- No key is live twice. -/
theorem injOn_key_contents (hs : engine.shards.Sound) (now : Instant) :
    Set.InjOn Seen.key (engine.contents now) := by
  intro seen hseen other hother heq
  rw [Finset.mem_coe, ← toFinset_seen, List.mem_toFinset] at hseen hother
  exact List.inj_on_of_nodup_map (nodup_keys_seen hs now) hseen hother heq

end Engine

namespace Program

variable {ρ σ : Type}

/-- Whatever two programs do with engines of whatever configurations, and whenever one
looks at them: where the live keys and their deadlines are the same, the fingerprints are
the same if and only if the sums of the hashes of the values are. They do not tell which
value stands under which key, so that an exchange of two values leaves them as they are.
Where a single value is another one, they differ if and only if its hash does. -/
theorem fingerprint_of_values_throughout (config config' : EngineConfig) (depth depth' : Nat)
    (program : Program ρ) (program' : Program σ) :
    program.Faithful config depth ∧ program'.Faithful config' depth' ∧
      ∀ sight ∈ program.sights config depth, ∀ sight' ∈ program'.sights config' depth',
        ∀ now now',
          let contents := sight.contents now
          let contents' := sight'.contents now'
          (contents'.image Seen.place = contents.image Seen.place →
            (sight'.fingerprint now' = sight.fingerprint now ↔
              Seen.valueSum contents' = Seen.valueSum contents)) ∧
          (∀ first ∈ contents, ∀ second ∈ contents, first.key ≠ second.key →
            contents' = Seen.exchanged contents first second →
              sight'.fingerprint now' = sight.fingerprint now) ∧
          (∀ seen ∈ contents, ∀ value, contents' = Seen.replaced contents seen value →
            (sight'.fingerprint now' = sight.fingerprint now ↔
              Hash.bytes value = Hash.bytes seen.value)) := by
  obtain ⟨hfaithful, hmoments⟩ := program.witnessed_spec config depth
  obtain ⟨hfaithful', hmoments'⟩ := program'.witnessed_spec config' depth'
  refine ⟨hfaithful, hfaithful', ?_⟩
  intro sight hsight sight' hsight' now now' contents contents'
  have hs := (hmoments sight hsight).orderly.shards
  have hs' := (hmoments' sight' hsight').orderly.shards
  have hkeys := Engine.injOn_key_contents hs now
  have hkeys' := Engine.injOn_key_contents hs' now'
  rw [Engine.fingerprint_eq_fingerprintOf hs, Engine.fingerprint_eq_fingerprintOf hs']
  refine ⟨Seen.fingerprintOf_eq_iff hkeys hkeys', ?_, ?_⟩
  · intro first hfirst second hsecond hne hexchanged
    exact (congrArg _ hexchanged).trans
      (Seen.fingerprintOf_exchanged hkeys hfirst hsecond hne)
  · intro seen hseen value hreplaced
    rw [show sight'.contents now' = _ from hreplaced]
    exact Seen.fingerprintOf_replaced_iff hkeys hseen value

/-- Two keys without deadlines, and what becomes of the fingerprint when one of them has
another value. -/
theorem fingerprint_of_values_restoring :
    let one := restoring 0 [⟨"a", "v".toUTF8, 0⟩, ⟨"b", "w".toUTF8, 0⟩]
    let other := restoring 0 [⟨"b", "w".toUTF8, 0⟩, ⟨"a", "u".toUTF8, 0⟩]
    (other.carriedOut ⟨9, 3, .lfu⟩ 0).1.fingerprint 7 ≠
      (one.carriedOut ⟨4, 1, .lru⟩ 0).1.fingerprint 5 := by
  intro one other
  have hone : (one.carriedOut ⟨4, 1, .lru⟩ 0).1.contents 5 = _ :=
    (restored_restoring ⟨4, 1, .lru⟩ 0 0 [⟨"a", "v".toUTF8, 0⟩, ⟨"b", "w".toUTF8, 0⟩]
      (by decide) (by decide)).contents_eq (by decide) 5
  have hother : (other.carriedOut ⟨9, 3, .lfu⟩ 0).1.contents 7 = _ :=
    (restored_restoring ⟨9, 3, .lfu⟩ 0 0 [⟨"b", "w".toUTF8, 0⟩, ⟨"a", "u".toUTF8, 0⟩]
      (by decide) (by decide)).contents_eq (by decide) 7
  have hmem : ⟨"a", "v".toUTF8, 0⟩ ∈ (one.carriedOut ⟨4, 1, .lru⟩ 0).1.contents 5 := by
    rw [hone]
    decide +kernel
  have hreplaced : (other.carriedOut ⟨9, 3, .lfu⟩ 0).1.contents 7 =
      Seen.replaced ((one.carriedOut ⟨4, 1, .lru⟩ 0).1.contents 5) ⟨"a", "v".toUTF8, 0⟩
        "u".toUTF8 := by
    rw [hone, hother]
    decide +kernel
  obtain ⟨-, -, hvalues⟩ :=
    fingerprint_of_values_throughout ⟨4, 1, .lru⟩ ⟨9, 3, .lfu⟩ 0 0 one other
  obtain ⟨-, -, hsingle⟩ := hvalues _ (List.mem_append_right _ List.mem_cons_self) _
    (List.mem_append_right _ List.mem_cons_self) 5 7
  exact (hsingle _ hmem _ hreplaced).not.mpr (by decide +kernel)

/-- Two keys without deadlines exchange their values. -/
theorem fingerprint_exchanged_restoring :
    let engine := ((restoring 0 [⟨"a", "v".toUTF8, 0⟩, ⟨"b", "w".toUTF8, 0⟩]).carriedOut
      ⟨4, 1, .lru⟩ 0).1
    let other := ((restoring 0 [⟨"a", "w".toUTF8, 0⟩, ⟨"b", "v".toUTF8, 0⟩]).carriedOut
      ⟨4, 1, .lru⟩ 0).1
    engine.contents 5 = {⟨"a", "v".toUTF8, 0⟩, ⟨"b", "w".toUTF8, 0⟩} ∧
      other.contents 5 = {⟨"a", "w".toUTF8, 0⟩, ⟨"b", "v".toUTF8, 0⟩} ∧
      Hash.bytes "v".toUTF8 ≠ Hash.bytes "w".toUTF8 ∧
      other.fingerprint 5 = engine.fingerprint 5 := by
  intro engine other
  have hone := restored_restoring ⟨4, 1, .lru⟩ 0 0
    [⟨"a", "v".toUTF8, 0⟩, ⟨"b", "w".toUTF8, 0⟩] (by decide) (by decide)
  have htwo := restored_restoring ⟨4, 1, .lru⟩ 0 0
    [⟨"a", "w".toUTF8, 0⟩, ⟨"b", "v".toUTF8, 0⟩] (by decide) (by decide)
  have hcontents : engine.contents 5 = {⟨"a", "v".toUTF8, 0⟩, ⟨"b", "w".toUTF8, 0⟩} :=
    (hone.contents_eq (by decide) 5).trans (by decide +kernel)
  have hcontents' : other.contents 5 = {⟨"a", "w".toUTF8, 0⟩, ⟨"b", "v".toUTF8, 0⟩} :=
    (htwo.contents_eq (by decide) 5).trans (by decide +kernel)
  have hexchanged : other.contents 5 =
      Seen.exchanged (engine.contents 5) ⟨"a", "v".toUTF8, 0⟩ ⟨"b", "w".toUTF8, 0⟩ := by
    rw [hcontents, hcontents']
    decide +kernel
  refine ⟨hcontents, hcontents', by decide +kernel, ?_⟩
  rw [Engine.fingerprint_eq_fingerprintOf hone.sound,
    Engine.fingerprint_eq_fingerprintOf htwo.sound,
    hexchanged]
  refine Seen.fingerprintOf_exchanged (Engine.injOn_key_contents hone.sound 5) ?_ ?_ (by decide)
  · rw [hcontents]
    decide +kernel
  · rw [hcontents]
    decide +kernel

end Program

end ReplicatedCache
