import Mathlib.Data.List.DropRight
import ReplicatedCache.Eviction.Sketch

/-! # What the frequency sketch counts

Each counter of the sketch stands for its hits: how often the uses in the window name
it. A counter never exceeds its hits, but it can fall behind them: a use that finds it
at its limit is not counted, and is taken off again all the same when it leaves the
window. How far a counter has fallen behind can be told from the hits alone.
-/

namespace ReplicatedCache.Sketch

/-! ## One use -/

def level (counters : Array UInt8) (slot : Nat) : Nat := (counters[slot]?.getD 0).toNat

/-- A level fits in a byte. -/
theorem level_le (counters : Array UInt8) (slot : Nat) : level counters slot ≤ 255 :=
  Nat.le_of_lt_succ (UInt8.toNat_lt _)

theorem toNat_raised (counter : UInt8) : (raised counter).toNat = min 255 (counter.toNat + 1) := by
  have hlt := counter.toNat_lt
  unfold raised
  split
  next heq => rw [heq]; rfl
  next hne =>
    have hne : counter.toNat ≠ 255 := fun heq => hne (UInt8.toNat_inj.mp heq)
    rw [UInt8.toNat_add, UInt8.toNat_one]
    omega

theorem toNat_lowered (counter : UInt8) : (lowered counter).toNat = counter.toNat - 1 := by
  unfold lowered
  split
  next heq => rw [heq]; rfl
  next hne =>
    have hpos : 1 ≤ counter := UInt8.le_iff_toNat_le.mpr
      (Nat.pos_of_ne_zero fun heq => hne (UInt8.toNat_inj.mp heq))
    rw [UInt8.toNat_sub_of_le _ _ hpos, UInt8.toNat_one]

@[simp] theorem lower_nil (counters : Array UInt8) : lower counters [] = counters := rfl

@[simp] theorem size_raise (counters : Array UInt8) (slots : List Nat) :
    (raise counters slots).size = counters.size := by
  induction slots generalizing counters with
  | nil => rfl
  | cons slot slots ih => exact (ih _).trans Array.size_modify

@[simp] theorem size_lower (counters : Array UInt8) (slots : List Nat) :
    (lower counters slots).size = counters.size := by
  induction slots generalizing counters with
  | nil => rfl
  | cons slot slots ih => exact (ih _).trans Array.size_modify

section Level

variable {counters : Array UInt8} {slot : Nat} (h : slot < counters.size)
include h

theorem level_modify {change : UInt8 → UInt8} (effect : Nat → Nat)
    (heffect : ∀ counter, (change counter).toNat = effect counter.toNat) (other : Nat) :
    level (counters.modify other change) slot =
      if other = slot then effect (level counters slot) else level counters slot := by
  unfold level
  rw [Array.getElem?_modify, Array.getElem?_eq_getElem h]
  split
  next => exact heffect _
  next => rfl

/-- A use raises a counter as often as it names it, up to the limit. -/
theorem level_raise (slots : List Nat) :
    level (raise counters slots) slot = min 255 (level counters slot + slots.count slot) := by
  induction slots generalizing counters with
  | nil => exact (Nat.min_eq_right (level_le counters slot)).symm
  | cons other slots ih =>
      have hraise : raise counters (other :: slots) = raise (counters.modify other raised) slots :=
        rfl
      rw [hraise, ih (by rwa [Array.size_modify]),
        level_modify h (fun n => min 255 (n + 1)) toNat_raised, List.count_cons]
      simp only [beq_iff_eq]
      split <;> omega

/-- A use that is forgotten lowers a counter as often as it names it, down to zero. -/
theorem level_lower (slots : List Nat) :
    level (lower counters slots) slot = level counters slot - slots.count slot := by
  induction slots generalizing counters with
  | nil => rfl
  | cons other slots ih =>
      have hlower : lower counters (other :: slots) = lower (counters.modify other lowered) slots :=
        rfl
      rw [hlower, ih (by rwa [Array.size_modify]), level_modify h (· - 1) toNat_lowered,
        List.count_cons]
      simp only [beq_iff_eq]
      split <;> omega

end Level

/-! ## The window -/

section Window

variable (capacity : Nat)

/-- The counters of a key in the sketch for a segment of a capacity. -/
def slotsFor (key : String) : List Nat := slotsIn (widthFor (windowFor capacity)) key

def ofUses (uses : List String) : Sketch := uses.foldl increment (ofCapacity capacity)

/-- How often the uses in the window, the last ones, name a counter. -/
def hits (uses : List String) (slot : Nat) : Nat :=
  ((uses.rtake (windowFor capacity)).flatMap (slotsFor capacity)).count slot

/-- The hits of a counter while one more use is counted and none is forgotten yet. -/
def hitsWith (uses : List String) (use : String) (slot : Nat) : Nat :=
  hits capacity uses slot + (slotsFor capacity use).count slot

theorem windowFor_pos : 0 < windowFor capacity := by
  unfold windowFor minWindow maxWindow
  omega

/-- A key's slots lie within the width of the sketch. -/
theorem lt_of_mem_slotsFor {capacity : Nat} {key : String} {slot : Nat}
    (h : slot ∈ slotsFor capacity key) : slot < widthFor (windowFor capacity) := by
  obtain ⟨seed, -, rfl⟩ := List.mem_map.mp h
  exact Nat.mod_lt _ (Nat.pos_of_isPowerOfTwo (Nat.isPowerOfTwo_nextPowerOfTwo _))

/-- The uses in the window are those that stay there when one more comes, and before
them the one that then leaves, if there are as many already. -/
theorem exists_rtake_eq {α : Type} (uses : List α) (use : α) {size : Nat} (hpos : 0 < size) :
    ∃ stay, (uses ++ [use]).rtake size = stay ++ [use] ∧
      ((uses.rtake size).length < size ∧ uses.rtake size = stay ∨
        (uses.rtake size).length = size ∧ ∃ oldest, uses.rtake size = oldest :: stay) := by
  obtain ⟨size, rfl⟩ := Nat.exists_eq_succ_of_ne_zero hpos.ne'
  refine ⟨uses.rtake size, List.rtake_concat_succ uses size use, ?_⟩
  unfold List.rtake
  by_cases hroom : uses.length ≤ size
  · left
    rw [Nat.sub_eq_zero_of_le hroom, Nat.sub_eq_zero_of_le (hroom.trans size.le_succ)]
    exact ⟨Nat.lt_succ_of_le hroom, rfl⟩
  · right
    have hlt : uses.length - (size + 1) < uses.length := by omega
    refine ⟨by rw [List.length_drop]; omega, uses[uses.length - (size + 1)], ?_⟩
    rw [List.drop_eq_getElem_cons hlt]
    congr 2
    omega

/-- A sketch has its counters, and in its window the last of some uses. -/
structure Remembers (sketch : Sketch) (uses : List String) : Prop where
  size_eq : sketch.counters.size = widthFor (windowFor capacity)
  windowSize_eq : sketch.windowSize = windowFor capacity
  window_eq : sketch.window.toList =
    (uses.rtake (windowFor capacity)).map (slotsFor capacity)

variable {capacity} {sketch : Sketch} {uses : List String}

/-- The slots of a key do not depend on what has been counted. -/
theorem Remembers.slots_eq (h : Remembers capacity sketch uses) (key : String) :
    sketch.slots key = slotsFor capacity key := by
  rw [slots, h.size_eq, slotsFor]

/-- One more use raises its counters, and of the uses in the window it may drive out one,
whose counters it lowers. -/
theorem Remembers.increment (h : Remembers capacity sketch uses) (use : String) :
    Remembers capacity (sketch.increment use) (uses ++ [use]) ∧
      ∃ retired : List Nat,
        (sketch.increment use).counters =
          lower (raise sketch.counters (slotsFor capacity use)) retired ∧
        ∀ slot, hits capacity (uses ++ [use]) slot + retired.count slot =
          hitsWith capacity uses use slot := by
  obtain ⟨stay, hlater, hnow⟩ := exists_rtake_eq uses use (windowFor_pos capacity)
  obtain ⟨counters, window, windowSize⟩ := sketch
  have hsize : window.size = (uses.rtake (windowFor capacity)).length := by
    rw [window.size_eq_length, h.window_eq, List.length_map]
  have hwindow := h.window_eq
  obtain rfl : windowSize = windowFor capacity := h.windowSize_eq
  rw [Sketch.increment, h.slots_eq, sample]
  dsimp only
  rcases hnow with ⟨hroom, hstay⟩ | ⟨hfull, oldest, hstay⟩
  · -- there is room for the use, so none is driven out
    rw [if_neg (by omega)]
    refine ⟨⟨?_, rfl, ?_⟩, [], ?_, fun slot => ?_⟩
    · rw [size_raise, h.size_eq]
    · rw [Fifo.toList_push, hwindow, hstay, hlater, List.map_append]
      rfl
    · rw [lower_nil]
    · rw [hitsWith, hits, hits, hlater, hstay, List.flatMap_append, List.count_append,
        List.flatMap_singleton]
      rfl
  · rw [if_pos (by omega)]
    rw [hstay, List.map_cons] at hwindow
    cases hpop : window.pop? with
    | none =>
        rw [Fifo.pop?_eq_none.mp hpop] at hwindow
        exact absurd hwindow.symm (List.cons_ne_nil _ _)
    | some popped =>
        obtain ⟨first, rest⟩ := popped
        rw [Fifo.toList_of_pop? hpop, List.cons_eq_cons] at hwindow
        obtain ⟨hfirst, hrest⟩ := hwindow
        refine ⟨⟨?_, rfl, ?_⟩, first, rfl, fun slot => ?_⟩
        · rw [size_lower, size_raise, h.size_eq]
        · rw [Fifo.toList_push, hrest, hlater, List.map_append]
          rfl
        · rw [hitsWith, hits, hits, hlater, hstay, hfirst]
          simp only [List.flatMap_append, List.flatMap_cons, List.flatMap_nil, List.append_nil,
            List.count_append]
          omega

theorem ofUses_concat (capacity : Nat) (uses : List String) (use : String) :
    ofUses capacity (uses ++ [use]) = (ofUses capacity uses).increment use :=
  List.foldl_concat _ _ _ _

variable (capacity) in
/-- A sketch that has been fed some uses remembers the last of them that fit its window. -/
theorem remembers_ofUses (uses : List String) :
    Remembers capacity (ofUses capacity uses) uses := by
  induction uses using List.reverseRecOn with
  | nil =>
      rw [ofUses, List.foldl_nil, ofCapacity]
      refine ⟨Array.size_replicate, rfl, ?_⟩
      rw [List.rtake_nil]
      rfl
  | append_singleton uses use ih =>
      rw [ofUses_concat]
      exact (ih.increment use).1

variable (capacity) in
theorem slots_ofUses (uses : List String) (key : String) :
    (ofUses capacity uses).slots key = slotsFor capacity key :=
  (remembers_ofUses capacity uses).slots_eq key

/-- A counter follows its hits, but for the limit: what exceeds it is not counted. -/
theorem exists_level_eq {slot : Nat} (hslot : slot < widthFor (windowFor capacity))
    (uses : List String) (use : String) :
    ∃ retired, hits capacity (uses ++ [use]) slot + retired = hitsWith capacity uses use slot ∧
      level (ofUses capacity (uses ++ [use])).counters slot =
        min 255 (level (ofUses capacity uses).counters slot +
          (slotsFor capacity use).count slot) - retired := by
  have hremembers := remembers_ofUses capacity uses
  obtain ⟨retired, hcounters, hhits⟩ := (hremembers.increment use).2
  have hinside : slot < (ofUses capacity uses).counters.size := by rwa [hremembers.size_eq]
  refine ⟨retired.count slot, hhits slot, ?_⟩
  rw [ofUses_concat, hcounters, level_lower (by rwa [size_raise]), level_raise hinside]

end Window

/-! ## Falling behind -/

section Behind

variable {capacity : Nat} {uses : List String} {slot : Nat}

theorem hits_nil : hits capacity [] slot = 0 := by
  rw [hits, List.rtake_nil]
  rfl

/-- A counter never exceeds its hits. -/
theorem level_le_hits (hslot : slot < widthFor (windowFor capacity)) (uses : List String) :
    level (ofUses capacity uses).counters slot ≤ hits capacity uses slot := by
  induction uses using List.reverseRecOn with
  | nil =>
      rw [ofUses, List.foldl_nil, ofCapacity, level, Array.getElem?_replicate, if_pos hslot]
      exact Nat.zero_le _
  | append_singleton uses use ih =>
      obtain ⟨retired, hhits, hlevel⟩ := exists_level_eq hslot uses use
      rw [hitsWith] at hhits
      omega

/-- The hits tell that a counter misses at most `lost` of them: at some earlier moment
there were no more, and since then they never exceeded the limit by more. -/
def BehindAtMost (capacity : Nat) (uses : List String) (slot lost : Nat) : Prop :=
  ∃ earlier, earlier <+: uses ∧ hits capacity earlier slot ≤ lost ∧
    ∀ past use, earlier <+: past → past ++ [use] <+: uses →
      hitsWith capacity past use slot ≤ 255 + lost

/-- After one more use a counter is within its loss if its hits have fallen so low, or if it was
so before and the use does not drive it over the limit. -/
theorem behindAtMost_concat_iff {use : String} {lost : Nat} :
    BehindAtMost capacity (uses ++ [use]) slot lost ↔
      hits capacity (uses ++ [use]) slot ≤ lost ∨
        (BehindAtMost capacity uses slot lost ∧ hitsWith capacity uses use slot ≤ 255 + lost) := by
  constructor
  · rintro ⟨earlier, hearlier, hfew, hsince⟩
    rcases List.prefix_concat_iff.mp hearlier with rfl | hearlier
    · exact Or.inl hfew
    · refine Or.inr ⟨⟨earlier, hearlier, hfew, fun past other hpast hlater => ?_⟩, ?_⟩
      · exact hsince past other hpast (hlater.trans (List.prefix_append _ _))
      · exact hsince uses use hearlier List.prefix_rfl
  · rintro (hfew | ⟨⟨earlier, hearlier, hfew, hsince⟩, hlast⟩)
    · refine ⟨uses ++ [use], List.prefix_rfl, hfew, fun past other hpast hlater => ?_⟩
      -- nothing comes after the last use
      have hless := hpast.length_le
      have hmore := hlater.length_le
      simp only [List.length_append, List.length_singleton] at hless hmore
      omega
    · refine ⟨earlier, hearlier.trans (List.prefix_append _ _), hfew,
        fun past other hpast hlater => ?_⟩
      rcases List.prefix_concat_iff.mp hlater with heq | hlater
      · obtain ⟨rfl, hlast'⟩ := List.append_inj' heq rfl
        rwa [List.singleton_inj.mp hlast']
      · exact hsince past other hpast hlater

/-- A counter misses at most `lost` of its hits exactly if the hits tell so. -/
theorem hits_le_level_add_iff (hslot : slot < widthFor (windowFor capacity)) (uses : List String)
    (lost : Nat) :
    hits capacity uses slot ≤ level (ofUses capacity uses).counters slot + lost ↔
      BehindAtMost capacity uses slot lost := by
  induction uses using List.reverseRecOn with
  | nil =>
      rw [hits_nil]
      refine iff_of_true (Nat.zero_le _) ⟨[], List.prefix_rfl, hits_nil ▸ Nat.zero_le _, ?_⟩
      intro past use _ hlater
      exact absurd (List.prefix_nil.mp hlater) (List.append_ne_nil_of_right_ne_nil past nofun)
  | append_singleton uses use ih =>
      obtain ⟨retired, hhits, hlevel⟩ := exists_level_eq hslot uses use
      rw [behindAtMost_concat_iff, ← ih]
      rw [hitsWith] at hhits ⊢
      omega

end Behind

/-! ## Estimates -/

/-- An estimate is the least of the counters of a key. -/
theorem le_estimate_iff (capacity : Nat) (uses : List String) (key : String) (bound : Nat) :
    bound ≤ ((ofUses capacity uses).estimate key).toNat ↔
      bound ≤ 255 ∧ ∀ slot ∈ slotsFor capacity key,
        bound ≤ level (ofUses capacity uses).counters slot := by
  have hleast (slots : List Nat) (counters : Array UInt8) (least : UInt8) :
      bound ≤ (slots.foldl (fun least slot => min least (counters[slot]?.getD 0)) least).toNat ↔
        bound ≤ least.toNat ∧ ∀ slot ∈ slots, bound ≤ level counters slot := by
    induction slots generalizing least with
    | nil => simp
    | cons slot slots ih =>
        rw [List.foldl_cons, ih, UInt8.toNat_min, Nat.le_min, List.forall_mem_cons, and_assoc]
        rfl
  rw [estimate, slots_ofUses]
  exact hleast _ _ _

/-- How often a key occurs among the uses in the window. -/
def occurrences (capacity : Nat) (uses : List String) (key : String) : Nat :=
  (uses.rtake (windowFor capacity)).count key

/-- Every use of a key is a hit of each of its counters. -/
theorem occurrences_le_hits {capacity : Nat} {key : String} {slot : Nat}
    (hslot : slot ∈ slotsFor capacity key) (uses : List String) :
    occurrences capacity uses key ≤ hits capacity uses slot := by
  rw [occurrences, hits]
  induction uses.rtake (windowFor capacity) with
  | nil => exact Nat.zero_le _
  | cons use window ih =>
      rw [List.flatMap_cons, List.count_append, List.count_cons]
      split
      next heq =>
        have hpos : 0 < (slotsFor capacity use).count slot := by
          rw [beq_iff_eq.mp heq]
          exact List.count_pos_iff.mpr hslot
        omega
      next => omega

/-- An estimate is below the number of occurrences, as far as a counter can tell it, exactly
if one of the counters of the key has fallen behind by more than its other hits. -/
theorem occurrences_le_estimate_iff (capacity : Nat) (uses : List String) (key : String) :
    min 255 (occurrences capacity uses key) ≤ ((ofUses capacity uses).estimate key).toNat ↔
      ∀ slot ∈ slotsFor capacity key, BehindAtMost capacity uses slot
        (hits capacity uses slot - min 255 (occurrences capacity uses key)) := by
  rw [le_estimate_iff, and_iff_right (Nat.min_le_left _ _)]
  refine forall₂_congr fun slot hslot => ?_
  rw [← hits_le_level_add_iff (lt_of_mem_slotsFor hslot)]
  have := occurrences_le_hits hslot uses
  omega

/-- When one key is used again and again, each use in the window hits a slot as often as the key
names it. -/
theorem hits_replicate (capacity count : Nat) (key : String) (slot : Nat) :
    hits capacity (List.replicate count key) slot =
      min count (windowFor capacity) * (slotsFor capacity key).count slot := by
  have hwindow : (List.replicate count key).rtake (windowFor capacity) =
      List.replicate (min count (windowFor capacity)) key := by
    rw [List.rtake, List.drop_replicate, List.length_replicate]
    congr 1
    omega
  rw [hits, hwindow]
  induction min count (windowFor capacity) with
  | zero => simp
  | succ count ih =>
      rw [List.replicate_succ, List.flatMap_cons, List.count_append, ih, Nat.succ_mul, Nat.add_comm]

/-- Of a key that is used without end, each use finds the counters at their limit and
drives out one that was counted. -/
theorem estimate_replicate_lt (capacity : Nat) (key : String) :
    ((ofUses capacity (List.replicate (windowFor capacity + 1) key)).estimate key).toNat < 255 := by
  obtain ⟨slot, hslot⟩ : ∃ slot, slot ∈ slotsFor capacity key := ⟨_, List.mem_cons_self⟩
  obtain ⟨retired, hhits, hlevel⟩ := exists_level_eq (lt_of_mem_slotsFor hslot)
    (List.replicate (windowFor capacity) key) key
  have hpos := List.count_pos_iff.mpr hslot
  have hle := ((le_estimate_iff capacity (List.replicate (windowFor capacity + 1) key) key _).mp
    (Nat.le_refl _)).2 slot hslot
  rw [← List.replicate_succ', hits_replicate, hitsWith, hits_replicate,
    Nat.min_eq_right (Nat.le_succ _), Nat.min_self] at hhits
  rw [← List.replicate_succ'] at hlevel
  omega

/-- A key fills the window, and one more use of it brings its estimate below the limit. -/
theorem single_key_undercounted :
    ¬ min 255 (occurrences 1 (List.replicate 257 "k") "k") ≤
      ((ofUses 1 (List.replicate 257 "k")).estimate "k").toNat := by
  have hwindow : windowFor 1 = 256 := rfl
  have hoccurrences : occurrences 1 (List.replicate 257 "k") "k" = 256 := by
    rw [occurrences, hwindow, List.rtake, List.drop_replicate, List.count_replicate_self,
      List.length_replicate]
  have hlt : ((ofUses 1 (List.replicate 257 "k")).estimate "k").toNat < 255 :=
    estimate_replicate_lt 1 "k"
  omega

/-- A counter never exceeds its hits, so that a key is forgotten with the last hit of one
of its counters. As long as its hits stay within the limit, a counter is equal to them. -/
theorem counters_follow_hits (capacity : Nat) (uses : List String) :
    (ofUses capacity uses).windowSize = windowFor capacity ∧
      (∀ slot counter, (ofUses capacity uses).counters[slot]? = some counter →
        counter.toNat ≤ hits capacity uses slot ∧
          ((∀ past use, past ++ [use] <+: uses → hitsWith capacity past use slot ≤ 255) →
            counter.toNat = hits capacity uses slot)) ∧
      ∀ key, ∀ slot ∈ (ofUses capacity uses).slots key,
        slot < (ofUses capacity uses).counters.size ∧
          (hits capacity uses slot = 0 → (ofUses capacity uses).estimate key = 0) := by
  have hremembers := remembers_ofUses capacity uses
  refine ⟨hremembers.windowSize_eq, fun slot counter hcounter => ?_, fun key slot hslot => ?_⟩
  · have hinside : slot < widthFor (windowFor capacity) := by
      rw [← hremembers.size_eq]
      exact (Array.getElem?_eq_some_iff.mp hcounter).1
    have hlevel : level (ofUses capacity uses).counters slot = counter.toNat := by
      rw [level, hcounter, Option.getD_some]
    have hle := level_le_hits hinside uses
    rw [hlevel] at hle
    refine ⟨hle, fun hlimit => Nat.le_antisymm hle ?_⟩
    rw [← hlevel]
    exact (hits_le_level_add_iff hinside uses 0).mpr
      ⟨[], List.nil_prefix, Nat.le_of_eq hits_nil, fun past use _ hpast => hlimit past use hpast⟩
  · rw [slots_ofUses] at hslot
    refine ⟨hremembers.size_eq ▸ lt_of_mem_slotsFor hslot, fun hnone => ?_⟩
    have hle := ((le_estimate_iff capacity uses key _).mp (Nat.le_refl _)).2 slot hslot
    have hlevel := level_le_hits (lt_of_mem_slotsFor hslot) uses
    exact UInt8.toNat_inj.mp (Nat.eq_zero_of_le_zero (by omega))

end ReplicatedCache.Sketch
