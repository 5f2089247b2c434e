import ReplicatedCache.Entry

/-! # Times to live and deadlines

A deadline is the instant from which it is counted and the time to live in whole
milliseconds, at least one, added up; a sum past the last instant stops there. So no
deadline wraps around, and an entry is live from the instant at which it was stored up
to its deadline and at no instant after that. A time to live that has travelled leads
to the same deadline: its fraction of a millisecond does not count, and the longest span
that travels is beyond the last instant.
-/

namespace ReplicatedCache

theorem Entry.expired_iff {entry : Entry} {now : Instant} :
    entry.expired now = true ↔ 0 < entry.deadline ∧ entry.deadline ≤ now := by
  simp [Entry.expired]

namespace Span

theorem eq_zero_iff {ttl : Span} : ttl = .zero ↔ ttl.nanos = 0 := by
  obtain ⟨nanos⟩ := ttl
  rw [zero, Span.mk.injEq]

/-- On the wire a span that is not zero is at least one millisecond and at most what a word can
carry. -/
theorem toNat_toWire {ttl : Span} (h : ttl.nanos ≠ 0) :
    ttl.toWire.toNat = max 1 (min ttl.millis maxWire) := by
  have hmax : maxWire = UInt64.size - 1 := rfl
  have hsize : 1 < UInt64.size := by decide
  rw [toWire, if_neg h]
  exact UInt64.toNat_ofNat_of_lt' (by omega)

@[simp] theorem millis_ofWire (millis : UInt64) : (ofWire millis).millis = millis.toNat :=
  Nat.mul_div_cancel _ (by decide)

/-- Whether there is a limit at all does not get lost on the way. -/
theorem nanos_ofWire_toWire_eq_zero (ttl : Span) :
    (ofWire ttl.toWire).nanos = 0 ↔ ttl.nanos = 0 := by
  by_cases h : ttl.nanos = 0
  · rw [toWire, if_pos h]
    exact ⟨fun _ => h, fun _ => rfl⟩
  · have hsome : 0 < ttl.toWire.toNat := by
      rw [toNat_toWire h]
      omega
    refine ⟨fun hzero => ?_, fun hzero => absurd hzero h⟩
    change ttl.toWire.toNat * 1000000 = 0 at hzero
    omega

end Span

/-! ## Deadlines -/

/-- A deadline is the same whether or not the time to live has travelled. Its fraction
of a millisecond does not count, and the longest span that travels is beyond the last
instant. -/
@[simp] theorem deadlineAfter_ofWire_toWire (now : Instant) (ttl : Span) :
    deadlineAfter now (.ofWire ttl.toWire) = deadlineAfter now ttl := by
  have hlast : lastInstant ≤ (Span.maxWire : Int) := by decide
  simp only [deadlineAfter, Span.nanos_ofWire_toWire_eq_zero]
  by_cases h : ttl.nanos = 0
  · rw [if_pos h, if_pos h]
  · rw [if_neg h, if_neg h, Span.millis_ofWire, Span.toNat_toWire h]
    congr 2
    omega

variable {now : Instant} {ttl : Span}

/-- An unlimited span gives no deadline, whatever the clock shows. -/
theorem deadlineAfter_of_unlimited (h : ttl.nanos = 0) : deadlineAfter now ttl = 0 := if_pos h

/-- A limited time to live is added to the instant from which it is counted, up to the
last instant. -/
theorem toInt_deadlineAfter (h : ttl.nanos ≠ 0) :
    (deadlineAfter now ttl).toInt =
      min (now.toInt + max 1 (min (ttl.millis : Int) lastInstant)) lastInstant := by
  have hleast : Int64.minValue.toInt ≤ now.toInt := Int64.minValue_le_toInt now
  rw [deadlineAfter, if_neg h, lastInstant]
  rcases Int.le_total (now.toInt + max 1 (min (ttl.millis : Int) Int64.maxValue.toInt))
    Int64.maxValue.toInt with hfits | hpast
  · rw [Int64.toInt_ofIntClamp (by omega) hfits, Int.min_eq_left hfits]
  · rw [Int.min_eq_right hpast, Int64.ofIntClamp, dif_pos (by omega)]
    split
    next hfits => rw [Int64.toInt_ofIntLE, Int.le_antisymm hfits hpast]
    next => rfl

/-- From the epoch on, no digit of the sum is lost before it is cut off. -/
theorem toInt_deadlineAfter_of_nonneg (hnow : 0 ≤ now) (h : ttl.nanos ≠ 0) :
    (deadlineAfter now ttl).toInt = min (now.toInt + max 1 (ttl.millis : Int)) lastInstant := by
  have hzero : (0 : Int) ≤ now.toInt := Int64.le_iff_toInt_le.mp hnow
  rw [toInt_deadlineAfter h]
  omega

/-- A time to live ends after the instant from which it is counted. -/
theorem lt_deadlineAfter (hnow : now < Int64.maxValue) (hlimited : ttl.nanos ≠ 0) :
    now < deadlineAfter now ttl := by
  have hlast : now.toInt < lastInstant := Int64.lt_iff_toInt_lt.mp hnow
  rw [Int64.lt_iff_toInt_lt, toInt_deadlineAfter hlimited]
  omega

/-- What is stored at an instant before the last one has not expired at it. -/
theorem not_expired_of_deadlineAfter {entry : Entry} (hnow : now < Int64.maxValue)
    (h : entry.deadline = deadlineAfter now ttl) : ¬ entry.expired now = true := by
  rw [Entry.expired_iff, h]
  rintro ⟨hpos, hle⟩
  by_cases hlimited : ttl.nanos = 0
  · rw [deadlineAfter_of_unlimited hlimited] at hpos
    exact absurd hpos (by decide)
  · exact absurd hle (Int64.not_le.mpr (lt_deadlineAfter hnow hlimited))

/-- A limited span always gives a proper deadline: zero stays free to say that an entry never
lapses. -/
theorem deadlineAfter_pos (hnow : 0 ≤ now) (h : ttl.nanos ≠ 0) : 0 < deadlineAfter now ttl := by
  have hzero : (0 : Int) ≤ now.toInt := Int64.le_iff_toInt_le.mp hnow
  have hlast : 0 < lastInstant := by decide
  rw [Int64.lt_iff_toInt_lt, toInt_deadlineAfter_of_nonneg hnow h, Int64.toInt_zero]
  omega

theorem deadlineAfter_eq_zero_iff (hnow : 0 ≤ now) : deadlineAfter now ttl = 0 ↔ ttl = .zero := by
  rw [Span.eq_zero_iff]
  refine ⟨fun hzero => Decidable.byContradiction fun h => ?_, deadlineAfter_of_unlimited⟩
  have hpos := deadlineAfter_pos hnow h
  rw [hzero] at hpos
  exact absurd hpos (by decide)

/-- Who stores later has the later deadline. -/
theorem deadlineAfter_mono_now {later : Instant} (ttl : Span) (h : now ≤ later) :
    deadlineAfter now ttl ≤ deadlineAfter later ttl := by
  by_cases hlimited : ttl.nanos = 0
  · rw [deadlineAfter_of_unlimited hlimited, deadlineAfter_of_unlimited hlimited]
    exact Int64.le_refl 0
  · have hle : now.toInt ≤ later.toInt := Int64.le_iff_toInt_le.mp h
    rw [Int64.le_iff_toInt_le, toInt_deadlineAfter hlimited, toInt_deadlineAfter hlimited]
    omega

/-- The longer a time to live, the later its deadline. No limit counts as the shortest. -/
theorem deadlineAfter_mono_ttl {longer : Span} (hnow : 0 ≤ now) (h : ttl.nanos ≤ longer.nanos) :
    deadlineAfter now ttl ≤ deadlineAfter now longer := by
  by_cases hlonger : longer.nanos = 0
  · have hlimited : ttl.nanos = 0 := by omega
    rw [deadlineAfter_of_unlimited hlimited, deadlineAfter_of_unlimited hlonger]
    exact Int64.le_refl 0
  · by_cases hlimited : ttl.nanos = 0
    · rw [deadlineAfter_of_unlimited hlimited]
      exact Int64.le_of_lt (deadlineAfter_pos hnow hlonger)
    · have hmillis : ttl.millis ≤ longer.millis := Nat.div_le_div_right h
      rw [Int64.le_iff_toInt_le, toInt_deadlineAfter hlimited, toInt_deadlineAfter hlonger]
      omega

/-- A time to live that is counted from an instant as it should be: nothing overflows,
only "no limit" is `0`, more time or a later start never makes a deadline earlier, and
an entry that is given the deadline lives until then and not longer. -/
structure CountsExactly (now : Instant) (ttl : Span) : Prop where
  toInt_eq : (deadlineAfter now ttl).toInt =
    if ttl = .zero then 0 else min (now.toInt + max 1 (ttl.millis : Int)) lastInstant
  eq_zero_iff : deadlineAfter now ttl = 0 ↔ ttl = .zero
  mono_now : ∀ later, now ≤ later → deadlineAfter now ttl ≤ deadlineAfter later ttl
  mono_ttl : ∀ longer : Span, ttl.nanos ≤ longer.nanos →
    deadlineAfter now ttl ≤ deadlineAfter now longer
  lives : ttl ≠ .zero → now < Int64.maxValue →
    ∀ entry : Entry, entry.deadline = deadlineAfter now ttl →
      now < entry.deadline ∧
        (∀ time, now ≤ time → time < entry.deadline → entry.live time = true) ∧
        ∀ time, entry.deadline ≤ time → entry.expired time = true

/-- From the epoch on every time to live is counted exactly, and from whatever instant
it is counted, it leads to the same deadline once it has travelled. -/
theorem deadlines_exact_and_transparent :
    (∀ now : Instant, 0 ≤ now → ∀ ttl : Span, CountsExactly now ttl) ∧
      ∀ (now : Instant) (ttl : Span),
        deadlineAfter now (.ofWire ttl.toWire) = deadlineAfter now ttl := by
  refine ⟨fun now hnow ttl => ?_, deadlineAfter_ofWire_toWire⟩
  constructor
  · split
    next hzero => rw [deadlineAfter_of_unlimited (Span.eq_zero_iff.mp hzero), Int64.toInt_zero]
    next hlimited => exact toInt_deadlineAfter_of_nonneg hnow (mt Span.eq_zero_iff.mpr hlimited)
  · exact deadlineAfter_eq_zero_iff hnow
  · exact fun later => deadlineAfter_mono_now ttl
  · exact fun longer => deadlineAfter_mono_ttl hnow
  · intro hlimited hearlier entry hdeadline
    have hnanos : ttl.nanos ≠ 0 := mt Span.eq_zero_iff.mpr hlimited
    have hpos : 0 < entry.deadline := hdeadline ▸ deadlineAfter_pos hnow hnanos
    refine ⟨hdeadline ▸ lt_deadlineAfter hearlier hnanos, fun time _ hbefore => ?_,
      fun time hafter => Entry.expired_iff.mpr ⟨hpos, hafter⟩⟩
    rw [Entry.live, Bool.not_eq_true', ← Bool.not_eq_true, Entry.expired_iff]
    exact fun hover => Int64.not_le.mpr hbefore hover.2

/-- A minute that begins five milliseconds before the last instant ends at the last
instant, and what is stored for it is live until then. -/
theorem deadlines_exact_at_last_instant :
    let now : Instant := Int64.maxValue - 5
    let ttl := Span.ofSeconds 60
    0 ≤ now ∧ ttl ≠ .zero ∧ now < Int64.maxValue ∧
      (deadlineAfter now ttl).toInt = lastInstant ∧
      (∀ value token, (Entry.mk value (deadlineAfter now ttl) token).live (now + 4) = true) ∧
      deadlineAfter now (.ofWire ttl.toWire) = deadlineAfter now ttl := by
  intro now ttl
  have hnow : 0 ≤ now := by decide
  have hcounts := deadlines_exact_and_transparent.1 now hnow ttl
  refine ⟨hnow, by decide, by decide, ?_, fun value token => ?_,
    deadlines_exact_and_transparent.2 now ttl⟩
  · rw [hcounts.toInt_eq]
    decide
  · have hbefore : now + 4 < deadlineAfter now ttl := by decide
    exact (hcounts.lives (by decide) (by decide) _ rfl).2.1 (now + 4) (by decide) hbefore

end ReplicatedCache
