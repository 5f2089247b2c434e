import Mathlib.Data.List.Basic
import Std.Data.ExtTreeMap
import ReplicatedCache.Proofs.Engine.Run

/-! # A plain map with deadlines

The map from keys to entries that an engine should be. Nothing ever leaves it by
itself: a key is live if it is bound and its deadline has not come. Which keys
leave for a write, and which writes are turned down, the map cannot know; it is
told so with every call.

The map marks the bindings that a call has met after their deadline, because a
sweep counts only the others.
-/

namespace ReplicatedCache

/-- The entry of the last storing write to a key, and whether a call has met it
after its deadline. -/
structure Binding where
  entry : Entry
  met : Bool := false

/-- The binding once a call has met it. -/
def Binding.meet (binding : Binding) (now : Instant) : Binding :=
  { binding with met := binding.met || binding.entry.expired now }

/-- A map from keys to bindings, and the counter that mints tokens. -/
structure TtlMap where
  bindings : Std.ExtTreeMap String Binding compare := ∅
  nextToken : Token := 1

namespace TtlMap

section Calls

variable (map : TtlMap) (now : Instant) (key : String)

/-- The entry of a key, if it is live. -/
def lookup : Option Entry :=
  (map.bindings[key]?.map Binding.entry).filter fun entry => entry.live now

def freshToken : Token := if map.nextToken = 0 then 1 else map.nextToken

def mint : TtlMap := { map with nextToken := map.freshToken + 1 }

/-- Binds a key to a new entry, for which some keys leave. -/
def store (value : Value) (deadline : Instant) (leaving : List String) : TtlMap :=
  { map.mint with
    bindings := (map.bindings.filter fun other _ => decide (other ∉ leaving)).insert key
      { entry := ⟨value, deadline, map.freshToken⟩ } }

def erase : TtlMap := { map with bindings := map.bindings.erase key }

def meet : TtlMap := { map with bindings := map.bindings.modify key fun b => b.meet now }

def meetAll : TtlMap := { map with bindings := map.bindings.map fun _ b => b.meet now }

/-- How many bindings are over that no call has met. -/
def unmetOver : Nat :=
  (map.bindings.filter fun _ b => !b.met && b.entry.expired now).size

/-- Applies a recorded change, for which some keys leave. -/
def replay (leaving : List String) : Record → TtlMap
  | .delete key => map.erase key
  | .set key value deadline =>
    if 0 < deadline ∧ deadline ≤ now then map.erase key else map.store key value deadline leaving

end Calls

/-- Applies recorded changes, each with the keys that leave for it. -/
def restore (map : TtlMap) (now : Instant) (records : List (Option Record × List String)) :
    TtlMap :=
  records.foldl (fun map (record, leaving) =>
      match record with
      | some record => map.replay now leaving record
      | none => map)
    map

/-- Carries one call out, given what the segments have said to each write in it. -/
def apply (map : TtlMap) (now : Instant) (verdicts : List PutOutcome) :
    EngineCall → TtlMap × EngineAnswer
  | .set key value ttl =>
    let verdict := verdicts.headD { stored := true }
    if verdict.stored then
      (map.store key value (deadlineAfter now ttl) verdict.evicted, .holds true)
    else (map.mint, .holds false)
  | .get key => (map.meet now key, .value ((map.lookup now key).map Entry.value))
  | .getWithToken key =>
    (map.meet now key,
      .valueWithToken ((map.lookup now key).map fun entry => (entry.value, entry.token)))
  | .contains key => (map, .holds (map.lookup now key).isSome)
  | .delete key => (map.erase key, .holds (map.lookup now key).isSome)
  | .compareAndSwap key value expected ttl =>
    match map.lookup now key with
    | none => (map.meet now key, .swapped .notFound)
    | some found =>
      if found.token = expected then
        (map.store key value (if ttl.nanos = 0 then found.deadline else deadlineAfter now ttl) [],
          .swapped (.stored map.freshToken))
      else (map, .swapped .conflict)
  | .clear => ({ map with bindings := ∅ }, .done)
  | .replay record =>
    (map.replay now (verdicts.headD { stored := true }).evicted record, .done)
  | .restore records =>
    (map.restore now (records.zip (verdicts.map PutOutcome.evicted)),
      .restored (Engine.tally records))
  | .reap => (map.meetAll now, .reaped (map.unmetOver now))

/-- Carries calls out one after another, each at its time and with its verdicts. -/
def run (map : TtlMap) : List ((Instant × EngineCall) × List PutOutcome) →
    TtlMap × List EngineAnswer
  | [] => (map, [])
  | ((now, call), verdicts) :: rest =>
    let (map, answer) := map.apply now verdicts call
    let (map, answers) := map.run rest
    (map, answer :: answers)

/-- A write is turned down fairly if its key is not live and nothing leaves for it. -/
def Fair (map : TtlMap) (now : Instant) (verdicts : List PutOutcome) : EngineCall → Prop
  | .set key _ _ =>
    let verdict := verdicts.headD { stored := true }
    verdict.stored = false → map.lookup now key = none ∧ verdict.evicted = []
  | _ => True

/-- All writes along a run that are turned down are turned down fairly. -/
def FairRun (map : TtlMap) : List ((Instant × EngineCall) × List PutOutcome) → Prop
  | [] => True
  | ((now, call), verdicts) :: rest =>
    map.Fair now verdicts call ∧ (map.apply now verdicts call).1.FairRun rest

/-! ## What the map holds under a key -/

section Bindings

variable (map : TtlMap) (now : Instant) (key other : String)

theorem getElem?_store (value : Value) (deadline : Instant) (leaving : List String) :
    (map.store key value deadline leaving).bindings[other]? =
      if other = key then some { entry := ⟨value, deadline, map.freshToken⟩ }
      else if other ∈ leaving then none else map.bindings[other]? := by
  unfold store
  rw [Std.ExtTreeMap.getElem?_insert, Std.ExtTreeMap.getElem?_filter']
  simp only [Std.LawfulEqCmp.compare_eq_iff_eq]
  by_cases heq : other = key
  · rw [if_pos heq, if_pos heq.symm]
  · rw [if_neg heq, if_neg (Ne.symm heq)]
    cases map.bindings[other]? <;> simp [Option.filter_some]

theorem getElem?_erase :
    (map.erase key).bindings[other]? = if other = key then none else map.bindings[other]? := by
  unfold erase
  rw [Std.ExtTreeMap.getElem?_erase]
  simp only [Std.LawfulEqCmp.compare_eq_iff_eq]
  by_cases heq : other = key
  · rw [if_pos heq, if_pos heq.symm]
  · rw [if_neg heq, if_neg (Ne.symm heq)]

theorem getElem?_meet :
    (map.meet now key).bindings[other]? =
      if other = key then map.bindings[key]?.map fun b => b.meet now
      else map.bindings[other]? := by
  unfold meet
  rw [Std.ExtTreeMap.getElem?_modify]
  simp only [Std.LawfulEqCmp.compare_eq_iff_eq]
  by_cases heq : other = key
  · rw [if_pos heq, if_pos heq.symm]
  · rw [if_neg heq, if_neg (Ne.symm heq)]

theorem getElem?_meetAll :
    (map.meetAll now).bindings[key]? = map.bindings[key]?.map fun b => b.meet now :=
  Std.ExtTreeMap.getElem?_map

end Bindings

/-! ## Bindings that no call has met -/

/-- The entry of a key, live or over, unless a call has met it after its deadline. -/
def unmet (map : TtlMap) (key : String) : Option Entry :=
  (map.bindings[key]?.filter fun b => !b.met).map Binding.entry

/-- Whatever has been met is over. -/
def MetOver (map : TtlMap) (now : Instant) : Prop :=
  ∀ (key : String) (b : Binding), map.bindings[key]? = some b → b.met = true →
    b.entry.expired now = true

section Unmet

variable (map : TtlMap) (now : Instant) (key other : String)

/-- What is stored under a key has not been met yet, and those that leave for it are gone. -/
theorem unmet_store (value : Value) (deadline : Instant) (leaving : List String) :
    (map.store key value deadline leaving).unmet other =
      if other = key then some ⟨value, deadline, map.freshToken⟩
      else if other ∈ leaving then none else map.unmet other := by
  unfold unmet
  rw [getElem?_store]
  split
  next => rfl
  next => split <;> rfl

theorem unmet_erase :
    (map.erase key).unmet other = if other = key then none else map.unmet other := by
  unfold unmet
  rw [getElem?_erase]
  split <;> rfl

theorem filter_meet (found : Option Binding) :
    ((found.map fun b => b.meet now).filter fun b => !b.met).map Binding.entry =
      ((found.filter fun b => !b.met).map Binding.entry).filter fun entry => entry.live now := by
  cases found with
  | none => rfl
  | some b =>
      obtain ⟨entry, met⟩ := b
      cases met <;> cases h : entry.expired now <;>
        simp [Binding.meet, Entry.live, h, Option.filter_some]

theorem unmet_meet :
    (map.meet now key).unmet other =
      if other = key then (map.unmet key).filter fun entry => entry.live now
      else map.unmet other := by
  unfold unmet
  rw [getElem?_meet]
  split
  next => exact filter_meet now _
  next => rfl

/-- Meeting every key at once leaves what is live. -/
theorem unmet_meetAll :
    (map.meetAll now).unmet key = (map.unmet key).filter fun entry => entry.live now := by
  unfold unmet
  rw [getElem?_meetAll]
  exact filter_meet now _

/-- What is over by itself does not count as live, met or not. -/
theorem lookup_eq (h : map.MetOver now) :
    map.lookup now key = (map.unmet key).filter fun entry => entry.live now := by
  unfold lookup unmet
  cases hfind : map.bindings[key]? with
  | none => rfl
  | some b =>
      cases hmet : b.met with
      | false => simp [hmet, Option.filter_some]
      | true =>
          have hexpired := h key b hfind hmet
          simp [hmet, Entry.live, hexpired, Option.filter_some]

end Unmet

namespace MetOver

variable {map : TtlMap} {now : Instant}

/-- Whatever has been met after its deadline stays past it. -/
theorem mono {later : Instant} (h : map.MetOver now) (hle : now ≤ later) : map.MetOver later := by
  intro key b hfind hmet
  have hexpired := h key b hfind hmet
  simp only [Entry.expired, Bool.and_eq_true, decide_eq_true_iff] at hexpired ⊢
  exact ⟨hexpired.1, Int64.le_trans hexpired.2 hle⟩

theorem store (h : map.MetOver now) (key : String) (value : Value) (deadline : Instant)
    (leaving : List String) : (map.store key value deadline leaving).MetOver now := by
  intro other b hfind hmet
  rw [getElem?_store] at hfind
  split at hfind
  next =>
    rw [← Option.some.inj hfind] at hmet
    exact absurd hmet Bool.false_ne_true
  next =>
    split at hfind
    next => exact absurd hfind nofun
    next => exact h other b hfind hmet

theorem erase (h : map.MetOver now) (key : String) : (map.erase key).MetOver now := by
  intro other b hfind hmet
  rw [getElem?_erase] at hfind
  split at hfind
  next => exact absurd hfind nofun
  next => exact h other b hfind hmet

theorem of_meet (h : map.MetOver now) {key : String} {b : Binding}
    (hfind : map.bindings[key]?.map (fun b => b.meet now) = some b) (hmet : b.met = true) :
    b.entry.expired now = true := by
  obtain ⟨old, hold, rfl⟩ := Option.map_eq_some_iff.mp hfind
  rcases Bool.or_eq_true_iff.mp hmet with hbefore | hexpired
  · exact h key old hold hbefore
  · exact hexpired

theorem meet (h : map.MetOver now) (key : String) : (map.meet now key).MetOver now := by
  intro other b hfind hmet
  rw [getElem?_meet] at hfind
  split at hfind
  next => exact h.of_meet hfind hmet
  next => exact h other b hfind hmet

theorem meetAll (h : map.MetOver now) : (map.meetAll now).MetOver now := by
  intro key b hfind hmet
  rw [getElem?_meetAll] at hfind
  exact h.of_meet hfind hmet

end MetOver

end TtlMap

end ReplicatedCache
