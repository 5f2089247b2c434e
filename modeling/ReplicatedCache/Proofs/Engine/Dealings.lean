import Mathlib.Algebra.BigOperators.Group.List.Basic
import Mathlib.Algebra.GroupWithZero.Nat
import Mathlib.Data.Finset.Card
import ReplicatedCache.Proofs.Engine.Capacity
import ReplicatedCache.Proofs.Engine.Reports

/-! # Dealings

The statistics of an engine can be checked from outside. A dealing is a call that has been
answered, with the keys that there were before and after it. What the dealings of a run
come to, together with the signals that were issued, is what the counters have counted,
and which keys came and left is what the size of the engine is.
-/

namespace ReplicatedCache

/-- A call that has been answered, and the keys that were there before and after it. -/
structure Dealing where
  now : Instant
  made : EngineCall
  answer : EngineAnswer
  before : Finset String
  after : Finset String

namespace Dealing

variable (dealing : Dealing)

/-- A lookup, whatever it answers. -/
@[simp] def looksUp : Bool :=
  match dealing.made with
  | .get _ => true
  | .getWithToken _ => true
  | _ => false

/-- A lookup that finds a value. -/
@[simp] def hits : Bool :=
  match dealing.made, dealing.answer with
  | .get _, .value found => found.isSome
  | .getWithToken _, .valueWithToken found => found.isSome
  | _, _ => false

/-- A lookup that finds nothing. -/
@[simp] def misses : Bool :=
  match dealing.made, dealing.answer with
  | .get _, .value found => found.isNone
  | .getWithToken _, .valueWithToken found => found.isNone
  | _, _ => false

/-- A write that has been stored. -/
@[simp] def writes : Bool :=
  match dealing.made, dealing.answer with
  | .set _ _ _, .holds stored => stored
  | .compareAndSwap _ _ _ _, .swapped answer => answer.isStored
  | _, _ => false

/-- A write that has been turned down. -/
@[simp] def rejected : Bool :=
  match dealing.made, dealing.answer with
  | .set _ _ _, .holds stored => !stored
  | _, _ => false

/-- A delete that has found its key. -/
@[simp] def deletes : Bool :=
  match dealing.made, dealing.answer with
  | .delete _, .holds deleted => deleted
  | _, _ => false

@[simp] def stored? : Option String :=
  match dealing.made, dealing.answer with
  | .set key _ _, .holds true => some key
  | .compareAndSwap key _ _ _, .swapped (.stored _) => some key
  | .replay (.set key _ deadline), _ =>
    if 0 < deadline ∧ deadline ≤ dealing.now then none else some key
  | _, _ => none

/-- An entry comes in under a key that was not there. -/
@[simp] def arrives : Bool :=
  match dealing.stored? with
  | some key => decide (key ∉ dealing.before)
  | none => false

@[simp] def departed : Finset String := dealing.before \ dealing.after

/-- How many keys made room for a recorded entry. -/
@[simp] def displaced : Nat :=
  match dealing.made, dealing.stored? with
  | .replay _, some _ => dealing.departed.card
  | _, _ => 0

/-- How many keys left without a word when something else was replayed, or when the engine
was cleared. -/
@[simp] def silenced : Nat :=
  match dealing.made, dealing.stored? with
  | .replay _, none => dealing.departed.card
  | .clear, _ => dealing.departed.card
  | _, _ => 0

end Dealing

namespace Signal

def tellsSet : Signal → Bool
  | .event (.set _) => true
  | _ => false

def tellsRemoval (cause : RemovalCause) : Signal → Bool
  | .removal _ told => decide (told = cause)
  | _ => false

/-- What is told of an entry that has come in under a key. -/
def ofEntry (key : String) (evicted : List String) : List Signal :=
  (evicted.map fun victim => .removal victim .evicted) ++ [.event (.set key)]

/-- What is told of keys that have been found to be over. -/
def ofLapsed (keys : List String) : List Signal := keys.map fun key => .removal key .expired

/-- Telling the removal of some keys counts each of them under the cause that is told. -/
theorem countP_tellsRemoval (keys : List String) (cause told : RemovalCause) :
    (keys.map fun key => Signal.removal key told).countP (tellsRemoval cause) =
      if told = cause then keys.length else 0 := by
  rw [List.countP_map]
  split
  next heq => exact List.countP_eq_length.mpr fun key _ => decide_eq_true heq
  next hne => exact List.countP_eq_zero.mpr fun key _ => by simp [tellsRemoval, hne]

theorem countP_tellsSet (keys : List String) (told : RemovalCause) :
    (keys.map fun key => Signal.removal key told).countP tellsSet = 0 := by
  rw [List.countP_map]
  exact List.countP_eq_zero.mpr fun key _ => Bool.false_ne_true

@[simp] theorem countP_tellsRemoval_ofEntry (key : String) (evicted : List String)
    (cause : RemovalCause) : (ofEntry key evicted).countP (tellsRemoval cause) =
      if .evicted = cause then evicted.length else 0 := by
  rw [ofEntry, List.countP_append, countP_tellsRemoval]
  rfl

@[simp] theorem countP_tellsSet_ofEntry (key : String) (evicted : List String) :
    (ofEntry key evicted).countP tellsSet = 1 := by
  rw [ofEntry, List.countP_append, countP_tellsSet]
  rfl

@[simp] theorem countP_tellsRemoval_ofLapsed (keys : List String) (cause : RemovalCause) :
    (ofLapsed keys).countP (tellsRemoval cause) =
      if .expired = cause then keys.length else 0 :=
  countP_tellsRemoval keys cause .expired

@[simp] theorem countP_tellsSet_ofLapsed (keys : List String) :
    (ofLapsed keys).countP tellsSet = 0 :=
  countP_tellsSet keys .expired

end Signal

namespace Stats

@[simp] theorem get_add (stats : Stats) (counter other : Counter) (amount : UInt64) :
    (stats.add counter amount).get other =
      stats.get other + if other = counter then amount else 0 := by
  split
  next heq => rw [heq, get_add_self]
  next hne => rw [get_add_of_ne stats amount hne, UInt64.add_zero]

/-- Counting touches one counter and raises it by one. -/
@[simp] theorem get_count (stats : Stats) (counter other : Counter) :
    (stats.count counter).get other = stats.get other + if other = counter then 1 else 0 :=
  get_add stats counter other 1

end Stats

@[simp] theorem Engine.stats_count {A : Type} (engine : Engine A) (counter : Counter) :
    (engine.count counter).stats = engine.stats.count counter := rfl

/-- How often something has happened, going by what was answered and told. -/
def Counter.tally (signals : List Signal) (dealings : List Dealing) : Counter → Nat
  | .hits => dealings.countP Dealing.hits
  | .misses => dealings.countP Dealing.misses
  | .sets => dealings.countP Dealing.writes
  | .rejectedSets => dealings.countP Dealing.rejected
  | .deletes => dealings.countP Dealing.deletes
  | .evictions =>
    signals.countP (Signal.tellsRemoval .evicted) + (dealings.map Dealing.displaced).sum
  | .expirations => signals.countP (Signal.tellsRemoval .expired)

def departures (signals : List Signal) (dealings : List Dealing) : Nat :=
  Counter.tally signals dealings .deletes + Counter.tally signals dealings .expirations +
    Counter.tally signals dealings .evictions + (dealings.map Dealing.silenced).sum

section Tally

variable (signals later : List Signal) (dealings next : List Dealing)

/-- The tally of a counter adds up over stretches of a run. -/
theorem tally_append (counter : Counter) :
    counter.tally (signals ++ later) (dealings ++ next) =
      counter.tally signals dealings + counter.tally later next := by
  cases counter with
  | evictions =>
      simp only [Counter.tally, List.countP_append, List.map_append, List.sum_append]
      omega
  | _ => exact List.countP_append

/-- Departures add up over stretches of a run. -/
theorem departures_append : departures (signals ++ later) (dealings ++ next) =
    departures signals dealings + departures later next := by
  simp only [departures, tally_append, List.map_append, List.sum_append]
  omega

end Tally

namespace Engine

variable {A : Type}

/-- From one engine to a later one: what has been counted in between agrees with what has
been answered and told, and the size with the keys that came and left. -/
structure Balances (start after : Engine A) (signals : List Signal) (dealings : List Dealing) :
    Prop where
  stats_eq : ∀ counter, after.stats.get counter =
    start.stats.get counter + UInt64.ofNat (counter.tally signals dealings)
  lookups_eq : dealings.countP Dealing.looksUp =
    dealings.countP Dealing.hits + dealings.countP Dealing.misses
  told_sets : signals.countP Signal.tellsSet = dealings.countP Dealing.writes
  told_deletes : signals.countP (Signal.tellsRemoval .deleted) =
    dealings.countP Dealing.deletes
  size_eq : after.size + departures signals dealings =
    start.size + dealings.countP Dealing.arrives

namespace Balances

variable {start middle after : Engine A} {signals later : List Signal}
  {dealings next : List Dealing}

theorem refl (hsize : after.size = start.size) (hstats : after.stats = start.stats) :
    Balances start after [] [] := by
  refine ⟨fun counter => ?_, rfl, rfl, rfl, hsize⟩
  rw [hstats]
  cases counter <;> exact (UInt64.add_zero _).symm

/-- Who listens does not matter. -/
theorem heardBy {B : Type} (h : Balances start after signals dealings) (first last : B) :
    Balances (start.heardBy first) (after.heardBy last) signals dealings :=
  ⟨h.stats_eq, h.lookups_eq, h.told_sets, h.told_deletes, h.size_eq⟩

/-- Balances join, with their signals and dealings one after the other. -/
theorem trans (h : Balances start middle signals dealings)
    (h' : Balances middle after later next) :
    Balances start after (signals ++ later) (dealings ++ next) := by
  refine ⟨fun counter => ?_, ?_, ?_, ?_, ?_⟩
  · rw [h'.stats_eq, h.stats_eq, tally_append, UInt64.ofNat_add, UInt64.add_assoc]
  · simp only [List.countP_append, h.lookups_eq, h'.lookups_eq]
    omega
  · rw [List.countP_append, List.countP_append, h.told_sets, h'.told_sets]
  · rw [List.countP_append, List.countP_append, h.told_deletes, h'.told_deletes]
  · have hfirst := h.size_eq
    have hsecond := h'.size_eq
    rw [departures_append, List.countP_append]
    omega

end Balances

end Engine

/-! ## The keys that there are -/

namespace Shards

variable {shards after : Shards} {key : String} {entry : Entry} {evicted : List String}

/-- The size of sound shards is the number of keys that are resident. -/
theorem Sound.size_eq_card (hs : shards.Sound) : shards.size = shards.residents.card := by
  rw [residents, List.toFinset_card_of_nodup hs.keys_nodup, List.length_map,
    size_eq_length_entries]

/-- Shards that bind the same keys have the same size. -/
theorem Sound.size_congr (hs : shards.Sound) (hs' : after.Sound)
    (hfind : ∀ other, after.find? other = shards.find? other) : after.size = shards.size := by
  rw [hs'.size_eq_card, hs.size_eq_card]
  congr 1
  ext other
  rw [hs'.mem_residents_iff, hs.mem_residents_iff, hfind]

theorem Sound.residents_remove (hs : shards.Sound) (key : String) :
    (shards.remove key).residents = shards.residents.erase key := by
  ext other
  rw [(hs.remove key).mem_residents_iff, Finset.mem_erase, hs.mem_residents_iff, find?_remove]
  by_cases heq : other = key <;> simp [heq]

/-- Storing makes the key resident and the evicted ones not. -/
theorem Stores.residents_eq (h : shards.Stores key entry after evicted) (hs : shards.Sound) :
    after.residents = Insert.insert key (shards.residents \ evicted.toFinset) := by
  ext other
  rw [h.sound.mem_residents_iff, Finset.mem_insert, Finset.mem_sdiff, hs.mem_residents_iff,
    List.mem_toFinset, h.find?_eq]
  by_cases heq : other = key
  · simp [heq]
  · by_cases hmem : other ∈ evicted <;> simp [heq, hmem]

section Stores

variable (h : shards.Stores key entry after evicted) (hs : shards.Sound) (hnodup : evicted.Nodup)
  (hthere : ∀ other ∈ evicted, shards.find? other ≠ none)
include h hs hnodup hthere

/-- The keys that leave for an entry are those that have been evicted for it. -/
theorem Stores.card_left : (shards.residents \ after.residents).card = evicted.length := by
  have hleft : shards.residents \ after.residents = evicted.toFinset := by
    ext other
    rw [Finset.mem_sdiff, h.sound.mem_residents_iff, hs.mem_residents_iff, List.mem_toFinset,
      h.find?_eq]
    by_cases heq : other = key
    · simp [heq, h.not_mem]
    · by_cases hmem : other ∈ evicted <;> simp [heq, hmem, hthere other]
  rw [hleft]
  exact List.toFinset_card_of_nodup hnodup

/-- There is one key more if that of the entry is new, less those that are evicted. -/
theorem Stores.size_eq : after.size + evicted.length =
    shards.size + if key ∉ shards.residents then 1 else 0 := by
  have hsubset : evicted.toFinset ⊆ shards.residents := fun other hmem =>
    hs.mem_residents_iff.mpr (hthere other (List.mem_toFinset.mp hmem))
  have hkept : (shards.residents \ evicted.toFinset).card + evicted.length =
      shards.residents.card := by
    rw [← List.toFinset_card_of_nodup hnodup]
    exact Finset.card_sdiff_add_card_eq_card hsubset
  rw [h.sound.size_eq_card, hs.size_eq_card, h.residents_eq hs]
  by_cases hold : key ∈ shards.residents
  · have hin : key ∈ shards.residents \ evicted.toFinset :=
      Finset.mem_sdiff.mpr ⟨hold, fun hmem => h.not_mem (List.mem_toFinset.mp hmem)⟩
    rw [Finset.insert_eq_of_mem hin, if_neg (not_not_intro hold), hkept, Nat.add_zero]
  · have hout : key ∉ shards.residents \ evicted.toFinset := fun hmem =>
      hold (Finset.mem_sdiff.mp hmem).1
    rw [Finset.card_insert_of_notMem hout, if_pos hold, ← hkept, Nat.add_right_comm]

end Stores

/-- How the size changes when some keys leave and nothing comes in. -/
theorem Sound.size_of_gone {keys : List String} (hs : shards.Sound) (hs' : after.Sound)
    (hnodup : keys.Nodup) (hthere : ∀ key ∈ keys, shards.find? key ≠ none)
    (hafter : ∀ other, after.find? other = if other ∈ keys then none else shards.find? other) :
    after.size + keys.length = shards.size := by
  have hresidents : after.residents = shards.residents \ keys.toFinset := by
    ext other
    rw [hs'.mem_residents_iff, Finset.mem_sdiff, hs.mem_residents_iff, List.mem_toFinset, hafter]
    by_cases hmem : other ∈ keys <;> simp [hmem]
  have hsubset : keys.toFinset ⊆ shards.residents := fun key hmem =>
    hs.mem_residents_iff.mpr (hthere key (List.mem_toFinset.mp hmem))
  rw [hs'.size_eq_card, hs.size_eq_card, hresidents, ← List.toFinset_card_of_nodup hnodup]
  exact Finset.card_sdiff_add_card_eq_card hsubset

/-- One key less is there if it was there. -/
theorem Sound.size_remove (hs : shards.Sound) (hfind : shards.find? key = some entry) :
    (shards.remove key).size + 1 = shards.size := by
  refine hs.size_of_gone (hs.remove key) (List.nodup_singleton key) ?_ fun other => ?_
  · exact List.forall_mem_singleton.mpr (by simp [hfind])
  · rw [find?_remove]
    simp only [List.mem_singleton]

/-- A key that is taken out leaves if it was there. -/
theorem Sound.card_departed_remove (hs : shards.Sound) (key : String) :
    (shards.remove key).size + (shards.residents \ (shards.remove key).residents).card =
      shards.size := by
  rw [(hs.remove key).size_eq_card, hs.size_eq_card, Nat.add_comm, hs.residents_remove]
  exact Finset.card_sdiff_add_card_eq_card (Finset.erase_subset key _)

theorem residents_clear (shards : Shards) : shards.clear.residents = ∅ := by
  have hnone : shards.clear.entries = [] := List.flatMap_eq_nil_iff.mpr fun segment hmem =>
    toList_clear segment (Array.mem_toList_iff.mp hmem)
  rw [residents, hnone]
  rfl

end Shards

/-! ## Calls -/

namespace Engine

variable {A : Type}

section Dealings

variable (hear : Hearing A) (now : Instant)

/-- What has been dealt with an engine when a call has been answered. -/
def dealing (engine : Engine A) (made : EngineCall) : Dealing where
  now
  made
  answer := (engine.apply hear now made).2
  before := engine.shards.residents
  after := (engine.apply hear now made).1.shards.residents

/-- The records that can be decoded are replayed one after another. -/
def replays : Engine A → List (Option Record) → List Dealing
  | _, [] => []
  | engine, none :: rest => replays engine rest
  | engine, some record :: rest =>
    engine.dealing hear now (.replay record) :: replays (engine.replay now record) rest

/-- What a call consists of. A restore is as many replays as it has records that can be
decoded. -/
def dealings (engine : Engine A) : EngineCall → List Dealing
  | .restore records => engine.replays hear now records
  | made => [engine.dealing hear now made]

end Dealings

/-- The audience that writes down what it is told and does nothing else. -/
def noting : Hearing (List Signal) := recording fun signal => [signal]

@[simp] theorem noting_eq (engine : Engine (List Signal)) (signal : Signal) :
    noting engine signal = { engine with audience := engine.audience ++ [signal] } := rfl

@[simp] theorem reportExpiry_noting (engine : Engine (List Signal)) (key : String) :
    engine.reportExpiry noting key =
      { engine with
        stats := engine.stats.count .expirations
        audience := engine.audience ++ [.removal key .expired] } := rfl

variable {engine after : Engine (List Signal)}

/-- What a call comes to for an engine whose signals are written down. -/
def BalancesBy (engine after : Engine (List Signal)) (dealings : List Dealing) : Prop :=
  ∃ signals, after.audience = engine.audience ++ signals ∧
    engine.Balances after signals dealings

theorem reportEvictions_noting (engine : Engine (List Signal)) (victims : List String) :
    engine.reportEvictions noting victims =
      { engine with
        stats := engine.stats.add .evictions (UInt64.ofNat victims.length)
        audience := engine.audience ++ victims.map fun victim => .removal victim .evicted } := by
  induction victims generalizing engine with
  | nil => simp [reportEvictions, Stats.add]
  | cons victim rest ih =>
      have hstats := add_count engine.stats .evictions rest.length
      refine (ih (noting (engine.count .evictions) (.removal victim .evicted))).trans ?_
      dsimp only [noting_eq, count]
      rw [hstats, List.length_cons, List.map_cons, List.append_assoc]
      rfl

/-- A call of which nothing is counted and nothing is told. -/
theorem BalancesBy.silent {dealing : Dealing} (haudience : after.audience = engine.audience)
    (hstats : after.stats = engine.stats) (hlooks : dealing.looksUp = false)
    (htally : ∀ counter : Counter, counter.tally [] [dealing] = 0)
    (harrives : dealing.arrives = false) (hsize : after.size + dealing.silenced = engine.size) :
    engine.BalancesBy after [dealing] := by
  refine ⟨[], haudience.trans (List.append_nil _).symm, fun counter => ?_, ?_, ?_, ?_, ?_⟩
  · rw [hstats, htally]
    exact (UInt64.add_zero _).symm
  · have hhits : [dealing].countP Dealing.hits = 0 := htally .hits
    have hmisses : [dealing].countP Dealing.misses = 0 := htally .misses
    rw [hhits, hmisses, List.countP_singleton, hlooks]
    rfl
  · exact (htally .sets).symm
  · exact (htally .deletes).symm
  · simp only [departures, htally, List.countP_singleton, harrives, List.map_cons, List.map_nil,
      List.sum_singleton, Nat.zero_add]
    exact hsize

section Calls

variable (h : engine.Sound) (now : Instant) (key : String)
include h

/-- A `set` balances: its evictions, its rejection and the new entry are all accounted for. -/
theorem balances_set (value : Value) (ttl : Span) :
    engine.BalancesBy (engine.set noting now key value ttl).1
      [engine.dealing noting now (.set key value ttl)] := by
  rw [dealing, apply_set, set_eq, reportEvictions_noting]
  dsimp only
  rcases h.shards.put_cases key (engine.fresh value (deadlineAfter now ttl)) with
    ⟨houtcome, -, hsound, -, hsame⟩ | ⟨hstored, hstores⟩
  · have hrejected : engine.putOutcome now key value ttl = { stored := false } := houtcome
    have hsize : (engine.shards.put key (engine.fresh value (deadlineAfter now ttl))).1.size =
        engine.shards.size := h.shards.size_congr hsound hsame
    rw [hrejected]
    refine ⟨[], rfl, fun counter => ?_, rfl, rfl, rfl, hsize⟩
    cases counter <;> simp [Counter.tally, afterPut]
  · have haccepted : (engine.putOutcome now key value ttl).stored = true := hstored
    obtain ⟨hnodup, hthere⟩ := h.shards.evicted_put hstored
    have hsize := hstores.size_eq h.shards hnodup hthere
    rw [if_pos haccepted, trackExpiry_eq]
    refine ⟨Signal.ofEntry key (engine.putOutcome now key value ttl).evicted,
      List.append_assoc _ _ _, fun counter => ?_, rfl, by simp, by simp, ?_⟩
    · cases counter <;> simp [Counter.tally, afterPut]
    · simpa [departures, Counter.tally, size, count, afterPut, putOutcome] using hsize

/-- A lookup balances, also when it comes upon a lapsed entry and takes it out. -/
theorem balances_getWithToken :
    engine.BalancesBy (engine.getWithToken noting now key).1
      [engine.dealing noting now (.getWithToken key)] := by
  have hgot : (engine.shards.get key).size = engine.shards.size :=
    h.shards.size_congr (h.shards.get key) (Shards.find?_get engine.shards key)
  rw [dealing, apply_getWithToken, getWithToken_eq]
  dsimp only
  cases hfind : engine.shards.find? key with
  | none =>
      refine ⟨[], (List.append_nil _).symm, fun counter => ?_, rfl, rfl, rfl, hgot⟩
      cases counter <;> simp [Counter.tally]
  | some entry =>
      dsimp only
      split
      next hover =>
        have hthere : (engine.shards.get key).find? key = some entry :=
          (Shards.find?_get engine.shards key key).trans hfind
        have hsize := (h.shards.get key).size_remove hthere
        refine ⟨Signal.ofLapsed [key], rfl, fun counter => ?_, rfl, rfl, rfl, hsize.trans hgot⟩
        cases counter <;> simp [Counter.tally]
      next hlive =>
        refine ⟨[], (List.append_nil _).symm, fun counter => ?_, rfl, rfl, rfl, hgot⟩
        cases counter <;> simp [Counter.tally]

/-- A delete balances: a lapsed entry counts as an expiration and not as a delete. -/
theorem balances_delete :
    engine.BalancesBy (engine.delete noting now key).1
      [engine.dealing noting now (.delete key)] := by
  rw [dealing, apply_delete, delete_eq]
  dsimp only
  cases hfind : engine.shards.find? key with
  | none =>
      rw [Shards.remove_of_absent _ _ hfind]
      exact .silent rfl rfl rfl (fun counter => by cases counter <;> rfl) rfl rfl
  | some entry =>
      have hsize := h.shards.size_remove hfind
      dsimp only
      split
      next hover =>
        refine ⟨Signal.ofLapsed [key], rfl, fun counter => ?_, rfl, rfl, rfl, hsize⟩
        cases counter <;> simp [Counter.tally]
      next hlive =>
        refine ⟨[.event (.delete key), .removal key .deleted], List.append_assoc _ _ _,
          fun counter => ?_, rfl, rfl, rfl, hsize⟩
        cases counter <;> simp [Counter.tally, Signal.tellsRemoval]

/-- A swap balances in each of its outcomes. -/
theorem balances_compareAndSwap (value : Value) (expected : Token) (ttl : Span) :
    engine.BalancesBy (engine.compareAndSwap noting now key value expected ttl).1
      [engine.dealing noting now (.compareAndSwap key value expected ttl)] := by
  rw [dealing, apply_compareAndSwap, compareAndSwap_eq]
  dsimp only
  cases hfind : engine.shards.find? key with
  | none => exact .silent rfl rfl rfl (fun counter => by cases counter <;> rfl) rfl rfl
  | some found =>
      have hthere : key ∈ engine.shards.residents :=
        h.shards.mem_residents_iff.mpr (by simp [hfind])
      dsimp only
      split
      next hover =>
        refine ⟨Signal.ofLapsed [key], rfl, fun counter => ?_, rfl, rfl, rfl,
          h.shards.size_remove hfind⟩
        cases counter <;> simp [Counter.tally, SwapAnswer.isStored]
      next hlive =>
        split
        next hstale => exact .silent rfl rfl rfl (fun counter => by cases counter <;> rfl) rfl rfl
        next hcurrent =>
          have hstores := h.shards.stores_insert hfind
            (engine.fresh value (swapDeadline now ttl found))
          have hsize := hstores.size_eq h.shards List.nodup_nil nofun
          rw [trackExpiry_eq]
          refine ⟨Signal.ofEntry key [], rfl, fun counter => ?_, rfl, rfl, rfl, ?_⟩
          · cases counter <;> simp [Counter.tally, SwapAnswer.isStored]
          · simpa [departures, Counter.tally, size, count, hthere] using hsize

omit key in
/-- A sweep balances: it counts as many expirations as it takes entries out. -/
theorem balances_reap :
    engine.BalancesBy (engine.reap noting now).1 [engine.dealing noting now .reap] := by
  -- Of the due notes those that take something out speak of different keys, each of them there.
  have hswept : (swept engine.shards (engine.notices now)).Sound :=
    (swept_spec h.shards fun note hmem => home_of_mem_notices h hmem).1
  have hthere : ∀ key ∈ (engine.notices now).map Pending.key, engine.shards.find? key ≠ none := by
    intro key hmem
    obtain ⟨entry, hfind, -⟩ := (mem_keys_notices_iff h).mp hmem
    simp [hfind]
  have hsize := h.shards.size_of_gone hswept (nodup_effective h.shards (engine.dueNotes now))
    hthere (find?_swept_notices h now)
  rw [dealing, apply_reap, noting, reap_recording]
  refine ⟨Signal.ofLapsed ((engine.notices now).map Pending.key), ?_, fun counter => ?_, rfl,
    by simp, by simp, ?_⟩
  · rw [Signal.ofLapsed, List.map_map]
    exact congrArg (engine.audience ++ ·) (List.flatMap_pure_eq_map _ _)
  · cases counter <;> simp [Counter.tally]
  · simpa [departures, Counter.tally, size, notices] using hsize

omit key in
/-- Clearing balances: the keys that it takes out leave in silence, not by a delete. -/
theorem balances_clear :
    engine.BalancesBy engine.clear [engine.dealing noting now .clear] := by
  refine .silent rfl rfl rfl (fun counter => by cases counter <;> rfl) rfl ?_
  have hsize : engine.clear.size = 0 :=
    h.shards.clear.size_eq_card.trans (congrArg Finset.card (Shards.residents_clear _))
  have hdeparted : (engine.dealing noting now .clear).departed = engine.shards.residents :=
    (congrArg (engine.shards.residents \ ·) (Shards.residents_clear engine.shards)).trans
      Finset.sdiff_empty
  have hsilenced : (engine.dealing noting now .clear).silenced = engine.size :=
    (congrArg Finset.card hdeparted).trans h.shards.size_eq_card.symm
  rw [hsize, hsilenced, Nat.zero_add]

/-- A replay that takes a key out does so without a word. -/
theorem balances_replay_remove {change : Record}
    (hreplay : engine.replay now change = { engine with shards := engine.shards.remove key })
    (hstored : (engine.dealing noting now (.replay change)).stored? = none) :
    engine.BalancesBy (engine.replay now change) [engine.dealing noting now (.replay change)] := by
  have hdisplaced : (engine.dealing noting now (.replay change)).displaced = 0 := by
    rw [Dealing.displaced, hstored]
    rfl
  have hsilenced : (engine.dealing noting now (.replay change)).silenced =
      (engine.shards.residents \ (engine.shards.remove key).residents).card := by
    rw [Dealing.silenced, hstored]
    exact congrArg (fun after => (engine.shards.residents \ after.shards.residents).card) hreplay
  refine .silent (hreplay ▸ rfl) (hreplay ▸ rfl) rfl (fun counter => ?_) ?_ ?_
  · cases counter with
    | evictions => simp only [Counter.tally, hdisplaced, List.map_cons, List.map_nil]; rfl
    | _ => rfl
  · rw [Dealing.arrives, hstored]
  · rw [hsilenced, hreplay]
    exact h.shards.card_departed_remove key

omit key in
/-- A replayed record balances without a signal: the keys that make room for it are counted as
evictions, those that it takes out leave in silence. -/
theorem balances_replay (change : Record) :
    engine.BalancesBy (engine.replay now change) [engine.dealing noting now (.replay change)] := by
  cases change with
  | delete key => exact balances_replay_remove h now key rfl rfl
  | set key value deadline =>
      by_cases hover : 0 < deadline ∧ deadline ≤ now
      · exact balances_replay_remove h now key
          (replay_set_of_over now key value deadline engine hover) (if_pos hover)
      · obtain ⟨hnodup, hthere⟩ := h.shards.evicted_putForce key (engine.fresh value deadline)
        have hstores := (h.shards.stores_putForce key (engine.fresh value deadline)).2
        have hdisplaced := hstores.card_left h.shards hnodup hthere
        have hsize := hstores.size_eq h.shards hnodup hthere
        rw [dealing, apply, replay_set_eq, if_neg hover, trackExpiry_eq]
        refine ⟨[], (List.append_nil _).symm, fun counter => ?_, rfl, rfl, rfl, ?_⟩
        · cases counter <;> simp [Counter.tally, hover, hdisplaced]
        · simpa [departures, Counter.tally, size, hover, hdisplaced] using hsize

/-- A lookup without the token is counted like one with it. -/
theorem balances_get :
    engine.BalancesBy (engine.getWithToken noting now key).1
      [engine.dealing noting now (.get key)] := by
  obtain ⟨signals, haudience, hbalances⟩ := balances_getWithToken h now key
  have hhits : (engine.dealing noting now (.get key)).hits =
      (engine.dealing noting now (.getWithToken key)).hits := Option.isSome_map
  have hmisses : (engine.dealing noting now (.get key)).misses =
      (engine.dealing noting now (.getWithToken key)).misses := Option.isNone_map
  have hlookups := hbalances.lookups_eq
  rw [List.countP_singleton, List.countP_singleton, List.countP_singleton] at hlookups
  refine ⟨signals, haudience, fun counter => ?_, ?_, hbalances.told_sets,
    hbalances.told_deletes, hbalances.size_eq⟩
  · rw [hbalances.stats_eq]
    cases counter with
    | hits => rw [Counter.tally, Counter.tally, List.countP_singleton, List.countP_singleton, hhits]
    | misses =>
        rw [Counter.tally, Counter.tally, List.countP_singleton, List.countP_singleton, hmisses]
    | _ => rfl
  · rw [List.countP_singleton, List.countP_singleton, List.countP_singleton, hhits, hmisses]
    exact hlookups

omit h in
theorem balances_contains :
    engine.BalancesBy engine [engine.dealing noting now (.contains key)] :=
  .silent rfl rfl rfl (fun counter => by cases counter <;> rfl) rfl rfl

omit key in
/-- A restored dump balances record by record. -/
theorem balances_restore (records : List (Option Record)) :
    engine.BalancesBy (engine.restore now records).1 (engine.replays noting now records) := by
  rw [restore_eq]
  dsimp only
  -- Each record that can be decoded is a dealing of its own, after those before it.
  induction records generalizing engine with
  | nil => exact ⟨[], (List.append_nil _).symm, .refl rfl rfl⟩
  | cons record rest ih =>
      cases record with
      | none => exact ih h
      | some change =>
          obtain ⟨first, hfirst, hreplay⟩ := balances_replay h now change
          obtain ⟨second, hsecond, hrest⟩ := ih (h.replay now change)
          refine ⟨first ++ second, ?_, hreplay.trans hrest⟩
          rw [← List.append_assoc, ← hfirst]
          exact hsecond

omit key in
/-- Every call is counted as it is answered and told. -/
theorem balances_apply (made : EngineCall) :
    engine.BalancesBy (engine.apply noting now made).1 (engine.dealings noting now made) := by
  cases made with
  | set key value ttl => exact balances_set h now key value ttl
  | get key => exact balances_get h now key
  | getWithToken key => exact balances_getWithToken h now key
  | contains key => exact balances_contains now key
  | delete key => exact balances_delete h now key
  | compareAndSwap key value expected ttl =>
      exact balances_compareAndSwap h now key value expected ttl
  | clear => exact balances_clear h now
  | replay change => exact balances_replay h now change
  | restore records => exact balances_restore h now records
  | reap => exact balances_reap h now

end Calls

/-! ## Twins have the same dealings -/

section Twins

variable {B : Type} {related : Engine A → B → Prop} {hear : Hearing A} {hear' : Hearing B}
  {engine : Engine A} {twin : Engine B} (hb : Bond related hear hear')
include hb

/-- Engines that differ only in their audiences deal alike in a call. -/
theorem Twins.dealing (h : Twins related engine twin) (now : Instant) (made : EngineCall) :
    twin.dealing hear' now made = engine.dealing hear now made := by
  obtain ⟨hnext, hanswer⟩ := h.apply hb now made
  rw [Engine.dealing, Engine.dealing, hanswer, h.shards_eq, hnext.shards_eq]

theorem Twins.replays (h : Twins related engine twin) (now : Instant)
    (records : List (Option Record)) :
    twin.replays hear' now records = engine.replays hear now records := by
  induction records generalizing engine twin with
  | nil => rfl
  | cons record rest ih =>
      cases record with
      | none => exact ih h
      | some change =>
          rw [Engine.replays, Engine.replays, h.dealing hb, ih (h.replay hb now change)]

theorem Twins.dealings (h : Twins related engine twin) (now : Instant) (made : EngineCall) :
    twin.dealings hear' now made = engine.dealings hear now made := by
  cases made with
  | restore records => exact h.replays hb now records
  | _ => exact congrArg (fun dealing => [dealing]) (h.dealing hb now _)

end Twins

end Engine

end ReplicatedCache
