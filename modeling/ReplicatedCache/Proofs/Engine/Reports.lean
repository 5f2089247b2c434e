import Mathlib.Data.Finset.Dedup
import Mathlib.Data.Finset.Erase
import Mathlib.Data.Finset.Insert
import ReplicatedCache.Proofs.Engine.Steps

/-! # What calls report

Keys come by writes only, and leave for three reasons: they are deleted, they make room
for another key, or they are found to be over. Whatever a call does, it reports: a write
says so once its entry is there, and every key that leaves is reported once, with its
reason, when it is gone.
-/

namespace ReplicatedCache

/-- A call that says what it does. Restored contents and cleared engines keep quiet. -/
def EngineCall.Audible : EngineCall → Prop
  | clear => False
  | replay _ => False
  | restore _ => False
  | _ => True

def EngineCall.Deletes (made : EngineCall) (answer : EngineAnswer) (key : String) : Prop :=
  made = .delete key ∧ answer = .holds true

/-- A call that stores under another key. -/
def EngineCall.Crowds (made : EngineCall) (key : String) : Prop :=
  ∃ other value ttl, made = .set other value ttl ∧ other ≠ key

/-- Why a call takes a key out. -/
def EngineCall.Reason (made : EngineCall) (answer : EngineAnswer) (key : String) :
    RemovalCause → Prop
  | .deleted => made.Deletes answer key
  | .evicted => made.Crowds key
  | .expired => ¬ made.Deletes answer key ∧ ¬ made.Crowds key

/-- There is one reason only. -/
theorem EngineCall.Reason.unique {made : EngineCall} {answer : EngineAnswer} {key : String}
    {cause other : RemovalCause} (h : made.Reason answer key cause)
    (h' : made.Reason answer key other) : cause = other := by
  have hapart : ¬ (made.Deletes answer key ∧ made.Crowds key) := by
    rintro ⟨⟨rfl, -⟩, _, _, _, hset, -⟩
    cases hset
  cases cause with
  | deleted =>
      cases other with
      | deleted => rfl
      | evicted => exact absurd ⟨h, h'⟩ hapart
      | expired => exact absurd h h'.1
  | evicted =>
      cases other with
      | deleted => exact absurd ⟨h', h⟩ hapart
      | evicted => rfl
      | expired => exact absurd h h'.2
  | expired =>
      cases other with
      | deleted => exact absurd h' h.1
      | evicted => exact absurd h' h.2
      | expired => rfl

/-- A signal, and the shards at the moment at which it is issued. -/
structure Dispatch where
  shards : Shards
  signal : Signal

/-- The shards are sound, and a key whose removal is reported is gone. -/
structure Dispatch.Timely (dispatch : Dispatch) : Prop where
  sound : dispatch.shards.Sound
  gone : ∀ {key : String} {cause : RemovalCause}, dispatch.signal = .removal key cause →
    dispatch.shards.find? key = none

/-- The audience that keeps what it is told and does nothing else. -/
def dispatching : Hearing (List Dispatch) := fun engine signal =>
  { engine with audience := engine.audience ++ [⟨engine.shards, signal⟩] }

namespace Shards

/-- What a call that is made at a time does to the shards, and what it reports. -/
inductive Reports (shards : Shards) (now : Instant) (made : EngineCall) (answer : EngineAnswer)
    (after : Shards) : List Signal → Prop
  /-- Some keys are found to be over, or none. A write finds none. -/
  | lapsed (keys : List String) (hnodup : keys.Nodup)
    (hover : ∀ key ∈ keys, ∃ entry, shards.find? key = some entry ∧ entry.expired now = true)
    (hafter : ∀ other, after.find? other =
      if other ∈ keys then none else shards.find? other)
    (hset : ∀ {key}, made.Crowds key → keys = [])
    (hdelete : ∀ key, ¬ made.Deletes answer key) :
    Reports shards now made answer after (keys.map fun key => .removal key .expired)
  | deleted {key : String} {entry : Entry} (hmade : made.Deletes answer key)
    (hfind : shards.find? key = some entry)
    (hafter : ∀ other, after.find? other = if other = key then none else shards.find? other) :
    Reports shards now made answer after [.event (.delete key), .removal key .deleted]
  /-- An entry comes in. Keys leave for the entry of a set only. -/
  | stored {key : String} {entry : Entry} (evicted : List String) (hnodup : evicted.Nodup)
    (hthere : ∀ other ∈ evicted, shards.find? other ≠ none)
    (hstores : shards.Stores key entry after evicted)
    (hset : ∀ other ∈ evicted, made.Crowds other)
    (hdelete : ∀ key, ¬ made.Deletes answer key) :
    Reports shards now made answer after
      ((evicted.map fun other => .removal other .evicted) ++ [.event (.set key)])

variable {shards : Shards} {key other : String} {entry : Entry}

/-- The keys that leave for an entry are different ones that were there. -/
theorem Sound.evicted_of_stored (hs : shards.Sound) {after : Segment StandardPolicy}
    {evicted : List String}
    (hstored : Segment.Stored (shards.segmentOf key) key entry after evicted) :
    evicted.Nodup ∧ ∀ other ∈ evicted, shards.find? other ≠ none := by
  refine ⟨?_, fun other hmem => ?_⟩
  · rw [hstored.evicted_eq_take]
    exact (segmentOf shards key).keys_nodup.sublist (List.take_sublist _ _)
  · have hkey := hstored.mem_keys_of_mem_evicted hmem
    rw [find?_of_home (hs.home_of_mem_keys hkey)]
    exact fun hnone => Segment.peek_eq_none_iff.mp hnone hkey

/-- The keys that a put evicts are different ones that were resident. -/
theorem Sound.evicted_put (hs : shards.Sound)
    (hstored : (shards.put key entry).2.stored = true) :
    (shards.put key entry).2.evicted.Nodup ∧
      ∀ other ∈ (shards.put key entry).2.evicted, shards.find? other ≠ none := by
  rw [put, onHome_snd] at hstored ⊢
  exact hs.evicted_of_stored (Segment.stored_put (hs.fits_home key) (hs.roomy_home key) hstored)

theorem Sound.evicted_putForce (hs : shards.Sound) (key : String) (entry : Entry) :
    (shards.putForce key entry).2.evicted.Nodup ∧
      ∀ other ∈ (shards.putForce key entry).2.evicted, shards.find? other ≠ none := by
  rw [putForce, onHome_snd]
  exact hs.evicted_of_stored
    (Segment.stored_putForce (hs.fits_home key) (hs.roomy_home key) key entry).2

end Shards

namespace Engine

variable {engine : Engine (List Dispatch)} {now : Instant}

/-- Each evicted key is told after all of them have left the shards. -/
theorem reportEvictions_dispatching (engine : Engine (List Dispatch)) (victims : List String) :
    ∃ stats, engine.reportEvictions dispatching victims =
      { engine with
        stats
        audience := engine.audience ++ victims.map fun victim =>
          ⟨engine.shards, .removal victim .evicted⟩ } := by
  induction victims generalizing engine with
  | nil => exact ⟨engine.stats, by rw [List.map_nil, List.append_nil]; rfl⟩
  | cons victim rest ih =>
      obtain ⟨stats, heq⟩ := ih (dispatching (engine.count .evictions) (.removal victim .evicted))
      refine ⟨stats, heq.trans ?_⟩
      rw [List.map_cons, List.append_cons]
      rfl

/-- Keeping dispatches does not disturb a call. -/
theorem Sound.apply_dispatching (h : engine.Sound) (now : Instant) (made : EngineCall) :
    (engine.apply dispatching now made).1.Sound := by
  -- Dispatches are kept without touching the engine, so a transcript of nothing goes along.
  have hw : Watches (fun _ => True) (fun _ => ([] : List Unit)) (fun _ => []) dispatching :=
    ⟨fun _ _ => rfl, fun _ _ => trivial, fun _ _ => rfl⟩
  have hfollows : Follows (fun _ => True) (fun _ => ([] : List Unit)) engine
      (engine.transcribed fun _ => []) := ⟨trivial, rfl⟩
  have hmirror : (engine.transcribed fun _ => ([] : List Unit)).Sound := h.congr rfl rfl
  obtain ⟨⟨-, heq⟩, -⟩ := hfollows.apply now hw made
  have hafter := hmirror.apply (fun _ => []) now made
  rw [heq] at hafter
  exact hafter.congr rfl rfl

/-- What a call reports to an engine that keeps dispatches. -/
def ReportsTo (engine : Engine (List Dispatch)) (now : Instant) (made : EngineCall)
    (after : Engine (List Dispatch) × EngineAnswer) : Prop :=
  ∃ report, after.1.audience = engine.audience ++ report ∧
    (∀ dispatch ∈ report, dispatch.Timely) ∧
    engine.shards.Reports now made after.2 after.1.shards (report.map Dispatch.signal)

namespace ReportsTo

variable {made : EngineCall} {answer : EngineAnswer} {after : Engine (List Dispatch)}

/-- A call that finds nothing to report. -/
theorem nothing (haudience : after.audience = engine.audience)
    (hfind : ∀ other, after.shards.find? other = engine.shards.find? other)
    (hdelete : ∀ key, ¬ made.Deletes answer key) :
    engine.ReportsTo now made (after, answer) := by
  refine ⟨[], haudience.trans (List.append_nil _).symm, nofun, ?_⟩
  refine .lapsed [] List.nodup_nil nofun (fun other => ?_) (fun _ => rfl) hdelete
  rw [hfind, if_neg List.not_mem_nil]

/-- A call that finds its key over. -/
theorem lapsed {key : String} {entry : Entry} {shards : Shards} (hs : shards.Sound)
    (hfind : engine.shards.find? key = some entry) (hover : entry.expired now = true)
    (hshards : ∀ other, shards.find? other =
      if other = key then none else engine.shards.find? other)
    (hafter : after.shards = shards)
    (haudience : after.audience = engine.audience ++ [⟨shards, .removal key .expired⟩])
    (hset : ∀ {other}, ¬ made.Crowds other) (hdelete : ∀ other, ¬ made.Deletes answer other) :
    engine.ReportsTo now made (after, answer) := by
  refine ⟨_, haudience, ?_, ?_⟩
  · intro dispatch hmem
    obtain rfl := List.mem_singleton.mp hmem
    refine ⟨hs, fun {other cause} hsignal => ?_⟩
    injection hsignal with hkey
    rw [hshards, if_pos hkey.symm]
  · refine .lapsed [key] (List.nodup_singleton key) ?_ (fun other => ?_)
      (fun hcrowds => absurd hcrowds hset) hdelete
    · intro other hmem
      obtain rfl := List.mem_singleton.mp hmem
      exact ⟨entry, hfind, hover⟩
    · change after.shards.find? other = _
      simp only [hafter, hshards, List.mem_singleton]

/-- A call that stores an entry. -/
theorem stored {key : String} {entry : Entry} {evicted : List String}
    (hnodup : evicted.Nodup) (hthere : ∀ other ∈ evicted, engine.shards.find? other ≠ none)
    (hstores : engine.shards.Stores key entry after.shards evicted)
    (haudience : after.audience = engine.audience ++
      ((evicted.map fun other => ⟨after.shards, .removal other .evicted⟩) ++
        [⟨after.shards, .event (.set key)⟩]))
    (hset : ∀ other ∈ evicted, made.Crowds other)
    (hdelete : ∀ other, ¬ made.Deletes answer other) :
    engine.ReportsTo now made (after, answer) := by
  refine ⟨_, haudience, ?_, ?_⟩
  · intro dispatch hmem
    rcases List.mem_append.mp hmem with hremoval | hevent
    · obtain ⟨victim, hvictim, rfl⟩ := List.mem_map.mp hremoval
      refine ⟨hstores.sound, fun {other cause} hsignal => ?_⟩
      injection hsignal with hkey
      have hne : victim ≠ key := fun heq => hstores.not_mem (heq ▸ hvictim)
      rw [← hkey, hstores.find?_eq, if_neg hne, if_pos hvictim]
    · obtain rfl := List.mem_singleton.mp hevent
      exact ⟨hstores.sound, nofun⟩
  · rw [List.map_append, List.map_map]
    exact .stored evicted hnodup hthere hstores hset hdelete

end ReportsTo

section Calls

variable (engine) (now) (key : String)

/-- A `set` reports the keys that were evicted and then the key itself, if it was stored. -/
theorem reports_set (h : engine.Sound) (value : Value) (ttl : Span) :
    engine.ReportsTo now (.set key value ttl)
      (engine.apply dispatching now (.set key value ttl)) := by
  have hdelete (answer : EngineAnswer) (other : String) :
      ¬ (EngineCall.set key value ttl).Deletes answer other := fun hdeletes => nomatch hdeletes.1
  obtain ⟨stats, hevict⟩ := reportEvictions_dispatching (engine.afterPut now key value ttl)
    (engine.putOutcome now key value ttl).evicted
  rw [apply, set_eq, hevict]
  dsimp only
  rcases h.shards.put_cases key (engine.fresh value (deadlineAfter now ttl)) with
    ⟨houtcome, -, -, -, hsame⟩ | ⟨hstored, hstores⟩
  · have hrejected : engine.putOutcome now key value ttl = { stored := false } := houtcome
    rw [hrejected]
    exact .nothing (List.append_nil _) hsame (hdelete _)
  · have haccepted : (engine.putOutcome now key value ttl).stored = true := hstored
    obtain ⟨hnodup, hthere⟩ := h.shards.evicted_put hstored
    rw [if_pos haccepted, trackExpiry_eq]
    refine .stored hnodup hthere hstores (List.append_assoc _ _ _) (fun other hmem => ?_)
      (hdelete _)
    exact ⟨key, value, ttl, rfl, fun heq => hstores.not_mem (heq ▸ hmem)⟩

/-- A lookup reports a lapsed entry, and nothing else. -/
theorem reports_getWithToken (h : engine.Sound) {made : EngineCall} (answer : EngineAnswer)
    (hset : ∀ {other}, ¬ made.Crowds other) (hdelete : ∀ other, ¬ made.Deletes answer other) :
    engine.ReportsTo now made ((engine.getWithToken dispatching now key).1, answer) := by
  rw [getWithToken_eq]
  dsimp only
  cases hfind : engine.shards.find? key with
  | none => exact .nothing rfl (fun other => Shards.find?_get _ _ _) hdelete
  | some entry =>
      dsimp only
      by_cases hover : entry.expired now = true
      · rw [if_pos hover]
        refine .lapsed ((h.shards.get key).remove key) hfind hover (fun other => ?_) rfl rfl
          hset hdelete
        rw [Shards.find?_remove, Shards.find?_get]
      · rw [if_neg hover]
        exact .nothing rfl (fun other => Shards.find?_get _ _ _) hdelete

/-- A delete reports its key if the entry was live, and an expiry if it was over. -/
theorem reports_delete (h : engine.Sound) :
    engine.ReportsTo now (.delete key) (engine.apply dispatching now (.delete key)) := by
  have hset {other : String} : ¬ (EngineCall.delete key).Crowds other :=
    fun ⟨_, _, _, hmade, _⟩ => nomatch hmade
  have hdelete (other : String) : ¬ (EngineCall.delete key).Deletes (.holds false) other :=
    fun hdeletes => nomatch hdeletes.2
  have hremove (other : String) := Shards.find?_remove engine.shards key other
  rw [apply_delete, delete_eq]
  dsimp only
  cases hfind : engine.shards.find? key with
  | none =>
      refine .nothing rfl (fun other => (hremove other).trans ?_) hdelete
      split
      next heq => rw [heq, hfind]
      next => rfl
  | some entry =>
      dsimp only
      by_cases hover : entry.expired now = true
      · rw [if_pos hover]
        exact .lapsed (h.shards.remove key) hfind hover hremove rfl rfl hset hdelete
      · rw [if_neg hover]
        refine ⟨[⟨engine.shards.remove key, .event (.delete key)⟩,
          ⟨engine.shards.remove key, .removal key .deleted⟩], List.append_assoc _ _ _, ?_, ?_⟩
        · intro dispatch hmem
          rcases List.mem_pair.mp hmem with rfl | rfl
          · exact ⟨h.shards.remove key, nofun⟩
          · refine ⟨h.shards.remove key, fun {other cause} hsignal => ?_⟩
            injection hsignal with hkey
            rw [hremove, if_pos hkey.symm]
        · exact .deleted ⟨rfl, rfl⟩ hfind hremove

/-- A swap reports its key when it stores, and an expiry when it finds the entry over. -/
theorem reports_compareAndSwap (h : engine.Sound) (value : Value) (expected : Token) (ttl : Span) :
    engine.ReportsTo now (.compareAndSwap key value expected ttl)
      (engine.apply dispatching now (.compareAndSwap key value expected ttl)) := by
  have hset {other : String} : ¬ (EngineCall.compareAndSwap key value expected ttl).Crowds other :=
    fun ⟨_, _, _, hmade, _⟩ => nomatch hmade
  have hdelete (answer : EngineAnswer) (other : String) :
      ¬ (EngineCall.compareAndSwap key value expected ttl).Deletes answer other :=
    fun hdeletes => nomatch hdeletes.1
  rw [apply_compareAndSwap, compareAndSwap_eq]
  dsimp only
  cases hfind : engine.shards.find? key with
  | none => exact .nothing rfl (fun _ => rfl) (hdelete _)
  | some found =>
      dsimp only
      by_cases hover : found.expired now = true
      · rw [if_pos hover]
        exact .lapsed (h.shards.remove key) hfind hover (Shards.find?_remove _ _) rfl rfl
          hset (hdelete _)
      · rw [if_neg hover]
        by_cases hstale : found.token ≠ expected
        · rw [if_pos hstale]
          exact .nothing rfl (fun _ => rfl) (hdelete _)
        · rw [if_neg hstale, trackExpiry_eq]
          exact .stored List.nodup_nil nofun (h.shards.stores_insert hfind _) rfl nofun (hdelete _)

/-- A sweep reports the keys that it takes out, one after another. -/
theorem foldl_reapStep_dispatching {shards : Shards} (hs : shards.Sound) (notes : List Pending) :
    ∀ (engine : Engine (List Dispatch)) (reaped : Nat), engine.shards = shards →
    ∃ report, (notes.foldl (reapStep dispatching) (engine, reaped)).1.audience =
        engine.audience ++ report ∧
      (∀ dispatch ∈ report, dispatch.Timely) ∧
      report.map Dispatch.signal =
        (effective shards notes).map (fun note => .removal note.key .expired) ∧
      (notes.foldl (reapStep dispatching) (engine, reaped)).1.shards =
        swept shards (effective shards notes) := by
  induction notes generalizing shards with
  | nil =>
      rintro engine reaped rfl
      exact ⟨[], (List.append_nil _).symm, nofun, rfl, rfl⟩
  | cons note rest ih =>
      rintro engine reaped rfl
      rw [List.foldl_cons, reapStep, reapOne_eq, effective]
      by_cases hcurrent : isCurrent engine.shards note = true
      · obtain ⟨hhome, -⟩ := (isCurrent_iff hs).mp hcurrent
        simp only [if_pos hcurrent, hhome, removeAt_home, if_true]
        obtain ⟨report, haudience, htimely, hsignals, hshards⟩ := ih (hs.remove note.key)
          (({ engine with shards := engine.shards.remove note.key }).reportExpiry dispatching
            note.key) (reaped + 1) rfl
        refine ⟨⟨engine.shards.remove note.key, .removal note.key .expired⟩ :: report, ?_, ?_, ?_,
          ?_⟩
        · exact haudience.trans (List.append_assoc _ _ _)
        · refine List.forall_mem_cons.mpr ⟨⟨hs.remove note.key, fun {key cause} hsignal => ?_⟩,
            htimely⟩
          injection hsignal with hkey
          rw [Shards.find?_remove, if_pos hkey.symm]
        · rw [List.map_cons, List.map_cons, hsignals]
        · rw [hshards, swept, swept, List.foldl_cons, hhome, removeAt_home]
      · simp only [if_neg hcurrent]
        exact ih hs engine _ rfl

/-- A sweep reports the expiry of each of its keys once. -/
theorem reports_reap (h : engine.Sound) :
    engine.ReportsTo now .reap (engine.apply dispatching now .reap) := by
  obtain ⟨report, haudience, htimely, hsignals, hshards⟩ := foldl_reapStep_dispatching h.shards
    (engine.dueNotes now) (engine.drained now) 0 rfl
  have hkeys : (effective engine.shards (engine.dueNotes now)).map
      (fun note => Signal.removal note.key .expired) =
        ((engine.notices now).map Pending.key).map fun key => .removal key .expired := by
    rw [List.map_map]
    rfl
  rw [apply_reap, reap_eq]
  refine ⟨report, haudience, htimely, ?_⟩
  rw [hsignals, hkeys]
  refine .lapsed _ (nodup_effective h.shards _) (fun other => (mem_keys_notices_iff h).mp)
    (fun other => ?_) (fun ⟨_, _, _, hmade, _⟩ => nomatch hmade)
    fun _ hdeletes => nomatch hdeletes.1
  dsimp only
  rw [hshards]
  exact find?_swept_notices h now other

/-- Every call reports what it does, if it is one that does. -/
theorem reports_apply (h : engine.Sound) {made : EngineCall} (hmade : made.Audible) :
    engine.ReportsTo now made (engine.apply dispatching now made) := by
  cases made with
  | set key value ttl => exact reports_set engine now key h value ttl
  | get key =>
      exact reports_getWithToken engine now key h _ (fun ⟨_, _, _, hmade, _⟩ => nomatch hmade)
        fun _ hdeletes => nomatch hdeletes.1
  | getWithToken key =>
      exact reports_getWithToken engine now key h _ (fun ⟨_, _, _, hmade, _⟩ => nomatch hmade)
        fun _ hdeletes => nomatch hdeletes.1
  | contains key => exact .nothing rfl (fun _ => rfl) fun _ hdeletes => nomatch hdeletes.1
  | delete key => exact reports_delete engine now key h
  | compareAndSwap key value expected ttl =>
      exact reports_compareAndSwap engine now key h value expected ttl
  | reap => exact reports_reap engine now h
  | clear => exact hmade.elim
  | replay record => exact hmade.elim
  | restore records => exact hmade.elim

end Calls

end Engine

/-! ## What can be read off a report -/

/-- What somebody who keeps a set of keys makes of a signal: a key that is set comes in,
and a key that is removed goes. -/
def Signal.mirror (keys : Finset String) : Signal → Finset String
  | .event (.set key) => insert key keys
  | .event (.delete _) => keys
  | .removal key _ => keys.erase key

/-- The key of which a signal says that it is gone. -/
def Signal.removed? : Signal → Option String
  | .event _ => none
  | .removal key _ => some key

def Signal.event? : Signal → Option KeyEvent
  | .event published => some published
  | .removal _ _ => none

theorem mem_mirror_removals {cause : RemovalCause} {keys : List String} {start : Finset String}
    {key : String} :
    key ∈ (keys.map fun key => Signal.removal key cause).foldl Signal.mirror start ↔
      key ∈ start ∧ key ∉ keys := by
  induction keys generalizing start with
  | nil => simp
  | cons first rest ih =>
      rw [List.map_cons, List.foldl_cons, ih, Signal.mirror, Finset.mem_erase, List.mem_cons]
      tauto

namespace Shards

/-- The keys that are there, whether their entries are over or not. -/
def residents (shards : Shards) : Finset String := (shards.entries.map (·.1)).toFinset

variable {shards after : Shards} {now : Instant} {made : EngineCall} {answer : EngineAnswer}
  {signals : List Signal} {key : String} {cause : RemovalCause}

/-- Residents are the keys that are bound. -/
theorem Sound.mem_residents_iff (hs : shards.Sound) :
    key ∈ shards.residents ↔ shards.find? key ≠ none := by
  rw [residents, List.mem_toFinset, List.mem_map]
  constructor
  · rintro ⟨⟨own, entry⟩, hmem, rfl⟩ hnone
    exact nomatch hnone.symm.trans (hs.mem_entries_iff.mp hmem)
  · intro hsome
    obtain ⟨entry, hfind⟩ := Option.ne_none_iff_exists'.mp hsome
    exact ⟨(key, entry), hs.mem_entries_iff.mpr hfind, rfl⟩

/-- A key that was there and is gone. -/
def Left (shards after : Shards) (key : String) : Prop :=
  shards.find? key ≠ none ∧ after.find? key = none

namespace Reports

variable (h : shards.Reports now made answer after signals)
include h

/-- Whoever starts with the residents and listens to the report knows the residents
afterwards. -/
theorem mirrored (hs : shards.Sound) (hs' : after.Sound) :
    after.residents = signals.foldl Signal.mirror shards.residents := by
  ext other
  rw [hs'.mem_residents_iff]
  cases h with
  | lapsed keys hnodup hover hafter hset hdelete =>
      rw [mem_mirror_removals, hs.mem_residents_iff, hafter]
      by_cases hmem : other ∈ keys <;> simp [hmem]
  | @deleted own entry hmade hfind hafter =>
      rw [List.foldl_cons, List.foldl_cons, List.foldl_nil, Signal.mirror, Signal.mirror,
        Finset.mem_erase, hs.mem_residents_iff, hafter]
      by_cases heq : other = own <;> simp [heq]
  | @stored own entry evicted hnodup hthere hstores hset hdelete =>
      rw [List.foldl_append, List.foldl_cons, List.foldl_nil, Signal.mirror, Finset.mem_insert,
        mem_mirror_removals, hs.mem_residents_iff, hstores.find?_eq]
      by_cases heq : other = own
      · simp [heq]
      · by_cases hmem : other ∈ evicted <;> simp [heq, hmem]

/-- Every key is removed once at most. -/
theorem nodup_removed : (signals.filterMap Signal.removed?).Nodup := by
  cases h with
  | lapsed keys hnodup hover hafter hset hdelete =>
      rw [List.filterMap_map]
      simpa [Function.comp_def, Signal.removed?] using hnodup
  | @deleted own => exact List.nodup_singleton own
  | @stored own entry evicted hnodup hthere hstores hset hdelete =>
      have hevent : [Signal.event (.set own)].filterMap Signal.removed? = [] := rfl
      rw [List.filterMap_append, List.filterMap_map, hevent, List.append_nil]
      simpa [Function.comp_def, Signal.removed?] using hnodup

/-- Removals are reported of keys that leave, and with their reasons. -/
theorem reason_of_removal (hmem : .removal key cause ∈ signals) :
    Left shards after key ∧ made.Reason answer key cause := by
  cases h with
  | lapsed keys hnodup hover hafter hset hdelete =>
      obtain ⟨own, hown, heq⟩ := List.mem_map.mp hmem
      obtain ⟨rfl, rfl⟩ := Signal.removal.inj heq
      obtain ⟨entry, hfind, -⟩ := hover own hown
      refine ⟨⟨by simp [hfind], by rw [hafter, if_pos hown]⟩, hdelete own, fun hcrowds => ?_⟩
      exact List.not_mem_nil (hset hcrowds ▸ hown)
  | @deleted own entry hmade hfind hafter =>
      rcases List.mem_pair.mp hmem with heq | heq
      · exact nomatch heq
      · obtain ⟨rfl, rfl⟩ := Signal.removal.inj heq
        exact ⟨⟨by simp [hfind], by rw [hafter, if_pos rfl]⟩, hmade⟩
  | @stored own entry evicted hnodup hthere hstores hset hdelete =>
      rcases List.mem_append.mp hmem with hremoval | hevent
      · obtain ⟨victim, hvictim, heq⟩ := List.mem_map.mp hremoval
        obtain ⟨rfl, rfl⟩ := Signal.removal.inj heq
        have hne : victim ≠ own := fun heq => hstores.not_mem (heq ▸ hvictim)
        refine ⟨⟨hthere victim hvictim, ?_⟩, hset victim hvictim⟩
        rw [hstores.find?_eq, if_neg hne, if_pos hvictim]
      · exact nomatch List.mem_singleton.mp hevent

/-- An entry that is reported as expired is over. -/
theorem over_of_expired (hmem : .removal key .expired ∈ signals) :
    ∃ entry, shards.find? key = some entry ∧ entry.expired now = true := by
  cases h with
  | lapsed keys hnodup hover hafter hset hdelete =>
      obtain ⟨own, hown, heq⟩ := List.mem_map.mp hmem
      obtain ⟨rfl, -⟩ := Signal.removal.inj heq
      exact hover own hown
  | deleted hmade hfind hafter => simp at hmem
  | stored evicted hnodup hthere hstores hset hdelete => simp at hmem

/-- Every key that leaves is reported. -/
theorem removal_of_left (hleft : Left shards after key) :
    ∃ cause, .removal key cause ∈ signals := by
  obtain ⟨hthere, hgone⟩ := hleft
  cases h with
  | lapsed keys hnodup hover hafter hset hdelete =>
      refine ⟨.expired, List.mem_map.mpr ⟨key, ?_, rfl⟩⟩
      by_contra hnot
      rw [hafter, if_neg hnot] at hgone
      exact hthere hgone
  | @deleted own entry hmade hfind hafter =>
      have heq : key = own := by
        by_contra hne
        rw [hafter, if_neg hne] at hgone
        exact hthere hgone
      exact ⟨.deleted, heq ▸ List.mem_cons_of_mem _ List.mem_cons_self⟩
  | @stored own entry evicted hnodup hthere' hstores hset hdelete =>
      refine ⟨.evicted, List.mem_append_left _ (List.mem_map.mpr ⟨key, ?_, rfl⟩)⟩
      by_contra hnot
      rw [hstores.find?_eq, if_neg hnot] at hgone
      split at hgone
      next => exact nomatch hgone
      next => exact hthere hgone

/-- Exactly the keys that leave are reported, with the reason for which they leave. -/
theorem removal_mem_iff : .removal key cause ∈ signals ↔
    Left shards after key ∧ made.Reason answer key cause := by
  refine ⟨h.reason_of_removal, fun ⟨hleft, hreason⟩ => ?_⟩
  obtain ⟨reported, hmem⟩ := h.removal_of_left hleft
  obtain rfl : reported = cause := (h.reason_of_removal hmem).2.unique hreason
  exact hmem

/-- A delete that succeeds takes its key out. -/
theorem left_of_deletes (hdeletes : made.Deletes answer key) : Left shards after key := by
  cases h with
  | lapsed keys hnodup hover hafter hset hdelete => exact absurd hdeletes (hdelete key)
  | @deleted own entry hmade hfind hafter =>
      have heq : EngineCall.delete own = .delete key := hmade.1.symm.trans hdeletes.1
      obtain rfl : own = key := EngineCall.delete.inj heq
      exact ⟨by simp [hfind], by rw [hafter, if_pos rfl]⟩
  | stored evicted hnodup hthere hstores hset hdelete => exact absurd hdeletes (hdelete key)

end Reports

end Shards

end ReplicatedCache
