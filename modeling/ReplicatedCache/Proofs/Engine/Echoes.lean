import Mathlib.Data.Fintype.EquivFin
import ReplicatedCache.Proofs.Engine.Confinement
import ReplicatedCache.Proofs.Engine.Mirroring

/-! # Engines that echo each other

An engine echoes another one when it holds the same in every segment, but for the tokens,
has noted the same deadlines in front of the same audience, and mints every token a constant
number of tokens later. No operation does anything with a token but compare it, so that
whatever is done to both of them keeps them so, and both give the same answer.
-/

namespace ReplicatedCache

/-! ## Later tokens -/

section Tokens

variable {gap token : Token}

/-- The token that comes a number of tokens after another one. Zero is no token, and the
counter skips it. -/
def laterBy (gap token : Token) : Token :=
  if token = 0 then 0
  else if token.toNat + gap.toNat < UInt64.size then token + gap
  else token + gap + 1

/-- The token that the counter gives after another one. -/
def nextAfter (token : Token) : Token := if token + 1 = 0 then 1 else token + 1

/-- As long as the counter does not come round, a later token is a sum. -/
theorem laterBy_eq_add (h : token ≠ 0) (hbelow : token.toNat + gap.toNat < UInt64.size) :
    laterBy gap token = token + gap := by
  rw [laterBy, if_neg h, if_pos hbelow]

theorem toNat_pos (h : token ≠ 0) : 0 < token.toNat :=
  Nat.pos_of_ne_zero fun hzero => h (UInt64.toNat_inj.mp hzero)

/-- Adding a gap to a token skips zero: past the largest word it goes on at one. -/
theorem toNat_laterBy (h : token ≠ 0) :
    (laterBy gap token).toNat =
      if token.toNat + gap.toNat < UInt64.size then token.toNat + gap.toNat
      else token.toNat + gap.toNat + 1 - UInt64.size := by
  have htoken : token.toNat < UInt64.size := token.toNat_lt_size
  have hgap : gap.toNat < UInt64.size := gap.toNat_lt_size
  have hsize : UInt64.size = 2 ^ 64 := rfl
  have hone : UInt64.toNat 1 = 1 := rfl
  split
  next hbelow =>
    rw [laterBy_eq_add h hbelow, UInt64.toNat_add]
    exact Nat.mod_eq_of_lt hbelow
  next hround =>
    rw [laterBy, if_neg h, if_neg hround, UInt64.toNat_add, UInt64.toNat_add, hone]
    omega

theorem laterBy_ne_zero (h : token ≠ 0) : laterBy gap token ≠ 0 := by
  intro hzero
  have hpos := toNat_pos h
  have hlater : (laterBy gap token).toNat = _ := toNat_laterBy h
  rw [hzero, UInt64.toNat_zero] at hlater
  split at hlater <;> omega

/-- Later tokens of different tokens differ. -/
theorem laterBy_injective (gap : Token) : Function.Injective (laterBy gap) := by
  intro first second heq
  by_cases hfirst : first = 0
  · by_contra hne
    have hsecond : second ≠ 0 := fun hzero => hne (hfirst.trans hzero.symm)
    exact laterBy_ne_zero hsecond (heq.symm.trans (if_pos hfirst))
  · have hsecond : second ≠ 0 := fun hzero =>
      laterBy_ne_zero hfirst (heq.trans (if_pos hzero))
    have hpos := toNat_pos hfirst
    have hpos' := toNat_pos hsecond
    have hlt : first.toNat < UInt64.size := first.toNat_lt_size
    have hlt' : second.toNat < UInt64.size := second.toNat_lt_size
    have hsame := congrArg UInt64.toNat heq
    rw [toNat_laterBy hfirst, toNat_laterBy hsecond] at hsame
    apply UInt64.toNat_inj.mp
    split at hsame <;> split at hsame <;> omega

/-- Every token comes after exactly one other. -/
theorem laterBy_bijective (gap : Token) : Function.Bijective (laterBy gap) := by
  have : Finite Token := Finite.of_injective UInt64.toFin fun _ _ heq => UInt64.toFin_inj.mp heq
  exact Finite.injective_iff_bijective.mp (laterBy_injective gap)

/-- The token after any token is not zero. -/
theorem nextAfter_ne_zero (token : Token) : nextAfter token ≠ 0 := by
  rw [nextAfter]
  split
  next => decide
  next hne => exact hne

/-- After the largest token comes one. -/
theorem toNat_nextAfter (token : Token) :
    (nextAfter token).toNat = if token.toNat + 1 < UInt64.size then token.toNat + 1 else 1 := by
  have htoken : token.toNat < UInt64.size := token.toNat_lt_size
  have hsize : UInt64.size = 2 ^ 64 := rfl
  have hsum : (token + 1).toNat = (token.toNat + 1) % 2 ^ 64 := UInt64.toNat_add token 1
  have hzero : token + 1 = 0 ↔ (token.toNat + 1) % 2 ^ 64 = 0 := by
    rw [← hsum]
    exact UInt64.toNat_inj.symm
  rw [nextAfter]
  split
  next hround =>
    rw [hzero] at hround
    rw [if_neg (by omega)]
    rfl
  next hbelow =>
    rw [hzero] at hbelow
    rw [hsum, if_pos (by omega)]
    omega

/-- A counter that is ahead stays ahead, also when it comes round before the other one. -/
theorem laterBy_nextAfter (h : token ≠ 0) :
    laterBy gap (nextAfter token) = nextAfter (laterBy gap token) := by
  have htoken : token.toNat < UInt64.size := token.toNat_lt_size
  have hgap : gap.toNat < UInt64.size := gap.toNat_lt_size
  have hsize : UInt64.size = 2 ^ 64 := rfl
  have hpos := toNat_pos h
  apply UInt64.toNat_inj.mp
  rw [toNat_laterBy (nextAfter_ne_zero token), toNat_nextAfter, toNat_nextAfter, toNat_laterBy h]
  split_ifs <;> omega

/-- A counter that has come to a token is ahead of a new one. -/
theorem laterBy_one (h : token ≠ 0) : laterBy (token - 1) 1 = token := by
  have htoken : token.toNat < UInt64.size := token.toNat_lt_size
  have hpos := toNat_pos h
  have hone : UInt64.toNat 1 = 1 := rfl
  have hgap : (token - 1).toNat = token.toNat - 1 :=
    UInt64.toNat_sub_of_le token 1 (UInt64.le_iff_toNat_le.mpr hpos)
  apply UInt64.toNat_inj.mp
  rw [toNat_laterBy (by decide), hone, hgap, if_pos (by omega)]
  omega

end Tokens

/-! ## Shards -/

namespace Shards

variable {α β : Type} {config : EngineConfig} {rename : Token → Token}
  {shards echo after : Shards} {i : Nat}

theorem Mirrors.mirror_elsewhere {kind : Token → Prop}
    (h : Mirrors config i kind rename shards echo) (hsame : SameAt i echo after) :
    Mirrors config i kind rename shards after :=
  ⟨h.size_eq, hsame.size_eq.trans h.mirror_size_eq,
    fun a b ha hb => h.segment a b ha (hsame.getElem?_eq ▸ hb)⟩

/-- Every segment mirrors the one at its place, whatever the tokens are. -/
def Echoes (config : EngineConfig) (rename : Token → Token) (shards echo : Shards) : Prop :=
  ∀ i, Mirrors config i (fun _ => True) rename shards echo

namespace Echoes

variable (h : Echoes config rename shards echo)
include h

/-- An echo has as many segments as the engine. -/
theorem size_segments_eq : echo.segments.size = shards.segments.size :=
  (h 0).mirror_size_eq.trans (h 0).size_eq.symm

theorem home_eq (key : String) : echo.home key = shards.home key :=
  ((h 0).mirror_home_eq key).trans ((h 0).home_eq key).symm

theorem segmentOf (key : String) :
    (shards.segmentOf key).Mirrors (fun _ => True) rename (echo.segmentOf key) :=
  (h (config.home key)).segmentOf rfl

theorem find?_eq (key : String) :
    echo.find? key = (shards.find? key).map (Entry.renamed rename) :=
  (h.segmentOf key).peek_eq key

/-- The entries of an echo are those of the engine with their tokens renamed. -/
theorem entries_eq : echo.entries = shards.entries.map (renamedBinding rename) := by
  have hcount : echo.count = shards.count := h.size_segments_eq
  rw [entries_eq_flatMap, entries_eq_flatMap, hcount, List.map_flatMap]
  exact List.flatMap_congr fun i _ => (h i).entriesAt_eq

theorem size_eq : echo.size = shards.size := by
  rw [size_eq_length_entries, size_eq_length_entries, h.entries_eq, List.length_map]

/-- A note speaks of the entries of both, or of none of them. -/
theorem isCurrent_eq : Engine.isCurrent echo = Engine.isCurrent shards := by
  funext note
  unfold Engine.isCurrent
  by_cases hi : note.segment < shards.segments.size
  · have ha := Array.getElem?_eq_getElem hi
    have hb := Array.getElem?_eq_getElem (h.size_segments_eq ▸ hi : _ < echo.segments.size)
    have hpeek := ((h note.segment).segment _ _ ha hb).peek_eq note.key
    rw [ha, hb]
    dsimp only
    rw [Segment.deadlineOf, Segment.deadlineOf, hpeek, Option.map_map]
    rfl
  · have hi' := Nat.not_lt.mp hi
    rw [Array.getElem?_eq_none hi', Array.getElem?_eq_none (h.size_segments_eq ▸ hi')]

/-- The same is done to the homes of a key. -/
theorem onHome {key : String} {operation : Segment StandardPolicy → Segment StandardPolicy × α}
    {operation' : Segment StandardPolicy → Segment StandardPolicy × β}
    (hboth : (operation (shards.segmentOf key)).1.Mirrors (fun _ => True) rename
      (operation' (echo.segmentOf key)).1) :
    Echoes config rename (shards.onHome key operation).1 (echo.onHome key operation').1 := by
  intro i
  by_cases hkey : config.home key = i
  · exact (h i).onHome hkey hboth
  · have hhome : shards.home key ≠ i := (h i).home_eq key ▸ hkey
    have hhome' : echo.home key ≠ i := (h i).mirror_home_eq key ▸ hkey
    exact ((h i).elsewhere (sameAt_onHome hhome operation)).mirror_elsewhere
      (sameAt_onHome hhome' operation')

/-- Removing the same key from both keeps the echo. -/
theorem remove (key : String) : Echoes config rename (shards.remove key) (echo.remove key) :=
  h.onHome ((h.segmentOf key).remove key)

theorem get (key : String) : Echoes config rename (shards.get key) (echo.get key) :=
  h.onHome ((h.segmentOf key).get key)

theorem insert (key : String) (entry : Entry) :
    Echoes config rename (shards.insert key entry) (echo.insert key (entry.renamed rename)) :=
  h.onHome ((h.segmentOf key).insert trivial key)

/-- Both shards take an entry alike, and they evict the same keys. -/
theorem put (key : String) (entry : Entry) :
    Echoes config rename (shards.put key entry).1 (echo.put key (entry.renamed rename)).1 ∧
      (echo.put key (entry.renamed rename)).2 = (shards.put key entry).2 := by
  obtain ⟨hmirrors, hsame⟩ := (h.segmentOf key).put trivial key
  rw [Shards.put, Shards.put, onHome_snd, onHome_snd]
  exact ⟨h.onHome hmirrors, hsame⟩

theorem putForce (key : String) (entry : Entry) :
    Echoes config rename (shards.putForce key entry).1
      (echo.putForce key (entry.renamed rename)).1 :=
  h.onHome ((h.segmentOf key).putForce trivial key).1

theorem removeAt (i : Nat) (key : String) :
    Echoes config rename (shards.removeAt i key) (echo.removeAt i key) := by
  unfold Shards.removeAt
  by_cases hi : i < shards.segments.size
  · have hi' : i < echo.segments.size := h.size_segments_eq ▸ hi
    rw [dif_pos hi, dif_pos hi']
    refine fun j => ⟨(size_onSegment _ _ _).trans (h j).size_eq,
      (size_onSegment _ _ _).trans (h j).mirror_size_eq, fun a b ha hb => ?_⟩
    rw [getElem?_onSegment] at ha hb
    by_cases hij : i = j
    · rw [if_pos hij] at ha hb
      have hmirrors := (h i).segment _ _ (Array.getElem?_eq_getElem hi)
        (Array.getElem?_eq_getElem hi')
      exact Option.some.inj ha ▸ Option.some.inj hb ▸ hmirrors.remove key
    · rw [if_neg hij] at ha hb
      exact (h j).segment a b ha hb
  · rw [dif_neg hi, dif_neg (h.size_segments_eq ▸ hi)]
    exact h

theorem clear : Echoes config rename shards.clear echo.clear := fun i => (h i).clear

end Echoes

end Shards

/-! ## Engines -/

namespace Engine

variable {A : Type} {config : EngineConfig} {gap : Token} {engine echo : Engine A}
  {shards shards' : Shards}

theorem freshToken_ne_zero (engine : Engine A) : engine.freshToken ≠ 0 := by
  rw [freshToken]
  split
  next => decide
  next hne => exact hne

/-- An engine and its echo. -/
structure Echoes (config : EngineConfig) (gap : Token) (engine echo : Engine A) : Prop where
  shards : engine.shards.Echoes config (laterBy gap) echo.shards
  expiries_eq : echo.expiries = engine.expiries
  compactAbove_eq : echo.compactAbove = engine.compactAbove
  freshToken_eq : echo.freshToken = laterBy gap engine.freshToken
  audience_eq : echo.audience = engine.audience

/-- A run in which every compare-and-swap expects the later token. -/
def laterRun (gap : Token) (steps : List (Instant × EngineCall)) : List (Instant × EngineCall) :=
  steps.map fun step => (step.1, step.2.renamed (laterBy gap))

/-- What two engines show is the same, but for the tokens, and so are their audiences with
all that they have heard. -/
structure Resembles (rename : Token → Token) (engine echo : Engine A) : Prop where
  dump_eq : ∀ now, echo.dump now = (engine.dump now).map (renamedBinding rename)
  fingerprint_eq : ∀ now, echo.fingerprint now = engine.fingerprint now
  size_eq : echo.size = engine.size
  pendingExpiries_eq : echo.pendingExpiries = engine.pendingExpiries
  audience_eq : echo.audience = engine.audience

/-- Whoever hears the same in front of an engine and of its echo does the same to both. -/
def Attuned (config : EngineConfig) (gap : Token) (hear : Hearing A) : Prop :=
  ∀ {engine echo : Engine A} (signal : Signal), Echoes config gap engine echo →
    Echoes config gap (hear engine signal) (hear echo signal)

namespace Echoes

section Silent

variable (h : Echoes config gap engine echo)
include h

/-- What an echo finds under a key is what the engine finds, its token later by the gap. -/
theorem lookup_eq (now : Instant) (key : String) :
    echo.lookup now key = (engine.lookup now key).map (Entry.renamed (laterBy gap)) := by
  rw [lookup, lookup, h.shards.find?_eq, Option.filter_map]
  rfl

theorem contains_eq (now : Instant) (key : String) :
    echo.contains now key = engine.contains now key := by
  rw [Engine.contains_eq, Engine.contains_eq, h.lookup_eq, Option.isSome_map]

theorem size_eq : echo.size = engine.size := h.shards.size_eq

theorem fresh_eq (value : Value) (deadline : Instant) :
    echo.fresh value deadline = (engine.fresh value deadline).renamed (laterBy gap) :=
  congrArg (Entry.mk value deadline) h.freshToken_eq

theorem count (counter : Counter) : Echoes config gap (engine.count counter) (echo.count counter) :=
  ⟨h.shards, h.expiries_eq, h.compactAbove_eq, h.freshToken_eq, h.audience_eq⟩

theorem attend (change : A → A) :
    Echoes config gap { engine with audience := change engine.audience }
      { echo with audience := change echo.audience } :=
  ⟨h.shards, h.expiries_eq, h.compactAbove_eq, h.freshToken_eq, congrArg change h.audience_eq⟩

theorem reshard (hshards : shards.Echoes config (laterBy gap) shards') :
    Echoes config gap { engine with shards } { echo with shards := shards' } :=
  ⟨hshards, h.expiries_eq, h.compactAbove_eq, h.freshToken_eq, h.audience_eq⟩

/-- Both mint a token. -/
theorem minting (hshards : shards.Echoes config (laterBy gap) shards') (stats stats' : Stats) :
    Echoes config gap { engine with nextToken := engine.freshToken + 1, shards, stats }
      { echo with nextToken := echo.freshToken + 1, shards := shards', stats := stats' } := by
  refine ⟨hshards, h.expiries_eq, h.compactAbove_eq, ?_, h.audience_eq⟩
  change nextAfter echo.freshToken = laterBy gap (nextAfter engine.freshToken)
  rw [h.freshToken_eq, laterBy_nextAfter engine.freshToken_ne_zero]

/-- An echo queues the same note for a deadline, as its homes are the same. -/
theorem tracked_eq (key : String) (deadline : Instant) :
    echo.tracked key deadline = engine.tracked key deadline := by
  unfold tracked
  rw [h.expiries_eq, h.compactAbove_eq, h.shards.home_eq, h.shards.isCurrent_eq]

theorem trackExpiry (key : String) (deadline : Instant) :
    Echoes config gap (engine.trackExpiry key deadline) (echo.trackExpiry key deadline) := by
  rw [trackExpiry_eq, trackExpiry_eq, h.tracked_eq]
  exact ⟨h.shards, rfl, h.compactAbove_eq, h.freshToken_eq, h.audience_eq⟩

theorem dueNotes_eq (now : Instant) : echo.dueNotes now = engine.dueNotes now := by
  rw [dueNotes, dueNotes, h.expiries_eq]

theorem drained (now : Instant) : Echoes config gap (engine.drained now) (echo.drained now) := by
  refine ⟨h.shards, ?_, h.compactAbove_eq, h.freshToken_eq, h.audience_eq⟩
  rw [Engine.drained, Engine.drained, h.expiries_eq]

theorem clear : Echoes config gap engine.clear echo.clear :=
  ⟨h.shards.clear, rfl, h.compactAbove_eq, h.freshToken_eq, h.audience_eq⟩

variable (now : Instant)

/-- Nobody hears of a recorded change. -/
theorem replay (change : Record) :
    Echoes config gap (engine.replay now change) (echo.replay now change) := by
  cases change with
  | delete key => exact h.reshard (h.shards.remove key)
  | set key value deadline =>
      rw [replay_set_eq, replay_set_eq, h.fresh_eq]
      split
      next => exact h.reshard (h.shards.remove key)
      next => exact (h.minting (h.shards.putForce key _) _ _).trackExpiry key deadline

/-- A dump restored into both is applied alike, and the echo stays an echo. -/
theorem restore (records : List (Option Record)) :
    Echoes config gap (engine.restore now records).1 (echo.restore now records).1 ∧
      (echo.restore now records).2 = (engine.restore now records).2 := by
  rw [restore_eq, restore_eq]
  refine ⟨?_, rfl⟩
  dsimp only
  induction records generalizing engine echo with
  | nil => exact h
  | cons record rest ih =>
      cases record with
      | none => exact ih h
      | some change => exact ih (h.replay now change)

end Silent

/-- Nothing that an engine shows tells it from its echo but the tokens. -/
theorem resembles (h : Echoes config gap engine echo) :
    Resembles (laterBy gap) engine echo := by
  have hdump (now : Instant) :
      echo.dump now = (engine.dump now).map (renamedBinding (laterBy gap)) := by
    rw [dump, dump, h.shards.entries_eq, List.filter_map]
    rfl
  refine ⟨hdump, fun now => ?_, h.size_eq, ?_, h.audience_eq⟩
  · rw [fingerprint, fingerprint, hdump, List.foldl_map]
    rfl
  · rw [pendingExpiries, pendingExpiries, h.expiries_eq]

section Operations

variable {hear : Hearing A} (hh : Attuned config gap hear) (h : Echoes config gap engine echo)
include hh h

theorem reportExpiry (key : String) :
    Echoes config gap (engine.reportExpiry hear key) (echo.reportExpiry hear key) :=
  hh _ (h.count .expirations)

theorem reportEvictions (victims : List String) :
    Echoes config gap (engine.reportEvictions hear victims)
      (echo.reportEvictions hear victims) := by
  induction victims generalizing engine echo with
  | nil => exact h
  | cons victim rest ih => exact ih (hh _ (h.count .evictions))

variable (now : Instant) (key : String)

/-- A `set` answers alike in both, and the echo stays an echo. -/
theorem set (value : Value) (ttl : Span) :
    Echoes config gap (engine.set hear now key value ttl).1 (echo.set hear now key value ttl).1 ∧
      (echo.set hear now key value ttl).2 = (engine.set hear now key value ttl).2 := by
  obtain ⟨hput, houtcome⟩ := h.shards.put key (engine.fresh value (deadlineAfter now ttl))
  rw [← h.fresh_eq] at hput houtcome
  have hafter : Echoes config gap (engine.afterPut now key value ttl)
      (echo.afterPut now key value ttl) := h.minting hput _ _
  have hsame : echo.putOutcome now key value ttl = engine.putOutcome now key value ttl := houtcome
  have htold := hafter.reportEvictions hh (engine.putOutcome now key value ttl).evicted
  rw [set_eq, set_eq, hsame]
  dsimp only
  split
  next => exact ⟨(hh _ (htold.trackExpiry key _)).count _, rfl⟩
  next => exact ⟨htold.count _, rfl⟩

/-- A lookup shows the same value in both, and the token later by the gap. -/
theorem getWithToken :
    Echoes config gap (engine.getWithToken hear now key).1 (echo.getWithToken hear now key).1 ∧
      (echo.getWithToken hear now key).2 = (engine.getWithToken hear now key).2.map
        fun shown => (shown.1, laterBy gap shown.2) := by
  have hlooked := h.reshard (h.shards.get key)
  rw [getWithToken_eq, getWithToken_eq, h.shards.find?_eq]
  cases engine.shards.find? key with
  | none => exact ⟨hlooked.count _, rfl⟩
  | some entry =>
      dsimp only [Option.map_some]
      rw [Entry.expired_renamed]
      split
      next =>
        have hremoved := hlooked.reshard (hlooked.shards.remove key)
        exact ⟨(hremoved.reportExpiry hh key).count _, rfl⟩
      next => exact ⟨hlooked.count _, rfl⟩

theorem get :
    Echoes config gap (engine.get hear now key).1 (echo.get hear now key).1 ∧
      (echo.get hear now key).2 = (engine.get hear now key).2 := by
  obtain ⟨hnext, hanswer⟩ := h.getWithToken hh now key
  refine ⟨hnext, ?_⟩
  unfold Engine.get
  dsimp only
  rw [hanswer, Option.map_map]
  rfl

/-- A delete answers alike in both. -/
theorem delete :
    Echoes config gap (engine.delete hear now key).1 (echo.delete hear now key).1 ∧
      (echo.delete hear now key).2 = (engine.delete hear now key).2 := by
  have hremoved := h.reshard (h.shards.remove key)
  rw [delete_eq, delete_eq, h.shards.find?_eq]
  cases engine.shards.find? key with
  | none => exact ⟨hremoved, rfl⟩
  | some entry =>
      dsimp only [Option.map_some]
      rw [Entry.expired_renamed]
      split
      next => exact ⟨hremoved.reportExpiry hh key, rfl⟩
      next => exact ⟨hh _ (hh _ (hremoved.count _)), rfl⟩

/-- The echo swaps when it expects the later token. -/
theorem compareAndSwap (value : Value) (expected : Token) (ttl : Span) :
    Echoes config gap (engine.compareAndSwap hear now key value expected ttl).1
        (echo.compareAndSwap hear now key value (laterBy gap expected) ttl).1 ∧
      EngineAnswer.swapped (echo.compareAndSwap hear now key value (laterBy gap expected) ttl).2 =
        (EngineAnswer.swapped (engine.compareAndSwap hear now key value expected ttl).2).renamed
          (laterBy gap) := by
  rw [compareAndSwap_eq, compareAndSwap_eq, h.shards.find?_eq]
  cases engine.shards.find? key with
  | none => exact ⟨h, rfl⟩
  | some found =>
      have hconflict : (found.renamed (laterBy gap)).token ≠ laterBy gap expected ↔
          found.token ≠ expected := (laterBy_injective gap).ne_iff
      dsimp only [Option.map_some]
      rw [Entry.expired_renamed]
      split
      next => exact ⟨(h.reshard (h.shards.remove key)).reportExpiry hh key, rfl⟩
      next =>
        by_cases hstale : found.token ≠ expected
        · rw [if_pos hstale, if_pos (hconflict.mpr hstale)]
          exact ⟨h, rfl⟩
        · rw [if_neg hstale, if_neg (mt hconflict.mp hstale), h.fresh_eq]
          have hstored := h.minting (h.shards.insert key
            (engine.fresh value (swapDeadline now ttl found))) engine.stats echo.stats
          exact ⟨(hh _ (hstored.trackExpiry key _)).count _, rfl⟩

omit now key in
theorem reapOne (note : Pending) :
    Echoes config gap (engine.reapOne hear note).1 (echo.reapOne hear note).1 ∧
      (echo.reapOne hear note).2 = (engine.reapOne hear note).2 := by
  rw [reapOne_eq, reapOne_eq, h.shards.isCurrent_eq]
  split
  next => exact ⟨(h.reshard (h.shards.removeAt _ _)).reportExpiry hh note.key, rfl⟩
  next => exact ⟨h, rfl⟩

omit now key in
theorem foldl_reapStep (notes : List Pending) (reaped : Nat) :
    Echoes config gap (notes.foldl (reapStep hear) (engine, reaped)).1
        (notes.foldl (reapStep hear) (echo, reaped)).1 ∧
      (notes.foldl (reapStep hear) (echo, reaped)).2 =
        (notes.foldl (reapStep hear) (engine, reaped)).2 := by
  induction notes generalizing engine echo reaped with
  | nil => exact ⟨h, rfl⟩
  | cons note rest ih =>
      obtain ⟨hnext, hremoved⟩ := h.reapOne hh note
      rw [List.foldl_cons, List.foldl_cons, reapStep, reapStep, hremoved]
      exact ih hnext _

omit key in
/-- A sweep of both takes out equally many entries. -/
theorem reap :
    Echoes config gap (engine.reap hear now).1 (echo.reap hear now).1 ∧
      (echo.reap hear now).2 = (engine.reap hear now).2 := by
  rw [reap_eq, reap_eq, h.dueNotes_eq]
  exact (h.drained now).foldl_reapStep hh _ 0

omit key in
/-- An echo stays an echo in every call, and answers alike, but for the tokens. -/
theorem apply (call : EngineCall) :
    Echoes config gap (engine.apply hear now call).1
        (echo.apply hear now (call.renamed (laterBy gap))).1 ∧
      (echo.apply hear now (call.renamed (laterBy gap))).2 =
        (engine.apply hear now call).2.renamed (laterBy gap) := by
  cases call with
  | set key value ttl =>
      obtain ⟨hnext, hanswer⟩ := h.set hh now key value ttl
      exact ⟨hnext, congrArg EngineAnswer.holds hanswer⟩
  | get key =>
      obtain ⟨hnext, hanswer⟩ := h.get hh now key
      exact ⟨hnext, congrArg EngineAnswer.value hanswer⟩
  | getWithToken key =>
      obtain ⟨hnext, hanswer⟩ := h.getWithToken hh now key
      exact ⟨hnext, congrArg EngineAnswer.valueWithToken hanswer⟩
  | contains key => exact ⟨h, congrArg EngineAnswer.holds (h.contains_eq now key)⟩
  | delete key =>
      obtain ⟨hnext, hanswer⟩ := h.delete hh now key
      exact ⟨hnext, congrArg EngineAnswer.holds hanswer⟩
  | compareAndSwap key value expected ttl => exact h.compareAndSwap hh now key value expected ttl
  | clear => exact ⟨h.clear, rfl⟩
  | replay change => exact ⟨h.replay now change, rfl⟩
  | restore records =>
      obtain ⟨hnext, hanswer⟩ := h.restore now records
      exact ⟨hnext, congrArg EngineAnswer.restored hanswer⟩
  | reap =>
      obtain ⟨hnext, hanswer⟩ := h.reap hh now
      exact ⟨hnext, congrArg EngineAnswer.reaped hanswer⟩

end Operations

/-- A run of an engine, and the same run of its echo with the later tokens. -/
theorem run {hear : Instant → Hearing A} (hh : ∀ now, Attuned config gap (hear now))
    (h : Echoes config gap engine echo) (steps : List (Instant × EngineCall)) :
    Echoes config gap (engine.run hear steps).1 (echo.run hear (laterRun gap steps)).1 ∧
      (echo.run hear (laterRun gap steps)).2 =
        (engine.run hear steps).2.map (EngineAnswer.renamed (laterBy gap)) := by
  induction steps generalizing engine echo with
  | nil => exact ⟨h, rfl⟩
  | cons step rest ih =>
      obtain ⟨now, call⟩ := step
      obtain ⟨hnext, hanswer⟩ := h.apply (hh now) now call
      obtain ⟨hlast, hanswers⟩ := ih hnext
      rw [laterRun, List.map_cons, ← laterRun, run_cons, run_cons]
      exact ⟨hlast, congrArg₂ List.cons hanswer hanswers⟩

end Echoes

end Engine

end ReplicatedCache
