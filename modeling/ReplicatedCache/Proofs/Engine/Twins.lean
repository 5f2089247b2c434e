import ReplicatedCache.Proofs.Engine.Run
import ReplicatedCache.Proofs.Engine.Signals

/-! # Engines that differ in their audiences

An operation changes an engine in silent steps and issues signals in between. Two
engines that differ in their audiences only take the same silent steps and issue the
same signals, as long as their audiences do the same to them. Whatever relates such
engines and is kept by silent steps and by hearing is therefore kept by every
operation, and the answers are the same.
-/

namespace ReplicatedCache.Engine

variable {A B : Type}

def heardBy (engine : Engine A) (audience : B) : Engine B :=
  ⟨engine.shards, engine.expiries, engine.compactAbove, engine.nextToken, engine.stats, audience⟩

/-- What an operation does to an engine at once, without a signal. -/
inductive Silent : Engine A → Engine A → Prop
  | count (engine : Engine A) (stats : Stats) : Silent engine { engine with stats }
  | put (engine : Engine A) (now : Instant) (key : String) (value : Value) (ttl : Span) :
    Silent engine (engine.afterPut now key value ttl)
  | putForce (engine : Engine A) (key : String) (value : Value) (deadline : Instant)
    (stats : Stats) :
    Silent engine { engine with
      nextToken := engine.freshToken + 1
      shards := (engine.shards.putForce key (engine.fresh value deadline)).1
      stats }
  | swap (engine : Engine A) (key : String) (value : Value) (deadline : Instant) {found : Entry}
    (hfind : engine.shards.find? key = some found) :
    Silent engine { engine with
      nextToken := engine.freshToken + 1
      shards := engine.shards.insert key (engine.fresh value deadline) }
  | get (engine : Engine A) (key : String) :
    Silent engine { engine with shards := engine.shards.get key }
  | remove (engine : Engine A) (key : String) :
    Silent engine { engine with shards := engine.shards.remove key }
  | removeAt (engine : Engine A) (i : Nat) (key : String) :
    Silent engine { engine with shards := engine.shards.removeAt i key }
  | track (engine : Engine A) (key : String) (deadline : Instant) :
    Silent engine (engine.trackExpiry key deadline)
  | drain (engine : Engine A) (now : Instant) : Silent engine (engine.drained now)
  | clear (engine : Engine A) : Silent engine engine.clear

theorem Silent.audience_eq {engine after : Engine A} (h : Silent engine after) :
    after.audience = engine.audience := by
  cases h with
  | track key deadline => rw [trackExpiry_eq]
  | count | put | putForce | swap | get | remove | removeAt | drain | clear => rfl

/-- Two engines that differ in their audiences only, and are related. -/
structure Twins (related : Engine A → B → Prop) (engine : Engine A) (twin : Engine B) : Prop where
  same : twin = engine.heardBy twin.audience
  related : related engine twin.audience

/-- Silent steps and hearing keep twins related. -/
structure Bond (related : Engine A → B → Prop) (hear : Hearing A) (hear' : Hearing B) :
    Prop where
  silent : ∀ {engine after : Engine A} {audience : B}, Silent engine after →
    related engine audience → related after audience
  hears : ∀ {engine : Engine A} {twin : Engine B} (signal : Signal),
    Twins related engine twin → Twins related (hear engine signal) (hear' twin signal)

namespace Twins

variable {related : Engine A → B → Prop} {hear : Hearing A} {hear' : Hearing B}
  {engine after : Engine A} {twin after' : Engine B}

theorem shards_eq (h : Twins related engine twin) : twin.shards = engine.shards := by
  rw [h.same]
  rfl

/-- What keeps twins and a state beside them together step by step does so in a fold. -/
theorem foldl {σ ι : Type} (step : Engine A × σ → ι → Engine A × σ)
    (step' : Engine B × σ → ι → Engine B × σ)
    (hstep : ∀ (state : Engine A × σ) (twin : Engine B) (item : ι), Twins related state.1 twin →
      Twins related (step state item).1 (step' (twin, state.2) item).1 ∧
        (step' (twin, state.2) item).2 = (step state item).2)
    (items : List ι) {start : σ} (h : Twins related engine twin) :
    Twins related (items.foldl step (engine, start)).1 (items.foldl step' (twin, start)).1 ∧
      (items.foldl step' (twin, start)).2 = (items.foldl step (engine, start)).2 := by
  induction items generalizing engine twin start with
  | nil => exact ⟨h, rfl⟩
  | cons item rest ih =>
      obtain ⟨hnext, hstate⟩ := hstep (engine, start) twin item h
      have hpair : step' (twin, start) item =
          ((step' (twin, start) item).1, (step (engine, start) item).2) :=
        Prod.ext rfl hstate
      rw [List.foldl_cons, List.foldl_cons, hpair]
      exact ih hnext

/-- Visitors that keep twins together do so in a visit. -/
theorem visit {σ : Type} {visitor : Engine A → σ → String → Entry → Engine A × σ}
    {visitor' : Engine B → σ → String → Entry → Engine B × σ}
    (hvisitor : ∀ {engine : Engine A} {twin : Engine B} (s : σ) (key : String) (entry : Entry),
      Twins related engine twin →
        Twins related (visitor engine s key entry).1 (visitor' twin s key entry).1 ∧
          (visitor' twin s key entry).2 = (visitor engine s key entry).2)
    (h : Twins related engine twin) (now : Instant) (start : σ) :
    Twins related (engine.visit now visitor start).1 (twin.visit now visitor' start).1 ∧
      (twin.visit now visitor' start).2 = (engine.visit now visitor start).2 := by
  have hcount : twin.segmentCount = engine.segmentCount := h.same ▸ rfl
  unfold Engine.visit
  rw [hcount]
  refine foldl _ _ ?_ _ h
  intro state twin i hstate
  dsimp only
  rw [hstate.shards_eq]
  refine foldl _ _ ?_ _ hstate
  rintro state twin ⟨key, entry⟩ hstate
  dsimp only
  split
  next => exact ⟨hstate, rfl⟩
  next => exact hvisitor state.2 key entry hstate

section Bonded

variable (hb : Bond related hear hear') (h : Twins related engine twin)
include hb h

/-- Twins take the same silent step. -/
theorem silent (hstep : Silent engine after)
    (hsame : twin = engine.heardBy twin.audience → after' = after.heardBy twin.audience) :
    Twins related after after' := by
  -- The audience of the twin is as it was, since no signal was issued.
  obtain rfl := hsame h.same
  exact ⟨rfl, hb.silent hstep h.related⟩

theorem count (counter : Counter) : Twins related (engine.count counter) (twin.count counter) :=
  h.silent hb (.count engine _) fun heq => heq ▸ rfl

theorem trackExpiry (key : String) (deadline : Instant) :
    Twins related (engine.trackExpiry key deadline) (twin.trackExpiry key deadline) := by
  refine h.silent hb (.track engine key deadline) fun heq => ?_
  rw [trackExpiry_eq, trackExpiry_eq, heq]
  rfl

theorem remove (key : String) :
    Twins related { engine with shards := engine.shards.remove key }
      { twin with shards := twin.shards.remove key } :=
  h.silent hb (.remove engine key) fun heq => heq ▸ rfl

theorem reportExpiry (key : String) :
    Twins related (engine.reportExpiry hear key) (twin.reportExpiry hear' key) :=
  hb.hears _ (h.count hb .expirations)

end Bonded

section Operations

variable (hb : Bond related hear hear')
include hb

theorem reportEvictions (h : Twins related engine twin) (victims : List String) :
    Twins related (engine.reportEvictions hear victims) (twin.reportEvictions hear' victims) := by
  induction victims generalizing engine twin with
  | nil => exact h
  | cons victim rest ih => exact ih (hb.hears _ (h.count hb .evictions))

variable (h : Twins related engine twin) (now : Instant) (key : String)
include h

theorem set (value : Value) (ttl : Span) :
    Twins related (engine.set hear now key value ttl).1 (twin.set hear' now key value ttl).1 ∧
      (twin.set hear' now key value ttl).2 = (engine.set hear now key value ttl).2 := by
  have hput : Twins related (engine.afterPut now key value ttl) (twin.afterPut now key value ttl) :=
    h.silent hb (.put engine now key value ttl) fun heq => heq ▸ rfl
  have houtcome : twin.putOutcome now key value ttl = engine.putOutcome now key value ttl :=
    h.same ▸ rfl
  have htold := hput.reportEvictions hb (engine.putOutcome now key value ttl).evicted
  rw [set_eq, set_eq, houtcome]
  dsimp only
  split
  next => exact ⟨(hb.hears _ (htold.trackExpiry hb _ _)).count hb _, rfl⟩
  next => exact ⟨htold.count hb _, rfl⟩

theorem getWithToken :
    Twins related (engine.getWithToken hear now key).1 (twin.getWithToken hear' now key).1 ∧
      (twin.getWithToken hear' now key).2 = (engine.getWithToken hear now key).2 := by
  have hlooked : Twins related { engine with shards := engine.shards.get key }
      { twin with shards := twin.shards.get key } :=
    h.silent hb (.get engine key) fun heq => heq ▸ rfl
  rw [getWithToken_eq, getWithToken_eq, h.shards_eq]
  rw [h.shards_eq] at hlooked
  dsimp only
  cases engine.shards.find? key with
  | none => exact ⟨hlooked.count hb _, rfl⟩
  | some entry =>
      dsimp only
      split
      next => exact ⟨((hlooked.remove hb key).reportExpiry hb key).count hb _, rfl⟩
      next => exact ⟨hlooked.count hb _, rfl⟩

theorem delete :
    Twins related (engine.delete hear now key).1 (twin.delete hear' now key).1 ∧
      (twin.delete hear' now key).2 = (engine.delete hear now key).2 := by
  have hremoved := h.remove hb key
  rw [delete_eq, delete_eq, h.shards_eq]
  rw [h.shards_eq] at hremoved
  dsimp only
  cases engine.shards.find? key with
  | none => exact ⟨hremoved, rfl⟩
  | some entry =>
      dsimp only
      split
      next => exact ⟨hremoved.reportExpiry hb key, rfl⟩
      next => exact ⟨hb.hears _ (hb.hears _ (hremoved.count hb _)), rfl⟩

theorem compareAndSwap (value : Value) (expected : Token) (ttl : Span) :
    Twins related (engine.compareAndSwap hear now key value expected ttl).1
        (twin.compareAndSwap hear' now key value expected ttl).1 ∧
      (twin.compareAndSwap hear' now key value expected ttl).2 =
        (engine.compareAndSwap hear now key value expected ttl).2 := by
  have hfresh : ∀ deadline, twin.fresh value deadline = engine.fresh value deadline :=
    fun deadline => h.same ▸ rfl
  have htoken : twin.freshToken = engine.freshToken := h.same ▸ rfl
  have hremoved := h.remove hb key
  rw [compareAndSwap_eq, compareAndSwap_eq, h.shards_eq]
  rw [h.shards_eq] at hremoved
  dsimp only
  cases hfind : engine.shards.find? key with
  | none => exact ⟨h, rfl⟩
  | some found =>
      dsimp only
      split
      next => exact ⟨hremoved.reportExpiry hb key, rfl⟩
      next =>
        split
        next => exact ⟨h, rfl⟩
        next =>
          rw [hfresh, htoken]
          refine ⟨(hb.hears _ (Twins.trackExpiry hb ?_ _ _)).count hb _, rfl⟩
          exact h.silent hb (.swap engine key value _ hfind) fun heq => heq ▸ rfl

omit now key in
theorem reapOne (note : Pending) :
    Twins related (engine.reapOne hear note).1 (twin.reapOne hear' note).1 ∧
      (twin.reapOne hear' note).2 = (engine.reapOne hear note).2 := by
  rw [reapOne_eq, reapOne_eq, h.shards_eq]
  split
  next =>
    refine ⟨Twins.reportExpiry hb ?_ note.key, rfl⟩
    exact h.silent hb (.removeAt engine note.segment note.key) fun heq => heq ▸ rfl
  next => exact ⟨h, rfl⟩

omit key in
theorem reap :
    Twins related (engine.reap hear now).1 (twin.reap hear' now).1 ∧
      (twin.reap hear' now).2 = (engine.reap hear now).2 := by
  have hnotes : twin.dueNotes now = engine.dueNotes now := h.same ▸ rfl
  have hdrained : Twins related (engine.drained now) (twin.drained now) :=
    h.silent hb (.drain engine now) fun heq => heq ▸ rfl
  rw [reap_eq, reap_eq, hnotes]
  refine foldl (reapStep hear) (reapStep hear') ?_ _ hdrained
  rintro ⟨engine, reaped⟩ twin note hstate
  obtain ⟨hnext, hremoved⟩ := Twins.reapOne hb hstate note
  rw [reapStep, reapStep, hremoved]
  exact ⟨hnext, rfl⟩

omit key in
theorem replay (change : Record) :
    Twins related (engine.replay now change) (twin.replay now change) := by
  cases change with
  | delete key => exact h.remove hb key
  | set key value deadline =>
      rw [replay_set_eq, replay_set_eq]
      split
      next => exact h.remove hb key
      next =>
        apply Twins.trackExpiry hb
        exact h.silent hb (.putForce engine key value deadline _) fun heq => heq ▸ rfl

omit h key in
theorem restore (h : Twins related engine twin) (records : List (Option Record)) :
    Twins related (engine.restore now records).1 (twin.restore now records).1 ∧
      (twin.restore now records).2 = (engine.restore now records).2 := by
  rw [restore_eq, restore_eq]
  refine ⟨?_, rfl⟩
  dsimp only
  induction records generalizing engine twin with
  | nil => exact h
  | cons record rest ih =>
      apply ih
      cases record with
      | none => exact h
      | some record => exact h.replay hb now record

omit key in
/-- Twins stay twins in every call, and answer alike. -/
theorem apply (call : EngineCall) :
    Twins related (engine.apply hear now call).1 (twin.apply hear' now call).1 ∧
      (twin.apply hear' now call).2 = (engine.apply hear now call).2 := by
  cases call with
  | set key value ttl =>
      obtain ⟨hnext, hanswer⟩ := h.set hb now key value ttl
      exact ⟨hnext, congrArg EngineAnswer.holds hanswer⟩
  | get key =>
      obtain ⟨hnext, hanswer⟩ := h.getWithToken hb now key
      refine ⟨hnext, ?_⟩
      exact congrArg (fun found => EngineAnswer.value (Option.map Prod.fst found)) hanswer
  | getWithToken key =>
      obtain ⟨hnext, hanswer⟩ := h.getWithToken hb now key
      exact ⟨hnext, congrArg EngineAnswer.valueWithToken hanswer⟩
  | contains key => exact ⟨h, by rw [h.same]; rfl⟩
  | delete key =>
      obtain ⟨hnext, hanswer⟩ := h.delete hb now key
      exact ⟨hnext, congrArg EngineAnswer.holds hanswer⟩
  | compareAndSwap key value expected ttl =>
      obtain ⟨hnext, hanswer⟩ := h.compareAndSwap hb now key value expected ttl
      exact ⟨hnext, congrArg EngineAnswer.swapped hanswer⟩
  | clear => exact ⟨h.silent hb (.clear engine) fun heq => heq ▸ rfl, rfl⟩
  | replay record => exact ⟨h.replay hb now record, rfl⟩
  | restore records =>
      obtain ⟨hnext, hanswer⟩ := h.restore hb now records
      exact ⟨hnext, congrArg EngineAnswer.restored hanswer⟩
  | reap =>
      obtain ⟨hnext, hanswer⟩ := h.reap hb now
      exact ⟨hnext, congrArg EngineAnswer.reaped hanswer⟩

end Operations

end Twins

end ReplicatedCache.Engine
