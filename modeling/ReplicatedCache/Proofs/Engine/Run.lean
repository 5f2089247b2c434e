import ReplicatedCache.Engine.Contents

/-! # Runs of an engine

The calls to an engine as data, and what a run of them answers. Every step
of a run has its own time, so that the clock may go forwards and backwards from
one step to the next.
-/

namespace ReplicatedCache

def Record.key : Record → String
  | .set key _ _ => key
  | .delete key => key

/-- One call to an engine. -/
inductive EngineCall
  | set (key : String) (value : Value) (ttl : Span)
  | get (key : String)
  | getWithToken (key : String)
  | contains (key : String)
  | delete (key : String)
  | compareAndSwap (key : String) (value : Value) (expected : Token) (ttl : Span)
  | clear
  | replay (record : Record)
  | restore (records : List (Option Record))
  | reap

inductive EngineAnswer
  | done
  | holds (answer : Bool)
  | value (found : Option Value)
  | valueWithToken (found : Option (Value × Token))
  | swapped (answer : SwapAnswer)
  | restored (summary : RestoreSummary)
  | reaped (count : Nat)
deriving DecidableEq

namespace Engine

variable {A : Type}

def apply (hear : Hearing A) (engine : Engine A) (now : Instant) :
    EngineCall → Engine A × EngineAnswer
  | .set key value ttl =>
    let (engine, stored) := engine.set hear now key value ttl
    (engine, .holds stored)
  | .get key =>
    let (engine, found) := engine.get hear now key
    (engine, .value found)
  | .getWithToken key =>
    let (engine, found) := engine.getWithToken hear now key
    (engine, .valueWithToken found)
  | .contains key => (engine, .holds (engine.contains now key))
  | .delete key =>
    let (engine, deleted) := engine.delete hear now key
    (engine, .holds deleted)
  | .compareAndSwap key value expected ttl =>
    let (engine, answer) := engine.compareAndSwap hear now key value expected ttl
    (engine, .swapped answer)
  | .clear => (engine.clear, .done)
  | .replay record => (engine.replay now record, .done)
  | .restore records =>
    let (engine, summary) := engine.restore now records
    (engine, .restored summary)
  | .reap =>
    let (engine, count) := engine.reap hear now
    (engine, .reaped count)

section Apply

variable (hear : Hearing A) (engine : Engine A) (now : Instant) (key : String)

theorem apply_set (value : Value) (ttl : Span) :
    engine.apply hear now (.set key value ttl) =
      ((engine.set hear now key value ttl).1, .holds (engine.set hear now key value ttl).2) := rfl

theorem apply_get :
    engine.apply hear now (.get key) =
      ((engine.getWithToken hear now key).1,
        .value ((engine.getWithToken hear now key).2.map (·.1))) := rfl

theorem apply_getWithToken :
    engine.apply hear now (.getWithToken key) =
      ((engine.getWithToken hear now key).1,
        .valueWithToken (engine.getWithToken hear now key).2) := rfl

theorem apply_delete :
    engine.apply hear now (.delete key) =
      ((engine.delete hear now key).1, .holds (engine.delete hear now key).2) := rfl

theorem apply_compareAndSwap (value : Value) (expected : Token) (ttl : Span) :
    engine.apply hear now (.compareAndSwap key value expected ttl) =
      ((engine.compareAndSwap hear now key value expected ttl).1,
        .swapped (engine.compareAndSwap hear now key value expected ttl).2) := rfl

theorem apply_restore (records : List (Option Record)) :
    engine.apply hear now (.restore records) =
      ((engine.restore now records).1, .restored (engine.restore now records).2) := rfl

theorem apply_reap :
    engine.apply hear now .reap =
      ((engine.reap hear now).1, .reaped (engine.reap hear now).2) := rfl

end Apply

def run (hear : Instant → Hearing A) (engine : Engine A) :
    List (Instant × EngineCall) → Engine A × List EngineAnswer
  | [] => (engine, [])
  | (now, call) :: rest =>
    let (engine, answer) := engine.apply (hear now) now call
    let (engine, answers) := engine.run hear rest
    (engine, answer :: answers)

variable (hear : Instant → Hearing A)

@[simp] theorem run_cons (engine : Engine A) (now : Instant) (call : EngineCall)
    (rest : List (Instant × EngineCall)) :
    engine.run hear ((now, call) :: rest) =
      (((engine.apply (hear now) now call).1.run hear rest).1,
        (engine.apply (hear now) now call).2 ::
          ((engine.apply (hear now) now call).1.run hear rest).2) := rfl

/-- A run of two stretches is the second run in the engine that the first one leaves. -/
theorem run_append (engine : Engine A) (first second : List (Instant × EngineCall)) :
    engine.run hear (first ++ second) =
      (((engine.run hear first).1.run hear second).1,
        (engine.run hear first).2 ++ ((engine.run hear first).1.run hear second).2) := by
  induction first generalizing engine with
  | nil => rfl
  | cons step rest ih =>
      obtain ⟨now, call⟩ := step
      rw [List.cons_append, run_cons, ih, run_cons]
      rfl

/-- What every call keeps, a run keeps. -/
theorem run_invariant {invariant : Engine A → Prop}
    (hstep : ∀ engine now call, invariant engine →
      invariant (engine.apply (hear now) now call).1)
    (steps : List (Instant × EngineCall)) {engine : Engine A} (hengine : invariant engine) :
    invariant (engine.run hear steps).1 := by
  induction steps generalizing engine with
  | nil => exact hengine
  | cons step rest ih => exact ih (hstep engine step.1 step.2 hengine)

/-! ## Restoring -/

def replayIfAny (engine : Engine A) (now : Instant) : Option Record → Engine A
  | some record => engine.replay now record
  | none => engine

/-- How many records of a list can be decoded, and how many cannot. -/
def tally (records : List (Option Record)) : RestoreSummary where
  applied := records.countP Option.isSome
  skipped := records.countP Option.isNone

/-- Restoring threads a summary along, and counting the records in advance gives the same
one. -/
private theorem restore_foldl (now : Instant) (records : List (Option Record)) (engine : Engine A)
    (summary : RestoreSummary) :
    records.foldl (fun (engine, summary) record =>
        match record with
        | some record =>
          (engine.replay now record, { summary with applied := summary.applied + 1 })
        | none => (engine, { summary with skipped := summary.skipped + 1 }))
      (engine, summary) =
      (records.foldl (fun engine record => engine.replayIfAny now record) engine,
        { applied := summary.applied + (tally records).applied
          skipped := summary.skipped + (tally records).skipped }) := by
  induction records generalizing engine summary with
  | nil => rfl
  | cons record rest ih =>
      rw [List.foldl_cons, List.foldl_cons]
      cases record with
      | some record =>
          dsimp only
          rw [ih]
          simp [tally, replayIfAny]
          omega
      | none =>
          dsimp only
          rw [ih]
          simp [tally, replayIfAny]
          omega

/-- Restoring applies the records that can be decoded one after another, and
counts them and the others. -/
theorem restore_eq (engine : Engine A) (now : Instant) (records : List (Option Record)) :
    engine.restore now records =
      (records.foldl (fun engine record => engine.replayIfAny now record) engine,
        tally records) := by
  refine (restore_foldl now records engine {}).trans ?_
  simp

end Engine

end ReplicatedCache
