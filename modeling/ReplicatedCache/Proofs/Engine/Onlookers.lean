import ReplicatedCache.Proofs.Engine.Twins

/-! # Audiences that only watch

Listeners that never call an engine to change it leave it alone whenever they
hear something. Such an audience has no influence on what the engine does: the
engine with the audience follows, step by step, the same engine whose audience
is a mere transcript of the signals. Facts about the transcript engine are
therefore facts about every engine that is only watched.
-/

namespace ReplicatedCache

variable {A ρ : Type}

/-- Audiences of a kind only watch: what they hear changes nothing but the
audience, which stays of its kind, and `heard` grows by the record of the signal. -/
structure Watches (kind : A → Prop) (heard : A → List ρ) (record : Signal → List ρ)
    (hear : Hearing A) : Prop where
  hear_eq : ∀ {engine : Engine A} (signal : Signal), kind engine.audience →
    hear engine signal = { engine with audience := (hear engine signal).audience }
  kind_hear : ∀ {engine : Engine A} (signal : Signal), kind engine.audience →
    kind (hear engine signal).audience
  heard_hear : ∀ {engine : Engine A} (signal : Signal), kind engine.audience →
    heard (hear engine signal).audience = heard engine.audience ++ record signal

/-- The audience that keeps a transcript and does nothing else. -/
def recording (record : Signal → List ρ) : Hearing (List ρ) := fun engine signal =>
  { engine with audience := engine.audience ++ record signal }

theorem watches_recording (record : Signal → List ρ) :
    Watches (fun _ => True) id record (recording record) :=
  ⟨fun _ _ => rfl, fun _ _ => trivial, fun _ _ => rfl⟩

namespace Engine

/-- The engine with a transcript in the place of its audience. -/
def transcribed (heard : A → List ρ) (engine : Engine A) : Engine (List ρ) :=
  ⟨engine.shards, engine.expiries, engine.compactAbove, engine.nextToken, engine.stats,
    heard engine.audience⟩

/-- An engine that is only watched, and the same engine with a transcript. -/
structure Follows (kind : A → Prop) (heard : A → List ρ) (engine : Engine A)
    (mirror : Engine (List ρ)) : Prop where
  kind : kind engine.audience
  mirror_eq : mirror = engine.transcribed heard

/-- A transcript is what an audience of a kind has heard. -/
def Transcribes (kind : A → Prop) (heard : A → List ρ) (engine : Engine A) (transcript : List ρ) :
    Prop :=
  kind engine.audience ∧ transcript = heard engine.audience

/-- What only watches and its transcript stay together. -/
theorem bond_of_watches {kind : A → Prop} {heard : A → List ρ} {record : Signal → List ρ}
    {hear : Hearing A} (hw : Watches kind heard record hear) :
    Bond (Transcribes kind heard) hear (recording record) := by
  constructor
  · intro engine after transcript hstep h
    have haudience : after.audience = engine.audience := hstep.audience_eq
    rw [Transcribes, haudience]
    exact h
  · rintro engine twin signal ⟨hsame, hkind, htranscript⟩
    refine ⟨?_, hw.kind_hear signal hkind, ?_⟩
    · rw [hw.hear_eq signal hkind, hsame]
      rfl
    · rw [hw.heard_hear signal hkind, ← htranscript]
      rfl

namespace Follows

variable {kind : A → Prop} {heard : A → List ρ} {record : Signal → List ρ} {hear : Hearing A}
  {engine : Engine A} {mirror : Engine (List ρ)}

/-- Following is being twins: the same engine with a transcript for an audience. -/
theorem twins_iff :
    Twins (Transcribes kind heard) engine mirror ↔ Follows kind heard engine mirror := by
  constructor
  · rintro ⟨hsame, hkind, htranscript⟩
    exact ⟨hkind, hsame.trans (congrArg engine.heardBy htranscript)⟩
  · rintro ⟨hkind, rfl⟩
    exact ⟨rfl, hkind, rfl⟩

/-- One signal is heard by the audience and written down in the transcript. -/
theorem hears (hw : Watches kind heard record hear) (h : Follows kind heard engine mirror)
    (signal : Signal) :
    Follows kind heard (hear engine signal) (recording record mirror signal) :=
  twins_iff.mp ((bond_of_watches hw).hears signal (twins_iff.mpr h))

/-- A step that does not touch the audience is followed by the same step. -/
theorem step (h : Follows kind heard engine mirror) {after : Engine A}
    {mirrored : Engine (List ρ)} (haudience : after.audience = engine.audience)
    (hmirrored : mirror = engine.transcribed heard → mirrored = after.transcribed heard) :
    Follows kind heard after mirrored :=
  ⟨haudience ▸ h.kind, hmirrored h.mirror_eq⟩

theorem shards_eq (h : Follows kind heard engine mirror) : mirror.shards = engine.shards :=
  h.mirror_eq ▸ rfl

variable (now : Instant) (key : String)

theorem set (hw : Watches kind heard record hear) (h : Follows kind heard engine mirror)
    (value : Value) (ttl : Span) :
    Follows kind heard (engine.set hear now key value ttl).1
        (mirror.set (recording record) now key value ttl).1 ∧
      (mirror.set (recording record) now key value ttl).2 =
        (engine.set hear now key value ttl).2 :=
  ((twins_iff.mpr h).set (bond_of_watches hw) now key value ttl).imp_left twins_iff.mp

theorem getWithToken (hw : Watches kind heard record hear)
    (h : Follows kind heard engine mirror) :
    Follows kind heard (engine.getWithToken hear now key).1
        (mirror.getWithToken (recording record) now key).1 ∧
      (mirror.getWithToken (recording record) now key).2 =
        (engine.getWithToken hear now key).2 :=
  ((twins_iff.mpr h).getWithToken (bond_of_watches hw) now key).imp_left twins_iff.mp

theorem delete (hw : Watches kind heard record hear) (h : Follows kind heard engine mirror) :
    Follows kind heard (engine.delete hear now key).1
        (mirror.delete (recording record) now key).1 ∧
      (mirror.delete (recording record) now key).2 = (engine.delete hear now key).2 :=
  ((twins_iff.mpr h).delete (bond_of_watches hw) now key).imp_left twins_iff.mp

theorem compareAndSwap (hw : Watches kind heard record hear)
    (h : Follows kind heard engine mirror) (value : Value) (expected : Token) (ttl : Span) :
    Follows kind heard (engine.compareAndSwap hear now key value expected ttl).1
        (mirror.compareAndSwap (recording record) now key value expected ttl).1 ∧
      (mirror.compareAndSwap (recording record) now key value expected ttl).2 =
        (engine.compareAndSwap hear now key value expected ttl).2 :=
  ((twins_iff.mpr h).compareAndSwap (bond_of_watches hw) now key value expected ttl).imp_left
    twins_iff.mp

theorem reap (hw : Watches kind heard record hear) (h : Follows kind heard engine mirror) :
    Follows kind heard (engine.reap hear now).1 (mirror.reap (recording record) now).1 ∧
      (mirror.reap (recording record) now).2 = (engine.reap hear now).2 :=
  ((twins_iff.mpr h).reap (bond_of_watches hw) now).imp_left twins_iff.mp

/-- Nobody hears of a recorded change. -/
theorem replay (h : Follows kind heard engine mirror) (change : Record) :
    Follows kind heard (engine.replay now change) (mirror.replay now change) := by
  have hdeaf : Watches kind heard (fun _ => []) fun engine _ => engine :=
    ⟨fun _ _ => rfl, fun _ hkind => hkind, fun _ _ => (List.append_nil _).symm⟩
  exact twins_iff.mp ((twins_iff.mpr h).replay (bond_of_watches hdeaf) now change)

/-- The transcript engine does whatever the engine does, and gives the same answer. -/
theorem apply (hw : Watches kind heard record hear) (h : Follows kind heard engine mirror)
    (call : EngineCall) :
    Follows kind heard (engine.apply hear now call).1
        (mirror.apply (recording record) now call).1 ∧
      (mirror.apply (recording record) now call).2 =
        (engine.apply hear now call).2 :=
  ((twins_iff.mpr h).apply (bond_of_watches hw) now call).imp_left twins_iff.mp

/-- A run that is only watched is followed, answer by answer, by the run of its transcript. -/
theorem run {hear : Instant → Hearing A} (hw : ∀ now, Watches kind heard record (hear now))
    (h : Follows kind heard engine mirror) (steps : List (Instant × EngineCall)) :
    Follows kind heard (engine.run hear steps).1
        (mirror.run (fun _ => recording record) steps).1 ∧
      (mirror.run (fun _ => recording record) steps).2 = (engine.run hear steps).2 := by
  induction steps generalizing engine mirror with
  | nil => exact ⟨h, rfl⟩
  | cons step rest ih =>
      obtain ⟨now, call⟩ := step
      obtain ⟨hnext, hanswer⟩ := h.apply now (hw now) call
      obtain ⟨hrest, hanswers⟩ := ih hnext
      rw [run_cons, run_cons]
      exact ⟨hrest, congrArg₂ List.cons hanswer hanswers⟩

end Follows

end Engine

end ReplicatedCache
