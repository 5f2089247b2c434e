import ReplicatedCache.Engine.Audience
import ReplicatedCache.Proofs.Engine.Twins

/-! # Listeners that call the engine

A program calls an engine, visits its entries and changes its audience, and goes on
with what it learns; its listeners call the engine in the middle of its operations. To
speak of the engine as listeners find it, the program is carried out on a stage, where
the engine is marked whenever a listener is told, and after every call of a listener
or of the program. A witness is a stage that keeps every engine that is marked. It
does not interfere: without what it keeps, everything happens as it does without it.
-/

namespace ReplicatedCache

variable {A : Type}

/-- Where listeners hear signals: an audience, and what is done with an engine that is
marked. -/
structure Stage (A : Type) where
  audience : A → Audience
  change : (Audience → Audience) → A → A
  mark : Engine A → Engine A

def Reaction.runOn (stage : Stage A) (hear : Hearing A) (now : Instant) (id : Nat) :
    Reaction → Engine A → Engine A
  | finish, engine => engine
  | fail, engine => engine
  | write remark next, engine =>
    runOn stage hear now id next
      { engine with audience := stage.change (·.write id remark) engine.audience }
  | set key value ttl next, engine =>
    let (engine, stored) := engine.set hear now key value ttl
    runOn stage hear now id (next stored) (stage.mark engine)
  | get key next, engine =>
    let (engine, found) := engine.get hear now key
    runOn stage hear now id (next found) (stage.mark engine)
  | contains key next, engine =>
    runOn stage hear now id (next (engine.contains now key)) (stage.mark engine)
  | size next, engine => runOn stage hear now id (next engine.size) (stage.mark engine)
  | subscribe react next, engine =>
    runOn stage hear now id (next (stage.audience engine.audience).listeners.size)
      { engine with
        audience := stage.change (fun audience => (audience.subscribe { react }).1)
          engine.audience }
  | unsubscribe other next, engine =>
    runOn stage hear now id next
      { engine with audience := stage.change (·.unsubscribe other) engine.audience }

namespace Stage

def tell (stage : Stage A) (hear : Hearing A) (now : Instant) (key : String)
    (cause : RemovalCause) (engine : Engine A) (id : Nat) : Engine A :=
  match (stage.audience engine.audience).listeners[id]? with
  | none => engine
  | some listener =>
    (listener.react listener.log key cause).runOn stage hear now id (stage.mark engine)

def hear (stage : Stage A) (now : Instant) : (depth : Nat) → Hearing A
  | _, engine, .event event =>
    { engine with
      audience := stage.change (fun audience =>
        { audience with feed := audience.feed.publish event }) engine.audience }
  | 0, engine, .removal _ _ => engine
  | depth + 1, engine, .removal key cause =>
    (stage.audience engine.audience).active.foldl
      (stage.tell (stage.hear now depth) now key cause) engine

/-- The stage on which nothing is done with engines that are marked. -/
def plain : Stage Audience := ⟨id, id, id⟩

end Stage

/-! ## Programs -/

/-- What is done with an engine, step by step. -/
inductive Program : Type → Type 1
  | finish {ρ : Type} (result : ρ) : Program ρ
  | call {ρ : Type} (now : Instant) (made : EngineCall) (next : EngineAnswer → Program ρ) :
    Program ρ
  /-- The visitor may do with the engine whatever a program may do. -/
  | visit {ρ σ : Type} (now : Instant) (visitor : σ → String → Entry → Program σ) (start : σ)
    (next : σ → Program ρ) : Program ρ
  /-- Whatever an engine shows without being changed. -/
  | look {ρ : Type} (next : LiveEngine → Program ρ) : Program ρ
  /-- Listeners and readers come and go, and logs and feeds are read. -/
  | attend {ρ : Type} (change : Audience → Audience) (next : Program ρ) : Program ρ

def Program.run (stage : Stage A) (hear : Instant → Hearing A) {ρ : Type} :
    Program ρ → Engine A → Engine A × ρ
  | finish result, engine => (engine, result)
  | call now made next, engine =>
    let (engine, answer) := engine.apply (hear now) now made
    (next answer).run stage hear (stage.mark engine)
  | visit now visitor start next, engine =>
    let (engine, s) := engine.visit now
      (fun engine s key entry => (visitor s key entry).run stage hear engine) start
    (next s).run stage hear (stage.mark engine)
  | look next, engine =>
    (next (engine.heardBy (stage.audience engine.audience))).run stage hear engine
  | attend change next, engine =>
    next.run stage hear { engine with audience := stage.change change engine.audience }

/-! ## What a stage does not change -/

/-- A stage shows the audience of an engine, and what it does with engines that are
marked does not change them. The relation may say more of the engine, as long as
silent steps keep it. -/
structure Stage.Shows (stage : Stage A) (related : LiveEngine → A → Prop) : Prop where
  silent : ∀ {engine after : LiveEngine} {audience : A}, Engine.Silent engine after →
    related engine audience → related after audience
  audience_eq : ∀ {engine : LiveEngine} {audience : A}, related engine audience →
    stage.audience audience = engine.audience
  change : ∀ {engine : LiveEngine} {audience : A} (change : Audience → Audience),
    related engine audience →
      related { engine with audience := change engine.audience } (stage.change change audience)
  mark : ∀ {engine : LiveEngine} {twin : Engine A}, Engine.Twins related engine twin →
    Engine.Twins related engine (stage.mark twin)

namespace Stage.Shows

open Engine

variable {stage : Stage A} {related : LiveEngine → A → Prop} {engine : LiveEngine}
  {twin : Engine A} {now : Instant}

/-- Without what the stage keeps, the engine is the same. -/
theorem unstaged (hs : stage.Shows related) (h : Twins related engine twin) :
    twin.heardBy (stage.audience twin.audience) = engine := by
  rw [hs.audience_eq h.related, h.same]
  rfl

/-- What a program does to the audience it does to the audience that the stage shows. -/
theorem attend (hs : stage.Shows related) (h : Twins related engine twin)
    (change : Audience → Audience) :
    Twins related { engine with audience := change engine.audience }
      { twin with audience := stage.change change twin.audience } := by
  refine ⟨?_, hs.change change h.related⟩
  rw [h.same]
  rfl

/-- A listener does the same on a stage as without it. -/
theorem runOn (hs : stage.Shows related) {hear : Hearing Audience} {hear' : Hearing A}
    (hb : Bond related hear hear') (id : Nat) (reaction : Reaction)
    (h : Twins related engine twin) :
    Twins related (reaction.run hear now id engine) (reaction.runOn stage hear' now id twin) := by
  induction reaction generalizing engine twin with
  | finish => exact h
  | fail => exact h
  | write remark next ih => exact ih (hs.attend h (·.write id remark))
  | set key value ttl next ih =>
      obtain ⟨hnext, hanswer⟩ := h.set hb now key value ttl
      simp only [Reaction.run, Reaction.runOn, hanswer]
      exact ih _ (hs.mark hnext)
  | get key next ih =>
      obtain ⟨hnext, hanswer⟩ := h.getWithToken hb now key
      simp only [Reaction.run, Reaction.runOn, Engine.get, hanswer]
      exact ih _ (hs.mark hnext)
  | contains key next ih =>
      have hcontains : twin.contains now key = engine.contains now key := h.same ▸ rfl
      simp only [Reaction.run, Reaction.runOn, hcontains]
      exact ih _ (hs.mark h)
  | size next ih =>
      have hsize : twin.size = engine.size := h.same ▸ rfl
      simp only [Reaction.run, Reaction.runOn, hsize]
      exact ih _ (hs.mark h)
  | subscribe react next _ ih =>
      simp only [Reaction.run, Reaction.runOn, hs.audience_eq h.related]
      exact ih _ (hs.attend h fun audience => (audience.subscribe { react }).1)
  | unsubscribe other next ih => exact ih (hs.attend h (·.unsubscribe other))

/-- A listener that is told on a stage leaves the engines twins. -/
theorem tell (hs : stage.Shows related) {hear : Hearing Audience} {hear' : Hearing A}
    (hb : Bond related hear hear') (key : String) (cause : RemovalCause) (id : Nat)
    (h : Twins related engine twin) :
    Twins related (Audience.tell hear now key cause engine id)
      (stage.tell hear' now key cause twin id) := by
  rw [Audience.tell, Stage.tell, hs.audience_eq h.related]
  cases engine.audience.listeners[id]? with
  | none => exact h
  | some listener => exact hs.runOn hb id _ (hs.mark h)

/-- A signal is heard the same on a stage as without it, however deeply calls nest. -/
theorem bond_hear (hs : stage.Shows related) (now : Instant) (depth : Nat) :
    Bond related (Audience.hear now depth) (stage.hear now depth) := by
  refine ⟨hs.silent, fun {engine twin} signal h => ?_⟩
  induction depth generalizing engine twin signal with
  | zero =>
      cases signal with
      | event event =>
          exact hs.attend h fun audience =>
            { audience with feed := audience.feed.publish event }
      | removal key cause => exact h
  | succ depth ih =>
      cases signal with
      | event event =>
          exact hs.attend h fun audience =>
            { audience with feed := audience.feed.publish event }
      | removal key cause =>
          rw [Audience.hear, Stage.hear, hs.audience_eq h.related]
          -- Whoever is told calls with the hearing of the depth below, of which `ih` speaks.
          have hb : Bond related (Audience.hear now depth) (stage.hear now depth) :=
            ⟨hs.silent, ih⟩
          induction engine.audience.active generalizing engine twin with
          | nil => exact h
          | cons id rest ihrest => exact ihrest (hs.tell hb key cause id h)

/-- A program does the same on a stage as without it, and has the same result. -/
theorem run (hs : stage.Shows related) (depth : Nat) {ρ : Type} (program : Program ρ)
    (h : Twins related engine twin) :
    let plain := program.run .plain (fun now => Audience.hear now depth) engine
    let staged := program.run stage (fun now => stage.hear now depth) twin
    Twins related plain.1 staged.1 ∧ staged.2 = plain.2 := by
  induction program generalizing engine twin with
  | finish result => exact ⟨h, rfl⟩
  | call now made next ih =>
      obtain ⟨hnext, hanswer⟩ := h.apply (hs.bond_hear now depth) now made
      simp only [Program.run, hanswer]
      exact ih _ (hs.mark hnext)
  | visit now visitor start next ihvisitor ih =>
      obtain ⟨hnext, hanswer⟩ := Twins.visit
        (fun s key entry hstate => ihvisitor s key entry hstate) h now start
      simp only [Program.run, hanswer]
      exact ih _ (hs.mark hnext)
  | look next ih =>
      have hplain : engine.heardBy (Stage.plain.audience engine.audience) = engine := rfl
      simp only [Program.run, hs.unstaged h, hplain]
      exact ih _ h
  | attend change next ih => exact ih (hs.attend h change)

end Stage.Shows

/-! ## A witness -/

/-- An audience, and the engines that were marked in front of it, in order. -/
structure Witness where
  audience : Audience := {}
  sights : List LiveEngine := []

/-- The stage on which a witness keeps every engine that is marked. -/
def Stage.witness : Stage Witness where
  audience witness := witness.audience
  change change witness := { witness with audience := change witness.audience }
  mark engine :=
    { engine with audience :=
      { engine.audience with
        sights := engine.audience.sights ++ [engine.heardBy engine.audience.audience] } }

/-- A witness is told what the audience of an engine is told, and every engine that it
has seen is of a kind, as is the engine itself. -/
structure Witness.Sees (kept : LiveEngine → Prop) (engine : LiveEngine) (witness : Witness) :
    Prop where
  audience_eq : witness.audience = engine.audience
  engine : kept engine
  sights : ∀ sight ∈ witness.sights, kept sight

/-- What silent steps and changes of the audience keep holds whenever a witness
looks. -/
theorem Stage.shows_witness {kept : LiveEngine → Prop}
    (hsilent : ∀ {engine after : LiveEngine}, Engine.Silent engine after → kept engine → kept after)
    (hheard : ∀ {engine : LiveEngine} (audience : Audience), kept engine →
      kept { engine with audience }) :
    Stage.witness.Shows (Witness.Sees kept) := by
  constructor
  · rintro engine after witness hstep ⟨haudience, hengine, hsights⟩
    exact ⟨haudience.trans hstep.audience_eq.symm, hsilent hstep hengine, hsights⟩
  · exact Witness.Sees.audience_eq
  · rintro engine witness change ⟨haudience, hengine, hsights⟩
    exact ⟨congrArg change haudience, hheard _ hengine, hsights⟩
  · rintro engine ⟨shards, expiries, compactAbove, nextToken, stats, witness⟩
      ⟨hsame, haudience, hengine, hsights⟩
    refine ⟨?_, haudience, hengine, ?_⟩
    · rw [hsame]
      rfl
    · intro sight hmem
      rcases List.mem_append.mp hmem with hold | hnew
      · exact hsights sight hold
      · obtain rfl := List.mem_singleton.mp hnew
        have hsight : (Engine.mk shards expiries compactAbove nextToken stats witness).heardBy
            witness.audience = engine := by
          rw [hsame, haudience]
          rfl
        exact hsight ▸ hengine

end ReplicatedCache
