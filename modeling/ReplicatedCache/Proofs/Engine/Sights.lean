import ReplicatedCache.Proofs.Engine.Moments
import ReplicatedCache.Proofs.Engine.Reentrancy

/-! # What a run shows

A program is carried out on a new engine with listeners that may call it in the middle
of its operations. A witness beside the listeners writes down the engine whenever one of
them is told and whenever a call has come back. It changes nothing, so that what is true
of everything that it saw is true throughout the run.
-/

namespace ReplicatedCache

namespace Program

variable (config : EngineConfig) (depth : Nat) {ρ : Type} (program : Program ρ)

/-- Carries a program out on a new engine. Calls of listeners nest at most `depth` deep. -/
def carriedOut : LiveEngine × ρ :=
  program.run .plain (fun now => Audience.hear now depth) (LiveEngine.create config)

def witnessed : Engine Witness × ρ :=
  program.run .witness (fun now => Stage.witness.hear now depth) (Engine.create config {})

/-- The engine as every listener finds it that is told, as every call of a listener or
of the program leaves it, and as it is in the end. -/
def sights : List LiveEngine :=
  (program.witnessed config depth).1.audience.sights ++ [(program.carriedOut config depth).1]

/-- A witness does not interfere: in front of it a program has the same result, and
leaves the same engine behind. -/
def Faithful : Prop :=
  (program.witnessed config depth).2 = (program.carriedOut config depth).2 ∧
    (program.witnessed config depth).1.heardBy
        (program.witnessed config depth).1.audience.audience =
      (program.carriedOut config depth).1

/-- A witness does not interfere, and sees engines as they are at some moment of a run. -/
theorem witnessed_spec : program.Faithful config depth ∧
    ∀ sight ∈ program.sights config depth, Engine.Moment config sight := by
  have hshows : Stage.witness.Shows (Witness.Sees (Engine.Moment config)) :=
    Stage.shows_witness (fun hstep h => h.silent hstep) fun audience h => h.heard audience
  have hstart : Engine.Twins (Witness.Sees (Engine.Moment config)) (LiveEngine.create config)
      (Engine.create config {}) :=
    ⟨rfl, rfl, .created ({} : Audience), nofun⟩
  obtain ⟨htwins, hresult⟩ := hshows.run depth program hstart
  -- The twins differ in the witness only, and what relates them is what it has seen.
  obtain ⟨-, hend, hsights⟩ := htwins.related
  refine ⟨⟨hresult, hshows.unstaged htwins⟩, ?_⟩
  intro sight hmem
  rcases List.mem_append.mp hmem with hseen | hlast
  · exact hsights sight hseen
  · obtain rfl := List.mem_singleton.mp hlast
    exact hend

end Program

end ReplicatedCache
