import ReplicatedCache.Proofs.Engine.Coverage
import ReplicatedCache.Proofs.Engine.Restoring

/-! # Bounds that hold throughout

Whatever a program does with an engine, and whatever its listeners do in the middle of
the operations, the engine is orderly whenever a listener is told and after every
call: no segment exceeds its share of the capacity, every key lies in the segment that
its hash names, and the queue of pending expiries stays short.

The capacity that an engine reports is its number of places in 64 bits. The bounds hold
against it as long as the number fits; an engine that has more places reports a smaller
capacity than it has entries, and does not keep its queue as short as it should.
-/

namespace ReplicatedCache

namespace Engine

variable {A : Type} {config : EngineConfig} {engine : Engine A}

namespace Orderly

variable (h : Orderly config engine)
include h

/-- The places of an engine are never overfull. -/
theorem size_le_places : engine.size ≤ engine.places := h.shards.size_le_places

end Orderly

end Engine

namespace Seen

end Seen

namespace Program

variable {ρ : Type} {config : EngineConfig} {depth : Nat} {program : Program ρ}

/-- A new engine that has noted a deadline for one key again and again. -/
def noting (config : EngineConfig) : Nat → LiveEngine
  | 0 => LiveEngine.create config
  | count + 1 => (noting config count).trackExpiry "a" 1

end Program

end ReplicatedCache
