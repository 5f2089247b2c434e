import ReplicatedCache.Engine.Audience
import ReplicatedCache.Proofs.Engine.Onlookers

/-! # Listeners that only watch

A quiet listener may look at the engine, write into its log and fail, but never
calls the engine to change it. An audience of quiet listeners only watches, and
a recorder among them writes down every removal once, whatever the others do.
-/

namespace ReplicatedCache

/-- Reactions that change nothing but the log of their listener. -/
inductive Reaction.Quiet : Reaction → Prop
  | finish : Quiet .finish
  | fail : Quiet .fail
  | write {remark : Remark} {next : Reaction} : Quiet next → Quiet (.write remark next)
  | contains {key : String} {next : Bool → Reaction} :
    (∀ live, Quiet (next live)) → Quiet (.contains key next)
  | size {next : Nat → Reaction} : (∀ size, Quiet (next size)) → Quiet (.size next)

namespace Audience

def Quiet (audience : Audience) : Prop :=
  ∀ listener ∈ audience.listeners, ∀ log key cause, (listener.react log key cause).Quiet

/-- Every listener is quiet, and the one with a given number records removals. -/
structure Recorded (id : Nat) (audience : Audience) : Prop where
  quiet : audience.Quiet
  recorder : ∃ log, audience.listeners[id]? = some { Listener.recording with log }

def logOf (id : Nat) (audience : Audience) : List Remark :=
  match audience.listeners[id]? with
  | some listener => listener.log
  | none => []

/-- What a recorder writes down about a signal. -/
def remarks : Signal → List Remark
  | .event _ => []
  | .removal key cause => [.removed key cause]

/-- The audience once a listener has added to its log. -/
def logged (audience : Audience) (id : Nat) (added : List Remark) : Audience :=
  { audience with
    listeners := audience.listeners.modify id fun l => { l with log := l.log ++ added } }

variable {audience : Audience} {id other : Nat} {added more : List Remark}

theorem logged_nil (audience : Audience) (id : Nat) : audience.logged id [] = audience := by
  unfold logged
  simp only [List.append_nil]
  congr 1
  apply Array.ext
  · rw [Array.size_modify]
  · intro i _ _
    rw [Array.getElem_modify]
    split <;> rfl

theorem logged_logged (audience : Audience) (id : Nat) (added more : List Remark) :
    (audience.logged id added).logged id more = audience.logged id (added ++ more) := by
  unfold logged
  congr 1
  apply Array.ext
  · simp only [Array.size_modify]
  · intro i _ _
    simp only [Array.getElem_modify]
    split
    next => simp only [List.append_assoc]
    next => rfl

/-- Adding to a log concerns the log of that listener only. -/
theorem getElem?_logged (audience : Audience) (id : Nat) (added : List Remark) (other : Nat) :
    (audience.logged id added).listeners[other]? =
      if id = other then
        audience.listeners[other]?.map fun l => { l with log := l.log ++ added }
      else audience.listeners[other]? := by
  unfold logged
  rw [Array.getElem?_modify]

/-- A listener keeps its ways when something is added to its log. -/
theorem react_of_mem_logged {listener : Listener}
    (h : listener ∈ (audience.logged id added).listeners) :
    ∃ old ∈ audience.listeners, listener.react = old.react := by
  obtain ⟨i, hi, rfl⟩ := Array.mem_iff_getElem.mp h
  have hget := getElem?_logged audience id added i
  rw [Array.getElem?_eq_getElem hi] at hget
  split at hget
  next =>
    obtain ⟨old, hold, heq⟩ := Option.map_eq_some_iff.mp hget.symm
    exact ⟨old, Array.mem_of_getElem? hold, heq ▸ rfl⟩
  next => exact ⟨_, Array.mem_of_getElem? hget.symm, rfl⟩

/-- Quiet listeners stay quiet when one of them has written something down. -/
theorem Quiet.logged (h : audience.Quiet) (id : Nat) (added : List Remark) :
    (audience.logged id added).Quiet := by
  intro listener hmem
  obtain ⟨old, hold, hreact⟩ := react_of_mem_logged hmem
  rw [hreact]
  exact h old hold

end Audience

variable {hear : Hearing Audience} {now : Instant} {key : String} {cause : RemovalCause}

/-- A quiet reaction does nothing but add to the log of its listener. -/
theorem Reaction.Quiet.run_eq {reaction : Reaction} (h : reaction.Quiet) (id : Nat)
    (engine : Engine Audience) :
    ∃ added, reaction.run hear now id engine =
      { engine with audience := engine.audience.logged id added } := by
  induction h generalizing engine with
  | finish => exact ⟨[], by rw [Audience.logged_nil]; rfl⟩
  | fail => exact ⟨[], by rw [Audience.logged_nil]; rfl⟩
  | @write remark next hnext ih =>
      obtain ⟨added, heq⟩ := ih { engine with audience := engine.audience.write id remark }
      refine ⟨[remark] ++ added, heq.trans ?_⟩
      rw [← Audience.logged_logged]
      rfl
  | contains hnext ih => exact ih _ engine
  | size hnext ih => exact ih _ engine

namespace Audience

/-- All that a quiet listener can do to an engine is to write something down. -/
theorem tell_eq {engine : Engine Audience} (h : engine.audience.Quiet) (id : Nat) :
    ∃ added, tell hear now key cause engine id =
      { engine with audience := engine.audience.logged id added } := by
  unfold tell
  cases hget : engine.audience.listeners[id]? with
  | none => exact ⟨[], by rw [logged_nil]⟩
  | some listener => exact (h listener (Array.mem_of_getElem? hget) _ _ _).run_eq id engine

/-- A recorder writes the removal down, and nothing else happens. -/
theorem tell_recorder {engine : Engine Audience} {id : Nat}
    (h : ∃ log, engine.audience.listeners[id]? = some { Listener.recording with log }) :
    tell hear now key cause engine id =
      { engine with audience := engine.audience.logged id [.removed key cause] } := by
  obtain ⟨log, hget⟩ := h
  unfold tell
  rw [hget]
  rfl

/-- The recorder of an audience is not disturbed by what others write. -/
theorem Recorded.logged {audience : Audience} {id : Nat} (h : audience.Recorded id) (other : Nat)
    (added : List Remark) : (audience.logged other added).Recorded id := by
  refine ⟨h.quiet.logged other added, ?_⟩
  obtain ⟨log, hget⟩ := h.recorder
  rw [getElem?_logged, hget]
  split
  next => exact ⟨log ++ added, rfl⟩
  next => exact ⟨log, rfl⟩

theorem logOf_logged_self {audience : Audience} {id : Nat} (h : audience.Recorded id)
    (added : List Remark) :
    (audience.logged id added).logOf id = audience.logOf id ++ added := by
  obtain ⟨log, hget⟩ := h.recorder
  unfold logOf
  rw [getElem?_logged, if_pos rfl, hget]
  rfl

theorem logOf_logged_of_ne {audience : Audience} {id other : Nat} (h : other ≠ id)
    (added : List Remark) : (audience.logged other added).logOf id = audience.logOf id := by
  unfold logOf
  rw [getElem?_logged, if_neg h]

/-- Telling quiet listeners changes the audience only. -/
theorem foldl_tell_quiet {engine : Engine Audience} (h : engine.audience.Quiet)
    (ids : List Nat) :
    ∃ audience, ids.foldl (tell hear now key cause) engine = { engine with audience } ∧
      audience.Quiet := by
  induction ids generalizing engine with
  | nil => exact ⟨engine.audience, rfl, h⟩
  | cons id rest ih =>
      obtain ⟨added, heq⟩ := tell_eq h id
      rw [List.foldl_cons, heq]
      exact ih (h.logged id added)

/-- Among quiet listeners that are told one after another, the recorder writes
the removal down when its turn comes. -/
theorem foldl_tell_recorded {engine : Engine Audience} {id : Nat}
    (h : engine.audience.Recorded id) {ids : List Nat} (hnodup : ids.Nodup) :
    ∃ audience, ids.foldl (tell hear now key cause) engine = { engine with audience } ∧
      audience.Recorded id ∧
      audience.logOf id = engine.audience.logOf id ++
        if id ∈ ids then [.removed key cause] else [] := by
  induction ids generalizing engine with
  | nil => exact ⟨engine.audience, rfl, h, by simp⟩
  | cons first rest ih =>
      obtain ⟨hnot, hrest⟩ := List.nodup_cons.mp hnodup
      rw [List.foldl_cons]
      by_cases hfirst : first = id
      · subst hfirst
        have hnext : ({ engine with
            audience := engine.audience.logged first [.removed key cause] } :
              Engine Audience).audience.Recorded first := h.logged first _
        obtain ⟨audience, heq, hrecorded, hlog⟩ := ih hnext hrest
        rw [tell_recorder h.recorder]
        refine ⟨audience, heq, hrecorded, ?_⟩
        rw [hlog, logOf_logged_self h, if_neg hnot, if_pos List.mem_cons_self, List.append_nil]
      · obtain ⟨added, htell⟩ := tell_eq h.quiet first
        have hnext : ({ engine with
            audience := engine.audience.logged first added } :
              Engine Audience).audience.Recorded id := h.logged first added
        obtain ⟨audience, heq, hrecorded, hlog⟩ := ih hnext hrest
        rw [htell]
        refine ⟨audience, heq, hrecorded, ?_⟩
        rw [hlog, logOf_logged_of_ne hfirst]
        simp [Ne.symm hfirst]

/-- An audience of quiet listeners only watches. -/
theorem watches_quiet (now : Instant) (depth : Nat) :
    Watches Quiet (fun _ => ([] : List Remark)) (fun _ => []) (Audience.hear now depth) := by
  have hhear : ∀ (engine : Engine Audience) (signal : Signal), engine.audience.Quiet →
      ∃ audience, Audience.hear now depth engine signal = { engine with audience } ∧
        audience.Quiet := by
    intro engine signal hquiet
    unfold Audience.hear
    cases signal with
    | event event => cases depth <;> exact ⟨_, rfl, hquiet⟩
    | removal key cause =>
        cases depth with
        | zero => exact ⟨engine.audience, rfl, hquiet⟩
        | succ depth => exact foldl_tell_quiet hquiet _
  constructor
  · intro engine signal hquiet
    obtain ⟨audience, heq, -⟩ := hhear engine signal hquiet
    rw [heq]
  · intro engine signal hquiet
    obtain ⟨audience, heq, hafter⟩ := hhear engine signal hquiet
    rw [heq]
    exact hafter
  · exact fun _ _ => rfl

/-- A recorder among quiet listeners transcribes all removals. -/
theorem watches_recorded (id : Nat) (now : Instant) (depth : Nat) :
    Watches (Recorded id) (logOf id) remarks (Audience.hear now (depth + 1)) := by
  have hhear : ∀ (engine : Engine Audience) (signal : Signal), engine.audience.Recorded id →
      ∃ audience, Audience.hear now (depth + 1) engine signal = { engine with audience } ∧
        audience.Recorded id ∧
        audience.logOf id = engine.audience.logOf id ++ remarks signal := by
    intro engine signal hrecorded
    unfold Audience.hear
    cases signal with
    | event event =>
        exact ⟨_, rfl, ⟨hrecorded.quiet, hrecorded.recorder⟩, (List.append_nil _).symm⟩
    | removal key cause =>
        have hactive : id ∈ engine.audience.active := by
          obtain ⟨log, hget⟩ := hrecorded.recorder
          refine List.mem_filter.mpr ⟨List.mem_range.mpr ?_, ?_⟩
          · exact (Array.getElem?_eq_some_iff.mp hget).1
          · rw [hget]
            rfl
        have hnodup : engine.audience.active.Nodup := List.nodup_range.filter _
        obtain ⟨audience, heq, hafter, hlog⟩ := foldl_tell_recorded hrecorded hnodup
        exact ⟨audience, heq, hafter, by rw [hlog, if_pos hactive]; rfl⟩
  constructor
  · intro engine signal hrecorded
    obtain ⟨audience, heq, -⟩ := hhear engine signal hrecorded
    rw [heq]
  · intro engine signal hrecorded
    obtain ⟨audience, heq, hafter, -⟩ := hhear engine signal hrecorded
    rw [heq]
    exact hafter
  · intro engine signal hrecorded
    obtain ⟨audience, heq, -, hlog⟩ := hhear engine signal hrecorded
    rw [heq]
    exact hlog

end Audience

end ReplicatedCache
