import Mathlib.Data.List.ReduceOption
import ReplicatedCache.Proofs.Segment.Refinement

/-! # What counts as a use of a key

Which keys are used in a run can be read off the calls and their answers: writes use
their keys whatever comes of them, reads use the keys that they find, and conditional
writes use the keys under which they store.
-/

namespace ReplicatedCache

namespace SegmentCall

/-- The key that a call uses, as its answer tells. -/
def use? : SegmentCall → SegmentAnswer → Option String
  | .put key _, _ => some key
  | .putForce key _, _ => some key
  | .get key, .entry found => found.map fun _ => key
  | .compareAndSwap key _, .swap outcome => outcome.stored.map fun _ => key
  | _, _ => none

/-- The keys that calls use, in order. -/
def uses (calls : List SegmentCall) (answers : List SegmentAnswer) : List String :=
  (List.zipWith use? calls answers).reduceOption

theorem uses_cons (call : SegmentCall) (calls : List SegmentCall) (answer : SegmentAnswer)
    (answers : List SegmentAnswer) :
    uses (call :: calls) (answer :: answers) =
      (call.use? answer).toList ++ uses calls answers := by
  rw [uses, List.zipWith_cons_cons]
  cases call.use? answer <;> rfl

end SegmentCall

namespace Segment

variable {π : Type} [EvictionPolicy π]

theorem length_answers (segment : Segment π) (calls : List SegmentCall) :
    (segment.run calls).2.length = calls.length := by
  induction calls generalizing segment with
  | nil => rfl
  | cons call calls ih => exact congrArg (· + 1) (ih (segment.apply call).1)

/-- Calls that follow others find the segment as those have left it. -/
theorem run_append (segment : Segment π) (earlier later : List SegmentCall) :
    segment.run (earlier ++ later) =
      (((segment.run earlier).1.run later).1,
        (segment.run earlier).2 ++ ((segment.run earlier).1.run later).2) := by
  induction earlier generalizing segment with
  | nil => rfl
  | cons call earlier ih =>
      rw [List.cons_append, run, ih]
      rfl

/-- A call in a run is answered as the calls before it have left the segment. -/
theorem answers_of_split (segment : Segment π) (earlier : List SegmentCall) (call : SegmentCall)
    (later : List SegmentCall) :
    let answers := (segment.run (earlier ++ call :: later)).2
    answers.take earlier.length = (segment.run earlier).2 ∧
      answers[earlier.length]? = some ((segment.run earlier).1.apply call).2 := by
  intro answers
  have hsplit : answers = (segment.run earlier).2 ++ ((segment.run earlier).1.apply call).2 ::
      (((segment.run earlier).1.apply call).1.run later).2 :=
    congrArg Prod.snd (segment.run_append earlier (call :: later))
  rw [hsplit, ← segment.length_answers earlier]
  refine ⟨List.take_left, ?_⟩
  rw [List.getElem?_append_right (Nat.le_refl _), Nat.sub_self]
  rfl

/-! ## The uses of a run, call by call -/

section Calls

variable (segment : Segment π) (key : String) (entry : Entry) (calls : List SegmentCall)

theorem uses_put : SegmentCall.uses (.put key entry :: calls)
      (segment.run (.put key entry :: calls)).2 =
    key :: SegmentCall.uses calls ((segment.put key entry).1.run calls).2 := by
  rw [run, SegmentCall.uses_cons]
  rfl

variable {segment key}

theorem uses_get_of_mem (h : key ∈ segment.keys) : SegmentCall.uses (.get key :: calls)
      (segment.run (.get key :: calls)).2 =
    key :: SegmentCall.uses calls ((segment.get key).1.run calls).2 := by
  have hfound : (segment.get key).2.map (fun _ => key) = some key := by
    obtain ⟨entry, hmem⟩ := mem_keys_iff.mp h
    rw [get_snd, peek_eq_some_iff.mpr hmem, Option.map_some]
  rw [run, SegmentCall.uses_cons, apply, SegmentCall.use?, hfound]
  rfl

theorem uses_get_of_not_mem (h : key ∉ segment.keys) : SegmentCall.uses (.get key :: calls)
      (segment.run (.get key :: calls)).2 =
    SegmentCall.uses calls ((segment.get key).1.run calls).2 := by
  rw [run, SegmentCall.uses_cons, apply, SegmentCall.use?, get_snd, peek_eq_none_iff.mpr h]
  rfl

end Calls

end Segment

end ReplicatedCache
