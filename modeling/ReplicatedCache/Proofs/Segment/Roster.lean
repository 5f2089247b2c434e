import ReplicatedCache.Eviction.Trace
import ReplicatedCache.Proofs.Segment.Contents

/-! # Rosters

A roster is what a segment is meant to be: one list of entries under distinct keys, in
the order in which they were last written or read. It has neither links nor an index,
and no policy. Whether a candidate is admitted is told to it from outside, and along
with its answer it tells what the policy has to hear.
-/

namespace ReplicatedCache

inductive SegmentCall
  | put (key : String) (entry : Entry)
  | putForce (key : String) (entry : Entry)
  | get (key : String)
  | peek (key : String)
  | deadlineOf (key : String)
  | remove (key : String)
  | removeIfDue (key : String) (deadline : Instant)
  | compareAndSwap (key : String) (decision : Option Entry → SwapDecision)
  | toList
  | size
  | clear

inductive SegmentAnswer
  | put (outcome : PutOutcome)
  | entry (found : Option Entry)
  | deadline (found : Option Instant)
  | flag (removed : Bool)
  | swap (outcome : SwapOutcome)
  | entries (listed : List (String × Entry))
  | count (counted : Nat)

/-- A call with its answer and with what the policy was told on the way. -/
structure Exchange where
  call : SegmentCall
  answer : SegmentAnswer
  told : List PolicyCall

/-- Two exchanges are the same, up to the order in which the keys of a segment that is
emptied are told. -/
def Exchange.Matches (one other : Exchange) : Prop :=
  one.call = other.call ∧ one.answer = other.answer ∧
    match one.call with
    | .clear => one.told.Perm other.told
    | _ => one.told = other.told

theorem Exchange.Matches.refl (exchange : Exchange) : exchange.Matches exchange := by
  refine ⟨rfl, rfl, ?_⟩
  split
  next => exact List.Perm.refl _
  next => rfl

/-- Entries under distinct keys in access order, eldest first. -/
@[ext]
structure Roster where
  capacity : Nat
  entries : List (String × Entry) := []
  distinct : (entries.map (·.1)).Nodup := by exact List.nodup_nil

namespace Roster

def ofCapacity (capacity : Nat) : Roster := { capacity := max 1 capacity }

section Turns

variable (roster : Roster)

def keys : List String := roster.entries.map (·.1)

def find? (key : String) : Option Entry :=
  (roster.entries.find? fun binding => decide (binding.1 = key)).map (·.2)

/-- The key itself, if it is there. -/
def held (key : String) : List String := if key ∈ roster.keys then [key] else []

def occupancy (candidate : String) : Occupancy where
  size := roster.entries.length
  holdsCandidate := decide (candidate ∈ roster.keys)
  eldest := roster.keys.head?

def erase (key : String) : Roster where
  capacity := roster.capacity
  entries := roster.entries.filter fun binding => decide (binding.1 ≠ key)
  distinct := roster.distinct.sublist (List.filter_sublist.map _)

theorem not_mem_keys_erase (key : String) : key ∉ (roster.erase key).keys := by
  simp [keys, erase]

def renew (key : String) (entry : Entry) : Roster where
  capacity := roster.capacity
  entries := (roster.erase key).entries ++ [(key, entry)]
  distinct := by
    rw [List.map_append, List.nodup_append]
    refine ⟨(roster.erase key).distinct, List.nodup_singleton _, ?_⟩
    rintro other hother last hlast rfl
    rw [List.mem_singleton.mp hlast] at hother
    exact roster.not_mem_keys_erase key hother

def drop (count : Nat) : Roster where
  capacity := roster.capacity
  entries := roster.entries.drop count
  distinct := roster.distinct.sublist ((List.drop_sublist _ _).map _)

theorem drop_drop (first second : Nat) :
    (roster.drop first).drop second = roster.drop (first + second) :=
  Roster.ext rfl List.drop_drop

/-- From nothing nothing is lost. -/
theorem drop_of_keys_nil {roster : Roster} (h : roster.keys = []) (count : Nat) :
    roster.drop count = roster := by
  have hempty : roster.entries = [] := List.map_eq_nil_iff.mp h
  exact Roster.ext rfl (by simp [drop, hempty])

theorem keys_drop (count : Nat) : (roster.drop count).keys = roster.keys.drop count :=
  List.map_drop

/-- The eldest key is the one whose erasure is the loss of the first entry. -/
theorem erase_eldest {roster : Roster} {eldest : String} {younger : List String}
    (h : roster.keys = eldest :: younger) : roster.erase eldest = roster.drop 1 := by
  obtain ⟨capacity, entries, distinct⟩ := roster
  cases entries with
  | nil => simp [keys] at h
  | cons first rest =>
      obtain ⟨rfl, -⟩ := List.cons.inj h
      exact Roster.ext rfl (Segment.filter_ne_head distinct)

def surplus : Nat := roster.entries.length - roster.capacity

/-- What a call leaves behind, what it is answered with, and what the policy is told. -/
structure Turn where
  after : Roster
  answer : SegmentAnswer
  told : List PolicyCall := []

/-- Stores an entry at the newest end and then lets the surplus go, eldest first. Some
keys may have left before; whether the policy is told of the access is up to the caller. -/
def enter (key : String) (entry : Entry) (left : List String) (heard : List PolicyCall) : Turn :=
  let full := roster.renew key entry
  let late := full.keys.take full.surplus
  { after := full.drop full.surplus
    answer := .put { stored := true, evicted := left ++ late }
    told := heard ++ late.map .removal }

/-- Answers a call. The policy's answer to a candidate is given. -/
def apply (asked : Admission) : SegmentCall → Turn
  | .put key entry =>
    let question := PolicyCall.admission key (roster.occupancy key) roster.capacity asked
    match asked with
    | .reject => { after := roster, answer := .put { stored := false }, told := [question] }
    | .accept => roster.enter key entry [] [question, .access key]
    | .evict victim =>
      -- a victim that is not there does not leave
      let named := roster.held victim
      (roster.erase victim).enter key entry named (question :: named.map .removal)
  | .putForce key entry =>
    let room := if key ∉ roster.keys ∧ roster.capacity ≤ roster.entries.length then 1 else 0
    let early := roster.keys.take room
    (roster.drop room).enter key entry early (early.map .removal ++ [.access key])
  | .get key =>
    match roster.find? key with
    | none => { after := roster, answer := .entry none }
    | some entry =>
      { after := roster.renew key entry, answer := .entry (some entry), told := [.access key] }
  | .peek key => { after := roster, answer := .entry (roster.find? key) }
  | .deadlineOf key =>
    { after := roster, answer := .deadline ((roster.find? key).map (·.deadline)) }
  | .remove key =>
    { after := roster.erase key, answer := .entry (roster.find? key),
      told := (roster.held key).map .removal }
  | .removeIfDue key deadline =>
    if (roster.find? key).map (·.deadline) = some deadline then
      { after := roster.erase key, answer := .flag true, told := (roster.held key).map .removal }
    else { after := roster, answer := .flag false }
  | .compareAndSwap key decision =>
    match decision (roster.find? key) with
    | .store entry =>
      { after := roster.renew key entry, answer := .swap { stored := some entry },
        told := [.access key] }
    | .expired =>
      { after := roster.erase key, answer := .swap { expired := (roster.find? key).isSome },
        told := (roster.held key).map .removal }
    | .fail => { after := roster, answer := .swap {} }
  | .toList => { after := roster, answer := .entries roster.entries }
  | .size => { after := roster, answer := .count roster.entries.length }
  | .clear =>
    { after := { capacity := roster.capacity }, answer := .count roster.entries.length,
      told := roster.keys.map .removal }

end Turns

/-- Answers calls in order, each with the policy's answer should it need one. -/
def run (roster : Roster) : List (SegmentCall × Admission) → Roster
  | [] => roster
  | (call, asked) :: calls => run (roster.apply asked call).after calls

/-- What is said during such a run. -/
def exchanges (roster : Roster) : List (SegmentCall × Admission) → List Exchange
  | [] => []
  | (call, asked) :: calls =>
    let turn := roster.apply asked call
    ⟨call, turn.answer, turn.told⟩ :: exchanges turn.after calls

end Roster

end ReplicatedCache
