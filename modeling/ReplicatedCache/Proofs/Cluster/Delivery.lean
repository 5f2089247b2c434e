import Mathlib.Algebra.GroupWithZero.Nat
import ReplicatedCache.Proofs.Cluster.Handoff

/-! # No hint is lost

Hints are recorded for nodes and handed over to them, and a handover may fail at
any hint. Whatever the nodes answer, every hint that was ever recorded for a node
has been acknowledged once or still waits, and both in the order of recording.

What a node is asked is read off the node: it writes down every write with which
it is called, also if the call fails.
-/

namespace ReplicatedCache

/-- A node that writes down the writes with which it is called, and its answers.
A call that fails has no answer. -/
structure Scribe (N : Type) where
  node : N
  calls : List (Write × Option Bool) := []

namespace Scribe

variable {N : Type} [Node N]

/-- What goes down about a call. Only writes are written down. -/
def note {F : Type} : {α : Type} → Call α → Except F α → List (Write × Option Bool)
  | _, .set key value ttl, answer => [(.set key value ttl, answer.toOption)]
  | _, .delete key, answer => [(.delete key, answer.toOption)]
  | _, .compareAndSwap key value expected ttl, answer =>
    [(.compareAndSwap key value expected ttl, answer.toOption)]
  | _, .clear, _ => []
  | _, .get _, _ => []
  | _, .getWithToken _, _ => []

def perform {α : Type} (scribe : Scribe N) (now : Instant) (call : Call α) :
    Scribe N × Except (Node.Failure N) α :=
  let (node, answer) := Node.perform scribe.node now call
  (⟨node, scribe.calls ++ note call answer⟩, answer)

instance : Node (Scribe N) where
  Failure := Node.Failure N
  describe := Node.describe
  perform := perform

/-- The scribe answers what its node answers and writes down both the call and its answer. -/
theorem perform_call (scribe : Scribe N) (now : Instant) (write : Write) :
    Node.perform scribe now write.call =
      (⟨(Node.perform scribe.node now write.call).1, scribe.calls ++
          [(write, (Node.perform scribe.node now write.call).2.toOption)]⟩,
        (Node.perform scribe.node now write.call).2) := by
  cases write <;> rfl

end Scribe

/-- What can happen to the queues of hints: a write is kept for a node, or the
hints of a queue are handed over to a node, whatever state it is in. -/
inductive HandoffStep (N : Type)
  | record (id : String) (write : Write)
  | replay (id : String) (node : N) (now : Instant)

def HandoffStep.recordedFor {N : Type} (id : String) : HandoffStep N → List Write
  | record other write => if other = id then [write] else []
  | replay _ _ _ => []

namespace Handoff

variable {N : Type} [Node N]

/-! ## One handover -/

/-- A call that was answered, as the node writes it down. -/
def answered (hint : Write × Bool) : Write × Option Bool := (hint.1, some hint.2)

section Deliver

variable (node : N) (now : Instant) (hints : List Write)

/-- The calls that a node sees in a handover: the hints that it answers and, unless
none is left, the first of the others. -/
def callsOf : List (Write × Option Bool) :=
  (hints.zip (answers node now hints)).map answered ++
    ((deliver node now hints).left.head?.map (·, none)).toList

/-- A node that writes down its calls is handed the same hints. -/
theorem deliver_scribe (calls : List (Write × Option Bool)) :
    deliver (⟨node, calls⟩ : Scribe N) now hints =
      ⟨⟨(deliver node now hints).node, calls ++ callsOf node now hints⟩,
        (deliver node now hints).delivered, (deliver node now hints).left⟩ := by
  induction hints generalizing node calls with
  | nil => simp [deliver, callsOf, answers]
  | cons hint hints ih =>
      rw [deliver, callsOf, deliver, answers, Scribe.perform_call]
      rcases Node.perform node now hint.call with ⟨next, failure | answer⟩
      · simp [Except.toOption]
      · simp [Except.toOption, answered, callsOf, ih next]

/-- A handover makes at most as many calls as there are hints; it makes fewer when one fails. -/
theorem length_answers_le : (answers node now hints).length ≤ hints.length := by
  induction hints generalizing node with
  | nil => exact Nat.le_refl 0
  | cons hint hints ih =>
      rw [answers]
      rcases Node.perform node now hint.call with ⟨next, failure | answer⟩
      · exact Nat.zero_le _
      · exact Nat.succ_le_succ (ih next)

end Deliver

section Replay

variable (handoff : Handoff) (id : String) (node : N) (now : Instant)

/-- The calls that a node sees in a handover, in order, each with its answer. -/
def attempts : List (Write × Option Bool) :=
  (handoff.replay id (⟨node, []⟩ : Scribe N) now).2.1.calls

/-- The hints that a node acknowledges in a handover, be it with a refusal. -/
def acknowledgedBy : List Write :=
  (handoff.attempts id node now).filterMap fun (hint, answer) => answer.map fun _ => hint

/-- A handover takes the acknowledged hints from the front of the queue and counts
them. The node is called with these and, unless the queue runs empty, with the next
one, which fails and stays at the head. -/
structure HandsOver : Prop where
  observed : handoff.replay id (⟨node, []⟩ : Scribe N) now =
    ((handoff.replay id node now).1,
      ⟨(handoff.replay id node now).2.1, handoff.attempts id node now⟩,
      (handoff.replay id node now).2.2)
  conserves : handoff.acknowledgedBy id node now ++ (handoff.replay id node now).1.pending id =
    handoff.pending id
  counts : (handoff.replay id node now).2.2 = (handoff.acknowledgedBy id node now).length
  stops : ∃ taken : List (Write × Bool), taken.map Prod.fst = handoff.acknowledgedBy id node now ∧
    handoff.attempts id node now = taken.map answered ++
      (((handoff.replay id node now).1.pending id).head?.map (·, none)).toList
  others : ∀ other, id ≠ other →
    (handoff.replay id node now).1.pending other = handoff.pending other

/-- After a replay the queue is what the delivery left: the hints from the first failed one
on. -/
theorem pending_replay_self :
    (handoff.replay id node now).1.pending id =
      (deliver node now (handoff.pending id)).left := by
  rw [replay]
  exact pending_setQueue_self _ _ _

/-- Replaying to a scribe is replaying to its node; the scribe's notes are the calls of the
replay. -/
theorem replay_scribe :
    handoff.replay id (⟨node, []⟩ : Scribe N) now =
      ((handoff.replay id node now).1,
        ⟨(handoff.replay id node now).2.1, callsOf node now (handoff.pending id)⟩,
        (handoff.replay id node now).2.2) := by
  rw [replay, deliver_scribe, List.nil_append]
  rfl

/-- The attempts of a replay, read off the scribe, are the calls of the delivery. -/
theorem attempts_eq :
    handoff.attempts id node now = callsOf node now (handoff.pending id) := by
  rw [attempts, replay_scribe]

/-- A node acknowledges the hints that it answers. -/
theorem acknowledgedBy_eq :
    handoff.acknowledgedBy id node now =
      ((handoff.pending id).zip (answers node now (handoff.pending id))).map Prod.fst := by
  have htaken (taken : List (Write × Bool)) :
      (taken.map answered).filterMap (fun (hint, answer) => answer.map fun _ => hint) =
        taken.map Prod.fst := by
    rw [List.filterMap_map]
    exact congrFun List.filterMap_eq_map taken
  have hfailed (failed : Option Write) :
      ((failed.map (·, (none : Option Bool))).toList.filterMap
        fun (hint, answer) => answer.map fun _ => hint) = [] := by
    cases failed <;> rfl
  rw [acknowledgedBy, attempts_eq, callsOf, List.filterMap_append, htaken, hfailed,
    List.append_nil]

/-- The acknowledged hints are a prefix of the queue, one for every answer of the node. -/
theorem acknowledgedBy_eq_take :
    handoff.acknowledgedBy id node now =
      (handoff.pending id).take (answers node now (handoff.pending id)).length := by
  have hle := length_answers_le node now (handoff.pending id)
  rw [acknowledgedBy_eq, List.zip_eq_zip_take_min, Nat.min_eq_right hle, List.take_length,
    List.map_fst_zip (Nat.le_of_eq (List.length_take_of_le hle))]

/-- One replay hands over in order, stops at the first failure and keeps the rest. -/
theorem handsOver : handoff.HandsOver id node now := by
  obtain ⟨hdelivered, hleft⟩ := deliver_eq node now (handoff.pending id)
  constructor
  · rw [attempts_eq, replay_scribe]
  · rw [acknowledgedBy_eq_take, pending_replay_self, hleft, List.take_append_drop]
  · rw [acknowledgedBy_eq_take, List.length_take, Nat.min_eq_left (length_answers_le _ _ _)]
    exact hdelivered
  · refine ⟨_, (acknowledgedBy_eq _ _ _ _).symm, ?_⟩
    rw [attempts_eq, pending_replay_self]
    rfl
  · intro other hne
    rw [replay]
    exact pending_setQueue_of_ne hne _

end Replay

/-! ## Runs -/

def apply (handoff : Handoff) : HandoffStep N → Handoff
  | .record id write => handoff.record id write
  | .replay id node now => (handoff.replay id node now).1

def run (handoff : Handoff) (steps : List (HandoffStep N)) : Handoff := steps.foldl apply handoff

def acknowledgedIn (handoff : Handoff) (id : String) : HandoffStep N → List Write
  | .record _ _ => []
  | .replay other node now => if other = id then handoff.acknowledgedBy id node now else []

def acknowledged (id : String) : Handoff → List (HandoffStep N) → List Write
  | _, [] => []
  | handoff, step :: steps =>
    handoff.acknowledgedIn id step ++ acknowledged id (handoff.apply step) steps

/-- What is acknowledged in a step, and what waits afterwards, waited before or is
recorded in the step. -/
theorem acknowledgedIn_append (handoff : Handoff) (id : String) (step : HandoffStep N) :
    handoff.acknowledgedIn id step ++ (handoff.apply step).pending id =
      handoff.pending id ++ step.recordedFor id := by
  cases step with
  | record other write =>
      rw [acknowledgedIn, apply, HandoffStep.recordedFor, List.nil_append]
      split
      next heq => rw [heq, pending_record_self]
      next hne => rw [pending_record_of_ne hne, List.append_nil]
  | replay other node now =>
      rw [acknowledgedIn, apply, HandoffStep.recordedFor, List.append_nil]
      split
      next heq =>
        rw [heq]
        exact (handoff.handsOver id node now).conserves
      next hne => exact (handoff.handsOver other node now).others id hne

/-- Along any sequence of steps no hint is lost or doubled: what was acknowledged, followed by
what still waits, is what waited at the start followed by what was recorded since. -/
theorem acknowledged_append (handoff : Handoff) (id : String) (steps : List (HandoffStep N)) :
    acknowledged id handoff steps ++ (handoff.run steps).pending id =
      handoff.pending id ++ steps.flatMap (·.recordedFor id) := by
  induction steps generalizing handoff with
  | nil => rw [List.flatMap_nil, List.append_nil]; rfl
  | cons step steps ih =>
      calc acknowledged id handoff (step :: steps) ++ (handoff.run (step :: steps)).pending id
          = handoff.acknowledgedIn id step ++ (acknowledged id (handoff.apply step) steps ++
              ((handoff.apply step).run steps).pending id) := List.append_assoc _ _ _
        _ = (handoff.acknowledgedIn id step ++ (handoff.apply step).pending id) ++
              steps.flatMap (·.recordedFor id) := by rw [ih, List.append_assoc]
        _ = handoff.pending id ++ (step :: steps).flatMap (·.recordedFor id) := by
              rw [acknowledgedIn_append, List.append_assoc, List.flatMap_cons]

/-- The total is the sum over the nodes for which hints wait. -/
theorem totalPending_eq (handoff : Handoff) :
    handoff.totalPending = (handoff.pendingNodes.map handoff.pendingCount).sum := by
  have hsum (queues : List (String × List Write))
      (hcount : ∀ queue ∈ queues, handoff.pendingCount queue.1 = queue.2.length) :
      queues.foldr (fun queue total => queue.2.length + total) 0 =
        (((queues.filter fun queue => !queue.2.isEmpty).map (·.1)).map
          handoff.pendingCount).sum := by
    induction queues with
    | nil => rfl
    | cons queue queues ih =>
        obtain ⟨id, hints⟩ := queue
        rw [List.foldr_cons, ih fun queue hmem => hcount queue (List.mem_cons_of_mem _ hmem)]
        cases hints with
        | nil => simp
        | cons hint hints => simp [hcount (id, hint :: hints) List.mem_cons_self]
  refine hsum handoff.queues.toList ?_
  rintro ⟨id, hints⟩ hmem
  rw [pendingCount, pending, Std.ExtTreeMap.getD_eq_getD_getElem?,
    Std.ExtTreeMap.mem_toList_iff_getElem?_eq_some.mp hmem]
  rfl

/-- Whatever is recorded and handed over, to nodes that succeed, decline or fail as
they like: the acknowledged hints of a node, then those that still wait, are those
that were recorded for it. Each handover stops at the first failure, no other queue
changes, and the nodes that wait and their hints are counted rightly. -/
theorem run_conserves_hints (steps : List (HandoffStep N)) :
    let handoff := Handoff.empty.run steps
    (∀ id, acknowledged id .empty steps ++ handoff.pending id =
        steps.flatMap (·.recordedFor id)) ∧
      (∀ (id : String) (node : N) (now : Instant), handoff.HandsOver id node now) ∧
      (∀ id other write, id ≠ other →
        (handoff.record id write).pending other = handoff.pending other) ∧
      (handoff.pendingNodes.Nodup ∧
        ∀ id, id ∈ handoff.pendingNodes ↔ handoff.pending id ≠ []) ∧
      handoff.totalPending = (handoff.pendingNodes.map handoff.pendingCount).sum := by
  intro handoff
  refine ⟨fun id => acknowledged_append .empty id steps, handoff.handsOver, ?_,
    ⟨handoff.nodup_pendingNodes, fun _ => handoff.mem_pendingNodes_iff⟩, handoff.totalPending_eq⟩
  exact fun _ _ write hne => pending_record_of_ne hne write

end Handoff

end ReplicatedCache
