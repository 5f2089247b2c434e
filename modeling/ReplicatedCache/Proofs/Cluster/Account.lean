import ReplicatedCache.Cluster.Basic
import ReplicatedCache.Proofs.Cluster.Handoff
import ReplicatedCache.Proofs.Cluster.Ring

/-! # A cluster seen from one node

The account of a node is what the cluster holds for it: the node and the hints
that wait for it. An operation touches the account of each node at most once,
and what it does to an account depends on this account only.
-/

namespace ReplicatedCache

/-- A node, unless it is not registered, and the hints that wait for it. -/
structure Account (N : Type) where
  node : Option N
  hints : List Write

namespace Account

variable {N : Type} [Node N]

/-- Calls the node. A call that fails has no answer. -/
def call {α : Type} (account : Account N) (now : Instant) (call : Call α) :
    Account N × Option α :=
  match account.node with
  | none => (account, none)
  | some node =>
    let (node, answer) := Node.perform node now call
    ({ account with node := some node }, answer.toOption)

/-- What is kept of a write for a replica, by its answer. -/
def missed (write : Write) (isLeader : Bool) : Option Bool → List Write
  | some true => []
  | some false => if write.hintsRefusal && !isLeader then [write] else []
  | none => [write]

def receive (now : Instant) (write : Write) (isLeader : Bool) (account : Account N) : Account N :=
  let (called, answer) := account.call now write.call
  { called with hints := account.hints ++ missed write isLeader answer }

/-- What the node answers to the hints when they are handed over. -/
def answers (account : Account N) (now : Instant) : List Bool :=
  match account.node with
  | none => []
  | some node => Handoff.answers node now account.hints

def handOver (now : Instant) (account : Account N) : Account N :=
  match account.node with
  | none => account
  | some node =>
    let delivery := Handoff.deliver node now account.hints
    ⟨some delivery.node, delivery.left⟩

/-- A call by itself never changes what waits for the node; only a missed write does. -/
@[simp] theorem hints_call {α : Type} (account : Account N) (now : Instant) (call : Call α) :
    (account.call now call).1.hints = account.hints := by
  rw [Account.call]
  split <;> rfl

/-- A handover takes from the front of the queue, as many hints as the node answered. -/
theorem hints_handOver (now : Instant) (account : Account N) :
    (account.handOver now).hints = account.hints.drop (account.answers now).length := by
  rw [handOver, answers]
  split
  next => rfl
  next node _ => exact (Handoff.deliver_eq node now account.hints).2

end Account

/-- A fold that visits each item once does to a view of the state what the visit
of the one item does that the view is concerned with. -/
theorem foldl_visit {σ β : Type} (view : σ → β) (visit : σ → String → σ) (effect : β → β)
    {id : String} (hself : ∀ state, view (visit state id) = effect (view state))
    (hother : ∀ state other, other ≠ id → view (visit state other) = view state)
    {ids : List String} (hnodup : ids.Nodup) (state : σ) :
    view (ids.foldl visit state) = if id ∈ ids then effect (view state) else view state := by
  induction ids generalizing state with
  | nil => simp
  | cons first rest ih =>
      obtain ⟨hfirst, hrest⟩ := List.nodup_cons.mp hnodup
      rw [List.foldl_cons, ih hrest]
      by_cases heq : first = id
      · subst heq
        rw [if_neg hfirst, if_pos List.mem_cons_self, hself]
      · rw [hother state first heq]
        simp [List.mem_cons, Ne.symm heq]

/-- A fold keeps what each of its steps keeps. -/
theorem foldl_keeps {σ β : Type} (view : σ → β) (visit : σ → String → σ)
    (hkeeps : ∀ state id, view (visit state id) = view state) (ids : List String) (state : σ) :
    view (ids.foldl visit state) = view state := by
  induction ids generalizing state with
  | nil => rfl
  | cons first rest ih => exact (ih (visit state first)).trans (hkeeps state first)

namespace Cluster

variable {N : Type} [Node N] {cluster : Cluster N} {id other : String}

omit [Node N] in
/-- What a cluster holds for a node. -/
def account (cluster : Cluster N) (id : String) : Account N :=
  ⟨cluster.nodes[id]?, cluster.handoff.pending id⟩

omit [Node N] in
theorem node_account (cluster : Cluster N) (id : String) :
    (cluster.account id).node = cluster.nodes[id]? := rfl

omit [Node N] in
theorem hints_account (cluster : Cluster N) (id : String) :
    (cluster.account id).hints = cluster.handoff.pending id := rfl

section Calls

variable (cluster : Cluster N) (now : Instant) (id : String) {α : Type} (call : Call α)

/-- The account of the called node after a call is that account after the call. -/
theorem account_callNode_self :
    (cluster.callNode now id call).1.account id = ((cluster.account id).call now call).1 := by
  cases hnode : cluster.nodes[id]? with
  | none => simp [callNode, Account.call, account, hnode]
  | some node => simp [callNode, Account.call, account, hnode]

/-- A call on the cluster answers what the account alone answers, and fails exactly with it. -/
theorem toOption_callNode :
    (cluster.callNode now id call).2.toOption = ((cluster.account id).call now call).2 := by
  rw [callNode, Account.call, account]
  cases hnode : cluster.nodes[id]? with
  | none => rfl
  | some node =>
      dsimp only
      cases (Node.perform node now call).2 <;> rfl

/-- Calling one node leaves the accounts of all the others alone. -/
theorem account_callNode_of_ne (h : other ≠ id) :
    (cluster.callNode now other call).1.account id = cluster.account id := by
  rw [callNode]
  split
  next => rfl
  next node _ => simp [account, Std.ExtTreeMap.getElem?_insert, h]

end Calls

omit [Node N] in
theorem account_hint_self (cluster : Cluster N) (id : String) (write : Write) :
    (cluster.hint id write).account id =
      { cluster.account id with hints := (cluster.account id).hints ++ [write] } := by
  simp [account, hint, Handoff.pending_record_self]

omit [Node N] in
theorem account_hint_of_ne (h : other ≠ id) (write : Write) :
    (cluster.hint other write).account id = cluster.account id := by
  simp [account, hint, Handoff.pending_record_of_ne h]

section Writes

variable (now : Instant) (write : Write) (isLeader : Bool)

/-- Sending a write to a replica is, for that replica's account, the receipt of the write. -/
theorem account_sendTo_self (state : Cluster N × Tally (Node.Failure N)) (id : String) :
    (sendTo now write isLeader state id).1.account id =
      (state.1.account id).receive now write isLeader := by
  obtain ⟨cluster, tally⟩ := state
  have hcalled := account_callNode_self cluster now id write.call
  have hanswer := toOption_callNode cluster now id write.call
  have hkept := Account.hints_call (cluster.account id) now write.call
  rcases hcall : cluster.callNode now id write.call with ⟨called, absence | answer⟩
  · simp only [hcall] at hcalled hanswer
    simp only [sendTo, hcall, Account.receive, ← hanswer, ← hcalled, account_hint_self]
    rw [hcalled, hkept]
    rfl
  · simp only [hcall] at hcalled hanswer
    simp only [Account.receive, ← hanswer, ← hcalled]
    rw [← hcalled] at hkept
    cases answer with
    | true => simp [sendTo, hcall, Account.missed, Except.toOption, ← hkept]
    | false =>
        simp only [sendTo, hcall, Account.missed, Except.toOption]
        split
        next => rw [account_hint_self, hkept]
        next => simp [← hkept]

/-- Sending a write to a replica is not noticed by the accounts of the others. -/
theorem account_sendTo_of_ne (state : Cluster N × Tally (Node.Failure N)) (h : other ≠ id) :
    (sendTo now write isLeader state other).1.account id = state.1.account id := by
  obtain ⟨cluster, tally⟩ := state
  have hcalled := account_callNode_of_ne cluster now id write.call h
  rw [sendTo]
  dsimp only
  split
  next => exact hcalled
  next =>
    dsimp only
    split
    next => rw [account_hint_of_ne h, hcalled]
    next => exact hcalled
  next => rw [account_hint_of_ne h, hcalled]

/-- A write reaches each replica of its key once, and nobody else. -/
theorem account_replicate (cluster : Cluster N) (id : String) :
    (cluster.replicate now write).1.account id =
      if id ∈ cluster.replicas write.key then
        (cluster.account id).receive now write
          (decide ((cluster.replicas write.key).head? = some id))
      else cluster.account id := by
  have hnodup : (cluster.replicas write.key).Nodup := cluster.ring.nodup_replicas _ _
  rw [replicate]
  cases hreplicas : cluster.replicas write.key with
  | nil => simp
  | cons leader followers =>
      rw [hreplicas] at hnodup
      obtain ⟨hleader, hfollowers⟩ := List.nodup_cons.mp hnodup
      have hrest (state : Cluster N × Tally (Node.Failure N)) :=
        foldl_visit (fun state => state.1.account id) (sendTo now write false)
          (Account.receive now write false)
          (fun state => account_sendTo_self now write false state id)
          (fun state other h => account_sendTo_of_ne now write false state h) hfollowers state
      dsimp only at hrest ⊢
      rw [hrest]
      by_cases heq : leader = id
      · subst heq
        simp [hleader, account_sendTo_self]
      · rw [account_sendTo_of_ne now write true _ heq]
        simp [heq, Ne.symm heq]

end Writes

/-- Clearing calls each node on the ring once. -/
theorem account_clear (cluster : Cluster N) (now : Instant) (id : String) :
    (cluster.clear now).account id =
      if id ∈ cluster.ring.nodes then ((cluster.account id).call now .clear).1
      else cluster.account id :=
  foldl_visit (fun cluster => cluster.account id)
    (fun cluster id => (cluster.callNode now id .clear).1)
    (fun account => (account.call now .clear).1)
    (fun cluster => account_callNode_self cluster now id .clear)
    (fun cluster _ h => account_callNode_of_ne cluster now id .clear h)
    cluster.ring.nodup_nodes cluster

/-- A read changes an account by calls only. -/
theorem account_firstFound {α : Type} (kept : Account N → Prop) (now : Instant)
    (call : Call (Option α)) (hcall : ∀ account, kept account → kept (account.call now call).1)
    (cluster : Cluster N) (ids : List String) (h : kept (cluster.account id)) :
    kept ((cluster.firstFound now call ids).1.account id) := by
  induction ids generalizing cluster with
  | nil => exact h
  | cons first rest ih =>
      have hcalled : kept ((cluster.callNode now first call).1.account id) := by
        by_cases heq : first = id
        · rw [heq, account_callNode_self]
          exact hcall _ h
        · rwa [account_callNode_of_ne cluster now id call heq]
      rw [firstFound]
      split
      next called found heq =>
        rw [heq] at hcalled
        exact hcalled
      next called answer _ heq =>
        rw [heq] at hcalled
        exact ih called hcalled

section Handovers

variable (cluster : Cluster N) (now : Instant) (id : String)

/-- When a node rejoins, its own account hands over. -/
theorem account_nodeRejoined_self :
    (cluster.nodeRejoined now id).1.account id = (cluster.account id).handOver now := by
  cases hnode : cluster.nodes[id]? with
  | none => simp [nodeRejoined, Account.handOver, account, hnode]
  | some node =>
      simp [nodeRejoined, Account.handOver, account, hnode, Handoff.replay,
        Handoff.pending_setQueue_self]

/-- When a node rejoins, nothing changes in the accounts of the others. -/
theorem account_nodeRejoined_of_ne (h : other ≠ id) :
    (cluster.nodeRejoined now other).1.account id = cluster.account id := by
  cases hnode : cluster.nodes[other]? with
  | none => simp [nodeRejoined, hnode]
  | some node =>
      simp [nodeRejoined, account, hnode, Handoff.replay, Handoff.pending_setQueue_of_ne h,
        Std.ExtTreeMap.getElem?_insert, h]

/-- Handing over nothing changes nothing. -/
theorem handOver_of_hints_eq_nil {account : Account N} (h : account.hints = []) :
    account.handOver now = account := by
  obtain ⟨_ | node, hints⟩ := account
  · rfl
  · cases h
    rfl

/-- A visit in a pass, with the count so far. -/
def visit (now : Instant) (state : Cluster N × Nat) (id : String) : Cluster N × Nat :=
  ((state.1.nodeRejoined now id).1, state.2 + (state.1.nodeRejoined now id).2)

theorem replayFor_eq (ids : List String) :
    cluster.replayFor now ids = ids.foldl (visit now) (cluster, 0) := rfl

/-- Visits of several nodes hand over the hints of each of them once. -/
theorem account_replayFor {ids : List String} (hnodup : ids.Nodup) :
    (cluster.replayFor now ids).1.account id =
      if id ∈ ids then (cluster.account id).handOver now else cluster.account id :=
  foldl_visit (fun state => state.1.account id) (visit now) (Account.handOver now)
    (fun state => account_nodeRejoined_self state.1 now id)
    (fun state _ h => account_nodeRejoined_of_ne state.1 now id h) hnodup (cluster, 0)

/-- What a pass hands over for a node, if it visits all nodes for which hints wait. -/
theorem account_replayFor_of_waiting {ids : List String} (hnodup : ids.Nodup)
    (hall : ∀ id, cluster.handoff.pending id ≠ [] → id ∈ ids) :
    (cluster.replayFor now ids).1.account id = (cluster.account id).handOver now := by
  rw [account_replayFor cluster now id hnodup]
  split
  next => rfl
  next hnot =>
    have hnone : (cluster.account id).hints = [] := by
      by_contra h
      exact hnot (hall id h)
    rw [handOver_of_hints_eq_nil now hnone]

/-- A pass hands over the hints of each node once. -/
theorem account_replayPending :
    (cluster.replayPending now).1.account id = (cluster.account id).handOver now :=
  account_replayFor_of_waiting cluster now id cluster.handoff.nodup_pendingNodes
    fun _ => Handoff.mem_pendingNodes_iff.mpr

end Handovers

/-! ## Where keys lie -/

section Layout

omit [Node N] in
/-- What says where keys lie: the ring, and how many replicas a key has. -/
def layout (cluster : Cluster N) : Ring × Nat := (cluster.ring, cluster.replicationFactor)

variable (cluster : Cluster N) (now : Instant)

/-- A call may change the called node but not where keys live. -/
theorem layout_callNode {α : Type} (id : String) (call : Call α) :
    (cluster.callNode now id call).1.layout = cluster.layout := by
  rw [callNode]
  split <;> rfl

theorem layout_sendTo (write : Write) (isLeader : Bool)
    (state : Cluster N × Tally (Node.Failure N)) (id : String) :
    (sendTo now write isLeader state id).1.layout = state.1.layout := by
  have hcalled := layout_callNode state.1 now id write.call
  rw [sendTo]
  rcases hcall : state.1.callNode now id write.call with ⟨called, absence | answer⟩
  · rw [hcall] at hcalled
    exact hcalled
  · rw [hcall] at hcalled
    cases answer with
    | true => exact hcalled
    | false =>
        dsimp only
        split
        next => exact hcalled
        next => exact hcalled

/-- Writing moves no key to another replica: the layout of the cluster is fixed. -/
theorem layout_replicate (write : Write) :
    (cluster.replicate now write).1.layout = cluster.layout := by
  rw [replicate]
  split
  next => rfl
  next leader followers _ =>
    have hrest := foldl_keeps
      (fun state : Cluster N × Tally (Node.Failure N) => state.1.layout)
      (sendTo now write false) (layout_sendTo now write false) followers
    exact (hrest _).trans (layout_sendTo now write true _ leader)

theorem layout_clear : (cluster.clear now).layout = cluster.layout :=
  foldl_keeps (fun cluster => cluster.layout)
    (fun cluster id => (cluster.callNode now id .clear).1)
    (fun cluster id => layout_callNode cluster now id .clear) cluster.ring.nodes cluster

theorem layout_firstFound {α : Type} (call : Call (Option α)) (ids : List String) :
    (cluster.firstFound now call ids).1.layout = cluster.layout := by
  induction ids generalizing cluster with
  | nil => rfl
  | cons first rest ih =>
      have hcalled := layout_callNode cluster now first call
      rw [firstFound]
      split
      next called found heq =>
        rw [heq] at hcalled
        exact hcalled
      next called answer _ heq =>
        rw [heq] at hcalled
        exact (ih called).trans hcalled

theorem layout_nodeRejoined (id : String) :
    (cluster.nodeRejoined now id).1.layout = cluster.layout := by
  rw [nodeRejoined]
  split <;> rfl

theorem layout_replayFor (ids : List String) :
    (cluster.replayFor now ids).1.layout = cluster.layout :=
  foldl_keeps (fun state => state.1.layout) (visit now)
    (fun state id => layout_nodeRejoined state.1 now id) ids (cluster, 0)

/-- A pass over the waiting hints leaves the layout as it is. -/
theorem layout_replayPending :
    (cluster.replayPending now).1.layout = cluster.layout :=
  layout_replayFor cluster now cluster.handoff.pendingNodes

end Layout

end Cluster

end ReplicatedCache
