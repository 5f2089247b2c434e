import Mathlib.Algebra.BigOperators.Group.Finset.Basic
import ReplicatedCache.Proofs.Cluster.Deferral
import ReplicatedCache.Proofs.Cluster.Delivery

/-! # Passes over the queues of hints

A pass visits the nodes for which hints wait, in an order that nobody promises. A visit
reads and changes what is kept under the id of its node and nothing else, so that visits
of different nodes can be exchanged, and every order ends with the same cluster and the
same count. What the count counts is what the queues have lost.
-/

namespace ReplicatedCache

/-- What is kept under an id: the node, and the queue of hints, which may also be empty. -/
structure Shelf (N : Type) where
  node : Option N
  queue : Option (List Write)

namespace Shelf

variable {N : Type} [Node N]

/-- The hints are handed over to the node. A queue that has run empty is taken away. -/
def handOver (now : Instant) (shelf : Shelf N) : Shelf N :=
  match shelf.node with
  | none => shelf
  | some node =>
    let delivery := Handoff.deliver node now (shelf.queue.getD [])
    ⟨some delivery.node, if delivery.left.isEmpty then none else some delivery.left⟩

end Shelf

/-- The hints that wait for some nodes, all those that have any among them. -/
theorem Handoff.totalPending_eq_sum {handoff : Handoff} {ids : Finset String}
    (h : ∀ id, handoff.pending id ≠ [] → id ∈ ids) :
    handoff.totalPending = ∑ id ∈ ids, handoff.pendingCount id := by
  have hsubset : handoff.pendingNodes.toFinset ⊆ ids := fun id hmem =>
    h id (mem_pendingNodes_iff.mp (List.mem_toFinset.mp hmem))
  rw [totalPending_eq, ← List.sum_toFinset _ handoff.nodup_pendingNodes]
  refine Finset.sum_subset hsubset fun id _ hnot => ?_
  rw [List.mem_toFinset, mem_pendingNodes_iff, not_not] at hnot
  rw [pendingCount, hnot]
  rfl

theorem Account.length_answers_le {N : Type} [Node N] (account : Account N) (now : Instant) :
    (account.answers now).length ≤ account.hints.length := by
  rw [Account.answers]
  split
  next => exact Nat.zero_le _
  next node _ => exact Handoff.length_answers_le node now account.hints

namespace Cluster

variable {N : Type} [Node N] {cluster : Cluster N} {id other : String}

section Shelves

omit [Node N]

/-- What a cluster keeps under an id. -/
def shelf (cluster : Cluster N) (id : String) : Shelf N :=
  ⟨cluster.nodes[id]?, cluster.handoff.queues[id]?⟩

/-- A cluster is where keys lie, and what is kept under each id. -/
theorem eq_of_shelves {one two : Cluster N} (hlayout : one.layout = two.layout)
    (hshelves : ∀ id, one.shelf id = two.shelf id) : one = two := by
  obtain ⟨ring, nodes, factor, ⟨queues⟩, hpos⟩ := one
  obtain ⟨ring', nodes', factor', ⟨queues'⟩, hpos'⟩ := two
  obtain ⟨rfl, rfl⟩ := Prod.mk.inj hlayout
  obtain rfl : nodes = nodes' :=
    Std.ExtTreeMap.ext_getElem? fun id => congrArg Shelf.node (hshelves id)
  obtain rfl : queues = queues' :=
    Std.ExtTreeMap.ext_getElem? fun id => congrArg Shelf.queue (hshelves id)
  rfl

end Shelves

section Visits

variable (cluster : Cluster N) (now : Instant) (id : String)

/-- The shelf of a node that rejoins hands its hints over. -/
theorem shelf_nodeRejoined_self :
    (cluster.nodeRejoined now id).1.shelf id = (cluster.shelf id).handOver now := by
  cases hnode : cluster.nodes[id]? with
  | none => simp [nodeRejoined, Shelf.handOver, shelf, hnode]
  | some node =>
      have hpending : cluster.handoff.pending id = cluster.handoff.queues[id]?.getD [] :=
        Std.ExtTreeMap.getD_eq_getD_getElem?
      simp only [nodeRejoined, Shelf.handOver, shelf, hnode, Handoff.replay, Handoff.setQueue,
        Std.ExtTreeMap.getElem?_insert_self, hpending]
      split
      next => rw [Std.ExtTreeMap.getElem?_erase_self]
      next => rw [Std.ExtTreeMap.getElem?_insert_self]

theorem shelf_nodeRejoined_of_ne (h : other ≠ id) :
    (cluster.nodeRejoined now other).1.shelf id = cluster.shelf id := by
  have hne : ¬ compare other id = .eq := mt Std.compare_eq_iff_eq.mp h
  cases hnode : cluster.nodes[other]? with
  | none => simp [nodeRejoined, hnode]
  | some node =>
      simp only [nodeRejoined, shelf, hnode, Handoff.replay, Handoff.setQueue,
        Std.ExtTreeMap.getElem?_insert, if_neg hne]
      split
      next => rw [Std.ExtTreeMap.getElem?_erase, if_neg hne]
      next => rw [Std.ExtTreeMap.getElem?_insert, if_neg hne]

/-- A visit counts what the node answers. -/
theorem delivered_nodeRejoined :
    (cluster.nodeRejoined now id).2 = ((cluster.account id).answers now).length := by
  rw [nodeRejoined, Account.answers, node_account]
  cases cluster.nodes[id]? with
  | none => rfl
  | some node => exact (Handoff.deliver_eq node now (cluster.handoff.pending id)).1

end Visits

/-! ## Passes -/

section Passes

variable (cluster : Cluster N) (now : Instant) {ids : List String}

/-- A pass hands over the hints of each node that it visits, and of no other. -/
theorem shelf_replayFor (hnodup : ids.Nodup) (id : String) :
    (cluster.replayFor now ids).1.shelf id =
      if id ∈ ids then (cluster.shelf id).handOver now else cluster.shelf id :=
  foldl_visit (fun state => state.1.shelf id) (visit now) (Shelf.handOver now)
    (fun state => shelf_nodeRejoined_self state.1 now id)
    (fun state _ h => shelf_nodeRejoined_of_ne state.1 now id h) hnodup (cluster, 0)

/-- A pass counts what the nodes answer. What one of them answers does not depend on what
was handed over to others before. -/
theorem delivered_replayFor (hnodup : ids.Nodup) :
    (cluster.replayFor now ids).2 =
      (ids.map fun id => ((cluster.account id).answers now).length).sum := by
  have hfold (count : Nat) : (ids.foldl (visit now) (cluster, count)).2 =
      count + (ids.map fun id => ((cluster.account id).answers now).length).sum := by
    induction ids generalizing cluster count with
    | nil => rfl
    | cons first rest ih =>
        obtain ⟨hfirst, hrest⟩ := List.nodup_cons.mp hnodup
        have hothers : ∀ id ∈ rest, ((cluster.nodeRejoined now first).1.account id) =
            cluster.account id := by
          rintro id hmem
          refine account_nodeRejoined_of_ne cluster now id ?_
          rintro rfl
          exact hfirst hmem
        rw [List.foldl_cons, visit, ih _ hrest, delivered_nodeRejoined, List.map_cons,
          List.sum_cons, Nat.add_assoc]
        congr 2
        exact congrArg List.sum (List.map_congr_left fun id hmem => by rw [hothers id hmem])
  rw [replayFor_eq, hfold 0, Nat.zero_add]

/-- The order in which a pass visits nodes makes no difference. -/
theorem replayFor_eq_of_perm {first second : List String} (hperm : first.Perm second)
    (hnodup : first.Nodup) : cluster.replayFor now first = cluster.replayFor now second := by
  have hnodup' : second.Nodup := hperm.nodup_iff.mp hnodup
  refine Prod.ext (eq_of_shelves ?_ fun id => ?_) ?_
  · rw [layout_replayFor, layout_replayFor]
  · rw [shelf_replayFor cluster now hnodup, shelf_replayFor cluster now hnodup']
    simp only [hperm.mem_iff]
  · rw [delivered_replayFor cluster now hnodup, delivered_replayFor cluster now hnodup']
    exact (hperm.map _).sum_eq

/-- What a pass over all that wait counts is what the queues lose. -/
theorem delivered_add_totalPending (hnodup : ids.Nodup)
    (hall : ∀ id, cluster.handoff.pending id ≠ [] → id ∈ ids) :
    (cluster.replayFor now ids).2 + (cluster.replayFor now ids).1.handoff.totalPending =
      cluster.handoff.totalPending := by
  have hvisited (id : String) (hmem : id ∈ ids) :
      (cluster.replayFor now ids).1.handoff.pendingCount id =
        cluster.handoff.pendingCount id - ((cluster.account id).answers now).length := by
    rw [Handoff.pendingCount, ← hints_account, account_replayFor cluster now id hnodup, if_pos hmem,
      Account.hints_handOver, List.length_drop]
    rfl
  have hwaits (id : String) (h : (cluster.replayFor now ids).1.handoff.pending id ≠ []) :
      id ∈ ids.toFinset := by
    by_contra hnot
    rw [List.mem_toFinset] at hnot
    rw [← hints_account, account_replayFor cluster now id hnodup, if_neg hnot] at h
    exact hnot (hall id h)
  rw [delivered_replayFor cluster now hnodup, ← List.sum_toFinset _ hnodup,
    Handoff.totalPending_eq_sum hwaits,
    Handoff.totalPending_eq_sum fun id h => List.mem_toFinset.mpr (hall id h),
    ← Finset.sum_add_distrib]
  refine Finset.sum_congr rfl fun id hmem => ?_
  rw [hvisited id (List.mem_toFinset.mp hmem)]
  exact Nat.add_sub_of_le ((cluster.account id).length_answers_le now)

/-- What a pass leaves and counts. It hands over to each registered node what waits for it,
up to the first hint on which the node fails, and counts the hints that are gone. -/
structure Passed (cluster : Cluster N) (now : Instant) (outcome : Cluster N × Nat) : Prop where
  accounts : ∀ id, outcome.1.account id = (cluster.account id).handOver now
  count : outcome.2 = cluster.handoff.totalPending - outcome.1.handoff.totalPending
  no_more : outcome.1.handoff.totalPending ≤ cluster.handoff.totalPending
  emptied : ∀ id node, cluster.nodes[id]? = some node →
    (Handoff.answers node now (cluster.handoff.pending id)).length =
      cluster.handoff.pendingCount id → outcome.1.handoff.pending id = []
  kept : ∀ id, cluster.nodes[id]? = none →
    outcome.1.handoff.pending id = cluster.handoff.pending id

/-- Visiting the waiting nodes in any order makes one pass over the cluster. -/
theorem passed_replayFor (hperm : ids.Perm cluster.handoff.pendingNodes) :
    cluster.Passed now (cluster.replayFor now ids) := by
  have hnodup : ids.Nodup := hperm.nodup_iff.mpr cluster.handoff.nodup_pendingNodes
  have hall (id : String) (h : cluster.handoff.pending id ≠ []) : id ∈ ids :=
    hperm.mem_iff.mpr (Handoff.mem_pendingNodes_iff.mpr h)
  have haccounts (id : String) : (cluster.replayFor now ids).1.account id =
      (cluster.account id).handOver now :=
    account_replayFor_of_waiting cluster now id hnodup hall
  have htotal := delivered_add_totalPending cluster now hnodup hall
  constructor
  case accounts => exact haccounts
  case count => exact Nat.eq_sub_of_add_eq htotal
  case no_more => exact htotal ▸ Nat.le_add_left _ _
  case emptied =>
    intro id node hnode hanswers
    rw [← hints_account, haccounts, Account.hints_handOver, Account.answers, node_account, hnode]
    exact List.drop_eq_nil_of_le (Nat.le_of_eq hanswers.symm)
  case kept =>
    intro id hnode
    rw [← hints_account, haccounts, Account.handOver, node_account, hnode]
    rfl

/-- Two passes over the nodes for which hints wait end alike, whatever the orders in which
they visit them: with the same cluster, down to each node and each queue, and with the same
count. The count is what the queues have lost; a queue whose node answers all of it is
empty, and one whose node is not registered is as it was. -/
theorem passes_end_alike {first second : List String}
    (hfirst : first.Perm cluster.handoff.pendingNodes)
    (hsecond : second.Perm cluster.handoff.pendingNodes) :
    cluster.replayFor now first = cluster.replayFor now second ∧
      cluster.Passed now (cluster.replayFor now first) :=
  ⟨replayFor_eq_of_perm cluster now (hfirst.trans hsecond.symm)
      (hfirst.nodup_iff.mpr cluster.handoff.nodup_pendingNodes),
    passed_replayFor cluster now hfirst⟩

end Passes

/-- Three nodes with hints: one is up, one is down, and one is not registered. -/
def waitingTrio : Cluster (Switched (Engine Unit)) where
  ring := .ofVirtualNodes 1
  nodes := ((∅ : Std.ExtTreeMap String (Switched (Engine Unit)) compare).insert
    "a" ⟨"a", {}, unheard⟩).insert "b" ⟨"b", { mode := .down }, unheard⟩
  replicationFactor := 2
  handoff := ((Handoff.empty.record "a" (.delete "k")).record "b" (.delete "k")).record
    "c" (.delete "k")
  factor_pos := Nat.two_pos

/-- Whether the pass begins with the node that answers or ends with it, it hands over one
hint of the three. -/
theorem passes_end_alike_trio :
    ["a", "b", "c"].Perm waitingTrio.handoff.pendingNodes ∧
      ["c", "b", "a"].Perm waitingTrio.handoff.pendingNodes ∧
      waitingTrio.replayFor 0 ["a", "b", "c"] = waitingTrio.replayFor 0 ["c", "b", "a"] ∧
      (waitingTrio.replayFor 0 ["a", "b", "c"]).1.handoff.pending "a" = [] ∧
      (waitingTrio.replayFor 0 ["a", "b", "c"]).1.handoff.pending "b" = [.delete "k"] ∧
      (waitingTrio.replayFor 0 ["a", "b", "c"]).1.handoff.pending "c" = [.delete "k"] := by
  have hnodes : waitingTrio.handoff.pendingNodes = ["a", "b", "c"] := rfl
  have hreversed : ["c", "b", "a"].Perm waitingTrio.handoff.pendingNodes :=
    hnodes ▸ List.reverse_perm ["a", "b", "c"]
  obtain ⟨hsame, hpassed⟩ :=
    passes_end_alike waitingTrio 0 (List.Perm.of_eq hnodes.symm) hreversed
  have ha : waitingTrio.account "a" = ⟨some ⟨"a", {}, unheard⟩, [.delete "k"]⟩ := rfl
  have hb : waitingTrio.account "b" = ⟨some ⟨"b", { mode := .down }, unheard⟩, [.delete "k"]⟩ := rfl
  have hpending : waitingTrio.handoff.pending "a" = [.delete "k"] := congrArg Account.hints ha
  have htakes : (Handoff.answers (⟨"a", {}, unheard⟩ : Switched (Engine Unit)) 0
      [.delete "k"]).length = 1 := by
    rw [← (Handoff.deliver_eq _ _ _).1, Handoff.deliver_up]
    rfl
  refine ⟨.of_eq hnodes.symm, hreversed, hsame, ?_, ?_, ?_⟩
  · refine hpassed.emptied "a" ⟨"a", {}, unheard⟩ (congrArg Account.node ha) ?_
    rw [Handoff.pendingCount, hpending, htakes]
    rfl
  · rw [← hints_account, hpassed.accounts, hb]
    rfl
  · exact hpassed.kept "c" rfl

end Cluster

end ReplicatedCache
