import ReplicatedCache.Proofs.Cluster.Deadlines

/-! # Missing writes and taking them later

A node that cannot be reached misses the writes of its keys, and every one of them
waits for it as a hint, in the order in which it was issued. When the node is back it
is called with the very calls that it would have received. As long as the clock stands
still, the engine behind it cannot tell the difference.
-/

namespace ReplicatedCache

namespace ClusterStep

variable {N : Type}

def setSwitch (id : String) (switch : Switch) : ClusterStep (Switched N) :=
  .shift id fun switched => { switched with switch }

/-- The step is a write at an instant, or another node undergoes something by itself. -/
def WritesAt (now : Instant) (id : String) : ClusterStep N → Prop
  | .write time _ => time = now
  | .shift other _ => other ≠ id
  | .clear _ | .get _ _ | .getWithToken _ _ | .nodeRejoined _ _ | .replayPending _ => False

/-- The write of a step, if it is one. -/
def issued : ClusterStep N → Option Write
  | .write _ written => some written
  | _ => none

end ClusterStep

/-! ## What is sent to one node -/

namespace Cluster

section Sent

variable {N : Type}

/-- The writes of some steps that are sent to a node, in the order of the steps. -/
def sentTo (cluster : Cluster N) (id : String) (steps : List (ClusterStep N)) : List Write :=
  (steps.filterMap ClusterStep.issued).filter fun write =>
    decide (id ∈ cluster.replicas write.key)

/-- A write is among those sent to a node exactly when the node is one of its replicas. -/
theorem sentTo_write (cluster : Cluster N) (id : String) (now : Instant) (write : Write)
    (steps : List (ClusterStep N)) :
    cluster.sentTo id (.write now write :: steps) =
      if id ∈ cluster.replicas write.key then write :: cluster.sentTo id steps
      else cluster.sentTo id steps := by
  rw [sentTo, List.filterMap_cons_some (by rfl), List.filter_cons]
  simp only [decide_eq_true_iff]
  rfl

theorem sentTo_shift (cluster : Cluster N) (id other : String) (change : N → N)
    (steps : List (ClusterStep N)) :
    cluster.sentTo id (.shift other change :: steps) = cluster.sentTo id steps := rfl

variable [Node N]

/-- Which writes a node is sent depends on the layout alone, so a step does not change it. -/
theorem sentTo_apply (cluster : Cluster N) (step : ClusterStep N) (id : String)
    (steps : List (ClusterStep N)) :
    (cluster.apply step).sentTo id steps = cluster.sentTo id steps := by
  simp only [sentTo, replicas_apply]

/-- What is known of a node depends on the writes that are sent to it, and on nothing
else that happens. -/
theorem known_run (known : List Write → Account N → Prop) {now : Instant} {id : String}
    (hreceive : ∀ sent account write isLeader, known sent account →
      known (sent ++ [write]) (account.receive now write isLeader))
    {cluster : Cluster N} {sent : List Write} (h : known sent (cluster.account id))
    {steps : List (ClusterStep N)} (hsteps : ∀ step ∈ steps, step.WritesAt now id) :
    known (sent ++ cluster.sentTo id steps) ((cluster.run steps).account id) := by
  induction steps generalizing cluster sent with
  | nil => exact (List.append_nil sent).symm ▸ h
  | cons step steps ih =>
      have hrest : ∀ step ∈ steps, step.WritesAt now id :=
        fun step hmem => hsteps step (List.mem_cons_of_mem _ hmem)
      have hstep : step.WritesAt now id := hsteps step List.mem_cons_self
      cases step with
      | write time write =>
          obtain rfl : time = now := hstep
          have hwritten := account_replicate time write cluster id
          rw [← apply_write] at hwritten
          rw [sentTo_write, ← sentTo_apply cluster (.write time write)]
          split
          next hsent =>
            rw [if_pos hsent] at hwritten
            rw [List.append_cons]
            exact ih (hwritten ▸ hreceive sent _ write _ h) hrest
          next hsent =>
            rw [if_neg hsent] at hwritten
            exact ih (hwritten ▸ h) hrest
      | shift other change =>
          rw [sentTo_shift, ← sentTo_apply cluster (.shift other change)]
          exact ih ((account_shift_of_ne cluster hstep change).symm ▸ h) hrest
      | clear | get | getWithToken | nodeRejoined | replayPending => exact hstep.elim

end Sent

end Cluster

/-! ## Up, down and back -/

variable {A : Type} [Hears A] {name : String} {engine : Engine A}

/-- A node that is up carries a write out, and one that is down misses it. -/
theorem Account.node_receive_up {account : Account (Switched (Engine A))}
    (h : account.node = some ⟨name, {}, engine⟩) (now : Instant) (write : Write)
    (isLeader : Bool) :
    (account.receive now write isLeader).node =
      some ⟨name, {}, (engine.perform now write.call).1⟩ := by
  obtain ⟨_, hints⟩ := account
  cases h
  rfl

/-- A node that is down misses the write: its engine is as before and the write waits as a
hint. -/
theorem Account.receive_down (name : String) (engine : Engine A) (hints : List Write)
    (now : Instant) (write : Write) (isLeader : Bool) :
    (⟨some ⟨name, { mode := .down }, engine⟩, hints⟩ : Account (Switched (Engine A))).receive now
        write isLeader =
      ⟨some ⟨name, { mode := .down }, engine⟩, hints ++ [write]⟩ := rfl

/-- A node that is up takes all hints. -/
theorem Handoff.deliver_up (name : String) (engine : Engine A) (now : Instant)
    (hints : List Write) :
    deliver (⟨name, {}, engine⟩ : Switched (Engine A)) now hints =
      ⟨⟨name, {}, engine.takeAll now hints⟩, hints.length, []⟩ :=
  Engine.deliver_carried (Switched.mk name {}) (fun _ _ => rfl) engine hints

namespace Cluster

variable {cluster : Cluster (Switched (Engine A))} {id : String} {switch : Switch}
  {hints : List Write} {now : Instant} {steps : List (ClusterStep (Switched (Engine A)))}

/-- Turning a switch leaves the engine and the hints of its node in place. -/
theorem account_setSwitch
    (h : cluster.account id = ⟨some ⟨name, switch, engine⟩, hints⟩) (next : Switch) :
    (cluster.apply (.setSwitch id next)).account id = ⟨some ⟨name, next, engine⟩, hints⟩ := by
  rw [ClusterStep.setSwitch, account_shift_self, h]
  rfl

/-- All writes that are sent to a node while it is up are carried out by its engine. -/
theorem node_run_up (h : cluster.nodes[id]? = some ⟨name, {}, engine⟩)
    (hsteps : ∀ step ∈ steps, step.WritesAt now id) :
    (cluster.run steps).nodes[id]? =
      some ⟨name, {}, engine.takeAll now (cluster.sentTo id steps)⟩ := by
  have hstart : (cluster.account id).node = some ⟨name, {}, engine.takeAll now []⟩ := h
  refine known_run (fun sent (account : Account (Switched (Engine A))) =>
    account.node = some ⟨name, {}, engine.takeAll now sent⟩) ?_ hstart hsteps
  intro sent account write isLeader hnode
  rw [Account.node_receive_up hnode, Engine.takeAll, Engine.takeAll, List.foldl_concat]

/-- All writes that are sent to a node while it is down wait for it. -/
theorem account_run_down
    (h : cluster.account id = ⟨some ⟨name, { mode := .down }, engine⟩, hints⟩)
    (hsteps : ∀ step ∈ steps, step.WritesAt now id) :
    (cluster.run steps).account id =
      ⟨some ⟨name, { mode := .down }, engine⟩, hints ++ cluster.sentTo id steps⟩ := by
  refine known_run (fun sent account =>
    account = ⟨some ⟨name, { mode := .down }, engine⟩, sent⟩) ?_ h hsteps
  rintro sent _ write isLeader rfl
  exact Account.receive_down name engine sent now write isLeader

/-- A node that is back takes all that waits for it. -/
theorem nodeRejoined_up (h : cluster.account id = ⟨some ⟨name, {}, engine⟩, hints⟩)
    (now : Instant) :
    (cluster.nodeRejoined now id).1.account id =
        ⟨some ⟨name, {}, engine.takeAll now hints⟩, []⟩ ∧
      (cluster.nodeRejoined now id).2 = hints.length := by
  have hnode : cluster.nodes[id]? = some ⟨name, {}, engine⟩ := congrArg Account.node h
  have hpending : cluster.handoff.pending id = hints := congrArg Account.hints h
  constructor
  · rw [account_nodeRejoined_self, h, Account.handOver]
    dsimp only
    rw [Handoff.deliver_up]
  · have hdelivered := congrArg Handoff.Delivery.delivered
      (Handoff.deliver_up name engine now hints)
    rw [nodeRejoined, hnode]
    dsimp only [Handoff.replay]
    rw [hpending, hdelivered]

/-- A node for which nothing waits misses writes, and takes the hints for them once it
is back. The engine behind it is then the same as if the node had been there all the
time, down to the order of access, the tokens, the frequencies and the pending notes,
and nothing waits for the node. Whether the writes met their majorities, and what the
other nodes underwent meanwhile, makes no difference. -/
theorem nodes_nodeRejoined_eq_direct (hnode : cluster.nodes[id]? = some ⟨name, switch, engine⟩)
    (hempty : cluster.handoff.pending id = []) (hsteps : ∀ step ∈ steps, step.WritesAt now id) :
    let direct := cluster.run (.setSwitch id {} :: steps)
    let missed := cluster.run (.setSwitch id { mode := .down } :: steps)
    let deferred := (missed.apply (.setSwitch id {})).nodeRejoined now id
    missed.handoff.pending id = cluster.sentTo id steps ∧
      deferred.2 = (cluster.sentTo id steps).length ∧
      (∃ final, direct.nodes[id]? = some ⟨name, {}, final⟩ ∧
        deferred.1.nodes[id]? = some ⟨name, {}, final⟩) ∧
      deferred.1.handoff.pending id = [] := by
  intro direct missed deferred
  have haccount : cluster.account id = ⟨some ⟨name, switch, engine⟩, []⟩ := by
    rw [account, hnode, hempty]
  have hup := account_setSwitch haccount {}
  have hdirect := node_run_up (congrArg Account.node hup) hsteps
  have hdown := account_run_down (account_setSwitch haccount { mode := .down }) hsteps
  rw [sentTo_apply] at hdirect hdown
  obtain ⟨hdeferred, hcount⟩ := nodeRejoined_up (account_setSwitch hdown {}) now
  refine ⟨congrArg Account.hints hdown, hcount, ?_, congrArg Account.hints hdeferred⟩
  exact ⟨_, hdirect, congrArg Account.node hdeferred⟩

/-- The leader of a key misses all kinds of writes while a follower goes down as well. -/
theorem nodes_nodeRejoined_eq_direct_leader :
    let steps : List (ClusterStep (Switched (Engine Unit))) :=
      [.write 1000000 (.set "k" "v".toUTF8 (.ofMillis 100)), .setSwitch "c" { mode := .down },
        .write 1000000 (.delete "k"), .write 1000000 (.set "k" "w".toUTF8 .zero),
        .write 1000000 (.compareAndSwap "k" "x".toUTF8 3 .zero)]
    let direct := switchedTrio.run (.setSwitch "b" {} :: steps)
    let missed := switchedTrio.run (.setSwitch "b" { mode := .down } :: steps)
    let deferred := (missed.apply (.setSwitch "b" {})).nodeRejoined 1000000 "b"
    (missed.handoff.pending "b").length = 4 ∧ deferred.2 = 4 ∧
      (∃ final, direct.nodes["b"]? = some ⟨"b", {}, final⟩ ∧
        deferred.1.nodes["b"]? = some ⟨"b", {}, final⟩) ∧
      deferred.1.handoff.pending "b" = [] := by
  intro steps
  have hreplica : "b" ∈ switchedTrio.replicas "k" := by
    rw [replicas_switchedTrio]
    decide
  have hnode : switchedTrio.nodes["b"]? = some ⟨"b", {}, unheard⟩ :=
    congrArg Account.node (account_switchedTrio hreplica)
  have hnothing : switchedTrio.handoff.pending "b" = [] :=
    congrArg Account.hints (account_switchedTrio hreplica)
  have hsteps : ∀ step ∈ steps, step.WritesAt 1000000 "b" := by
    simp [steps, ClusterStep.WritesAt, ClusterStep.setSwitch]
  have hsent : (switchedTrio.sentTo "b" steps).length = 4 := by
    simp only [steps, ClusterStep.setSwitch, sentTo_write, sentTo_shift]
    simp [Write.key, Write.call, Call.key, hreplica, sentTo]
  have hall := nodes_nodeRejoined_eq_direct hnode hnothing hsteps
  exact ⟨(congrArg List.length hall.1).trans hsent, hall.2.1.trans hsent, hall.2.2⟩

end Cluster

end ReplicatedCache
