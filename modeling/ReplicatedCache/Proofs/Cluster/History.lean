import Mathlib.Data.List.Basic
import ReplicatedCache.Proofs.Cluster.Account

/-! # What a run does to a node

A client issues writes and clears one after another, and a node applies each of
them at once, later from a hint, or never. The history of a node lists what it
applies in a run, with the numbers of the steps at which it was issued. Nodes
that keep a log of what they answer show that the history is complete.
-/

namespace ReplicatedCache

/-- What can happen to a cluster: the operations of its client, and what a node
undergoes by itself, such as becoming unreachable or reachable. -/
inductive ClusterStep (N : Type)
  | write (now : Instant) (write : Write)
  | clear (now : Instant)
  | get (now : Instant) (key : String)
  | getWithToken (now : Instant) (key : String)
  | nodeRejoined (now : Instant) (id : String)
  | replayPending (now : Instant)
  | shift (id : String) (change : N → N)

/-- What a client issues to change nodes. -/
inductive Change
  | write (write : Write)
  | clear
deriving DecidableEq

namespace Change

/-- A write concerns its key, and clearing concerns every key. -/
def Concerns : Change → String → Prop
  | write written, key => written.key = key
  | clear, _ => True

/-- Two changes meet if they concern a common key. -/
def Meets (first second : Change) : Prop := ∃ key, first.Concerns key ∧ second.Concerns key

end Change

/-- A change that a node has answered, with the number of the step at which the
client issued it. -/
structure Application where
  issued : Nat
  change : Change
  answer : Bool
deriving DecidableEq

/-- The application without the number of a step. -/
def Application.remark (application : Application) : Change × Bool :=
  (application.change, application.answer)

/-- What a step does to one node: it brings a change from the client, with what
is kept of it as a hint, or hands hints over. -/
inductive Share
  | own (change : Change) (answer : Option Bool) (missed : List Write)
  | handed (answers : List Bool)

namespace Share

def answers : Share → List Bool
  | own _ _ _ => []
  | handed answers => answers

def left (hints : List Write) : Share → List Write
  | own _ _ missed => hints ++ missed
  | handed answers => hints.drop answers.length

/-- The queue of the node afterwards, where every hint has the number of the step
at which its write was issued. -/
def waiting (turn : Nat) (hints : List (Nat × Write)) : Share → List (Nat × Write)
  | own _ _ missed => hints ++ missed.map (turn, ·)
  | handed answers => hints.drop answers.length

def applied (turn : Nat) (hints : List (Nat × Write)) : Share → List Application
  | own change answer _ => (answer.map (⟨turn, change, ·⟩)).toList
  | handed answers => hints.zipWith (fun hint answer => ⟨hint.1, .write hint.2, answer⟩) answers

/-- The numbers of the hints are carried along. -/
theorem map_snd_waiting (share : Share) (turn : Nat) (hints : List (Nat × Write)) :
    (share.waiting turn hints).map Prod.snd = share.left (hints.map Prod.snd) := by
  cases share with
  | own change answer missed => simp [waiting, left, Function.comp_def]
  | handed answers => exact List.map_drop

end Share

namespace Cluster

variable {N : Type} [Node N]

def apply (cluster : Cluster N) : ClusterStep N → Cluster N
  | .write now (.set key value ttl) => (cluster.set now key value ttl).1
  | .write now (.delete key) => (cluster.delete now key).1
  | .write now (.compareAndSwap key value expected ttl) =>
    (cluster.compareAndSwap now key value expected ttl).1
  | .clear now => cluster.clear now
  | .get now key => (cluster.get now key).1
  | .getWithToken now key => (cluster.getWithToken now key).1
  | .nodeRejoined now id => (cluster.nodeRejoined now id).1
  | .replayPending now => (cluster.replayPending now).1
  | .shift id change => { cluster with nodes := cluster.nodes.modify id change }

def run (cluster : Cluster N) (steps : List (ClusterStep N)) : Cluster N :=
  steps.foldl apply cluster

/-- Of a write, the history keeps the cluster; its outcome is not part of the step. -/
theorem apply_write (cluster : Cluster N) (now : Instant) (write : Write) :
    cluster.apply (.write now write) = (cluster.replicate now write).1 := by
  cases write <;> rfl

/-- Nothing that happens to the nodes moves keys. -/
theorem layout_apply (cluster : Cluster N) (step : ClusterStep N) :
    (cluster.apply step).layout = cluster.layout := by
  cases step with
  | write now write =>
      rw [apply_write]
      exact layout_replicate cluster now write
  | clear now => exact layout_clear cluster now
  | get now read => exact layout_firstFound cluster now (.get read) _
  | getWithToken now read => exact layout_firstFound cluster now (.getWithToken read) _
  | nodeRejoined now id => exact layout_nodeRejoined cluster now id
  | replayPending now => exact layout_replayPending cluster now
  | shift id change => rfl

/-- The layout of a cluster is the same at the end of a history as at its start. -/
theorem layout_run (cluster : Cluster N) (steps : List (ClusterStep N)) :
    (cluster.run steps).layout = cluster.layout := by
  induction steps generalizing cluster with
  | nil => rfl
  | cons step steps ih => exact (ih _).trans (layout_apply cluster step)

omit [Node N] in
/-- Clusters of the same layout place every key on the same replicas. -/
theorem replicas_of_layout {cluster other : Cluster N} (h : other.layout = cluster.layout)
    (key : String) : other.replicas key = cluster.replicas key := by
  obtain ⟨hring, hfactor⟩ := Prod.mk.inj h
  rw [replicas, replicas, hring, hfactor]

/-- Keys keep their replicas, whatever happens to the nodes. -/
theorem replicas_apply (cluster : Cluster N) (step : ClusterStep N) (key : String) :
    (cluster.apply step).replicas key = cluster.replicas key :=
  replicas_of_layout (layout_apply cluster step) key

/-- A key lives on the same replicas throughout a history. -/
theorem replicas_run (cluster : Cluster N) (steps : List (ClusterStep N)) (key : String) :
    (cluster.run steps).replicas key = cluster.replicas key :=
  replicas_of_layout (layout_run cluster steps) key

/-- A node that changes by itself keeps its hints. -/
theorem account_shift_self (cluster : Cluster N) (id : String) (change : N → N) :
    (cluster.apply (.shift id change)).account id =
      { cluster.account id with node := (cluster.account id).node.map change } := by
  rw [apply, account, Std.ExtTreeMap.getElem?_modify, if_pos Std.ReflCmp.compare_self]
  rfl

theorem account_shift_of_ne (cluster : Cluster N) {id other : String} (h : other ≠ id)
    (change : N → N) : (cluster.apply (.shift other change)).account id = cluster.account id := by
  rw [apply, account, Std.ExtTreeMap.getElem?_modify, if_neg (mt Std.compare_eq_iff_eq.mp h)]
  rfl

def share (cluster : Cluster N) (id : String) : ClusterStep N → Share
  | .write now write =>
    if id ∈ cluster.replicas write.key then
      let answer := ((cluster.account id).call now write.call).2
      let isLeader := decide ((cluster.replicas write.key).head? = some id)
      .own (.write write) answer (Account.missed write isLeader answer)
    else .handed []
  | .clear now =>
    if id ∈ cluster.ring.nodes then
      .own .clear (((cluster.account id).call now .clear).2.map fun _ => true) []
    else .handed []
  | .nodeRejoined now other =>
    if other = id then .handed ((cluster.account id).answers now) else .handed []
  | .replayPending now => .handed ((cluster.account id).answers now)
  | .get _ _ | .getWithToken _ _ | .shift _ _ => .handed []

/-- A step leaves in the queue of a node what its share says. -/
theorem pending_apply (cluster : Cluster N) (step : ClusterStep N) (id : String) :
    (cluster.apply step).handoff.pending id =
      (cluster.share id step).left (cluster.handoff.pending id) := by
  change ((cluster.apply step).account id).hints = _
  cases step with
  | write now write =>
      rw [apply_write, account_replicate, share]
      split
      · rfl
      · rfl
  | clear now =>
      rw [apply, account_clear, share]
      split
      · simp [Share.left, account]
      · rfl
  | get now key =>
      exact account_firstFound (fun account => account.hints = cluster.handoff.pending id) now
        (.get key) (fun account h => (Account.hints_call account now _).trans h) cluster _ rfl
  | getWithToken now key =>
      exact account_firstFound (fun account => account.hints = cluster.handoff.pending id) now
        (.getWithToken key) (fun account h => (Account.hints_call account now _).trans h) cluster
        _ rfl
  | nodeRejoined now other =>
      rw [apply, share]
      split
      next heq =>
        rw [heq, account_nodeRejoined_self, Account.hints_handOver]
        rfl
      next hne =>
        rw [account_nodeRejoined_of_ne cluster now id hne]
        rfl
  | replayPending now =>
      rw [apply, account_replayPending, Account.hints_handOver]
      rfl
  | shift other change => rfl

/-- The answers of a node to the hints that a run hands over to it. -/
def handed (id : String) : Cluster N → List (ClusterStep N) → List Bool
  | _, [] => []
  | cluster, step :: steps =>
    (cluster.share id step).answers ++ handed id (cluster.apply step) steps

/-- What a node applies in a run, from the number of the first step and the hints
that wait at first. -/
def journal (id : String) : Cluster N → Nat → List (Nat × Write) → List (ClusterStep N) →
    List Application
  | _, _, _, [] => []
  | cluster, turn, waiting, step :: steps =>
    (cluster.share id step).applied turn waiting ++
      journal id (cluster.apply step) (turn + 1)
        ((cluster.share id step).waiting turn waiting) steps

/-- What a node applies in a run. The steps are numbered from one, and hints that
wait at first were issued before. -/
def history (cluster : Cluster N) (id : String) (steps : List (ClusterStep N)) :
    List Application :=
  cluster.journal id 1 ((cluster.handoff.pending id).map (0, ·)) steps

end Cluster

/-! ## Nodes that keep a log -/

/-- A node with a log of the changes that it has answered. -/
structure Recorder (N : Type) where
  node : N
  log : List (Change × Bool) := []

namespace Recorder

variable {N : Type} [Node N]

/-- What goes into the log when a call is answered. Reads are not logged. -/
def remark : {α : Type} → Call α → α → List (Change × Bool)
  | _, .set key value ttl, answer => [(.write (.set key value ttl), answer)]
  | _, .delete key, answer => [(.write (.delete key), answer)]
  | _, .compareAndSwap key value expected ttl, answer =>
    [(.write (.compareAndSwap key value expected ttl), answer)]
  | _, .clear, _ => [(.clear, true)]
  | _, .get _, _ => []
  | _, .getWithToken _, _ => []

def perform {α : Type} (recorder : Recorder N) (now : Instant) (call : Call α) :
    Recorder N × Except (Node.Failure N) α :=
  match Node.perform recorder.node now call with
  | (node, .error failure) => ({ recorder with node }, .error failure)
  | (node, .ok answer) => (⟨node, recorder.log ++ remark call answer⟩, .ok answer)

instance : Node (Recorder N) where
  Failure := Node.Failure N
  describe := Node.describe
  perform := perform

theorem remark_call (write : Write) (answer : Bool) :
    remark write.call answer = [(.write write, answer)] := by
  cases write <;> rfl

/-- A call that is answered is logged. -/
theorem log_perform {α : Type} (recorder : Recorder N) (now : Instant) (call : Call α) :
    (Node.perform recorder now call).1.log =
      recorder.log ++ ((Node.perform recorder now call).2.toOption.map (remark call)).getD [] := by
  change (recorder.perform now call).1.log =
    recorder.log ++ ((recorder.perform now call).2.toOption.map (remark call)).getD []
  rw [perform]
  split
  next => exact (List.append_nil _).symm
  next => rfl

/-- The log of a node to which hints are handed over. -/
theorem log_deliver (recorder : Recorder N) (now : Instant) (hints : List Write) :
    (Handoff.deliver recorder now hints).node.log = recorder.log ++
      hints.zipWith (fun hint answer => (.write hint, answer))
        (Handoff.answers recorder now hints) := by
  induction hints generalizing recorder with
  | nil => exact (List.append_nil _).symm
  | cons hint hints ih =>
      have hlog := log_perform recorder now hint.call
      rw [Handoff.deliver, Handoff.answers]
      rcases hperform : Node.perform recorder now hint.call with ⟨next, failure | answer⟩
      · simpa [hperform, Except.toOption] using hlog
      · simp only [hperform, Except.toOption, Option.map_some, Option.getD_some, remark_call]
          at hlog
        simp [ih next, hlog]

end Recorder

namespace Account

variable {N : Type} [Node N]

def log (account : Account (Recorder N)) : List (Change × Bool) :=
  (account.node.map (·.log)).getD []

/-- The log of an account grows by the call, if the node answered it. -/
theorem log_call {α : Type} (account : Account (Recorder N)) (now : Instant) (call : Call α) :
    (account.call now call).1.log =
      account.log ++ ((account.call now call).2.map (Recorder.remark call)).getD [] := by
  obtain ⟨_ | recorder, hints⟩ := account
  · rfl
  · exact recorder.log_perform now call

/-- A write appears in the log exactly if the node answered it. -/
theorem log_receive (account : Account (Recorder N)) (now : Instant) (write : Write)
    (isLeader : Bool) :
    (account.receive now write isLeader).log = account.log ++
      ((account.call now write.call).2.map (.write write, ·)).toList := by
  change (account.call now write.call).1.log = _
  rw [log_call]
  cases (account.call now write.call).2 with
  | none => rfl
  | some answer => exact congrArg (account.log ++ ·) (Recorder.remark_call write answer)

/-- A handover appears in the log as the delivered hints with their answers, in order. -/
theorem log_handOver (account : Account (Recorder N)) (now : Instant) :
    (account.handOver now).log = account.log ++
      account.hints.zipWith (fun hint answer => (.write hint, answer)) (account.answers now) := by
  obtain ⟨_ | recorder, hints⟩ := account
  · simp [handOver, answers]
  · exact recorder.log_deliver now hints

end Account

namespace ClusterStep

variable {N : Type}

/-- A step of a cluster whose nodes keep a log. A node that changes by itself
keeps its log. -/
def recorded : ClusterStep N → ClusterStep (Recorder N)
  | write now issued => .write now issued
  | clear now => .clear now
  | get now key => .get now key
  | getWithToken now key => .getWithToken now key
  | nodeRejoined now id => .nodeRejoined now id
  | replayPending now => .replayPending now
  | shift id change => .shift id fun recorder => { recorder with node := change recorder.node }

end ClusterStep

namespace Cluster

variable {N : Type} [Node N] {cluster : Cluster (Recorder N)} {id : String}

/-- A read leaves no trace in the log. -/
theorem log_firstFound {α : Type} (cluster : Cluster (Recorder N)) (now : Instant)
    (call : Call (Option α)) (hremark : ∀ answer, Recorder.remark call answer = [])
    (ids : List String) (id : String) :
    ((cluster.firstFound now call ids).1.account id).log = (cluster.account id).log := by
  apply account_firstFound (fun account => account.log = (cluster.account id).log) now call
    ?_ cluster ids rfl
  intro account hlog
  rw [Account.log_call, hlog]
  cases (account.call now call).2 with
  | none => exact List.append_nil _
  | some answer => simp [hremark answer]

/-- What a node logs in a step is what the step's share says that it applies. -/
theorem log_apply (cluster : Cluster (Recorder N)) (id : String) (turn : Nat)
    {waiting : List (Nat × Write)}
    (hwaiting : waiting.map Prod.snd = cluster.handoff.pending id) (step : ClusterStep N) :
    ((cluster.apply step.recorded).account id).log = (cluster.account id).log ++
      ((cluster.share id step.recorded).applied turn waiting).map Application.remark := by
  have hhanded (answers : List Bool) :
      ((Share.handed answers).applied turn waiting).map Application.remark =
        (cluster.account id).hints.zipWith (fun hint answer => (.write hint, answer)) answers := by
    rw [account, ← hwaiting, List.zipWith_map_left, Share.applied, List.map_zipWith]
    rfl
  cases step with
  | write now issued =>
      rw [ClusterStep.recorded, apply_write, account_replicate, share]
      split
      · rw [Account.log_receive]
        cases ((cluster.account id).call now issued.call).2 <;> rfl
      · simp [hhanded]
  | clear now =>
      rw [ClusterStep.recorded, apply, account_clear, share]
      split
      · rw [Account.log_call]
        cases ((cluster.account id).call now .clear).2 <;> rfl
      · simp [hhanded]
  | get now key =>
      rw [ClusterStep.recorded, share, hhanded, List.zipWith_nil_right, List.append_nil]
      exact log_firstFound cluster now (.get key) (fun _ => rfl) _ id
  | getWithToken now key =>
      rw [ClusterStep.recorded, share, hhanded, List.zipWith_nil_right, List.append_nil]
      exact log_firstFound cluster now (.getWithToken key) (fun _ => rfl) _ id
  | nodeRejoined now other =>
      rw [ClusterStep.recorded, apply, share]
      split
      next heq => rw [heq, account_nodeRejoined_self, Account.log_handOver, hhanded]
      next hne =>
        rw [account_nodeRejoined_of_ne cluster now id hne, hhanded, List.zipWith_nil_right,
          List.append_nil]
  | replayPending now =>
      rw [ClusterStep.recorded, apply, account_replayPending, Account.log_handOver, share, hhanded]
  | shift other change =>
      rw [ClusterStep.recorded, share, hhanded, List.zipWith_nil_right, List.append_nil]
      by_cases heq : other = id
      · rw [heq, account_shift_self, Account.log, Account.log]
        cases (cluster.account id).node <;> rfl
      · rw [account_shift_of_ne cluster heq]

/-- The journal of a node is what it logs. -/
theorem log_run_of_waiting (cluster : Cluster (Recorder N)) (id : String) (turn : Nat)
    {waiting : List (Nat × Write)}
    (hwaiting : waiting.map Prod.snd = cluster.handoff.pending id)
    (steps : List (ClusterStep N)) :
    ((cluster.run (steps.map .recorded)).account id).log = (cluster.account id).log ++
      (cluster.journal id turn waiting (steps.map .recorded)).map Application.remark := by
  induction steps generalizing cluster turn waiting with
  | nil => exact (List.append_nil _).symm
  | cons step steps ih =>
      have hnext : ((cluster.share id step.recorded).waiting turn waiting).map Prod.snd =
          (cluster.apply step.recorded).handoff.pending id := by
        rw [Share.map_snd_waiting, hwaiting, pending_apply]
      rw [List.map_cons, journal, List.map_append, ← List.append_assoc,
        ← log_apply cluster id turn hwaiting step]
      exact ih (cluster.apply step.recorded) (turn + 1) hnext

/-- The history of a node is what it logs in the run. -/
theorem log_run (cluster : Cluster (Recorder N)) (id : String) (steps : List (ClusterStep N)) :
    ((cluster.run (steps.map .recorded)).account id).log = (cluster.account id).log ++
      (cluster.history id (steps.map .recorded)).map Application.remark :=
  log_run_of_waiting cluster id 1 (by simp [Function.comp_def]) steps

end Cluster

end ReplicatedCache
