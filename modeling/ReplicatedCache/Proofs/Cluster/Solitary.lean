import ReplicatedCache.Proofs.Cluster.Membership
import ReplicatedCache.Transport.Service

/-! # A cluster of one node

With one node on the ring every key has one replica, which is a majority by itself. If
the node is an engine, which never fails, then nothing is left of the cluster: whatever
an application asks of it is what it would ask of the engine, its answer is the answer
of the engine, and no hint is kept for anybody.
-/

namespace ReplicatedCache

/-! ## A ring with one node -/

namespace Ring

/-- A node that joins an empty ring is the only one there. -/
theorem nodes_add_ofVirtualNodes (virtualNodes : Nat) (id : String) :
    ((ofVirtualNodes virtualNodes).add id).nodes = [id] := by
  have hfirst : place id 0 ∈ (ofVirtualNodes virtualNodes).placesOf id :=
    mem_placesOf_iff.mpr ⟨0, Nat.lt_of_lt_of_le Nat.zero_lt_one (Nat.le_max_left ..), rfl⟩
  have hmem (other : String) :
      other ∈ ((ofVirtualNodes virtualNodes).add id).nodes ↔ other ∈ [id] := by
    rw [mem_nodes_iff, mem_ownerList_iff, List.mem_singleton]
    constructor
    · rintro ⟨p, howner⟩
      rw [getElem?_add] at howner
      split at howner
      next => exact (Option.some.inj howner).symm
      next => exact nomatch howner
    · rintro rfl
      exact ⟨place other 0, by rw [getElem?_add, if_pos hfirst]⟩
  exact List.perm_singleton.mp
    ((List.perm_ext_iff_of_nodup (nodup_nodes _) (List.nodup_singleton id)).mpr hmem)

/-- The only node is the only replica of every key. -/
theorem replicas_eq_of_nodes {ring : Ring} {id : String} (h : ring.nodes = [id]) (key : String)
    {count : Nat} (hcount : 0 < count) : ring.replicas key count = [id] := by
  have hmem (other : String) : other ∈ ring.replicas key count ↔ other ∈ [id] := by
    rw [mem_replicas_iff ring key other (by rw [h]; exact hcount), h]
  exact List.perm_singleton.mp
    ((List.perm_ext_iff_of_nodup (ring.nodup_replicas _ _) (List.nodup_singleton id)).mpr hmem)

end Ring

variable {A : Type}

/-! ## Requests one after another -/

/-- What happens to an engine that answers applications. -/
inductive Occasion (A : Type)
  | request (now : Instant) (operation : Operation)
  /-- Something that no application asks for, such as a sweep. -/
  | aside (change : Engine A → Engine A)

/-- Lets occasions pass on an engine by itself, and collects its responses. -/
def Engine.serve [Hears A] (engine : Engine A) :
    List (Occasion A) → Engine A × List Response
  | [] => (engine, [])
  | .request now operation :: rest =>
    let (engine, response) := engine.handle now (.plain operation)
    let (engine, responses) := engine.serve rest
    (engine, response :: responses)
  | .aside change :: rest => (change engine).serve rest

/-- One replica is a majority by itself. -/
theorem Tally.quorumMet_alone {F : Type} (called : List String) (answer : Bool)
    (leader : Option (Absence F)) :
    quorumMet { replicas := 1, called, acknowledged := answer.toNat, leader } = answer := by
  cases answer <;> simp [quorumMet, majority]

namespace Cluster

/-- Lets occasions pass on a cluster, of which one node is the engine, and collects its
responses. -/
def serve [Hears A] (cluster : Cluster (Engine A)) (id : String) :
    List (Occasion A) → Cluster (Engine A) × List Response
  | [] => (cluster, [])
  | .request now operation :: rest =>
    let (cluster, response) := cluster.handle now operation
    let (cluster, responses) := cluster.serve id rest
    (cluster, response :: responses)
  | .aside change :: rest =>
    serve { cluster with nodes := cluster.nodes.modify id change } id rest

def holding (cluster : Cluster (Engine A)) (id : String) (engine : Engine A) :
    Cluster (Engine A) :=
  { cluster with nodes := cluster.nodes.insert id engine }

section Holding

variable {cluster : Cluster (Engine A)} {id : String} (engine : Engine A)

@[simp] theorem nodes_holding (cluster : Cluster (Engine A)) (id : String) :
    (cluster.holding id engine).nodes[id]? = some engine :=
  Std.ExtTreeMap.getElem?_insert_self

/-- Another engine takes the place of the one that was there. -/
theorem nodes_insert_holding (after : Engine A) :
    (cluster.holding id engine).nodes.insert id after = (cluster.holding id after).nodes := by
  ext1 other
  simp only [holding, Std.ExtTreeMap.getElem?_insert]
  split <;> rfl

theorem nodes_modify_holding (change : Engine A → Engine A) :
    (cluster.holding id engine).nodes.modify id change =
      (cluster.holding id (change engine)).nodes := by
  ext1 other
  rw [Std.ExtTreeMap.getElem?_modify]
  simp only [holding, Std.ExtTreeMap.getElem?_insert, Std.compare_eq_iff_eq]
  split
  next => rw [if_pos trivial]; rfl
  next => rfl

/-- With a single node on the ring, that node is the only replica of every key. -/
theorem replicas_holding (hring : cluster.ring.nodes = [id]) (key : String) :
    (cluster.holding id engine).replicas key = [id] :=
  Ring.replicas_eq_of_nodes hring key cluster.factor_pos

variable [Hears A] (now : Instant)

/-- A call goes to the engine, which always answers. -/
theorem callNode_holding {α : Type} (call : Call α) :
    (cluster.holding id engine).callNode now id call =
      (cluster.holding id (engine.perform now call).1, .ok (engine.perform now call).2) := by
  rw [callNode, nodes_holding]
  exact congrArg (Prod.mk · _) (congrArg (fun nodes => { cluster with nodes })
    (nodes_insert_holding engine (engine.perform now call).1))

variable (hring : cluster.ring.nodes = [id])
include hring

/-- A write goes to the engine. The leader is a majority by itself, and what it declines
is not kept as a hint. -/
theorem replicate_holding (write : Write) :
    (cluster.holding id engine).replicate now write =
      (cluster.holding id (engine.perform now write.call).1,
        { replicas := 1, called := [id]
          acknowledged := (engine.perform now write.call).2.toNat }) := by
  rw [replicate, replicas_holding engine hring]
  simp only [List.foldl_nil, List.length_singleton, sendTo]
  rw [callNode_holding]
  cases (engine.perform now write.call).2 with
  | true => rfl
  | false => simp [Tally.enter]

/-- A write to a cluster of one is the call on its engine, and its answer is the engine's. -/
theorem write_holding (write : Write) :
    (cluster.holding id engine).write now write =
      (cluster.holding id (engine.perform now write.call).1,
        .ok (engine.perform now write.call).2) := by
  rw [Cluster.write, replicate_holding engine now hring]
  dsimp only
  rw [Tally.result, Tally.quorumMet_alone]
  cases (engine.perform now write.call).2 <;> rfl

theorem delete_holding (key : String) :
    (cluster.holding id engine).delete now key =
      (cluster.holding id (engine.perform now (.delete key)).1,
        (engine.perform now (.delete key)).2) := by
  rw [Cluster.delete, replicate_holding engine now hring (.delete key)]
  dsimp only
  rw [Tally.quorumMet_alone]
  rfl

/-- A read asks the engine and nobody else. -/
theorem firstFound_holding {α : Type} (key : String) (call : Call (Option α)) :
    (cluster.holding id engine).firstFound now call ((cluster.holding id engine).replicas key) =
      (cluster.holding id (engine.perform now call).1, (engine.perform now call).2) := by
  rw [replicas_holding engine hring, firstFound, callNode_holding]
  cases (engine.perform now call).2 <;> rfl

theorem clear_holding :
    (cluster.holding id engine).clear now = cluster.holding id engine.clear := by
  have hnodes : (cluster.holding id engine).ring.nodes = [id] := hring
  rw [Cluster.clear, hnodes, List.foldl_cons, List.foldl_nil, callNode_holding]
  rfl

/-- Whatever an application asks for, the engine does and answers. -/
theorem handle_holding (operation : Operation) :
    (cluster.holding id engine).handle now operation =
      (cluster.holding id (engine.handle now (.plain operation)).1,
        (engine.handle now (.plain operation)).2) := by
  cases operation with
  | set key value ttl =>
      rw [handle, Cluster.set, write_holding engine now hring]
      rfl
  | get key =>
      rw [handle, Cluster.get, firstFound_holding engine now hring]
      rfl
  | getWithToken key =>
      rw [handle, Cluster.getWithToken, firstFound_holding engine now hring]
      rfl
  | delete key =>
      rw [handle, delete_holding engine now hring]
      rfl
  | compareAndSwap key value expected ttl =>
      rw [handle, Cluster.compareAndSwap, write_holding engine now hring]
      rfl
  | clear =>
      rw [handle, clear_holding engine now hring]
      rfl

omit now in
/-- However long it goes on. -/
theorem serve_holding (occasions : List (Occasion A)) :
    (cluster.holding id engine).serve id occasions =
      (cluster.holding id (engine.serve occasions).1, (engine.serve occasions).2) := by
  induction occasions generalizing engine with
  | nil => rfl
  | cons occasion rest ih =>
      cases occasion with
      | request now operation =>
          rw [serve, handle_holding engine now hring]
          dsimp only
          rw [ih, Engine.serve]
      | aside change =>
          rw [serve, nodes_modify_holding]
          exact ih (change engine)

end Holding

section Created

variable [Hears A] {factor virtualNodes : Nat} {empty : Cluster (Engine A)}

/-- A served engine never answers with an error. -/
theorem error_not_mem_serve (engine : Engine A) (occasions : List (Occasion A))
    (message : String) : .error message ∉ (engine.serve occasions).2 := by
  induction occasions generalizing engine with
  | nil => exact List.not_mem_nil
  | cons occasion rest ih =>
      cases occasion with
      | request now operation =>
          rw [Engine.serve, List.mem_cons]
          rintro (heq | hlater)
          · exact nomatch heq
          · exact ih _ hlater
      | aside change => exact ih (change engine)

/-- A cluster that consists of one engine is that engine, for any number of replicas and
of positions on the ring. Whatever applications ask for and whenever, and whatever else
happens to the engine in between, the responses are those of the engine by itself, the
engine ends up as it does by itself, no response is an error, and no hint is kept. -/
theorem serve_alone (hempty : create? (.ofVirtualNodes virtualNodes) factor = .ok empty)
    (id : String) (engine : Engine A) (occasions : List (Occasion A)) :
    let served := (empty.addNode id engine).serve id occasions
    served.2 = (engine.serve occasions).2 ∧
      served.1.nodes[id]? = some (engine.serve occasions).1 ∧
      (∀ message, .error message ∉ served.2) ∧ served.1.handoff = .empty := by
  intro served
  rw [create?] at hempty
  split at hempty
  next hfactor =>
    obtain rfl := Except.ok.inj hempty
    let onRing : Cluster (Engine A) :=
      ⟨(Ring.ofVirtualNodes virtualNodes).add id, ∅, factor, .empty, hfactor⟩
    have hring : onRing.ring.nodes = [id] := Ring.nodes_add_ofVirtualNodes virtualNodes id
    have hserved : served = (onRing.holding id (engine.serve occasions).1,
        (engine.serve occasions).2) := serve_holding engine hring occasions
    rw [hserved]
    exact ⟨rfl, nodes_holding _ onRing id, error_not_mem_serve engine occasions, rfl⟩
  next => exact nomatch hempty

/-- A key is written, read, swapped with a stale token, and deleted when it is over, in a
cluster that asks for three replicas. In between the engine is swept. -/
theorem serve_alone_of_three :
    let alone : Cluster LiveEngine := ⟨.ofVirtualNodes 64, ∅, 3, .empty, by decide⟩
    let engine := LiveEngine.create ⟨2, 1, .lfu⟩
    let occasions : List (Occasion Audience) :=
      [.request 0 (.set "k" "v".toUTF8 5), .request 2 (.getWithToken "k"),
        .request 1 (.compareAndSwap "k" "w".toUTF8 0 0),
        .aside fun engine => (engine.reap (Hears.hear 3) 3).1,
        .request 9 (.delete "k"), .request 8 .clear]
    ((alone.addNode "a" engine).serve "a" occasions).2 = (engine.serve occasions).2 := by
  intro alone engine occasions
  have hcreated : create? (.ofVirtualNodes 64) 3 = .ok alone := rfl
  exact (serve_alone hcreated "a" engine occasions).1

end Created

end Cluster

end ReplicatedCache
