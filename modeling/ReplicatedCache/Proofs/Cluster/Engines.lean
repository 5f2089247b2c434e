import ReplicatedCache.Proofs.Cluster.Quorum
import ReplicatedCache.Proofs.Cluster.History
import ReplicatedCache.Proofs.Engine.Calls

/-! # Clusters of engines

An engine never fails. It answers every write, and takes every hint that is
handed over to it. Whatever else happens to an engine in a cluster is a call or
a sweep of its own.
-/

namespace ReplicatedCache

namespace ClusterStep

variable {N : Type}

def HandsOverTo (id : String) : ClusterStep N → Prop
  | .nodeRejoined _ other => other = id
  | .replayPending _ => True
  | _ => False

def Spares (key : String) : ClusterStep N → Prop
  | .write _ issued => issued.key ≠ key
  | .clear _ => False
  | _ => True

variable {A : Type} [Hears A]

/-- The step happens at an instant. An engine does nothing by itself but sweep. -/
def At (now : Instant) : ClusterStep (Engine A) → Prop
  | .write time _ | .clear time | .get time _ | .getWithToken time _
  | .nodeRejoined time _ | .replayPending time => time = now
  | .shift _ change => change = fun engine => engine.sweep now

/-- Steps happen one after another between two instants. The clock may stand still,
but does not go back. -/
def Timely {N : Type} (happens : Instant → ClusterStep N → Prop) :
    Instant → List (ClusterStep N) → Instant → Prop
  | start, [], now => start ≤ now
  | start, step :: steps, now =>
    ∃ time, start ≤ time ∧ happens time step ∧ Timely happens time steps now

end ClusterStep

namespace Cluster

variable {N : Type} [Node N] {cluster : Cluster N} {id : String}

/-- What an account keeps in a step that does not hand its hints over. -/
theorem account_apply (kept : Account N → Prop) (h : kept (cluster.account id))
    {step : ClusterStep N} (hnot : ¬ step.HandsOverTo id)
    (hwrite : ∀ now write, step = .write now write → id ∈ cluster.replicas write.key →
      kept ((cluster.account id).receive now write
        (decide ((cluster.replicas write.key).head? = some id))))
    (hclear : ∀ now, step = .clear now → kept ((cluster.account id).call now .clear).1)
    (hget : ∀ now key, step = .get now key →
      ∀ account, kept account → kept (account.call now (.get key)).1)
    (hgetWithToken : ∀ now key, step = .getWithToken now key →
      ∀ account, kept account → kept (account.call now (.getWithToken key)).1)
    (hshift : ∀ change, step = .shift id change →
      kept { cluster.account id with node := (cluster.account id).node.map change }) :
    kept ((cluster.apply step).account id) := by
  cases step with
  | write now write =>
      rw [apply_write, account_replicate]
      split
      next hreplica => exact hwrite now write rfl hreplica
      next => exact h
  | clear now =>
      rw [apply, account_clear]
      split
      next => exact hclear now rfl
      next => exact h
  | get now key => exact account_firstFound kept now (.get key) (hget now key rfl) cluster _ h
  | getWithToken now key =>
      exact account_firstFound kept now (.getWithToken key) (hgetWithToken now key rfl) cluster _ h
  | nodeRejoined now other =>
      rw [apply, account_nodeRejoined_of_ne cluster now id hnot]
      exact h
  | replayPending now => exact absurd trivial hnot
  | shift other change =>
      by_cases heq : other = id
      · subst heq
        rw [account_shift_self]
        exact hshift change rfl
      · rw [account_shift_of_ne cluster heq]
        exact h

end Cluster

variable {A : Type} [Hears A]

namespace Engine

def takeAll (engine : Engine A) (now : Instant) (hints : List Write) : Engine A :=
  hints.foldl (fun engine hint => (engine.perform now hint.call).1) engine

/-- What every call keeps, a handover keeps. -/
theorem takeAll_keeps {kept : Engine A → Prop} {now : Instant}
    (hperform : ∀ (engine : Engine A) (write : Write), kept engine →
      kept (engine.perform now write.call).1)
    {engine : Engine A} (h : kept engine) (hints : List Write) :
    kept (engine.takeAll now hints) := by
  induction hints generalizing engine with
  | nil => exact h
  | cons hint hints ih => exact ih (hperform engine hint h)

/-- A node that passes everything on to an engine takes all hints. -/
theorem deliver_carried {N : Type} [Node N] (carry : Engine A → N) {now : Instant}
    (hcarry : ∀ (engine : Engine A) (write : Write), Node.perform (carry engine) now write.call =
      (carry (engine.perform now write.call).1, .ok (engine.perform now write.call).2))
    (engine : Engine A) (hints : List Write) :
    Handoff.deliver (carry engine) now hints =
      ⟨carry (engine.takeAll now hints), hints.length, []⟩ := by
  induction hints generalizing engine with
  | nil => rfl
  | cons hint hints ih =>
      rw [Handoff.deliver, hcarry]
      dsimp only
      rw [ih]
      rfl

/-- An engine takes all hints. -/
theorem deliver_eq (engine : Engine A) (now : Instant) (hints : List Write) :
    Handoff.deliver engine now hints = ⟨engine.takeAll now hints, hints.length, []⟩ :=
  deliver_carried id (fun _ _ => rfl) engine hints

end Engine

namespace Account

variable {engine : Engine A} {hints : List Write}

/-- An engine answers a write, and what it declines may be kept. -/
theorem receive_engine (engine : Engine A) (hints : List Write) (now : Instant) (write : Write)
    (isLeader : Bool) :
    (⟨some engine, hints⟩ : Account (Engine A)).receive now write isLeader =
      ⟨some (engine.perform now write.call).1,
        hints ++ missed write isLeader (some (engine.perform now write.call).2)⟩ := rfl

/-- What waits for an engine is handed over completely. -/
theorem handOver_engine (engine : Engine A) (hints : List Write) (now : Instant) :
    (⟨some engine, hints⟩ : Account (Engine A)).handOver now =
      ⟨some (engine.takeAll now hints), []⟩ := by
  rw [handOver]
  dsimp only
  rw [Engine.deliver_eq]

end Account

namespace Cluster

variable {cluster : Cluster (Engine A)} {id : String} {engine : Engine A}

omit [Hears A] in
theorem account_engine (h : cluster.nodes[id]? = some engine) :
    cluster.account id = ⟨some engine, cluster.handoff.pending id⟩ := by
  rw [account, h]

/-- A step that hands the hints of a node over does nothing else to its account. -/
theorem account_of_handsOverTo (cluster : Cluster (Engine A)) {id : String} {now : Instant}
    {step : ClusterStep (Engine A)} (h : step.HandsOverTo id) (hstep : step.At now) :
    (cluster.apply step).account id = (cluster.account id).handOver now := by
  cases step with
  | nodeRejoined time other =>
      obtain rfl : other = id := h
      obtain rfl : time = now := hstep
      exact account_nodeRejoined_self cluster time other
  | replayPending time =>
      obtain rfl : time = now := hstep
      exact account_replayPending cluster time id
  | write | clear | get | getWithToken | shift => exact h.elim

/-- What calls and sweeps keep of an engine, every step keeps. -/
theorem engine_apply {kept : Engine A → Prop}
    (hperform : ∀ (engine : Engine A) (now : Instant) {α : Type} (call : Call α), kept engine →
      kept (engine.perform now call).1)
    (hsweep : ∀ (engine : Engine A) (now : Instant), kept engine → kept (engine.sweep now))
    (h : ∀ engine, cluster.nodes[id]? = some engine → kept engine)
    {step : ClusterStep (Engine A)} {now : Instant} (hstep : step.At now) :
    ∀ engine, (cluster.apply step).nodes[id]? = some engine → kept engine := by
  have hcall {account : Account (Engine A)} (now : Instant) {α : Type} (call : Call α)
      (haccount : ∀ engine, account.node = some engine → kept engine) :
      ∀ engine, (account.call now call).1.node = some engine → kept engine := by
    obtain ⟨_ | engine, hints⟩ := account
    · rintro engine ⟨⟩
    · rintro - ⟨⟩
      exact hperform engine now call (haccount engine rfl)
  rw [← node_account] at h ⊢
  by_cases hhands : step.HandsOverTo id
  · rw [account_of_handsOverTo cluster hhands hstep]
    cases hnode : cluster.nodes[id]? with
    | none =>
        rw [account, hnode]
        rintro engine ⟨⟩
    | some engine =>
        rw [account_engine hnode, Account.handOver_engine]
        rintro - ⟨⟩
        exact Engine.takeAll_keeps (fun engine write => hperform engine now write.call)
          (h engine hnode) _
  · refine account_apply (fun account => ∀ engine, account.node = some engine → kept engine) h
      hhands ?_ ?_ ?_ ?_ ?_
    · exact fun now write _ _ => hcall now write.call h
    · exact fun now _ => hcall now .clear h
    · exact fun now key _ account haccount => hcall now (.get key) haccount
    · exact fun now key _ account haccount => hcall now (.getWithToken key) haccount
    · rintro change rfl engine hengine
      obtain rfl : change = fun engine => engine.sweep now := hstep
      obtain ⟨old, hold, rfl⟩ := Option.map_eq_some_iff.mp hengine
      exact hsweep old now (h old hold)

/-- An engine answers every call. -/
theorem callNode_engine (h : cluster.nodes[id]? = some engine) (now : Instant) {α : Type}
    (call : Call α) :
    cluster.callNode now id call =
      ({ cluster with nodes := cluster.nodes.insert id (engine.perform now call).1 },
        .ok (engine.perform now call).2) := by
  rw [callNode, h]
  rfl

/-- A reachable engine replies to a write what it answers to the call. -/
theorem reply_engine (h : cluster.nodes[id]? = some engine) (now : Instant) (write : Write) :
    cluster.reply now write id = .ok (engine.perform now write.call).2 := by
  rw [reply, callNode_engine h]

/-- An engine acknowledges exactly the writes that it answers with success. -/
theorem acknowledges_engine (h : cluster.nodes[id]? = some engine) (now : Instant)
    (write : Write) :
    cluster.acknowledges now write id = (engine.perform now write.call).2 := by
  rw [acknowledges, reply_engine h]

/-- What the sets of a step ask of the segments that they write to. -/
def StepFits (asked : PutOutcome → Prop) (cluster : Cluster (Engine A)) :
    ClusterStep (Engine A) → Prop
  | .write now write => ∀ id ∈ cluster.replicas write.key, ∀ engine,
    cluster.nodes[id]? = some engine → engine.Fits now asked write.call
  | _ => True

/-- What the sets of a run ask of the segments that they write to. -/
def RunFits (asked : PutOutcome → Prop) : Cluster (Engine A) → List (ClusterStep (Engine A)) → Prop
  | _, [] => True
  | cluster, step :: steps =>
    cluster.StepFits asked step ∧ RunFits asked (cluster.apply step) steps

omit [Hears A] in
/-- A set for which all replicas have room is stored and makes no key leave. -/
theorem fits_set {key : String} (now : Instant) (value : Value) (ttl : Span)
    (h : ∀ id ∈ cluster.replicas key, ∀ engine, cluster.nodes[id]? = some engine →
      engine.Sound ∧ engine.shards.HasRoom key) :
    cluster.StepFits PutOutcome.Plain (.write now (.set key value ttl)) := by
  intro id hreplica engine hnode
  obtain ⟨hsound, hroom⟩ := h id hreplica engine hnode
  exact ⟨hroom.put_stored _, hroom.put_evicted hsound.shards _⟩

/-! ## Three engines -/

/-- A new engine to which nobody listens. -/
def unheard : Engine Unit := .create ⟨1000, 4, .lru⟩ ()

theorem settled_unheard : unheard.Settled fun _ => True := ⟨trivial, Engine.sound_create _ _⟩

theorem find?_unheard (key : String) : unheard.shards.find? key = none :=
  Shards.find?_create _ _ _ key

theorem hasRoom_unheard (key : String) : unheard.shards.HasRoom key :=
  Shards.hasRoom_create _ _ _ key

/-- Three new engines to which nobody listens, with one position on the ring each.
Keys have a leader and a number of followers. -/
def trio (followers : Nat) : Cluster (Engine Unit) :=
  ((({ ring := .ofVirtualNodes 1, nodes := ∅, replicationFactor := followers + 1,
       handoff := .empty, factor_pos := Nat.zero_lt_succ followers } :
      Cluster (Engine Unit)).addNode "a" unheard).addNode "b" unheard).addNode "c" unheard

theorem account_trio (followers : Nat) (hid : id ∈ ["a", "b", "c"]) :
    (trio followers).account id = ⟨some unheard, []⟩ := by
  simp only [List.mem_cons, List.not_mem_nil, or_false] at hid
  rcases hid with rfl | rfl | rfl <;> rfl

theorem replicas_trio_k : (trio 2).replicas "k" = ["b", "c", "a"] := by
  change ((((Ring.ofVirtualNodes 1).add "a").add "b").add "c").replicas "k" 3 = _
  decide +kernel

/-- Every replica of the key in the trio starts with an engine that holds nothing and no
hints. -/
theorem account_trio_of_replica (h : id ∈ (trio 2).replicas "k") :
    (trio 2).account id = ⟨some unheard, []⟩ := by
  apply account_trio
  rw [replicas_trio_k] at h
  simpa [or_comm, or_left_comm] using h

end Cluster

end ReplicatedCache
