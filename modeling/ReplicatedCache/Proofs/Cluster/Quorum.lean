import ReplicatedCache.Proofs.Cluster.Account

/-! # What a write does

A write calls the replicas of its key once each, in the order of the ring. Each
answers as it would if it were the only one to be called, so the outcome of the
write and the hints that it leaves can be read off the answers before the write.
-/

namespace ReplicatedCache

/-- Two majorities of the same replicas have one in common. -/
theorem exists_of_majority {ids others : List String} (hids : ids.Nodup) (hothers : others.Nodup)
    (hsame : ∀ id, id ∈ others ↔ id ∈ ids) {p q : String → Bool}
    (hp : majority ids.length ≤ ids.countP p) (hq : majority others.length ≤ others.countP q) :
    ∃ id ∈ ids, p id = true ∧ q id = true := by
  have hperm : others.Perm ids := (List.perm_ext_iff_of_nodup hothers hids).mpr hsame
  rw [hperm.countP_eq, hperm.length_eq] at hq
  by_contra hnone
  -- then the second majority lies in what the first one leaves over
  have hdisjoint : ids.countP q ≤ ids.countP fun id => !p id := by
    apply List.countP_mono_left
    intro id hmem hid
    rw [Bool.not_eq_true']
    exact eq_false_of_ne_true fun hother => hnone ⟨id, hmem, hother, hid⟩
  have hsplit := List.length_eq_countP_add_countP p (l := ids)
  simp only [majority, decide_not, Bool.decide_eq_true] at *
  omega

namespace Cluster

variable {N : Type} [Node N]

section Replies

variable (cluster : Cluster N) (now : Instant) (write : Write)

/-- What a node answers to a write, or why it does not. -/
def reply (id : String) : Except (Absence (Node.Failure N)) Bool :=
  (cluster.callNode now id write.call).2

def acknowledges (id : String) : Bool :=
  match cluster.reply now write id with
  | .ok answer => answer
  | .error _ => false

def acknowledgements : Nat :=
  (cluster.replicas write.key).countP (cluster.acknowledges now write)

def HasQuorum : Prop :=
  majority (cluster.replicas write.key).length ≤ cluster.acknowledgements now write

/-- The first replica fails or is not registered. -/
def LeaderAbsent (absence : Absence (Node.Failure N)) : Prop :=
  ∃ leader, (cluster.replicas write.key).head? = some leader ∧
    cluster.reply now write leader = .error absence

/-- A replica fails or is not registered, or it declines a write although it is not
the leader and a refusal is kept as a hint. -/
def Misses (id : String) : Prop :=
  (∃ absence, cluster.reply now write id = .error absence) ∨
    (cluster.reply now write id = .ok false ∧ write.hintsRefusal = true ∧
      (cluster.replicas write.key).head? ≠ some id)

end Replies

/-- A write calls the registered replicas of its key in the order of the ring, and
nobody else. Each is called once, in the state in which it was before the write. The
write leaves one hint, behind the others, for each replica that misses it. -/
structure Reaches (cluster : Cluster N) (now : Instant) (write : Write) (after : Cluster N) :
    Prop where
  after_eq : after = (cluster.replicate now write).1
  calls_eq : (cluster.replicate now write).2.called =
    (cluster.replicas write.key).filter fun id => cluster.nodes[id]?.isSome
  calls_nodup : (cluster.replicate now write).2.called.Nodup
  called : ∀ id ∈ cluster.replicas write.key, after.nodes[id]? =
    cluster.nodes[id]?.map fun node => (Node.perform node now write.call).1
  uncalled : ∀ id ∉ cluster.replicas write.key, after.nodes[id]? = cluster.nodes[id]?
  hinted : ∀ id ∈ cluster.replicas write.key, cluster.Misses now write id →
    after.handoff.pending id = cluster.handoff.pending id ++ [write]
  unhinted : ∀ id, ¬ (id ∈ cluster.replicas write.key ∧ cluster.Misses now write id) →
    after.handoff.pending id = cluster.handoff.pending id

/-- A write succeeds with a majority of acknowledgements. Without it the write fails
with the absence of the leader, if the leader is absent, and is refused otherwise. -/
structure Decides (cluster : Cluster N) (now : Instant) (write : Write)
    (outcome : Except (QuorumMissed (Node.Failure N)) Bool) : Prop where
  accepted_iff : outcome = .ok true ↔ cluster.HasQuorum now write
  failed_iff : ∀ missed, outcome = .error missed ↔
    ¬ cluster.HasQuorum now write ∧ ∃ absence, cluster.LeaderAbsent now write absence ∧
      missed = ⟨write, cluster.acknowledgements now write,
        majority (cluster.replicas write.key).length, absence⟩
  refused_iff : outcome = .ok false ↔
    ¬ cluster.HasQuorum now write ∧ ∀ absence, ¬ cluster.LeaderAbsent now write absence

/-! ## Replicas do not influence each other -/

section Sending

variable {now : Instant} {write : Write}

/-- What a node replies to a write depends on that node alone. -/
theorem reply_congr {cluster other : Cluster N} {id : String}
    (h : other.nodes[id]? = cluster.nodes[id]?) :
    other.reply now write id = cluster.reply now write id := by
  rw [reply, reply, callNode, callNode, h]
  cases cluster.nodes[id]? <;> rfl

theorem nodes_sendTo_of_ne {id other : String} (h : other ≠ id) (isLeader : Bool)
    (state : Cluster N × Tally (Node.Failure N)) :
    (sendTo now write isLeader state other).1.nodes[id]? = state.1.nodes[id]? :=
  congrArg Account.node (account_sendTo_of_ne now write isLeader state h)

end Sending

end Cluster

namespace Tally

variable {F : Type}

/-- Counts the answer of a replica. -/
def count (tally : Tally F) (isLeader : Bool) : Except (Absence F) Bool → Tally F
  | .ok answer => { tally with acknowledged := tally.acknowledged + answer.toNat }
  | .error absence => if isLeader then { tally with leader := some absence } else tally

theorem called_count (tally : Tally F) (isLeader : Bool) (answer : Except (Absence F) Bool) :
    (tally.count isLeader answer).called = tally.called := by
  cases answer with
  | ok answer => rfl
  | error absence => cases isLeader <;> rfl

end Tally

namespace Cluster

variable {N : Type} [Node N]

/-! ## The tally -/

section Counting

variable (now : Instant) (write : Write)

/-- Sending enters the node's reply in the tally and counts it; nothing else of the state is
asked. -/
theorem tally_sendTo (isLeader : Bool) (state : Cluster N × Tally (Node.Failure N))
    (id : String) :
    (sendTo now write isLeader state id).2 =
      (state.2.enter id (state.1.reply now write id)).count isLeader
        (state.1.reply now write id) := by
  obtain ⟨cluster, tally⟩ := state
  rw [reply]
  rcases hcall : cluster.callNode now id write.call with ⟨called, absence | answer⟩
  · simp only [sendTo, hcall, Tally.count]
  · cases answer with
    | true => simp [sendTo, hcall, Tally.count]
    | false => simp [sendTo, hcall, Tally.count]

/-- A call is entered exactly if the replica is registered. -/
theorem called_enter_reply (cluster : Cluster N) (tally : Tally (Node.Failure N)) (id : String) :
    (tally.enter id (cluster.reply now write id)).called =
      tally.called ++ [id].filter fun id => cluster.nodes[id]?.isSome := by
  rw [reply, callNode, List.filter_singleton]
  cases cluster.nodes[id]? with
  | none => exact (List.append_nil _).symm
  | some node =>
      dsimp only
      cases (Node.perform node now write.call).2 <;> rfl

/-- A write that is sent to replicas in turn calls those that are registered. -/
theorem called_sendTo (isLeader : Bool) (state : Cluster N × Tally (Node.Failure N))
    (id : String) :
    (sendTo now write isLeader state id).2.called =
      state.2.called ++ [id].filter fun id => state.1.nodes[id]?.isSome := by
  rw [tally_sendTo, Tally.called_count, called_enter_reply]

/-- Sending a write to one replica does not change what the others answer. -/
theorem countP_sendTo {ids : List String} {id : String} (h : id ∉ ids) (isLeader : Bool)
    (state : Cluster N × Tally (Node.Failure N)) :
    ids.countP ((sendTo now write isLeader state id).1.acknowledges now write) =
      ids.countP (state.1.acknowledges now write) := by
  apply List.countP_congr
  intro other hother
  have hne : id ≠ other := fun heq => h (heq ▸ hother)
  rw [acknowledges, acknowledges, reply_congr (nodes_sendTo_of_ne hne isLeader state)]

/-- Sending a write to one replica does not change who else is registered. -/
theorem filter_sendTo {ids : List String} {id : String} (h : id ∉ ids) (isLeader : Bool)
    (state : Cluster N × Tally (Node.Failure N)) :
    ids.filter (fun other => (sendTo now write isLeader state id).1.nodes[other]?.isSome) =
      ids.filter fun other => state.1.nodes[other]?.isSome := by
  apply List.filter_congr
  intro other hother
  have hne : id ≠ other := fun heq => h (heq ▸ hother)
  rw [nodes_sendTo_of_ne hne isLeader state]

/-- The followers only add to the calls and to the acknowledgements. -/
theorem tally_followers {ids : List String} (hids : ids.Nodup)
    (state : Cluster N × Tally (Node.Failure N)) :
    (ids.foldl (sendTo now write false) state).2 =
      { state.2 with
        called := state.2.called ++ ids.filter fun id => state.1.nodes[id]?.isSome
        acknowledged := state.2.acknowledged + ids.countP (state.1.acknowledges now write) } := by
  induction ids generalizing state with
  | nil => simp
  | cons first rest ih =>
      obtain ⟨hfirst, hrest⟩ := List.nodup_cons.mp hids
      -- the rest are called in the state after the first call, and answer as before it
      rw [List.foldl_cons, ih hrest, countP_sendTo now write hfirst, filter_sendTo now write hfirst,
        called_sendTo, tally_sendTo, List.append_assoc, ← List.filter_append, List.singleton_append,
        List.countP_cons, acknowledges]
      cases state.1.reply now write first with
      | error absence => cases absence <;> rfl
      | ok answer => cases answer <;> simp [Tally.count, Tally.enter, Nat.add_assoc, Nat.add_comm 1]

/-- The tally of a write: how many replicas there are, who is called and how many
acknowledge, and why the leader is absent. -/
theorem tally_replicate (cluster : Cluster N) :
    (cluster.replicate now write).2.replicas = (cluster.replicas write.key).length ∧
      ((cluster.replicate now write).2.called =
        (cluster.replicas write.key).filter fun id => cluster.nodes[id]?.isSome) ∧
      (cluster.replicate now write).2.acknowledged = cluster.acknowledgements now write ∧
      ∀ absence, (cluster.replicate now write).2.leader = some absence ↔
        cluster.LeaderAbsent now write absence := by
  have hnodup : (cluster.replicas write.key).Nodup := cluster.ring.nodup_replicas _ _
  rw [replicate, acknowledgements]
  unfold LeaderAbsent
  cases hreplicas : cluster.replicas write.key with
  | nil => simp
  | cons leader followers =>
      rw [hreplicas] at hnodup
      obtain ⟨hleader, hfollowers⟩ := List.nodup_cons.mp hnodup
      dsimp only
      rw [tally_followers now write hfollowers, countP_sendTo now write hleader,
        filter_sendTo now write hleader, called_sendTo, tally_sendTo]
      dsimp only
      rw [List.nil_append, ← List.filter_append, List.singleton_append, List.countP_cons,
        acknowledges]
      cases hreply : cluster.reply now write leader with
      | error absence => cases absence <;> simp [Tally.count, Tally.enter, hreply]
      | ok answer => cases answer <;> simp [Tally.count, Tally.enter, hreply, Nat.add_comm]

end Counting

/-! ## The outcome -/

/-- A node acknowledges a write exactly if it replies with success. -/
theorem acknowledges_iff {cluster : Cluster N} {now : Instant} {write : Write} {id : String} :
    cluster.acknowledges now write id = true ↔ cluster.reply now write id = .ok true := by
  rw [acknowledges]
  cases cluster.reply now write id <;> simp

/-- The tally meets its quorum exactly if a majority of the replicas acknowledges. -/
theorem quorumMet_iff (cluster : Cluster N) (now : Instant) (write : Write) :
    (cluster.replicate now write).2.quorumMet = true ↔ cluster.HasQuorum now write := by
  obtain ⟨hreplicas, -, hacknowledged, -⟩ := tally_replicate now write cluster
  rw [Tally.quorumMet, decide_eq_true_iff, hreplicas, hacknowledged]
  rfl

/-- The outcome of a write is decided by the acknowledgements, as the count of its replicas
demands. -/
theorem decides_write (cluster : Cluster N) (now : Instant) (write : Write) :
    Decides cluster now write (cluster.write now write).2 := by
  obtain ⟨hreplicas, -, hacknowledged, hleader⟩ := tally_replicate now write cluster
  have hquorum := quorumMet_iff cluster now write
  change Decides cluster now write ((cluster.replicate now write).2.result write)
  rw [Tally.result, hreplicas, hacknowledged]
  by_cases hmet : (cluster.replicate now write).2.quorumMet = true
  · have hmet' := hquorum.mp hmet
    rw [if_pos hmet]
    constructor <;> simp [hmet']
  · have hmissed : ¬ cluster.HasQuorum now write := mt hquorum.mpr hmet
    rw [if_neg hmet]
    cases habsence : (cluster.replicate now write).2.leader with
    | none =>
        have hpresent (absence : Absence (Node.Failure N)) :
            ¬ cluster.LeaderAbsent now write absence :=
          fun h => nomatch habsence.symm.trans ((hleader absence).mpr h)
        constructor <;> simp [hmissed, hpresent]
    | some absence =>
        have habsent := (hleader absence).mp habsence
        have honly {other : Absence (Node.Failure N)}
            (h : cluster.LeaderAbsent now write other) : other = absence :=
          Option.some.inj (((hleader other).mpr h).symm.trans habsence)
        constructor
        · simp [hmissed]
        · intro missed
          constructor
          · intro heq
            exact ⟨hmissed, absence, habsent, (Except.error.inj heq).symm⟩
          · rintro ⟨-, other, hother, rfl⟩
            rw [honly hother]
        · simp only [reduceCtorEq, false_iff]
          exact fun hrefused => hrefused.2 absence habsent

/-- What is kept of a write for a replica depends on its answer only. -/
theorem missed_reply (cluster : Cluster N) (now : Instant) (write : Write) (id : String) :
    (cluster.Misses now write id → Account.missed write
        (decide ((cluster.replicas write.key).head? = some id))
        ((cluster.account id).call now write.call).2 = [write]) ∧
      (¬ cluster.Misses now write id → Account.missed write
        (decide ((cluster.replicas write.key).head? = some id))
        ((cluster.account id).call now write.call).2 = []) := by
  rw [← toOption_callNode]
  change (cluster.Misses now write id →
      Account.missed write _ (cluster.reply now write id).toOption = _) ∧
    (¬ cluster.Misses now write id →
      Account.missed write _ (cluster.reply now write id).toOption = _)
  unfold Misses
  cases cluster.reply now write id with
  | error absence => simp [Account.missed, Except.toOption]
  | ok answer => cases answer <;> simp [Account.missed, Except.toOption]

/-- A write calls its replicas, each once and in the order of the ring, and changes nothing
elsewhere. -/
theorem reaches_replicate (cluster : Cluster N) (now : Instant) (write : Write) :
    Reaches cluster now write (cluster.replicate now write).1 := by
  have hnodup : (cluster.replicas write.key).Nodup := cluster.ring.nodup_replicas _ _
  have haccount (id : String) := account_replicate now write cluster id
  constructor
  · rfl
  · exact (tally_replicate now write cluster).2.1
  · exact (tally_replicate now write cluster).2.1 ▸ hnodup.filter _
  · intro id hid
    have hnode := congrArg Account.node (haccount id)
    rw [if_pos hid] at hnode
    refine hnode.trans ?_
    rw [Account.receive, Account.call, account]
    cases cluster.nodes[id]? <;> rfl
  · intro id hid
    have hnode := congrArg Account.node (haccount id)
    rwa [if_neg hid] at hnode
  · intro id hid hmisses
    have hhints := congrArg Account.hints (haccount id)
    rw [if_pos hid] at hhints
    exact hhints.trans (congrArg _ ((missed_reply cluster now write id).1 hmisses))
  · intro id hnone
    have hhints := congrArg Account.hints (haccount id)
    by_cases hid : id ∈ cluster.replicas write.key
    · have hnothing := (missed_reply cluster now write id).2 fun hmisses => hnone ⟨hid, hmisses⟩
      rw [if_pos hid] at hhints
      exact hhints.trans ((congrArg _ hnothing).trans (List.append_nil _))
    · rwa [if_neg hid] at hhints

/-- Writes reach every replica whatever the others answer, are decided by the
majority and the leader, and leave a hint for each replica that misses them. Two
writes that the same replicas acknowledge by majority have one of them in common. -/
theorem writes_decided_by_majority (cluster : Cluster N) (now : Instant) :
    (∀ key value ttl, Reaches cluster now (.set key value ttl) (cluster.set now key value ttl).1 ∧
        Decides cluster now (.set key value ttl) (cluster.set now key value ttl).2) ∧
      (∀ key value expected ttl,
        Reaches cluster now (.compareAndSwap key value expected ttl)
            (cluster.compareAndSwap now key value expected ttl).1 ∧
          Decides cluster now (.compareAndSwap key value expected ttl)
            (cluster.compareAndSwap now key value expected ttl).2) ∧
      (∀ key, Reaches cluster now (.delete key) (cluster.delete now key).1 ∧
        ((cluster.delete now key).2 = true ↔ cluster.HasQuorum now (.delete key))) ∧
      ∀ (write : Write) (other : Cluster N) (later : Instant) (next : Write),
        (∀ id, id ∈ other.replicas next.key ↔ id ∈ cluster.replicas write.key) →
        cluster.HasQuorum now write → other.HasQuorum later next →
        ∃ id ∈ cluster.replicas write.key, cluster.reply now write id = .ok true ∧
          other.reply later next id = .ok true := by
  refine ⟨fun key value ttl => ⟨reaches_replicate cluster now _, decides_write cluster now _⟩,
    fun key value expected ttl => ⟨reaches_replicate cluster now _, decides_write cluster now _⟩,
    fun key => ⟨reaches_replicate cluster now _, ?_⟩, ?_⟩
  · exact quorumMet_iff cluster now (.delete key)
  · intro write other later next hsame hquorum hquorum'
    obtain ⟨id, hid, hfirst, hsecond⟩ := exists_of_majority (cluster.ring.nodup_replicas _ _)
      (other.ring.nodup_replicas _ _) hsame hquorum hquorum'
    exact ⟨id, hid, acknowledges_iff.mp hfirst, acknowledges_iff.mp hsecond⟩

end Cluster

end ReplicatedCache
