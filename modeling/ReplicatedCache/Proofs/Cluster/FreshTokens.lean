import ReplicatedCache.Proofs.Cluster.Lockstep

/-! # Swapping with a token that was just read

The token of a read is that of the replica that answers. A compare-and-swap
compares it at every replica, and each replica mints tokens of its own: the token
holds at a majority exactly if a majority happens to have stored the key under the
same number. Two cases in which this is certain are that the key has one replica, and
that all replicas have done the same so far.
-/

namespace ReplicatedCache

/-- If all of some replicas answer alike, a majority says what each of them says. -/
theorem majority_le_countP_iff {ids : List String} {p : String → Bool} {answer : Bool}
    (hne : ids ≠ []) (h : ∀ id ∈ ids, p id = answer) :
    majority ids.length ≤ ids.countP p ↔ answer = true := by
  have hpos := List.length_pos_iff_ne_nil.mpr hne
  cases answer with
  | true =>
      rw [List.countP_eq_length.mpr h, majority]
      exact ⟨fun _ => rfl, fun _ => by omega⟩
  | false =>
      have hnone : ids.countP p = 0 :=
        List.countP_eq_zero.mpr fun id hmem => Bool.not_eq_true _ ▸ h id hmem
      rw [hnone, majority]
      exact ⟨fun hle => absurd hle (by omega), fun h => absurd h Bool.false_ne_true⟩

variable {A ρ : Type} [Hears A] {kind : A → Prop} {heard : A → List ρ}
  {record : Signal → List ρ}

/-- An engine bears out the token of the entry it holds until that entry lapses. -/
theorem Engine.bears_of_find {A : Type} {engine : Engine A} {key : String} {entry : Entry}
    (h : engine.shards.find? key = some entry) (later : Instant) :
    engine.bears later key entry.token = !entry.expired later := by
  rw [bears]
  cases hexpired : entry.expired later with
  | true => rw [lookup_of_expired h hexpired]; rfl
  | false =>
      rw [lookup_of_live h (ne_true_of_eq_false hexpired)]
      exact beq_self_eq_true entry.token

/-- What is set for good where there is room is found under the token that is next. -/
theorem Engine.Settled.lookup_set (hw : ∀ now, Watches kind heard record (Hears.hear now))
    {engine : Engine A} (h : engine.Settled kind) {key : String}
    (hroom : engine.shards.HasRoom key) (now later : Instant) (value : Value) :
    (engine.perform now (.set key value .zero)).1.lookup later key =
      some (engine.fresh value 0) := by
  rw [h.lookup_perform hw (.set key value .zero)
    ⟨hroom.put_stored _, hroom.put_evicted h.sound.shards _⟩, entryAfter, if_pos rfl]
  rfl

namespace Cluster

variable {cluster : Cluster (Engine A)} {id key : String} {now : Instant}

/-- Whether a node is registered and holds a key under a token. -/
def bears (cluster : Cluster (Engine A)) (now : Instant) (key : String) (token : Token)
    (id : String) : Bool :=
  cluster.nodes[id]?.any fun engine => engine.bears now key token

/-- A compare-and-swap is carried out if a majority of the replicas bear the token. -/
theorem compareAndSwap_accepted_iff (cluster : Cluster (Engine A)) (now : Instant) (key : String)
    (value : Value) (expected : Token) (ttl : Span) :
    (cluster.compareAndSwap now key value expected ttl).2 = .ok true ↔
      majority (cluster.replicas key).length ≤
        (cluster.replicas key).countP (cluster.bears now key expected) := by
  have hacknowledges : cluster.acknowledges now (.compareAndSwap key value expected ttl) =
      cluster.bears now key expected := by
    funext id
    rw [bears]
    cases hnode : cluster.nodes[id]? with
    | none =>
        rw [acknowledges, reply, callNode, hnode]
        rfl
    | some engine =>
        rw [acknowledges_engine hnode]
        exact engine.perform_compareAndSwap_snd now key value expected ttl
  refine (decides_write cluster now (.compareAndSwap key value expected ttl)).accepted_iff.trans ?_
  rw [HasQuorum, acknowledgements, hacknowledges]
  rfl

/-! ## Settled clusters -/

/-- Every engine that is registered is settled. -/
def Settled (kind : A → Prop) (cluster : Cluster (Engine A)) : Prop :=
  ∀ (id : String) (engine : Engine A), cluster.nodes[id]? = some engine → engine.Settled kind

/-- A replica holds a live entry, as the answer to a read that was just made. -/
def Answers (cluster : Cluster (Engine A)) (now : Instant) (key : String) (id : String)
    (entry : Entry) : Prop :=
  ∃ engine, cluster.nodes[id]? = some engine ∧ engine.shards.find? key = some entry ∧
    entry.expired now = false

omit [Hears A] in
/-- The replica that answers a read bears the token until the entry is over. -/
theorem Answers.bears_eq {entry : Entry} (h : cluster.Answers now key id entry)
    (later : Instant) :
    cluster.bears later key entry.token id = !entry.expired later := by
  obtain ⟨engine, hnode, hfind, -⟩ := h
  rw [bears, hnode]
  exact Engine.bears_of_find hfind later

omit [Hears A] in
/-- Engines in step bear the same tokens. -/
theorem InStep.bears_eq (h : cluster.InStep kind now) {other : String}
    (hid : id ∈ cluster.ring.nodes) (hother : other ∈ cluster.ring.nodes) {later : Instant}
    (hle : now ≤ later) (key : String) (token : Token) :
    cluster.bears later key token other = cluster.bears later key token id := by
  obtain ⟨engine, hengine, -⟩ := h.settled id hid
  obtain ⟨twin, htwin, -⟩ := h.settled other hother
  rw [bears, bears, hengine, htwin]
  exact (h.alike id hid other hother engine twin hengine htwin).bears_eq hle key token

omit [Hears A] in
/-- Nodes whose engines do not differ are in step. -/
theorem InStep.of_same {engine : Engine A} (hengine : engine.Settled kind)
    (h : ∀ id ∈ cluster.ring.nodes, cluster.nodes[id]? = some engine) :
    cluster.InStep kind now := by
  refine ⟨fun id hid => ⟨engine, h id hid, hengine⟩, ?_⟩
  intro id hid other hother first second hfirst hsecond
  obtain rfl := Option.some.inj ((h id hid).symm.trans hfirst)
  obtain rfl := Option.some.inj ((h other hother).symm.trans hsecond)
  exact .refl now engine

omit [Hears A] in
/-- A settled cluster accepts a settled engine as a further node. -/
theorem Settled.addNode (h : cluster.Settled kind) {engine : Engine A}
    (hengine : engine.Settled kind) (id : String) : (cluster.addNode id engine).Settled kind := by
  intro other found hfound
  change (cluster.nodes.insert id engine)[other]? = some found at hfound
  rw [Std.ExtTreeMap.getElem?_insert] at hfound
  split at hfound
  next => exact Option.some.inj hfound ▸ hengine
  next => exact h other found hfound

section Watched

variable (hw : ∀ now, Watches kind heard record (Hears.hear now))
include hw

/-- A call settles: the called engine stays sound and of its kind, the others are not
touched. -/
theorem Settled.callNode (h : cluster.Settled kind) (now : Instant) (id : String) {α : Type}
    (call : Call α) : (cluster.callNode now id call).1.Settled kind := by
  intro other engine hengine
  rw [← node_account] at hengine
  by_cases heq : id = other
  · subst heq
    rw [account_callNode_self] at hengine
    cases hnode : cluster.nodes[id]? with
    | none =>
        rw [account, hnode] at hengine
        cases hengine
    | some called =>
        rw [account_engine hnode] at hengine
        exact Option.some.inj hengine ▸ (h id called hnode).perform hw now call
  · rw [account_callNode_of_ne cluster now other call heq, node_account] at hengine
    exact h other engine hengine

/-- A settled cluster stays settled along any history. -/
theorem Settled.run (h : cluster.Settled kind) {steps : List (ClusterStep (Engine A))}
    (hsteps : ∀ step ∈ steps, ∃ now, step.At now) : (cluster.run steps).Settled kind := by
  induction steps generalizing cluster with
  | nil => exact h
  | cons step steps ih =>
      obtain ⟨now, hstep⟩ := hsteps step List.mem_cons_self
      refine ih (fun id => ?_) fun step hmem => hsteps step (List.mem_cons_of_mem _ hmem)
      exact engine_apply (fun engine now _ call hengine => hengine.perform hw now call)
        (fun engine now hengine => hengine.sweep hw now) (h id) hstep

/-- What a search over replicas finds is an entry that one of them bears, and that it would
answer with again. -/
theorem Settled.answers_firstFound (h : cluster.Settled kind) {ids : List String} {value : Value}
    {token : Token}
    (hfound : (cluster.firstFound now (.getWithToken key) ids).2 = some (value, token)) :
    ∃ id ∈ ids, ∃ entry, entry.value = value ∧ entry.token = token ∧
      (cluster.firstFound now (.getWithToken key) ids).1.Answers now key id entry := by
  induction ids generalizing cluster with
  | nil => exact nomatch hfound
  | cons first rest ih =>
      -- the rest are asked in the state in which the call to the first has left the cluster
      have hkept := h.callNode hw now first (.getWithToken key)
      rw [firstFound] at hfound ⊢
      cases hnode : cluster.nodes[first]? with
      | none =>
          have hcall : cluster.callNode now first (.getWithToken key) =
              (cluster, .error (.unregistered first)) := by rw [Cluster.callNode, hnode]
          rw [hcall] at hfound hkept ⊢
          obtain ⟨id, hid, hanswers⟩ := ih hkept hfound
          exact ⟨id, List.mem_cons_of_mem _ hid, hanswers⟩
      | some engine =>
          have hcall := callNode_engine hnode now (.getWithToken key)
          have hanswer := engine.perform_getWithToken_snd now key
          have hfind := (h first engine hnode).find?_perform hw now (.getWithToken key) key trivial
          rw [Engine.entryAfter, if_pos rfl] at hfind
          rw [hcall, hanswer] at hfound
          rw [hcall, hanswer] at hkept ⊢
          cases hlookup : engine.lookup now key with
          | none =>
              rw [hlookup] at hfound
              obtain ⟨id, hid, hanswers⟩ := ih hkept hfound
              exact ⟨id, List.mem_cons_of_mem _ hid, hanswers⟩
          | some entry =>
              rw [hlookup] at hfound
              obtain ⟨rfl, rfl⟩ := Prod.mk.inj (Option.some.inj hfound)
              refine ⟨first, List.mem_cons_self, entry, rfl, rfl, _, ?_, hfind.trans hlookup,
                (Engine.lookup_eq_some_iff.mp hlookup).2⟩
              exact Std.ExtTreeMap.getElem?_insert_self

/-- A read in lockstep leaves the replicas in step. -/
theorem Lockstep.inStep_getWithToken {steps : List (ClusterStep (Engine A))}
    (h : cluster.Lockstep kind steps now) (key : String) :
    ((cluster.run steps).getWithToken now key).1.InStep kind now := by
  obtain ⟨hring, hfactor⟩ := Prod.mk.inj (layout_run cluster steps)
  have hcovers : (cluster.run steps).ring.nodes.length ≤ (cluster.run steps).replicationFactor := by
    rw [hring, hfactor]
    exact h.covers
  exact (h.inStep hw).apply hw hcovers (.getWithToken now key) rfl (fun _ => False.elim)
    trivial

end Watched

/-- What the first replica of a key holds is what a read finds. -/
theorem getWithToken_of_head {rest : List String} {engine : Engine A} {entry : Entry}
    (hreplicas : cluster.replicas key = id :: rest) (hnode : cluster.nodes[id]? = some engine)
    (hlookup : engine.lookup now key = some entry) :
    (cluster.getWithToken now key).2 = some (entry.value, entry.token) := by
  have hanswer := engine.perform_getWithToken_snd now key
  rw [hlookup] at hanswer
  rw [getWithToken, hreplicas, firstFound, callNode_engine hnode, hanswer]
  rfl

/-- Of two replicas, the second can refuse a swap for both. -/
theorem compareAndSwap_refused_of_pair {other : String} {engine : Engine A}
    (hreplicas : cluster.replicas key = [id, other]) (hnode : cluster.nodes[id]? = some engine)
    {expected : Token} (hrefuses : cluster.bears now key expected other = false) (value : Value)
    (ttl : Span) : (cluster.compareAndSwap now key value expected ttl).2 = .ok false := by
  have hdecides := decides_write cluster now (.compareAndSwap key value expected ttl)
  refine hdecides.refused_iff.mpr ⟨fun hquorum => ?_, ?_⟩
  · have haccepted := (compareAndSwap_accepted_iff cluster now key value expected ttl).mp
      (hdecides.accepted_iff.mpr hquorum)
    have hone : [id, other].countP (cluster.bears now key expected) ≤ 1 := by
      rw [List.countP_cons, List.countP_singleton, hrefuses, if_neg Bool.false_ne_true,
        Nat.zero_add]
      split
      next => exact Nat.le_refl 1
      next => exact Nat.zero_le 1
    rw [hreplicas] at haccepted
    exact absurd (Nat.le_trans haccepted hone) (by simp [majority])
  · rintro absence ⟨leader, hleader, habsent⟩
    change (cluster.replicas key).head? = some leader at hleader
    rw [hreplicas] at hleader
    obtain rfl : id = leader := Option.some.inj hleader
    rw [reply_engine hnode] at habsent
    cases habsent

/-- If a key is set at two replicas that mint different tokens, neither bears the
token of the other. -/
theorem refused_of_freshToken_ne (hw : ∀ now, Watches kind heard record (Hears.hear now))
    {other : String} {engine twin : Engine A} (hreplicas : cluster.replicas key = [id, other])
    (hnode : cluster.nodes[id]? = some engine) (htwin : cluster.nodes[other]? = some twin)
    (hengine : engine.Settled kind) (hsettled : twin.Settled kind)
    (hroom : engine.shards.HasRoom key) (hspace : twin.shards.HasRoom key)
    (hne : twin.freshToken ≠ engine.freshToken) (now : Instant) (value new : Value) (ttl : Span) :
    let read := (cluster.apply (.write now (.set key value .zero))).getWithToken now key
    read.2 = some (value, engine.freshToken) ∧
      (read.1.compareAndSwap now key new engine.freshToken ttl).2 = .ok false := by
  have hset := node_write hnode now (.set key value .zero)
    (hreplicas ▸ List.mem_cons_self)
  have hset' := node_write htwin now (.set key value .zero)
    (hreplicas ▸ List.mem_cons_of_mem _ (List.mem_singleton_self other))
  have hwritten := (replicas_apply cluster (.write now (.set key value .zero)) key).trans hreplicas
  refine ⟨getWithToken_of_head hwritten hset (hengine.lookup_set hw hroom now now value), ?_⟩
  obtain ⟨leader, hleader, -, -⟩ := alike_apply hw hset (hengine.perform hw now _)
    (.getWithToken now key) rfl (fun _ => trivial) False.elim
  obtain ⟨follower, hfollower, -, halike⟩ := alike_apply hw hset' (hsettled.perform hw now _)
    (.getWithToken now key) rfl (fun _ => trivial) False.elim
  refine compareAndSwap_refused_of_pair
    ((replicas_apply _ (.getWithToken now key) key).trans hwritten) hleader ?_ new ttl
  rw [bears, hfollower, Option.any_some, halike.bears_eq (Int64.le_refl now), Engine.bears]
  change ((twin.perform now (.set key value .zero)).1.lookup now key).any _ = false
  rw [hsettled.lookup_set hw hspace]
  exact beq_false_of_ne hne

/-! ## Three engines -/

theorem settled_trio (followers : Nat) : (trio followers).Settled fun _ => True := by
  refine Settled.addNode (Settled.addNode (Settled.addNode ?_ settled_unheard "a")
    settled_unheard "b") settled_unheard "c"
  intro id engine hnode
  exact nomatch hnode

/-- New engines on a ring of three are in step. -/
theorem inStep_trio (now : Instant) :
    (trio 2).ring.nodes.length ≤ (trio 2).replicationFactor ∧
      (trio 2).InStep (fun _ => True) now := by
  have hcovers : (trio 2).ring.nodes.length ≤ (trio 2).replicationFactor := by
    change (((((Ring.ofVirtualNodes 1).add "a").add "b").add "c").ownerList.eraseDups.mergeSort
      _).length ≤ 3
    rw [List.length_mergeSort]
    decide +kernel
  refine ⟨hcovers, .of_same settled_unheard fun id hid => ?_⟩
  have hreplica : id ∈ (trio 2).replicas "k" := (Ring.mem_replicas_iff _ "k" id hcovers).mpr hid
  rw [← node_account, account_trio_of_replica hreplica]

theorem replicas_trio_one :
    (trio 1).replicas "x" = ["c", "a"] ∧ (trio 1).replicas "k" = ["b", "c"] := by
  change ((((Ring.ofVirtualNodes 1).add "a").add "b").add "c").replicas "x" 2 = _ ∧
    ((((Ring.ofVirtualNodes 1).add "a").add "b").add "c").replicas "k" 2 = _
  decide +kernel

/-- An engine that has been passed by a key is empty, and mints another token. -/
theorem passed_unheard (key : String) (value : Value) :
    let passed := ((unheard.perform 0 (.set key value .zero)).1.perform 0 (.delete key)).1
    passed.Settled (fun _ => True) ∧ passed.freshToken ≠ unheard.freshToken ∧
      passed.shards.HasRoom "k" := by
  have hroom := hasRoom_unheard key
  have hset := settled_unheard.perform watches_nobody 0 (.set key value .zero)
  have hdeleted := hset.perform watches_nobody 0 (.delete key)
  refine ⟨hdeleted, ?_, hdeleted.sound.shards.hasRoom_of_empty (fun other => ?_) "k"⟩
  · rw [Engine.freshToken, (hset.nextToken_perform watches_nobody 0 (.delete key)).trans
      (settled_unheard.nextToken_perform watches_nobody 0 (.set key value .zero))]
    change (2 : Token) ≠ 1
    decide
  · have hplain : (unheard.putOutcome 0 key value .zero).Plain :=
      ⟨hroom.put_stored _, hroom.put_evicted settled_unheard.sound.shards _⟩
    rw [hset.find?_perform watches_nobody 0 (.delete key) other trivial, Engine.entryAfter,
      settled_unheard.find?_perform watches_nobody 0 (.set key value .zero) other
        (hplain.spares other), Engine.entryAfter, find?_unheard]
    split <;> rfl

/-- A key is set and deleted at two replicas. One of them is the second replica of
another key, and the first knows nothing of it. -/
theorem passed_trio :
    let stored : ClusterStep (Engine Unit) := .write 0 (.set "x" "v".toUTF8 .zero)
    let passed := ((trio 1).apply stored).apply (.write 0 (.delete "x"))
    (trio 1).StepFits PutOutcome.Plain stored ∧ passed.replicas "k" = ["b", "c"] ∧
      passed.nodes["b"]? = some unheard ∧ passed.nodes["c"]? =
        some ((unheard.perform 0 (.set "x" "v".toUTF8 .zero)).1.perform 0 (.delete "x")).1 := by
  intro stored passed
  obtain ⟨hx, hk⟩ := replicas_trio_one
  have hnode {id : String} (hid : id ∈ ["a", "b", "c"]) : (trio 1).nodes[id]? = some unheard := by
    rw [← node_account, account_trio 1 hid]
  have hsame (key : String) : ((trio 1).apply stored).replicas key = (trio 1).replicas key :=
    replicas_apply (trio 1) stored key
  have hx' := (hsame "x").trans hx
  refine ⟨?_, ?_, ?_, ?_⟩
  · refine fits_set 0 "v".toUTF8 .zero fun id hreplica engine hengine => ?_
    rw [hx] at hreplica
    obtain rfl := Option.some.inj (hengine.symm.trans
      (hnode ((by decide : ["c", "a"] ⊆ ["a", "b", "c"]) hreplica)))
    exact ⟨settled_unheard.sound, hasRoom_unheard "x"⟩
  · exact (replicas_apply ((trio 1).apply stored) (.write 0 (.delete "x")) "k").trans
      ((hsame "k").trans hk)
  · have hset : ((trio 1).apply stored).nodes["b"]? = some unheard := by
      refine (node_write_of_not_mem (trio 1) 0 ?_).trans (hnode (by decide))
      change "b" ∉ (trio 1).replicas "x"
      rw [hx]
      decide
    refine (node_write_of_not_mem ((trio 1).apply stored) 0 ?_).trans hset
    change "b" ∉ ((trio 1).apply stored).replicas "x"
    rw [hx']
    decide
  · have hset := node_write (hnode (by decide)) 0 (.set "x" "v".toUTF8 .zero)
      (hx.symm ▸ List.mem_cons_self)
    exact node_write hset 0 (.delete "x") (hx'.symm ▸ List.mem_cons_self)

/-! ## The swap -/

/-- A compare-and-swap with a token that was just read is carried out exactly if a
majority of the replicas bear that token. If the key has one replica, or all
replicas have been in lockstep, it is carried out unless what was read is over. -/
theorem swap_with_read_token (hw : ∀ now, Watches kind heard record (Hears.hear now))
    (hsettled : cluster.Settled kind) (steps : List (ClusterStep (Engine A)))
    (hsteps : ∀ step ∈ steps, ∃ now, step.At now) {value : Value} {token : Token}
    (hread : ((cluster.run steps).getWithToken now key).2 = some (value, token))
    (later : Instant) (new : Value) (ttl : Span) :
    let read := ((cluster.run steps).getWithToken now key).1
    let swapped := (read.compareAndSwap later key new token ttl).2
    (swapped = .ok true ↔ majority (cluster.replicas key).length ≤
        (cluster.replicas key).countP (read.bears later key token)) ∧
      ∃ id ∈ cluster.replicas key, ∃ entry, entry.value = value ∧ entry.token = token ∧
        read.Answers now key id entry ∧
        ((cluster.replicas key).length = 1 ∨ cluster.Lockstep kind steps now ∧ now ≤ later →
          (swapped = .ok true ↔ entry.expired later = false)) := by
  intro read swapped
  have hlayout : read.layout = cluster.layout :=
    (layout_apply (cluster.run steps) (.getWithToken now key)).trans (layout_run cluster steps)
  have hreplicas : read.replicas key = cluster.replicas key := replicas_of_layout hlayout key
  have haccepted := read.compareAndSwap_accepted_iff later key new token ttl
  rw [hreplicas] at haccepted
  obtain ⟨id, hid, entry, hvalue, htoken, hanswers⟩ :=
    (hsettled.run hw hsteps).answers_firstFound hw hread
  rw [replicas_run] at hid
  refine ⟨haccepted, id, hid, entry, hvalue, htoken, hanswers, fun hcase => haccepted.trans ?_⟩
  have hbears : read.bears later key token id = !entry.expired later := by
    rw [← htoken]
    exact Answers.bears_eq hanswers later
  -- the replicas are of one mind, so that a majority of them is any of them
  have hall : ∀ other ∈ cluster.replicas key,
      read.bears later key token other = !entry.expired later := by
    rw [← hbears]
    intro other hother
    rcases hcase with hone | ⟨hlockstep, hle⟩
    · obtain ⟨only, hreplica⟩ := List.length_eq_one_iff.mp hone
      rw [hreplica, List.mem_singleton] at hid hother
      rw [hid, hother]
    · have hring : read.ring = cluster.ring := (Prod.mk.inj hlayout).1
      refine (hlockstep.inStep_getWithToken hw key).bears_eq ?_ ?_ hle key token <;> rw [hring]
      · exact Ring.mem_nodes_of_mem_replicas hid
      · exact Ring.mem_nodes_of_mem_replicas hother
  rw [majority_le_countP_iff (List.ne_nil_of_mem hid) hall, Bool.not_eq_true']

/-- A value that all replicas have set is swapped with the token that a read finds. -/
theorem swap_of_set_value :
    let read := ((trio 2).apply (.write 0 (.set "k" "v".toUTF8 .zero))).getWithToken 0 "k"
    read.2 = some ("v".toUTF8, 1) ∧
      (read.1.compareAndSwap 0 "k" "w".toUTF8 1 .zero).2 = .ok true := by
  have hroom (id : String) (hreplica : id ∈ (trio 2).replicas "k") (engine : Engine Unit)
      (hnode : (trio 2).nodes[id]? = some engine) :
      engine.Sound ∧ engine.shards.HasRoom "k" := by
    rw [← node_account, account_trio_of_replica hreplica] at hnode
    obtain rfl := Option.some.inj hnode
    exact ⟨settled_unheard.sound, hasRoom_unheard "k"⟩
  have hb : "b" ∈ (trio 2).replicas "k" := by
    rw [replicas_trio_k]
    decide
  have hnode : (trio 2).nodes["b"]? = some unheard := by
    rw [← node_account, account_trio_of_replica hb]
  have hread := getWithToken_of_head
    ((replicas_apply (trio 2) (.write 0 (.set "k" "v".toUTF8 .zero)) "k").trans replicas_trio_k)
    (node_write hnode 0 (.set "k" "v".toUTF8 .zero) hb)
    (settled_unheard.lookup_set watches_nobody (hroom "b" hb unheard hnode).2 0 0 "v".toUTF8)
  obtain ⟨hcovers, hinstep⟩ := inStep_trio 0
  have hlockstep : (trio 2).Lockstep (fun _ => True) [.write 0 (.set "k" "v".toUTF8 .zero)] 0 :=
    ⟨hcovers, ⟨0, hinstep, 0, Int64.le_refl 0, rfl, fun _ => False.elim, Int64.le_refl 0⟩,
      fits_set 0 _ .zero hroom, trivial⟩
  obtain ⟨-, id, -, entry, -, -, ⟨_, _, _, hlive⟩, hswapped⟩ := swap_with_read_token watches_nobody
    (settled_trio 2) [.write 0 (.set "k" "v".toUTF8 .zero)]
    (by simp [ClusterStep.At]) hread 0 "w".toUTF8 .zero
  exact ⟨hread, (hswapped (.inr ⟨hlockstep, Int64.le_refl 0⟩)).mpr hlive⟩

/-- With fewer replicas than nodes, one replica of a key may have minted tokens for
another key. Then the token of the first replica is refused by the second, although
all nodes answer and nobody leaves. -/
theorem token_refused_by_other_replica :
    let steps := [.write 0 (.set "x" "v".toUTF8 .zero), .write 0 (.delete "x"),
      .write 0 (.set "k" "v".toUTF8 .zero)]
    let read := ((trio 1).run steps).getWithToken 0 "k"
    (trio 1).RunFits (fun outcome => outcome.evicted = []) steps ∧
      read.2 = some ("v".toUTF8, 1) ∧
      (read.1.compareAndSwap 0 "k" "w".toUTF8 1 .zero).2 = .ok false := by
  obtain ⟨hfirst, hreplicas, hb, hc⟩ := passed_trio
  obtain ⟨hsettled, htoken, hroom⟩ := passed_unheard "x" "v".toUTF8
  have hlast := fits_set 0 "v".toUTF8 .zero
    fun id hreplica engine hengine => by
      rw [hreplicas, List.mem_pair] at hreplica
      rcases hreplica with rfl | rfl
      · obtain rfl := Option.some.inj (hb.symm.trans hengine)
        exact ⟨settled_unheard.sound, hasRoom_unheard "k"⟩
      · obtain rfl := Option.some.inj (hc.symm.trans hengine)
        exact ⟨hsettled.sound, hroom⟩
  refine ⟨⟨?_, fun _ _ _ _ => trivial, ?_, trivial⟩, ?_⟩
  · exact fun id hreplica engine hengine => (hfirst id hreplica engine hengine).2
  · exact fun id hreplica engine hengine => (hlast id hreplica engine hengine).2
  · exact refused_of_freshToken_ne watches_nobody hreplicas hb hc settled_unheard hsettled
      (hasRoom_unheard "k") hroom htoken 0 "v".toUTF8 "w".toUTF8 .zero

end Cluster

end ReplicatedCache
