import ReplicatedCache.Proofs.Cluster.Deadlines
import ReplicatedCache.Proofs.Engine.Discretion

/-! # Reading what has just been written

A read takes the first value that it finds and does not ask for a majority. So a value
that has just been written is read only if every replica that is asked before one that
has it shows nothing. A replica that fails, or is made to refuse, does so in both calls.
A replica that turns a set down has nothing under the key, for only keys that are absent
are ever turned down. And a replica whose token was read is the first one to show
anything, so that the swap replaces what a read would find.
-/

namespace ReplicatedCache

variable {A : Type} [Hears A]

/-! ## What an engine shows after a write -/

namespace Engine.Holds

variable {kind : A → Prop} {key : String} {entry : Option Entry} {engine : Engine A}
  {now : Instant}

omit [Hears A] in
/-- A key that is there is never turned down. -/
theorem put_stored {found : Entry} (h : engine.Holds kind key (some found)) (now : Instant)
    (value : Value) (ttl : Span) : (engine.putOutcome now key value ttl).stored = true := by
  rcases h.sound.put_cases key (engine.fresh value (deadlineAfter now ttl)) with
    ⟨-, habsent, -⟩ | ⟨hstored, -⟩
  · exact nomatch h.find?_eq.symm.trans habsent
  · exact hstored

variable (hoff : KeepsOff kind key (Hears.hear now)) (h : engine.Holds kind key entry)
include hoff h

/-- What a `set` leaves to be looked up: the written value if the write was stored, else
nothing. -/
theorem lookup_set (hnow : now < Int64.maxValue) (value : Value) (ttl : Span) :
    ((engine.perform now (.set key value ttl)).1.lookup now key).map Entry.value =
      if (engine.perform now (.set key value ttl)).2 then some value else none := by
  have hfind := (h.set hoff now value ttl).find?_eq
  change (engine.perform now (.set key value ttl)).1.shards.find? key = _ at hfind
  rw [perform_set_snd]
  cases hstored : (engine.putOutcome now key value ttl).stored with
  | true =>
      rw [hstored, if_pos rfl] at hfind
      rw [lookup_of_live hfind (not_expired_of_deadlineAfter hnow rfl)]
      rfl
  | false =>
      rw [hstored] at hfind
      rw [lookup_of_find hfind]
      rfl

/-- Nothing can be looked up under a deleted key. -/
theorem lookup_delete : (engine.perform now (.delete key)).1.lookup now key = none :=
  lookup_of_find (h.delete hoff now).find?_eq

theorem lookup_getWithToken :
    (engine.perform now (.getWithToken key)).1.lookup now key = engine.lookup now key := by
  have hfind := (h.getWithToken hoff now).find?_eq
  change (engine.perform now (.getWithToken key)).1.shards.find? key = _ at hfind
  cases hlookup : engine.lookup now key with
  | none => exact lookup_of_find (hfind.trans hlookup)
  | some found =>
      have hlive := (lookup_eq_some_iff.mp hlookup).2
      exact lookup_of_live (hfind.trans hlookup) (Bool.eq_false_iff.mp hlive)

/-- A swap leaves the new value where the token matched and the found one where it did not. -/
theorem lookup_compareAndSwap (hnow : now < Int64.maxValue) (value : Value) (expected : Token)
    (ttl : Span) :
    ((engine.perform now (.compareAndSwap key value expected ttl)).1.lookup now key).map
        Entry.value =
      (engine.lookup now key).map fun found =>
        if found.token = expected then value else found.value := by
  have hfind := (h.compareAndSwap hoff now value expected ttl).find?_eq
  change (engine.perform now (.compareAndSwap key value expected ttl)).1.shards.find? key = _
    at hfind
  cases hlookup : engine.lookup now key with
  | none =>
      rw [hlookup] at hfind
      rw [lookup_of_find hfind]
      rfl
  | some found =>
      have hlive : ¬ found.expired now = true :=
        Bool.eq_false_iff.mp (lookup_eq_some_iff.mp hlookup).2
      rw [hlookup, Option.map_some] at hfind
      by_cases htoken : found.token = expected
      · have hswapped :
            ¬ (engine.fresh value (swapDeadline now ttl found)).expired now = true := by
          by_cases hlimited : ttl.nanos = 0
          · -- the empty span keeps the deadline that has not passed
            have hkept : swapDeadline now ttl found = found.deadline := if_pos hlimited
            rw [Entry.expired_iff] at hlive ⊢
            rw [hkept]
            exact hlive
          · exact not_expired_of_deadlineAfter hnow (if_neg hlimited)
        rw [if_pos htoken] at hfind
        rw [lookup_of_live hfind hswapped, Option.map_some, Option.map_some, if_pos htoken]
        rfl
      · rw [if_neg htoken] at hfind
        rw [lookup_of_live hfind hlive, Option.map_some, Option.map_some, if_neg htoken]

end Engine.Holds

/-! ## Engines behind switches -/

namespace Account

variable {account : Account (Switched (Engine A))} {now : Instant} {α : Type} {call : Call α}

omit [Hears A] in
/-- The engine that calls about a key reach, if the node is registered and its switch
lets them through. -/
def reached (account : Account (Switched (Engine A))) (key : String) : Option (Engine A) :=
  account.node.bind fun switched =>
    if switched.switch.mode = .up ∧ key ∉ switched.switch.poison then some switched.node else none

/-- A call changes the engine that it reaches. A call that does not reach an engine fails
or is refused. -/
theorem reached_call (account : Account (Switched (Engine A))) (now : Instant) (call : Call α) :
    (account.call now call).1.reached call.key =
        (account.reached call.key).map (fun engine => (engine.perform now call).1) ∧
      ((account.call now call).2 = (account.reached call.key).map
          (fun engine => (engine.perform now call).2) ∨
        account.reached call.key = none ∧ (account.call now call).2 = some call.refusal) := by
  obtain ⟨_ | ⟨id, ⟨mode, poison⟩, engine⟩, hints⟩ := account
  · exact ⟨rfl, Or.inl rfl⟩
  · by_cases hpoison : call.key ∈ poison <;> cases mode <;>
      simp [Account.call, Node.perform, Switched.perform, reached, hpoison, Except.toOption,
        Except.mapError]

end Account

namespace Cluster

/-! ## What a cluster shows under a key -/

/-- A read asks nodes in turn and ends with the first answer. What a node answers does
not depend on the nodes that are asked before it. -/
theorem firstFound_eq_findSome? {N : Type} [Node N] {α : Type} {cluster : Cluster N}
    {now : Instant} {call : Call (Option α)} {answer : String → Option α} {ids : List String}
    (hids : ids.Nodup)
    (h : ∀ id ∈ ids, ((cluster.account id).call now call).2.join = answer id) :
    (cluster.firstFound now call ids).2 = ids.findSome? answer := by
  induction ids generalizing cluster with
  | nil => rfl
  | cons first rest ih =>
      obtain ⟨hfirst, hrest⟩ := List.nodup_cons.mp hids
      have hlater : ∀ id ∈ rest, (((cluster.callNode now first call).1.account id).call now
          call).2.join = answer id := by
        intro id hid
        have hne : first ≠ id := fun heq => hfirst (heq ▸ hid)
        rw [account_callNode_of_ne cluster now id call hne]
        exact h id (List.mem_cons_of_mem _ hid)
      rw [firstFound, List.findSome?_cons, ← h first List.mem_cons_self, ← toOption_callNode]
      rcases hcall : cluster.callNode now first call with ⟨called, absence | _ | found⟩
      · rw [hcall] at hlater
        exact ih hrest hlater
      · rw [hcall] at hlater
        exact ih hrest hlater
      · rfl

variable {cluster : Cluster (Switched (Engine A))} {now : Instant} {key : String}

omit [Hears A] in
/-- The engine of a node that calls about a key reach. -/
def reached (cluster : Cluster (Switched (Engine A))) (key id : String) : Option (Engine A) :=
  (cluster.account id).reached key

omit [Hears A] in
/-- The live entry that a node shows under a key. -/
def shown (cluster : Cluster (Switched (Engine A))) (now : Instant) (key id : String) :
    Option Entry :=
  (cluster.reached key id).bind fun engine => engine.lookup now key

/-- A read of any kind is told of the entry that the first of the replicas shows. -/
theorem firstFound_shown {α : Type} {call : Call (Option α)} {tell : Entry → α}
    {answer : String → Option α} (hrefusal : call.refusal = none)
    (htell : ∀ engine : Engine A,
      (engine.perform now call).2 = (engine.lookup now call.key).map tell)
    (h : ∀ id ∈ cluster.replicas call.key, (cluster.shown now call.key id).map tell = answer id) :
    (cluster.firstFound now call (cluster.replicas call.key)).2 =
      (cluster.replicas call.key).findSome? answer := by
  refine firstFound_eq_findSome? (cluster.ring.nodup_replicas _ _) fun id hid => ?_
  rw [← h id hid, shown, reached]
  rcases ((cluster.account id).reached_call now call).2 with hreached | ⟨hnone, hrefused⟩
  · rw [hreached]
    cases (cluster.account id).reached call.key with
    | none => rfl
    | some engine => exact htell engine
  · rw [hnone, hrefused, hrefusal]
    rfl

/-- A read over replicas gives the first answer in their order. -/
theorem get_shown {answer : String → Option Value}
    (h : ∀ id ∈ cluster.replicas key, (cluster.shown now key id).map Entry.value = answer id) :
    (cluster.get now key).2 = (cluster.replicas key).findSome? answer :=
  firstFound_shown rfl (fun engine => engine.perform_get_snd now key) h

theorem getWithToken_shown (cluster : Cluster (Switched (Engine A))) (now : Instant)
    (key : String) :
    (cluster.getWithToken now key).2 =
      ((cluster.replicas key).findSome? (cluster.shown now key)).map
        fun entry => (entry.value, entry.token) := by
  rw [List.map_findSome?]
  exact firstFound_shown rfl (fun engine => engine.perform_getWithToken_snd now key) fun _ _ => rfl

theorem replicas_write (cluster : Cluster (Switched (Engine A))) (now : Instant) (write : Write)
    (key : String) : (cluster.write now write).1.replicas key = cluster.replicas key :=
  replicas_of_layout (layout_replicate cluster now write) key

/-- A write changes the engines that it reaches. -/
theorem reached_write {write : Write} {id : String} (hid : id ∈ cluster.replicas write.key) :
    (cluster.write now write).1.reached write.key id =
      (cluster.reached write.key id).map fun engine => (engine.perform now write.call).1 := by
  have haccount := account_replicate now write cluster id
  rw [if_pos hid] at haccount
  change ((cluster.replicate now write).1.account id).reached write.key = _
  rw [haccount]
  exact ((cluster.account id).reached_call now write.call).1

/-- A replica acknowledges a write if the write reaches its engine and is carried out. -/
theorem acknowledges_iff_reached {write : Write} {id : String} :
    cluster.acknowledges now write id = true ↔
      ∃ engine, cluster.reached write.key id = some engine ∧
        (engine.perform now write.call).2 = true := by
  have hcalled : cluster.acknowledges now write id = true ↔
      ((cluster.account id).call now write.call).2 = some true := by
    rw [acknowledges_iff, ← toOption_callNode, reply]
    cases (cluster.callNode now id write.call).2 <;> simp [Except.toOption]
  rw [hcalled]
  change _ ↔ ∃ engine, (cluster.account id).reached write.call.key = some engine ∧ _
  rcases ((cluster.account id).reached_call now write.call).2 with htold | ⟨hnone, hrefused⟩
  · rw [htold]
    exact Option.map_eq_some_iff
  · have hrefusal : write.call.refusal = false := by cases write <;> rfl
    rw [hrefused, hrefusal, hnone]
    simp

/-- A write that is acknowledged by a majority is acknowledged by somebody. -/
theorem exists_acknowledges_of_accepted (write : Write)
    (h : (cluster.write now write).2 = .ok true) :
    ∃ id ∈ cluster.replicas write.key, cluster.acknowledges now write id = true := by
  have hquorum := (decides_write cluster now write).accepted_iff.mp h
  have hsome : 0 < cluster.acknowledgements now write :=
    Nat.lt_of_lt_of_le (Nat.succ_pos _) hquorum
  exact List.countP_pos_iff.mp hsome

/-! ## Writing and then reading -/

variable {kind : A → Prop}

/-- The engines that calls about a key reach have an audience of a kind, and their shards
are in order. -/
def Orderly (kind : A → Prop) (key : String) (cluster : Cluster (Switched (Engine A))) : Prop :=
  ∀ id engine, cluster.reached key id = some engine →
    engine.Holds kind key (engine.shards.find? key)

omit [Hears A] in
/-- A cluster is in order for every key when the engines behind its switches are sound and of a
kind. -/
theorem orderly_of_nodes
    (h : ∀ (id : String) (switched : Switched (Engine A)), cluster.nodes[id]? = some switched →
      kind switched.node.audience ∧ switched.node.shards.Sound) :
    cluster.Orderly kind key := by
  intro id engine hreached
  obtain ⟨switched, hnode, hlets⟩ := Option.bind_eq_some_iff.mp hreached
  obtain ⟨hkind, hsound⟩ := h id switched hnode
  split at hlets
  next =>
    obtain rfl := Option.some.inj hlets
    exact ⟨hkind, hsound, rfl⟩
  next => exact nomatch hlets

/-- A read that follows a write finds what the first of the engines that it reaches shows
after the write. -/
theorem get_write (h : cluster.Orderly kind key) (write : Write) (hkey : write.key = key)
    {answer : Engine A → Option Value}
    (hshows : ∀ engine : Engine A, engine.Holds kind key (engine.shards.find? key) →
      ((engine.perform now write.call).1.lookup now key).map Entry.value = answer engine) :
    ((cluster.write now write).1.get now key).2 =
      (cluster.replicas key).findSome? fun id => (cluster.reached key id).bind answer := by
  subst hkey
  rw [← replicas_write cluster now write write.key]
  refine get_shown fun id hid => ?_
  rw [replicas_write] at hid
  rw [shown, reached_write hid]
  cases hreached : cluster.reached write.key id with
  | none => rfl
  | some engine => exact hshows engine (h id engine hreached)

section Reading

variable (hoff : KeepsOff kind key (Hears.hear now)) (h : cluster.Orderly kind key)
include hoff h

/-- After an acknowledged `set` a read gives the written value. -/
theorem get_set (hnow : now < Int64.maxValue) {value : Value} {ttl : Span}
    (haccepted : (cluster.set now key value ttl).2 = .ok true) :
    ((cluster.set now key value ttl).1.get now key).2 = some value := by
  have hread := get_write h (.set key value ttl) rfl fun engine hengine =>
    hengine.lookup_set hoff hnow value ttl
  refine hread.trans ?_
  cases hfound : (cluster.replicas key).findSome? fun id => (cluster.reached key id).bind
      fun engine => if (engine.perform now (.set key value ttl)).2 then some value else none with
  | none =>
      obtain ⟨id, hid, hacknowledges⟩ :
          ∃ id ∈ cluster.replicas key, cluster.acknowledges now (.set key value ttl) id = true :=
        exists_acknowledges_of_accepted (.set key value ttl) haccepted
      obtain ⟨engine, hreached, htaken⟩ : ∃ engine, cluster.reached key id = some engine ∧
          (engine.perform now (.set key value ttl)).2 = true :=
        acknowledges_iff_reached.mp hacknowledges
      have hnone := List.findSome?_eq_none_iff.mp hfound id hid
      rw [hreached, Option.bind_some, if_pos htaken] at hnone
      exact hnone.symm
  | some found =>
      obtain ⟨id, -, hshown⟩ := List.exists_of_findSome?_eq_some hfound
      obtain ⟨engine, -, hengine⟩ := Option.bind_eq_some_iff.mp hshown
      split at hengine
      next => exact hengine.symm
      next => exact nomatch hengine

/-- After a delete a read finds nothing. -/
theorem get_delete : ((cluster.delete now key).1.get now key).2 = none := by
  have hread := get_write h (.delete key) rfl fun engine hengine =>
    congrArg (Option.map Entry.value) (hengine.lookup_delete hoff)
  refine hread.trans (List.findSome?_eq_none_iff.mpr fun id _ => ?_)
  cases cluster.reached key id <;> rfl

/-- A compare-and-swap replaces what a read would find if that bears the expected token. -/
theorem get_compareAndSwap (hnow : now < Int64.maxValue) (value : Value) (expected : Token)
    (ttl : Span) :
    ((cluster.compareAndSwap now key value expected ttl).1.get now key).2 =
      ((cluster.replicas key).findSome? (cluster.shown now key)).map fun found =>
        if found.token = expected then value else found.value := by
  have hread := get_write h (.compareAndSwap key value expected ttl) rfl
    fun engine hengine => hengine.lookup_compareAndSwap hoff hnow value expected ttl
  refine hread.trans ?_
  rw [List.map_findSome?]
  congr 1
  funext id
  rw [Function.comp_apply, shown]
  cases cluster.reached key id <;> rfl

/-- A read shows the same entries to whoever reads next. -/
theorem shown_getWithToken :
    (cluster.getWithToken now key).1.Orderly kind key ∧
      ∀ id, (cluster.getWithToken now key).1.shown now key id = cluster.shown now key id := by
  have hkept (id : String) :
      (∀ engine, (cluster.getWithToken now key).1.reached key id = some engine →
        engine.Holds kind key (engine.shards.find? key)) ∧
      (cluster.getWithToken now key).1.shown now key id = cluster.shown now key id := by
    refine account_firstFound (fun account =>
      (∀ engine, account.reached key = some engine →
        engine.Holds kind key (engine.shards.find? key)) ∧
      (account.reached key).bind (fun engine => engine.lookup now key) =
        cluster.shown now key id) now (.getWithToken key) ?_ cluster _ ⟨h id, rfl⟩
    rintro account ⟨hholds, hshown⟩
    have hcalled := (account.reached_call now (.getWithToken key)).1
    change (account.call now (.getWithToken key)).1.reached key =
      (account.reached key).map _ at hcalled
    rw [hcalled, ← hshown]
    cases hreached : account.reached key with
    | none => exact ⟨nofun, rfl⟩
    | some engine =>
        have hread := (hholds engine hreached).getWithToken hoff now
        constructor
        · rintro - ⟨⟩
          exact ⟨hread.kind, hread.sound, rfl⟩
        · rw [Option.map_some, Option.bind_some, Option.bind_some]
          exact (hholds engine hreached).lookup_getWithToken hoff
  exact ⟨fun id => (hkept id).1, fun id => (hkept id).2⟩

end Reading

/-- A client reads its own writes. A read right after a set that was acknowledged finds the
value, and after a delete it finds nothing. If a value was read with its token, a read
after a swap under this token finds what was swapped in, whatever the swap was answered.
Nodes may be down, refuse every call or time out on some keys, and listeners may call
their engines, as long as they keep off the key. -/
theorem reads_own_writes (hoff : KeepsOff kind key (Hears.hear now))
    (hnodes : ∀ (id : String) (switched : Switched (Engine A)),
      cluster.nodes[id]? = some switched →
        kind switched.node.audience ∧ switched.node.shards.Sound)
    (hnow : now < Int64.maxValue) (value : Value) (ttl : Span) :
    ((cluster.set now key value ttl).2 = .ok true →
        ((cluster.set now key value ttl).1.get now key).2 = some value) ∧
      ((cluster.delete now key).1.get now key).2 = none ∧
      ∀ old token, (cluster.getWithToken now key).2 = some (old, token) →
        (((cluster.getWithToken now key).1.compareAndSwap now key value token ttl).1.get now
          key).2 = some value := by
  have horderly : cluster.Orderly kind key := orderly_of_nodes hnodes
  refine ⟨get_set hoff horderly hnow, get_delete hoff horderly, fun old token hread => ?_⟩
  obtain ⟨hstill, hshown⟩ := shown_getWithToken hoff horderly
  have hreplicas : (cluster.getWithToken now key).1.replicas key = cluster.replicas key :=
    replicas_of_layout (layout_firstFound cluster now (.getWithToken key) _) key
  have hsame : (cluster.getWithToken now key).1.shown now key = cluster.shown now key :=
    funext hshown
  rw [get_compareAndSwap hoff hstill hnow, hreplicas, hsame]
  -- the swap finds what the read found, and so bears the token that the read told
  rw [getWithToken_shown] at hread
  obtain ⟨found, hfound, heq⟩ := Option.map_eq_some_iff.mp hread
  rw [hfound, Option.map_some, if_pos (congrArg Prod.snd heq)]

/-! ## A leader that refuses -/

/-- A new engine that turns down rare keys, with a listener that stores successors. -/
def reviving : LiveEngine := ((LiveEngine.create ⟨1, 1, .lfu⟩).listen .reviving).1

def stocked : LiveEngine := (reviving.perform 0 (.set "k" "old".toUTF8 .zero)).1

/-- Three replicas of every key with the same engine behind each. One refuses all calls,
and one fails those about another key. -/
def refusingTrio (engine : LiveEngine) : Cluster (Switched LiveEngine) where
  ring := switchedTrio.ring
  nodes :=
    (((∅ : Std.ExtTreeMap String _ compare).insert
      "a" ⟨"a", { poison := ["other"] }, engine⟩).insert
      "b" ⟨"b", { mode := .reject }, engine⟩).insert "c" ⟨"c", {}, engine⟩
  replicationFactor := switchedTrio.replicationFactor
  handoff := .empty
  factor_pos := switchedTrio.factor_pos

section Refusing

variable (engine : LiveEngine)

theorem replicas_refusingTrio : (refusingTrio engine).replicas "k" = ["b", "c", "a"] := by
  rw [← replicas_switchedTrio, replicas, replicas, refusingTrio]

theorem reached_refusingTrio :
    (refusingTrio engine).reached "k" "a" = some engine ∧
      (refusingTrio engine).reached "k" "b" = none ∧
      (refusingTrio engine).reached "k" "c" = some engine :=
  ⟨rfl, rfl, rfl⟩

theorem node_refusingTrio {id : String} {switched : Switched LiveEngine}
    (h : (refusingTrio engine).nodes[id]? = some switched) : switched.node = engine := by
  simp only [refusingTrio, Std.ExtTreeMap.getElem?_insert] at h
  split at h
  next => exact (Option.some.inj h) ▸ rfl
  next =>
    split at h
    next => exact (Option.some.inj h) ▸ rfl
    next =>
      split at h
      next => exact (Option.some.inj h) ▸ rfl
      next => simp at h

end Refusing

theorem keepsOff_live (now : Instant) (key : String) :
    KeepsOff (Audience.Discreet key) key (Hears.hear now : Hearing Audience) :=
  Audience.keepsOff_discreet key now Audience.nesting

theorem holds_stocked :
    stocked.Holds (Audience.Discreet "k") "k" (some (reviving.fresh "old".toUTF8 0)) := by
  have hreviving : reviving.Holds (Audience.Discreet "k") "k" none := by
    refine ⟨Audience.discreet_of_standard ?_ "k", Shards.sound_create _ _ _,
      Shards.find?_create _ _ _ _⟩
    intro listener hmem
    obtain rfl : listener = .reviving := by
      simpa [reviving, LiveEngine.listen, LiveEngine.onAudience, Audience.subscribe,
        LiveEngine.create, Engine.create] using hmem
    exact ⟨.reviving, by simp, rfl⟩
  have hroom : reviving.shards.HasRoom "k" := Shards.hasRoom_create _ _ _ _
  have hstored : (reviving.putOutcome 0 "k" "old".toUTF8 .zero).stored = true := by
    rw [Engine.putOutcome]
    exact hroom.put_stored _
  have hset := hreviving.set (keepsOff_live 0 "k") 0 "old".toUTF8 .zero
  have hnever : deadlineAfter 0 .zero = 0 := by decide
  rw [hstored, if_pos rfl, hnever] at hset
  exact hset

theorem reads_own_writes_refused :
    let cluster := refusingTrio stocked
    (cluster.set 1000000 "k" "new".toUTF8 .zero).2 = .ok true ∧
      ((cluster.set 1000000 "k" "new".toUTF8 .zero).1.get 1000000 "k").2 = some "new".toUTF8 ∧
      ((cluster.delete 1000000 "k").1.get 1000000 "k").2 = none ∧
      (cluster.getWithToken 1000000 "k").2 = some ("old".toUTF8, 1) ∧
      (((cluster.getWithToken 1000000 "k").1.compareAndSwap 1000000 "k" "new".toUTF8 1
        .zero).1.get 1000000 "k").2 = some "new".toUTF8 := by
  have hholds := holds_stocked
  generalize stocked = engine at hholds ⊢
  intro cluster
  have hnodes : ∀ (id : String) (switched : Switched LiveEngine),
      cluster.nodes[id]? = some switched →
        Audience.Discreet "k" switched.node.audience ∧ switched.node.shards.Sound := by
    intro id switched hnode
    rw [node_refusingTrio engine hnode]
    exact ⟨hholds.kind, hholds.sound⟩
  have hnow : (1000000 : Instant) < Int64.maxValue := by decide
  have hall := reads_own_writes (keepsOff_live 1000000 "k") hnodes hnow "new".toUTF8 .zero
  obtain ⟨hreachedA, hreachedB, hreachedC⟩ := reached_refusingTrio engine
  have hlookup : engine.lookup 1000000 "k" = some (reviving.fresh "old".toUTF8 0) :=
    Engine.lookup_of_live hholds.find?_eq (by decide)
  have htaken : (engine.perform 1000000 (.set "k" "new".toUTF8 .zero)).2 = true := by
    rw [Engine.perform_set_snd]
    exact hholds.put_stored 1000000 "new".toUTF8 .zero
  have haccepted : (cluster.set 1000000 "k" "new".toUTF8 .zero).2 = .ok true := by
    let write : Write := .set "k" "new".toUTF8 .zero
    have hfirst : cluster.acknowledges 1000000 write "c" = true :=
      acknowledges_iff_reached.mpr ⟨engine, hreachedC, htaken⟩
    have hsecond : cluster.acknowledges 1000000 write "a" = true :=
      acknowledges_iff_reached.mpr ⟨engine, hreachedA, htaken⟩
    apply (decides_write cluster 1000000 write).accepted_iff.mpr
    change majority (cluster.replicas "k").length ≤
      (cluster.replicas "k").countP (cluster.acknowledges 1000000 write)
    rw [replicas_refusingTrio]
    simp [List.countP_cons, hfirst, hsecond, majority]
  have hread : (cluster.getWithToken 1000000 "k").2 = some ("old".toUTF8, 1) := by
    rw [getWithToken_shown, replicas_refusingTrio]
    have hb : cluster.shown 1000000 "k" "b" = none := by rw [shown, hreachedB]; rfl
    have hc : cluster.shown 1000000 "k" "c" = some (reviving.fresh "old".toUTF8 0) := by
      rw [shown, hreachedC]
      exact hlookup
    rw [List.findSome?_cons, hb, List.findSome?_cons, hc]
    rfl
  exact ⟨haccepted, hall.1 haccepted, hall.2.1, hread, hall.2.2 _ _ hread⟩

end Cluster

end ReplicatedCache
