import ReplicatedCache.Proofs.Cluster.Engines
import ReplicatedCache.Proofs.Cluster.Order

/-! # Deadlines across a cluster

A hint keeps the time to live of its write and not a deadline, so that every replica
counts the time to live from the moment at which it carries the write out. A value
that is set once is over everywhere when its time to live has passed since it was
set and since the last of its hints was taken. Until then it may be read, however
long ago it was set.
-/

namespace ReplicatedCache

variable {N A ρ : Type}

section Fronts

variable [Node N] [Hears A]

/-- Nodes that stand before engines. A call is carried out by the engine behind its
node or does not reach it, and a node answers with a refusal or as its engine does.
A call that was carried out may fail all the same. -/
structure Fronts (engine : N → Engine A) : Prop where
  reaches : ∀ (node : N) (now : Instant) {α : Type} (call : Call α),
    engine (Node.perform node now call).1 = engine node ∨
      engine (Node.perform node now call).1 = ((engine node).perform now call).1
  answers : ∀ (node : N) (now : Instant) {α : Type} (call : Call α) (answer : α),
    (Node.perform node now call).2 = .ok answer →
      answer = call.refusal ∨ answer = ((engine node).perform now call).2

theorem fronts_engine : Fronts fun engine : Engine A => engine :=
  ⟨fun _ _ _ _ => Or.inr rfl, fun _ _ _ _ _ h => Or.inr (Except.ok.inj h).symm⟩

/-- A switch may stand before any node. -/
theorem Fronts.switched {engine : N → Engine A} (h : Fronts engine) :
    Fronts fun switched : Switched N => engine switched.node := by
  constructor
  · rintro ⟨id, switch, node⟩ now α call
    simp only [Node.perform, Switched.perform]
    split
    next => exact Or.inl rfl
    next =>
      split
      next => exact Or.inl rfl
      next =>
        split
        next => exact Or.inl rfl
        next => exact h.reaches node now call
  · rintro ⟨id, switch, node⟩ now α call answer
    simp only [Node.perform, Switched.perform]
    split
    next => exact nofun
    next =>
      split
      next => exact nofun
      next =>
        split
        next => exact fun heq => Or.inl (Except.ok.inj heq).symm
        next =>
          intro heq
          apply h.answers node now call answer
          cases hanswer : (Node.perform node now call).2 with
          | error failure => exact nomatch hanswer ▸ heq
          | ok behind =>
              rw [hanswer] at heq
              exact congrArg Except.ok (Except.ok.inj heq)

end Fronts

/-- A time to live of whole milliseconds that passes before an instant, counted from
a moment after the epoch, ends at a deadline before this instant. -/
theorem deadlineAfter_ofMillis {taken last : Instant} {millis : Nat} (htaken : 0 ≤ taken)
    (hpos : 0 < millis) (hpassed : taken.toInt + millis ≤ last.toInt) :
    0 < deadlineAfter taken (.ofMillis millis) ∧
      deadlineAfter taken (.ofMillis millis) ≤ last := by
  have hmillis : (Span.ofMillis millis).millis = millis := by
    simp [Span.millis, Span.ofMillis]
  have hnanos : (Span.ofMillis millis).nanos ≠ 0 := by
    simp [Span.ofMillis]
    omega
  refine ⟨deadlineAfter_pos htaken hnanos, ?_⟩
  rw [Int64.le_iff_toInt_le, toInt_deadlineAfter_of_nonneg htaken hnanos, hmillis]
  omega

namespace ClusterStep

/-- The step happens at an instant. What a node undergoes by itself brings nothing
into the engine behind it. -/
def Happens (kind : A → Prop) (engine : N → Engine A) (now : Instant) : ClusterStep N → Prop
  | .write time _ | .clear time | .get time _ | .getWithToken time _
  | .nodeRejoined time _ | .replayPending time => time = now
  | .shift _ change => ∀ node, (engine node).Settled kind →
    (engine (change node)).Settled kind ∧ ∀ {key : String} {entry : Entry},
      (engine (change node)).shards.find? key = some entry →
        (engine node).shards.find? key = some entry

def HandsOverAt (time : Instant) (id : String) : ClusterStep N → Prop
  | .nodeRejoined now other => now = time ∧ other = id
  | .replayPending now => now = time
  | _ => False

/-- A step that hands the hints of a node over is, when it happens, a handover at the time it
names. -/
theorem handsOverAt_of_happens {kind : A → Prop} {engine : N → Engine A} {now : Instant}
    {id : String} {step : ClusterStep N} (h : step.HandsOverTo id)
    (hstep : step.Happens kind engine now) : step.HandsOverAt now id := by
  cases step with
  | nodeRejoined time other => exact ⟨hstep, h⟩
  | replayPending time => exact hstep
  | write | clear | get | getWithToken | shift => exact h.elim

end ClusterStep

/-- A node that is handed hints takes one for a key: the call changes the engine
behind it. -/
def Handoff.Takes [Node N] (engine : N → Engine A) (key : String) (now : Instant) :
    N → List Write → Prop
  | _, [] => False
  | node, hint :: hints =>
    let called := Node.perform node now hint.call
    (hint.key = key ∧ engine called.1 ≠ engine node) ∨
      (∃ answer, called.2 = .ok answer) ∧ Takes engine key now called.1 hints

/-- At an instant of a run a node takes a hint for a key. -/
inductive Cluster.TakesHint [Node N] (engine : N → Engine A) (key id : String) (time : Instant) :
    Cluster N → List (ClusterStep N) → Prop
  | here {cluster : Cluster N} {step : ClusterStep N} {steps : List (ClusterStep N)} {node : N}
    (hhands : step.HandsOverAt time id) (hnode : cluster.nodes[id]? = some node)
    (htakes : Handoff.Takes engine key time node (cluster.handoff.pending id)) :
    TakesHint engine key id time cluster (step :: steps)
  | later {cluster : Cluster N} {step : ClusterStep N} {steps : List (ClusterStep N)}
    (hlater : TakesHint engine key id time (cluster.apply step) steps) :
    TakesHint engine key id time cluster (step :: steps)

/-! ## Engines and nodes -/

namespace Engine

/-- Whatever an engine holds under a key is over at an instant. -/
structure Outlived (kind : A → Prop) (key : String) (last : Instant) (engine : Engine A) :
    Prop where
  settled : engine.Settled kind
  expired : ∀ {entry : Entry}, engine.shards.find? key = some entry → entry.expired last = true

namespace Outlived

variable {kind : A → Prop} {heard : A → List ρ} {record : Signal → List ρ} {engine : Engine A}
  {key : String} {now last : Instant}

/-- An outlived key cannot be looked up: its last value is past its deadline or was never
there. -/
theorem lookup_eq_none (h : engine.Outlived kind key last) : engine.lookup last key = none := by
  cases hfind : engine.shards.find? key with
  | none => exact lookup_of_find hfind
  | some entry => exact lookup_of_expired hfind (h.expired hfind)

section Watched

variable [Hears A] (hw : ∀ now, Watches kind heard record (Hears.hear now))
include hw

theorem perform (h : engine.Outlived kind key last) {α : Type} (call : Call α)
    (hspared : ¬ call.Writes key) : (engine.perform now call).1.Outlived kind key last :=
  ⟨h.settled.perform hw now call,
    fun hfind => h.expired (h.settled.find?_of_perform_of_not_writes hw now call hspared hfind)⟩

/-- A set whose time to live passes in time. -/
theorem perform_set (h : engine.Outlived kind key last) {value : Value} {millis : Nat}
    (hnow : 0 ≤ now) (hpos : 0 < millis) (hpassed : now.toInt + millis ≤ last.toInt) :
    (engine.perform now (.set key value (.ofMillis millis))).1.Outlived kind key last := by
  refine ⟨h.settled.perform hw now _, fun {entry} hfind => ?_⟩
  rcases h.settled.find?_of_perform hw now _ hfind with hold | hnew
  · exact h.expired hold
  · rw [entryAfter, if_pos rfl] at hnew
    obtain rfl := Option.some.inj hnew
    exact Entry.expired_iff.mpr (deadlineAfter_ofMillis hnow hpos hpassed)

/-- A write that is no change of the key, or the one set of it in time. -/
theorem perform_write (h : engine.Outlived kind key last) {value : Value} {millis : Nat}
    {write : Write} (hnow : 0 ≤ now) (hpos : 0 < millis)
    (honly : write.key = key →
      write = .set key value (.ofMillis millis) ∧ now.toInt + millis ≤ last.toInt) :
    (engine.perform now write.call).1.Outlived kind key last := by
  by_cases hkey : write.key = key
  · obtain ⟨rfl, hpassed⟩ := honly hkey
    exact h.perform_set hw hnow hpos hpassed
  · apply h.perform hw
    cases write with
    | set | compareAndSwap => exact hkey
    | delete => exact id

end Watched

end Outlived

end Engine

section Run

variable [Node N] [Hears A] {kind : A → Prop} {heard : A → List ρ} {record : Signal → List ρ}
  {engine : N → Engine A} {key : String} {value : Value} {millis : Nat} {now last : Instant}

namespace Account

/-- Whatever the engine of a node holds under a key is over at an instant, and the
hints for the key are one and the same set. -/
structure Outlived (kind : A → Prop) (engine : N → Engine A) (key : String) (value : Value)
    (millis : Nat) (last : Instant) (account : Account N) : Prop where
  node : ∀ {node : N}, account.node = some node → (engine node).Outlived kind key last
  hints : ∀ hint ∈ account.hints, hint.key = key → hint = .set key value (.ofMillis millis)

omit [Node N] in
/-- The only hint that a missed write leaves is the write itself. -/
theorem eq_of_mem_missed {write hint : Write} {isLeader : Bool} {answer : Option Bool}
    (h : hint ∈ missed write isLeader answer) : hint = write := by
  rcases answer with _ | _ | _
  · exact List.mem_singleton.mp h
  · rw [missed] at h
    split at h
    next => exact List.mem_singleton.mp h
    next => exact absurd h List.not_mem_nil
  · exact absurd h List.not_mem_nil

variable {account : Account N}

/-- A call that leaves the key outlived in every engine does so in the account: the hints
stay. -/
theorem Outlived.call (hfronts : Fronts engine)
    (h : account.Outlived kind engine key value millis last) {α : Type} (call : Call α)
    (hperform : ∀ {behind : Engine A}, behind.Outlived kind key last →
      (behind.perform now call).1.Outlived kind key last) :
    (account.call now call).1.Outlived kind engine key value millis last := by
  obtain ⟨_ | node, hints⟩ := account
  · exact h
  · refine ⟨?_, h.hints⟩
    rintro - ⟨⟩
    rcases hfronts.reaches node now call with hsame | hcarried
    · exact hsame ▸ h.node rfl
    · exact hcarried ▸ hperform (h.node rfl)

section Watched

variable (hw : ∀ now, Watches kind heard record (Hears.hear now)) (hfronts : Fronts engine)
include hw hfronts

/-- A node is sent a write that is no change of the key, or the one set of it. -/
theorem Outlived.receive (h : account.Outlived kind engine key value millis last)
    {write : Write} {isLeader : Bool} (hnow : 0 ≤ now) (hpos : 0 < millis)
    (honly : write.key = key →
      write = .set key value (.ofMillis millis) ∧ now.toInt + millis ≤ last.toInt) :
    (account.receive now write isLeader).Outlived kind engine key value millis last := by
  have hcalled := h.call hfronts write.call fun hbehind =>
    hbehind.perform_write hw hnow hpos honly
  refine ⟨hcalled.node, fun hint hmem hkey => ?_⟩
  rcases List.mem_append.mp hmem with hold | hnew
  · exact h.hints hint hold hkey
  · obtain rfl := eq_of_mem_missed hnew
    exact (honly hkey).1

/-- Hints are handed over, and if one for the key is taken, its time to live passes
in time. -/
theorem outlived_deliver {node : N} (h : (engine node).Outlived kind key last)
    {hints : List Write} (hnow : 0 ≤ now) (hpos : 0 < millis)
    (honly : ∀ hint ∈ hints, hint.key = key → hint = .set key value (.ofMillis millis))
    (hpassed : Handoff.Takes engine key now node hints → now.toInt + millis ≤ last.toInt) :
    (engine (Handoff.deliver node now hints).node).Outlived kind key last := by
  induction hints generalizing node with
  | nil => exact h
  | cons hint hints ih =>
      have hnext : (engine (Node.perform node now hint.call).1).Outlived kind key last := by
        -- A call that leaves the engine as it was has not been carried out, whatever was answered.
        by_cases hsame : engine (Node.perform node now hint.call).1 = engine node
        · exact hsame ▸ h
        · have hcarried := (hfronts.reaches node now hint.call).resolve_left hsame
          exact hcarried ▸ h.perform_write hw hnow hpos fun hkey =>
            ⟨honly hint List.mem_cons_self hkey, hpassed (Or.inl ⟨hkey, hsame⟩)⟩
      have hrest (hint : Write) (hmem : hint ∈ hints) := honly hint (List.mem_cons_of_mem _ hmem)
      rw [Handoff.deliver]
      rcases hperform : Node.perform node now hint.call with ⟨next, failure | answer⟩
      · rw [hperform] at hnext
        exact hnext
      · rw [hperform] at hnext
        refine ih hnext hrest fun htakes => hpassed (Or.inr ?_)
        rw [hperform]
        exact ⟨⟨answer, rfl⟩, htakes⟩

/-- A hint that the node takes gives the value its span anew; if that span, counted from the
handover, ends in time, the handover keeps the key outlived. -/
theorem Outlived.handOver (h : account.Outlived kind engine key value millis last)
    (hnow : 0 ≤ now) (hpos : 0 < millis)
    (hpassed : ∀ node, account.node = some node →
      Handoff.Takes engine key now node account.hints → now.toInt + millis ≤ last.toInt) :
    (account.handOver now).Outlived kind engine key value millis last := by
  obtain ⟨_ | node, hints⟩ := account
  · exact h
  · constructor
    · rintro - ⟨⟩
      exact outlived_deliver hw hfronts (h.node rfl) hnow hpos h.hints (hpassed node rfl)
    · intro hint hmem
      rw [hints_handOver] at hmem
      exact h.hints hint (List.mem_of_mem_drop hmem)

end Watched

end Account

/-! ## Runs -/

namespace Cluster

variable {cluster : Cluster N} {id : String} {start issued : Instant}

/-- What a read finds is as what each of the nodes that it asks would find. -/
theorem of_firstFound_eq_some {α : Type} {call : Call (Option α)} (kept : Account N → Prop)
    (good : α → Prop) (hkept : ∀ account, kept account → kept (account.call now call).1)
    (hgood : ∀ account found, kept account → (account.call now call).2 = some (some found) →
      good found)
    {ids : List String} (h : ∀ id ∈ ids, kept (cluster.account id)) {found : α}
    (hfound : (cluster.firstFound now call ids).2 = some found) : good found := by
  induction ids generalizing cluster with
  | nil => exact nomatch hfound
  | cons first rest ih =>
      have hanswer := toOption_callNode cluster now first call
      have hrest : ∀ id ∈ rest, kept ((cluster.callNode now first call).1.account id) := by
        intro id hmem
        by_cases heq : first = id
        · rw [heq, account_callNode_self]
          exact hkept _ (h id (List.mem_cons_of_mem _ hmem))
        · rw [account_callNode_of_ne cluster now id call heq]
          exact h id (List.mem_cons_of_mem _ hmem)
      rw [firstFound] at hfound
      split at hfound
      next called answered heq =>
        obtain rfl : answered = found := Option.some.inj hfound
        rw [heq] at hanswer
        exact hgood _ answered (h first List.mem_cons_self) hanswer.symm
      next called answer _ heq =>
        rw [heq] at hrest
        exact ih hrest hfound

/-- A read finds nothing if none of the nodes that it asks has anything. -/
theorem firstFound_eq_none {α : Type} {call : Call (Option α)} (kept : Account N → Prop)
    (hkept : ∀ account, kept account → kept (account.call now call).1)
    (hnone : ∀ account found, kept account → (account.call now call).2 ≠ some (some found))
    {ids : List String} (h : ∀ id ∈ ids, kept (cluster.account id)) :
    (cluster.firstFound now call ids).2 = none :=
  Option.eq_none_iff_forall_not_mem.mpr fun _ =>
    of_firstFound_eq_some kept (fun _ => False) hkept hnone h

/-- A node finds nothing under a key whose entry is over. -/
theorem get_ne_found (hfronts : Fronts engine) {account : Account N}
    (h : account.Outlived kind engine key value millis last) (found : Value) :
    (account.call last (.get key)).2 ≠ some (some found) := by
  obtain ⟨_ | node, hints⟩ := account
  · exact nofun
  · intro hfound
    have hbehind : ((engine node).perform last (.get key)).2 = none := by
      rw [Engine.perform_get_snd, (h.node rfl).lookup_eq_none, Option.map_none]
    change (Node.perform node last (.get key)).2.toOption = some (some found) at hfound
    cases hanswer : (Node.perform node last (.get key)).2 with
    | error failure =>
        rw [hanswer] at hfound
        exact nomatch hfound
    | ok answer =>
        rw [hanswer] at hfound
        obtain rfl := Option.some.inj hfound
        rcases hfronts.answers node last (.get key) _ hanswer with hrefused | hanswered
        · exact nomatch hrefused
        · exact nomatch hanswered.trans hbehind

section Watched

variable (hw : ∀ now, Watches kind heard record (Hears.hear now)) (hfronts : Fronts engine)
include hw hfronts

/-- What is over at an instant stays over in a step that changes the key by the one
set only, and whose hint is taken early enough. -/
theorem outlived_apply (h : (cluster.account id).Outlived kind engine key value millis last)
    {step : ClusterStep N} (hstep : step.Happens kind engine now) (hnow : 0 ≤ now)
    (hpos : 0 < millis)
    (honly : ∀ time write, step = .write time write → write.key = key →
      write = .set key value (.ofMillis millis) ∧ time.toInt + millis ≤ last.toInt)
    (htaken : step.HandsOverAt now id → ∀ node, cluster.nodes[id]? = some node →
      Handoff.Takes engine key now node (cluster.handoff.pending id) →
        now.toInt + millis ≤ last.toInt) :
    ((cluster.apply step).account id).Outlived kind engine key value millis last := by
  -- Only a handover carries a write out that was sent before, so only here the clock may be late.
  by_cases hhands : step.HandsOverTo id
  · have hafter : (cluster.apply step).account id = (cluster.account id).handOver now := by
      cases step with
      | nodeRejoined time other =>
          obtain rfl : other = id := hhands
          obtain rfl : time = now := hstep
          exact account_nodeRejoined_self cluster time other
      | replayPending time =>
          obtain rfl : time = now := hstep
          exact account_replayPending cluster time id
      | write | clear | get | getWithToken | shift => exact hhands.elim
    rw [hafter]
    exact h.handOver hw hfronts hnow hpos
      (htaken (ClusterStep.handsOverAt_of_happens hhands hstep))
  · refine account_apply _ h hhands ?_ ?_ ?_ ?_ ?_
    · rintro time write rfl -
      obtain rfl : time = now := hstep
      exact h.receive hw hfronts hnow hpos (honly time write rfl)
    · intro time _
      exact h.call hfronts .clear fun hbehind => hbehind.perform hw _ not_false
    · intro time other _ account haccount
      exact haccount.call hfronts (.get other) fun hbehind => hbehind.perform hw _ not_false
    · intro time other _ account haccount
      exact haccount.call hfronts (.getWithToken other) fun hbehind =>
        hbehind.perform hw _ not_false
    · rintro change rfl
      refine ⟨fun {node} hnode => ?_, h.hints⟩
      obtain ⟨before, hbefore, rfl⟩ := Option.map_eq_some_iff.mp hnode
      have hbehind := h.node hbefore
      obtain ⟨hsettled, hloses⟩ := hstep before hbehind.settled
      exact ⟨hsettled, fun hfind => hbehind.expired (hloses hfind)⟩

/-- A key that is only ever set to one value with one span stays outlived along a whole history,
if the span ends in time from every write of the key and from every instant at which a hint is
taken. -/
theorem outlived_run (h : (cluster.account id).Outlived kind engine key value millis last)
    (hstart : 0 ≤ start) {steps : List (ClusterStep N)}
    (hsteps : ClusterStep.Timely (ClusterStep.Happens kind engine) start steps last)
    (hpos : 0 < millis)
    (honly : ∀ time write, .write time write ∈ steps → write.key = key →
      write = .set key value (.ofMillis millis) ∧ time.toInt + millis ≤ last.toInt)
    (htaken : ∀ time, TakesHint engine key id time cluster steps →
      time.toInt + millis ≤ last.toInt) :
    ((cluster.run steps).account id).Outlived kind engine key value millis last := by
  induction steps generalizing cluster start with
  | nil => exact h
  | cons step steps ih =>
      obtain ⟨time, hle, hstep, hrest⟩ := hsteps
      have htime : 0 ≤ time := Int64.le_trans hstart hle
      refine ih (outlived_apply hw hfronts h hstep htime hpos ?_ ?_) htime hrest ?_ ?_
      · rintro time write rfl hkey
        exact honly time write List.mem_cons_self hkey
      · exact fun hhands node hnode htakes => htaken time (.here hhands hnode htakes)
      · exact fun time write hmem hkey => honly time write (List.mem_cons_of_mem _ hmem) hkey
      · exact fun time hlater => htaken time (.later hlater)

end Watched

/-- A read ends with what the first node finds. -/
theorem firstFound_of_found {α : Type} {call : Call (Option α)} {found : α} {ids : List String}
    (h : ((cluster.account id).call now call).2 = some (some found)) :
    (cluster.firstFound now call (id :: ids)).2 = some found := by
  rw [← toOption_callNode] at h
  rw [firstFound]
  rcases hcall : cluster.callNode now id call with ⟨called, absence | answer⟩
  · rw [hcall] at h
    cases h
  · rw [hcall] at h
    obtain rfl := Option.some.inj h
    rfl

end Cluster

end Run

namespace Cluster

/-! ## A replica that takes a hint late -/

/-- Three new engines behind switches, all of them replicas of every key. -/
def switchedTrio : Cluster (Switched (Engine Unit)) :=
  ((({ ring := .ofVirtualNodes 1, nodes := ∅, replicationFactor := 3, handoff := .empty,
       factor_pos := Nat.zero_lt_succ 2 } : Cluster (Switched (Engine Unit))).addNode
    "a" ⟨"a", {}, unheard⟩).addNode "b" ⟨"b", {}, unheard⟩).addNode "c" ⟨"c", {}, unheard⟩

theorem replicas_switchedTrio : switchedTrio.replicas "k" = ["b", "c", "a"] := replicas_trio_k

theorem account_switchedTrio {id : String} (h : id ∈ switchedTrio.replicas "k") :
    switchedTrio.account id = ⟨some ⟨id, {}, unheard⟩, []⟩ := by
  rw [replicas_switchedTrio] at h
  simp only [List.mem_cons, List.not_mem_nil, or_false] at h
  rcases h with rfl | rfl | rfl <;> rfl

/-- A node misses a write, and is handed the hint for it later. -/
def missAndTakeLate (now handover : Instant) (id : String) (write : Write) :
    List (ClusterStep (Switched (Engine Unit))) :=
  [turn id .down, .write now write, turn id .up, .replayPending handover]

section Late

variable {cluster : Cluster (Switched (Engine Unit))} {id : String} {engine : Engine Unit}

/-- Turning a switch changes the mode of that node and nothing else of its account. -/
theorem account_turned {switch : Switch} {hints : List Write}
    (h : cluster.account id = ⟨some ⟨id, switch, engine⟩, hints⟩) (mode : SwitchMode) :
    (cluster.apply (turn id mode)).account id =
      ⟨some ⟨id, { switch with mode }, engine⟩, hints⟩ := by
  rw [turn, account_shift_self, h]
  rfl

theorem answer_up (engine : Engine Unit) (hints : List Write) (now : Instant) {α : Type}
    (call : Call α) :
    ((⟨some ⟨id, {}, engine⟩, hints⟩ : Account (Switched (Engine Unit))).call now call).2 =
      some (engine.perform now call).2 := rfl

/-- The engine carries the write out at the handover. -/
theorem account_missAndTakeLate (write : Write)
    (h : cluster.account id = ⟨some ⟨id, {}, engine⟩, []⟩)
    (hreplica : id ∈ cluster.replicas write.key) (now handover : Instant) :
    (cluster.run (missAndTakeLate now handover id write)).account id =
      ⟨some ⟨id, {}, (engine.perform handover write.call).1⟩, []⟩ := by
  have hdown := account_turned h .down
  have hstill : id ∈ (cluster.apply (turn id .down)).replicas write.key :=
    (replicas_apply cluster _ write.key).symm ▸ hreplica
  have hwritten : ((cluster.apply (turn id .down)).apply (.write now write)).account id =
      ⟨some ⟨id, { mode := .down }, engine⟩, [write]⟩ := by
    rw [apply_write, account_replicate, if_pos hstill, hdown]
    rfl
  have hup := account_turned hwritten .up
  refine (account_replayPending _ handover id).trans ?_
  rw [hup]
  rfl

/-- An engine with room for a key finds what it has just stored. -/
theorem get_perform_set {now : Instant} {key : String} {ttl : Span}
    (hsettled : engine.Settled fun _ => True) (hroom : engine.shards.HasRoom key) (value : Value)
    (hlive : ¬ deadlineAfter now ttl ≤ now) :
    ((engine.perform now (.set key value ttl)).1.perform now (.get key)).2 = some value := by
  have hspared : engine.Fits now (PutOutcome.Spares key) (.set key value ttl) :=
    hsettled.sound.spares_self (hroom.put_stored _)
  have hfind := hsettled.find?_perform watches_nobody now _ key hspared
  rw [Engine.entryAfter, if_pos rfl] at hfind
  rw [Engine.perform_get_snd, Engine.lookup_of_live hfind]
  · rfl
  · exact fun hexpired => hlive (Entry.expired_iff.mp hexpired).2

end Late

/-- A history in which a node takes a hint contains the step that hands the hint over. -/
theorem TakesHint.exists_step [Node N] {engine : N → Engine A} {key id : String}
    {time : Instant} {cluster : Cluster N} {steps : List (ClusterStep N)}
    (h : TakesHint engine key id time cluster steps) :
    ∃ step ∈ steps, step.HandsOverAt time id := by
  induction h with
  | here hhands => exact ⟨_, List.mem_cons_self, hhands⟩
  | later _ ih =>
      obtain ⟨step, hmem, hhands⟩ := ih
      exact ⟨step, List.mem_cons_of_mem _ hmem, hhands⟩

/-- A sweep brings nothing into the engine behind a switch. -/
theorem happens_sweep (id : String) (swept now : Instant) :
    ClusterStep.Happens (fun _ => True) Switched.node now
      (.shift id fun switched : Switched (Engine Unit) =>
        { switched with node := switched.node.sweep swept }) := by
  intro switched hsettled
  refine ⟨hsettled.sweep watches_nobody swept, fun {key entry} hfind => ?_⟩
  rw [hsettled.find?_sweep watches_nobody] at hfind
  exact Engine.find?_of_lookup hfind

/-! ## When a value is over -/

/-- A key of which nothing is known at first is set once, for a whole number of
milliseconds. It reads as absent once they have passed since it was set and since a
replica last took a hint for it. -/
theorem get_eq_none_of_passed [Node N] [Hears A] {kind : A → Prop} {heard : A → List ρ}
    {record : Signal → List ρ} {engine : N → Engine A} {cluster : Cluster N} {key : String}
    {value : Value} {millis : Nat} {start issued now : Instant}
    (hw : ∀ now, Watches kind heard record (Hears.hear now)) (hfronts : Fronts engine)
    (hblank : ∀ id ∈ cluster.replicas key, (∀ hint ∈ cluster.handoff.pending id, hint.key ≠ key) ∧
      ∀ node, cluster.nodes[id]? = some node →
        (engine node).Settled kind ∧ (engine node).shards.find? key = none)
    (hstart : 0 ≤ start) {steps : List (ClusterStep N)}
    (hsteps : ClusterStep.Timely (ClusterStep.Happens kind engine) start steps now)
    (hpos : 0 < millis)
    (honly : ∀ time write, .write time write ∈ steps → write.key = key →
      time = issued ∧ write = .set key value (.ofMillis millis))
    (hissued : issued.toInt + millis ≤ now.toInt)
    (htaken : ∀ id ∈ cluster.replicas key, ∀ time, TakesHint engine key id time cluster steps →
      time.toInt + millis ≤ now.toInt) :
    ((cluster.run steps).get now key).2 = none := by
  have hover : ∀ id ∈ (cluster.run steps).replicas key,
      ((cluster.run steps).account id).Outlived kind engine key value millis now := by
    intro id hid
    rw [replicas_run] at hid
    obtain ⟨hunhinted, hempty⟩ := hblank id hid
    apply outlived_run hw hfronts _ hstart hsteps hpos _ (htaken id hid)
    · refine ⟨fun {node} hnode => ?_, fun hint hmem hkey => absurd hkey (hunhinted hint hmem)⟩
      obtain ⟨hsettled, habsent⟩ := hempty node hnode
      exact ⟨hsettled, fun hfind => nomatch habsent.symm.trans hfind⟩
    · intro time write hmem hkey
      obtain ⟨rfl, hset⟩ := honly time write hmem hkey
      exact ⟨hset, hissued⟩
  apply firstFound_eq_none
    (fun account => account.Outlived kind engine key value millis now) _ _ hover
  · exact fun account haccount => haccount.call hfronts (.get key) fun hbehind =>
      hbehind.perform hw _ not_false
  · exact fun account found haccount => get_ne_found hfronts haccount found

/-- A replica takes the hint of a value a tenth of a second after its time to live
has passed, and another one is swept; a tenth of a second later nobody has the value. -/
theorem get_after_late_handover :
    let steps := missAndTakeLate 1000000 1000200 "b" (.set "k" "v".toUTF8 (.ofMillis 100)) ++
      [.shift "c" fun switched => { switched with node := switched.node.sweep 1000250 }]
    ((switchedTrio.run steps).get 1000300 "k").2 = none := by
  intro steps
  have hfronts : Fronts fun switched : Switched (Engine Unit) => switched.node :=
    fronts_engine.switched
  have hblank : ∀ id ∈ switchedTrio.replicas "k",
      (∀ hint ∈ switchedTrio.handoff.pending id, hint.key ≠ "k") ∧
        ∀ node, switchedTrio.nodes[id]? = some node →
          (node.node.Settled fun _ => True) ∧ node.node.shards.find? "k" = none := by
    intro id hid
    have haccount := account_switchedTrio hid
    constructor
    · rw [← hints_account, haccount]
      exact fun _ hmem => absurd hmem List.not_mem_nil
    · rw [← node_account, haccount]
      rintro node ⟨⟩
      exact ⟨settled_unheard, find?_unheard "k"⟩
  have hsteps : ClusterStep.Timely (ClusterStep.Happens (fun _ => True) Switched.node)
      1000000 steps 1000300 :=
    ⟨1000000, by decide, fun _ h => ⟨h, id⟩, 1000000, by decide, rfl, 1000000, by decide,
      fun _ h => ⟨h, id⟩, 1000200, by decide, rfl, 1000250, by decide,
      happens_sweep "c" 1000250 1000250, (by decide : (1000250 : Instant) ≤ 1000300)⟩
  have honly : ∀ time write, .write time write ∈ steps → write.key = "k" →
      time = 1000000 ∧ write = .set "k" "v".toUTF8 (.ofMillis 100) := by
    simp [steps, missAndTakeLate, turn]
  have htaken : ∀ id ∈ switchedTrio.replicas "k", ∀ time,
      TakesHint Switched.node "k" id time switchedTrio steps →
        time.toInt + (100 : Nat) ≤ (1000300 : Instant).toInt := by
    intro id _ time htakes
    obtain ⟨step, hmem, hhands⟩ := htakes.exists_step
    simp only [steps, missAndTakeLate, turn, List.cons_append, List.nil_append, List.mem_cons,
      List.not_mem_nil, or_false] at hmem
    rcases hmem with rfl | rfl | rfl | rfl | rfl
    · exact hhands.elim
    · exact hhands.elim
    · exact hhands.elim
    · obtain rfl : 1000200 = time := hhands
      decide
    · exact hhands.elim
  exact get_eq_none_of_passed watches_nobody hfronts hblank (by decide) hsteps (by decide) honly
    (by decide) htaken

/-- A replica takes a hint a tenth of a second after the time to live of its value
has passed, and the value is read. -/
theorem hint_outlives_deadline :
    let set : Write := .set "k" "v".toUTF8 (.ofMillis 100)
    let steps := missAndTakeLate 1000000 1000200 "b" set
    ClusterStep.Timely (ClusterStep.Happens (fun _ => True) Switched.node) 1000000 steps 1000200 ∧
      (∀ time write, .write time write ∈ steps → time = 1000000 ∧ write = set) ∧
      (∀ id ∈ switchedTrio.replicas "k",
        switchedTrio.account id = ⟨some ⟨id, {}, unheard⟩, []⟩) ∧
      (1000000 : Instant).toInt + 100 ≤ (1000200 : Instant).toInt ∧
      ((switchedTrio.run steps).get 1000200 "k").2 = some "v".toUTF8 := by
  intro set steps
  have hreplica : "b" ∈ switchedTrio.replicas "k" := by
    rw [replicas_switchedTrio]
    decide
  refine ⟨?_, ?_, fun id => account_switchedTrio, by decide, ?_⟩
  · refine ⟨1000000, by decide, fun _ h => ⟨h, id⟩, 1000000, by decide, rfl, 1000000, by decide,
      fun _ h => ⟨h, id⟩, 1000200, by decide, rfl, Int64.le_refl _⟩
  · simp [steps, missAndTakeLate, turn]
  · have hreplicas : (switchedTrio.run steps).replicas "k" = ["b", "c", "a"] :=
      (replicas_run switchedTrio steps "k").trans replicas_switchedTrio
    have haccount := account_missAndTakeLate set (account_switchedTrio hreplica) hreplica
      1000000 1000200
    rw [get, hreplicas]
    apply firstFound_of_found
    have hlive : ¬ deadlineAfter 1000200 (.ofMillis 100) ≤ 1000200 := by decide
    have hread := get_perform_set settled_unheard (hasRoom_unheard "k") "v".toUTF8 hlive
    rw [haccount, answer_up]
    exact congrArg some hread

end Cluster

end ReplicatedCache
