import ReplicatedCache.Proofs.Cluster.Engines

/-! # Replicas in lockstep

Two engines are alike if they mint the same token next and show the same entries
from now on; what is over may linger in one of them. The same call keeps engines
alike, and so does a read or a sweep of only one of them, or a delete of what it
does not hold. In a cluster whose nodes are replicas of every key, engines that
are alike stay so until a hint that is handed over changes one of them, a set is
turned down or a key leaves for another.
-/

namespace ReplicatedCache

variable {A ρ : Type}

namespace Engine

section Lookup

variable {now later : Instant}

/-- What is live at a later time was live before: entries lapse once and for all. -/
theorem live_of_later {entry : Entry} (hle : now ≤ later) (h : entry.live later = true) :
    entry.live now = true := by
  rw [Entry.live, Bool.not_eq_true', ← Bool.not_eq_true, Entry.expired_iff] at h ⊢
  exact fun hexpired => h ⟨hexpired.1, Int64.le_trans hexpired.2 hle⟩

/-- What is live later is what is live now and does not expire in between. -/
theorem filter_lookup (engine : Engine A) (hle : now ≤ later) (key : String) :
    (engine.lookup now key).filter (fun entry => entry.live later) =
      engine.lookup later key := by
  rw [lookup, lookup, Option.filter_filter]
  congr 1
  funext entry
  cases hlive : entry.live later with
  | false => rw [Bool.and_false]
  | true => rw [live_of_later hle hlive]; rfl

end Lookup

/-- Two engines mint the same token next, and show the same entries from an instant on. -/
structure Alike (now : Instant) (engine other : Engine A) : Prop where
  nextToken_eq : other.nextToken = engine.nextToken
  lookup_eq : ∀ {later : Instant} (key : String), now ≤ later →
    other.lookup later key = engine.lookup later key

namespace Alike

variable {now later : Instant} {engine other third : Engine A}

theorem refl (now : Instant) (engine : Engine A) : Alike now engine engine :=
  ⟨rfl, fun _ _ => rfl⟩

theorem symm (h : Alike now engine other) : Alike now other engine :=
  ⟨h.nextToken_eq.symm, fun key hle => (h.lookup_eq key hle).symm⟩

theorem trans (h : Alike now engine other) (h' : Alike now other third) :
    Alike now engine third :=
  ⟨h'.nextToken_eq.trans h.nextToken_eq,
    fun key hle => (h'.lookup_eq key hle).trans (h.lookup_eq key hle)⟩

/-- Engines that are alike at one time are alike at every later one. -/
theorem mono (h : Alike now engine other) (hle : now ≤ later) : Alike later engine other :=
  ⟨h.nextToken_eq, fun key hlater => h.lookup_eq key (Int64.le_trans hle hlater)⟩

/-- Alike engines give their next write the same token. -/
theorem freshToken_eq (h : Alike now engine other) : other.freshToken = engine.freshToken := by
  rw [freshToken, freshToken, h.nextToken_eq]

theorem bears_eq (h : Alike now engine other) (hle : now ≤ later) (key : String) (token : Token) :
    other.bears later key token = engine.bears later key token := by
  rw [bears, bears, h.lookup_eq key hle]

end Alike

variable [Hears A] {kind : A → Prop} {heard : A → List ρ} {record : Signal → List ρ}
  {engine other : Engine A} {now : Instant}

omit [Hears A] in
/-- What is asked of a set may be weakened. -/
theorem Fits.mono {asked weaker : PutOutcome → Prop}
    (hle : ∀ outcome, asked outcome → weaker outcome) {α : Type} {call : Call α}
    (h : engine.Fits now asked call) : engine.Fits now weaker call := by
  cases call with
  | set key value ttl => exact hle _ h
  | get | getWithToken | delete | compareAndSwap | clear => trivial

section Watched

variable (hw : ∀ now, Watches kind heard record (Hears.hear now))
include hw

/-- What a call leaves under a key is told by the entry it finds there and by the call
itself. -/
theorem Settled.lookup_perform (h : engine.Settled kind) {α : Type} (call : Call α)
    (hfits : engine.Fits now PutOutcome.Plain call) (later : Instant) (key : String) :
    (engine.perform now call).1.lookup later key =
      (engine.entryAfter now key call).filter fun entry => entry.live later := by
  rw [lookup, h.find?_perform hw now call key (hfits.mono fun _ hplain => hplain.spares key)]

/-- The same call does the same to engines that are alike. -/
theorem Alike.perform (h : Alike now engine other) (hengine : engine.Settled kind)
    (hother : other.Settled kind) {α : Type} {call : Call α}
    (hfits : engine.Fits now PutOutcome.Plain call)
    (hfits' : other.Fits now PutOutcome.Plain call) :
    Alike now (engine.perform now call).1 (other.perform now call).1 := by
  have hnow (key : String) : other.lookup now key = engine.lookup now key :=
    h.lookup_eq key (Int64.le_refl now)
  constructor
  · rw [hengine.nextToken_perform hw, hother.nextToken_perform hw]
    cases call with
    | set => exact congrArg (· + 1) h.freshToken_eq
    | compareAndSwap key value expected ttl =>
        rw [tokenAfter, tokenAfter, h.bears_eq (Int64.le_refl now), h.freshToken_eq,
          h.nextToken_eq]
    | get | getWithToken | delete | clear => exact h.nextToken_eq
  · intro later key hle
    have hlater := h.lookup_eq key hle
    rw [hengine.lookup_perform hw call hfits, hother.lookup_perform hw call hfits']
    cases call with
    | set written value ttl =>
        rw [entryAfter, entryAfter, fresh, fresh, h.freshToken_eq]
        split
        next => rfl
        next => exact hlater
    | get read | getWithToken read =>
        rw [entryAfter, entryAfter, hnow]
        split
        next => rfl
        next => exact hlater
    | delete deleted =>
        rw [entryAfter, entryAfter]
        split
        next => rfl
        next => exact hlater
    | compareAndSwap swapped value expected ttl =>
        rw [entryAfter, entryAfter, hnow]
        -- both find the same, so both swap or neither does
        cases engine.lookup now swapped with
        | none =>
            dsimp only
            split
            next => rfl
            next => exact hlater
        | some found =>
            simp only [fresh, h.freshToken_eq]
            split
            next => rfl
            next => exact hlater
    | clear => rfl

/-- A read of one engine is not noticed later. -/
theorem Settled.alike_read (h : engine.Settled kind) (now : Instant) (key : String) :
    Alike now engine (engine.perform now (.get key)).1 ∧
      Alike now engine (engine.perform now (.getWithToken key)).1 := by
  have hread : Alike now engine (engine.perform now (.getWithToken key)).1 := by
    refine ⟨h.nextToken_perform hw now (.getWithToken key), fun {later} other hle => ?_⟩
    rw [h.lookup_perform hw (.getWithToken key) trivial, entryAfter]
    split
    next heq => rw [heq, filter_lookup engine hle]
    next => rfl
  exact ⟨hread, hread⟩

/-- A delete of what one engine does not hold is not noticed later. -/
theorem Settled.alike_delete (h : engine.Settled kind) {key : String}
    (habsent : engine.lookup now key = none) :
    Alike now engine (engine.perform now (.delete key)).1 := by
  refine ⟨h.nextToken_perform hw now (.delete key), fun {later} other hle => ?_⟩
  rw [h.lookup_perform hw (.delete key) trivial, entryAfter]
  split
  next heq =>
    rw [heq, ← filter_lookup engine hle, habsent]
  next => rfl

/-- Hints to delete what an engine does not hold are not noticed later. -/
theorem Settled.alike_takeAll (h : engine.Settled kind) {hints : List Write}
    (habsent : ∀ hint ∈ hints, ∃ key, hint = .delete key ∧ engine.lookup now key = none) :
    (engine.takeAll now hints).Settled kind ∧ Alike now engine (engine.takeAll now hints) := by
  induction hints generalizing engine with
  | nil => exact ⟨h, .refl now engine⟩
  | cons hint hints ih =>
      obtain ⟨deleted, rfl, hdeleted⟩ := habsent hint List.mem_cons_self
      have hfirst := h.alike_delete hw hdeleted
      have hrest := ih (h.perform hw now (.delete deleted)) fun hint hmem => by
        obtain ⟨key, heq, hkey⟩ := habsent hint (List.mem_cons_of_mem _ hmem)
        exact ⟨key, heq, (hfirst.lookup_eq key (Int64.le_refl now)).trans hkey⟩
      exact ⟨hrest.1, hfirst.trans hrest.2⟩

/-- A sweep of one engine is not noticed later. -/
theorem Settled.alike_sweep (h : engine.Settled kind) (now : Instant) :
    Alike now engine (engine.sweep now) := by
  refine ⟨h.nextToken_sweep hw now, fun {later} key hle => ?_⟩
  rw [lookup, h.find?_sweep hw]
  exact filter_lookup engine hle key

end Watched

end Engine

variable [Hears A]

namespace Cluster

variable {cluster : Cluster (Engine A)} {id : String} {kind : A → Prop} {heard : A → List ρ}
  {record : Signal → List ρ} {now : Instant}

/-- All nodes on the ring are registered, and their engines are alike. -/
structure InStep (kind : A → Prop) (cluster : Cluster (Engine A)) (now : Instant) : Prop where
  settled : ∀ id ∈ cluster.ring.nodes, ∃ engine,
    cluster.nodes[id]? = some engine ∧ engine.Settled kind
  alike : ∀ id ∈ cluster.ring.nodes, ∀ other ∈ cluster.ring.nodes, ∀ engine twin,
    cluster.nodes[id]? = some engine → cluster.nodes[other]? = some twin → engine.Alike now twin

/-- A write carries out its call at every replica. -/
theorem node_write {engine : Engine A} (h : cluster.nodes[id]? = some engine) (now : Instant)
    (write : Write) (hreplica : id ∈ cluster.replicas write.key) :
    (cluster.apply (.write now write)).nodes[id]? = some (engine.perform now write.call).1 := by
  rw [apply_write, (reaches_replicate cluster now write).called id hreplica, h]
  rfl

/-- A node that is no replica of a key is left alone by its writes. -/
theorem node_write_of_not_mem (cluster : Cluster (Engine A)) (now : Instant) {write : Write}
    (h : id ∉ cluster.replicas write.key) :
    (cluster.apply (.write now write)).nodes[id]? = cluster.nodes[id]? := by
  rw [apply_write]
  exact (reaches_replicate cluster now write).uncalled id h

/-- Clearing the cluster clears every node on the ring. -/
theorem node_clear {engine : Engine A} (h : cluster.nodes[id]? = some engine) (now : Instant)
    (hring : id ∈ cluster.ring.nodes) :
    (cluster.apply (.clear now)).nodes[id]? = some (engine.perform now .clear).1 := by
  rw [← node_account, apply, account_clear, if_pos hring, account_engine h]
  rfl

/-- What waits for a node is to delete keys that it does not hold. -/
def Idle (cluster : Cluster (Engine A)) (now : Instant) (id : String) : Prop :=
  ∀ engine, cluster.nodes[id]? = some engine → ∀ hint ∈ cluster.handoff.pending id,
    ∃ key, hint = .delete key ∧ engine.lookup now key = none

section Watched

variable (hw : ∀ now, Watches kind heard record (Hears.hear now))
include hw

/-- A step that changes no key, and hands over only what changes none, is not noticed
later. -/
theorem alike_apply {engine : Engine A} (h : cluster.nodes[id]? = some engine)
    (hengine : engine.Settled kind) (step : ClusterStep (Engine A)) (hstep : step.At now)
    (hspares : ∀ key, step.Spares key) (hidle : step.HandsOverTo id → cluster.Idle now id) :
    ∃ after, (cluster.apply step).nodes[id]? = some after ∧ after.Settled kind ∧
      engine.Alike now after := by
  have hcall {account : Account (Engine A)} {α : Type} (call : Call α)
      (hread : ∀ engine : Engine A, engine.Settled kind →
        engine.Alike now (engine.perform now call).1)
      (haccount : ∃ after, account.node = some after ∧ after.Settled kind ∧
        engine.Alike now after) :
      ∃ after, (account.call now call).1.node = some after ∧ after.Settled kind ∧
        engine.Alike now after := by
    obtain ⟨node, hints⟩ := account
    obtain ⟨after, rfl, hafter, halike⟩ := haccount
    exact ⟨_, rfl, hafter.perform hw now call, halike.trans (hread after hafter)⟩
  rw [← node_account]
  -- only the node itself can be handed its hints, so this is no case of `account_apply`
  by_cases hhands : step.HandsOverTo id
  · rw [account_of_handsOverTo cluster hhands hstep, account_engine h, Account.handOver_engine]
    exact ⟨_, rfl, hengine.alike_takeAll hw (hidle hhands engine h)⟩
  rw [← node_account] at h
  refine account_apply (fun account => ∃ after, account.node = some after ∧
    after.Settled kind ∧ engine.Alike now after) ⟨engine, h, hengine, .refl now engine⟩ hhands
    ?_ ?_ ?_ ?_ ?_
  · rintro issued write rfl -
    exact absurd rfl (hspares write.key)
  · rintro issued rfl
    exact (hspares "").elim
  · rintro issued key rfl account haccount
    obtain rfl : issued = now := hstep
    exact hcall (.get key) (fun engine h => (h.alike_read hw issued key).1) haccount
  · rintro issued key rfl account haccount
    obtain rfl : issued = now := hstep
    exact hcall (.getWithToken key) (fun engine h => (h.alike_read hw issued key).2) haccount
  · rintro change rfl
    obtain rfl : change = fun engine => engine.sweep now := hstep
    refine ⟨engine.sweep now, ?_, hengine.sweep hw now, hengine.alike_sweep hw now⟩
    rw [h]
    rfl

namespace InStep

omit [Hears A] hw in
theorem mono {later : Instant} (h : cluster.InStep kind now) (hle : now ≤ later) :
    cluster.InStep kind later :=
  ⟨h.settled, fun id hid other hother engine twin hengine htwin =>
    (h.alike id hid other hother engine twin hengine htwin).mono hle⟩

omit [Hears A] hw in
/-- Engines of which each is alike to an engine that was in step are in step. -/
theorem of_alike (h : cluster.InStep kind now) {after : Cluster (Engine A)}
    (hring : after.ring = cluster.ring)
    (hnodes : ∀ id ∈ cluster.ring.nodes, ∀ engine, cluster.nodes[id]? = some engine →
      engine.Settled kind → ∃ next, after.nodes[id]? = some next ∧ next.Settled kind ∧
        engine.Alike now next) : after.InStep kind now := by
  constructor
  · intro id hid
    rw [hring] at hid
    obtain ⟨engine, hengine, hsettled⟩ := h.settled id hid
    obtain ⟨next, hnext, hkept, -⟩ := hnodes id hid engine hengine hsettled
    exact ⟨next, hnext, hkept⟩
  · intro id hid other hother next twin hnext htwin
    rw [hring] at hid hother
    obtain ⟨engine, hengine, hsettled⟩ := h.settled id hid
    obtain ⟨second, hsecond, hsettled'⟩ := h.settled other hother
    obtain ⟨found, hfound, -, halike⟩ := hnodes id hid engine hengine hsettled
    obtain ⟨found', hfound', -, halike'⟩ := hnodes other hother second hsecond hsettled'
    obtain rfl : found = next := Option.some.inj (hfound.symm.trans hnext)
    obtain rfl : found' = twin := Option.some.inj (hfound'.symm.trans htwin)
    exact (halike.symm.trans (h.alike id hid other hother engine second hengine hsecond)).trans
      halike'

/-- Engines that are in step stay so if all of them carry out the same call. -/
theorem of_call (h : cluster.InStep kind now) {after : Cluster (Engine A)} {α : Type}
    (call : Call α) (hring : after.ring = cluster.ring)
    (hnodes : ∀ id ∈ cluster.ring.nodes, ∀ engine, cluster.nodes[id]? = some engine →
      after.nodes[id]? = some (engine.perform now call).1 ∧
        engine.Fits now PutOutcome.Plain call) : after.InStep kind now := by
  constructor
  · intro id hid
    rw [hring] at hid
    obtain ⟨engine, hengine, hsettled⟩ := h.settled id hid
    exact ⟨_, (hnodes id hid engine hengine).1, hsettled.perform hw now call⟩
  · intro id hid other hother next twin hnext htwin
    rw [hring] at hid hother
    obtain ⟨engine, hengine, hsettled⟩ := h.settled id hid
    obtain ⟨second, hsecond, hsettled'⟩ := h.settled other hother
    obtain ⟨hafter, hfits⟩ := hnodes id hid engine hengine
    obtain ⟨hafter', hfits'⟩ := hnodes other hother second hsecond
    obtain rfl : (engine.perform now call).1 = next := Option.some.inj (hafter.symm.trans hnext)
    obtain rfl : (second.perform now call).1 = twin := Option.some.inj (hafter'.symm.trans htwin)
    exact (h.alike id hid other hother engine second hengine hsecond).perform hw hsettled
      hsettled' hfits hfits'

/-- One step keeps engines in step. -/
theorem apply (h : cluster.InStep kind now)
    (hcovers : cluster.ring.nodes.length ≤ cluster.replicationFactor)
    (step : ClusterStep (Engine A)) (hstep : step.At now)
    (hidle : ∀ id, step.HandsOverTo id → cluster.Idle now id)
    (hfits : cluster.StepFits PutOutcome.Plain step) : (cluster.apply step).InStep kind now := by
  have hring : (cluster.apply step).ring = cluster.ring :=
    congrArg Prod.fst (layout_apply cluster step)
  -- a step may reach some nodes only if it changes no key, and else it reaches all of them
  by_cases hspares : ∀ key, step.Spares key
  · refine h.of_alike hring fun id _ engine hengine hsettled => ?_
    exact alike_apply hw hengine hsettled step hstep hspares (hidle id)
  · cases step with
    | write issued write =>
        obtain rfl : issued = now := hstep
        refine h.of_call hw write.call hring fun id hid engine hengine => ?_
        have hreplica : id ∈ cluster.replicas write.key :=
          (cluster.ring.mem_replicas_iff write.key id hcovers).mpr hid
        exact ⟨node_write hengine issued write hreplica, hfits id hreplica engine hengine⟩
    | clear issued =>
        obtain rfl : issued = now := hstep
        refine h.of_call hw .clear hring fun id hid engine hengine => ?_
        exact ⟨node_clear hengine issued hid, trivial⟩
    | get | getWithToken | nodeRejoined | replayPending | shift =>
        exact absurd (fun _ => trivial) hspares

end InStep

end Watched

/-- Steps follow one another, from one instant to another, and hand over only hints
that change nothing. -/
def Undisturbed : Instant → Cluster (Engine A) → List (ClusterStep (Engine A)) → Instant → Prop
  | start, _, [], now => start ≤ now
  | start, cluster, step :: steps, now => ∃ time, start ≤ time ∧ step.At time ∧
    (∀ id, step.HandsOverTo id → cluster.Idle time id) ∧
    Undisturbed time (cluster.apply step) steps now

/-- A run in which the engines of all nodes do the same: every node is a replica of
every key, all are in step at first, the clock does not go back, no hint that is
handed over changes anything, every set is stored, and nobody leaves for it. -/
structure Lockstep (kind : A → Prop) (cluster : Cluster (Engine A))
    (steps : List (ClusterStep (Engine A))) (now : Instant) : Prop where
  covers : cluster.ring.nodes.length ≤ cluster.replicationFactor
  undisturbed : ∃ start, cluster.InStep kind start ∧ Undisturbed start cluster steps now
  fits : cluster.RunFits PutOutcome.Plain steps

/-- Whatever is done in lockstep leaves all engines in step. -/
theorem Lockstep.inStep (hw : ∀ now, Watches kind heard record (Hears.hear now))
    {steps : List (ClusterStep (Engine A))} (h : cluster.Lockstep kind steps now) :
    (cluster.run steps).InStep kind now := by
  obtain ⟨hcovers, ⟨start, hstart, hundisturbed⟩, hfits⟩ := h
  induction steps generalizing cluster start with
  | nil => exact hstart.mono hundisturbed
  | cons step steps ih =>
      obtain ⟨time, hle, hstep, hidle, hrest⟩ := hundisturbed
      obtain ⟨hring, hfactor⟩ := Prod.mk.inj (layout_apply cluster step)
      have hnext := (hstart.mono hle).apply hw hcovers step hstep hidle hfits.1
      have hcovers' : (cluster.apply step).ring.nodes.length ≤
          (cluster.apply step).replicationFactor := by
        rw [hring, hfactor]
        exact hcovers
      exact ih hcovers' hfits.2 time hnext hrest

end Cluster

end ReplicatedCache
