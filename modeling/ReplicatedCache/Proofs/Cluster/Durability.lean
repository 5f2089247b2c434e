import ReplicatedCache.Proofs.Cluster.Engines

/-! # How long an acknowledged write lasts

In a cluster of engines that let the least recently used key leave, every write
is answered and no set is turned down, so that nothing but deletes is ever kept
as a hint: a replica other than the leader declines to delete a key that it does
not hold. Such a hint waits while the key is written again. A value without a
deadline is lost at a replica exactly when it was stored while a delete of its
key was waiting, and the replica is handed its hints afterwards.
-/

namespace ReplicatedCache

/-- The call changes nothing that a key without a deadline is bound to. -/
def Call.Spares (key : String) : {α : Type} → Call α → Prop
  | _, .get _ | _, .getWithToken _ => True
  | _, .set other _ _ | _, .delete other | _, .compareAndSwap other _ _ _ => other ≠ key
  | _, .clear => False

theorem Write.spares_call {write : Write} {key : String} (h : write.key ≠ key) :
    write.call.Spares key := by
  cases write <;> exact h

/-- What is found, if anything, has no deadline. -/
def Lasting (found : Option Entry) : Prop := ∀ entry ∈ found, entry.hasDeadline = false

variable {A ρ : Type} [Hears A] {kind : A → Prop} {heard : A → List ρ}
  {record : Signal → List ρ}

namespace Engine

variable {engine : Engine A} {key : String}

omit [Hears A] in
/-- An entry without a deadline is looked up alike at every time. -/
theorem lookup_of_lasting (h : Lasting (engine.shards.find? key)) (now : Instant) :
    engine.lookup now key = engine.shards.find? key := by
  cases hfind : engine.shards.find? key with
  | none => exact lookup_of_find hfind
  | some entry =>
      apply lookup_of_live hfind
      rw [Entry.expired_iff]
      have hnever := h entry hfind
      rw [Entry.hasDeadline, decide_eq_false_iff_not] at hnever
      exact fun hexpired => hnever hexpired.1

omit [Hears A] in
/-- A call that spares a key leaves its lasting entry in place. -/
theorem entryAfter_of_spares (h : Lasting (engine.shards.find? key)) {α : Type} {call : Call α}
    (hspares : call.Spares key) (now : Instant) :
    engine.entryAfter now key call = engine.shards.find? key := by
  cases call with
  | set other value ttl => exact if_neg hspares.symm
  | get other | getWithToken other =>
      rw [entryAfter]
      split
      next heq => rw [← heq, lookup_of_lasting h]
      next => rfl
  | delete other => exact if_neg hspares.symm
  | compareAndSwap other value expected ttl =>
      rw [entryAfter]
      split
      next => exact if_neg hspares.symm
      next => exact if_neg fun hboth => hspares hboth.1.symm
  | clear => exact hspares.elim

/-- An engine that is settled and lets the least recently used key leave. -/
structure Steady (kind : A → Prop) (engine : Engine A) : Prop extends Settled kind engine where
  isLru : engine.shards.IsLru

namespace Steady

variable (hw : ∀ now, Watches kind heard record (Hears.hear now))
include hw

theorem perform (h : engine.Steady kind) (now : Instant) {α : Type} (call : Call α) :
    (engine.perform now call).1.Steady kind :=
  ⟨h.toSettled.perform hw now call, h.toSettled.isLru_perform hw now call h.isLru⟩

theorem sweep (h : engine.Steady kind) (now : Instant) : (engine.sweep now).Steady kind :=
  ⟨h.toSettled.sweep hw now, h.toSettled.isLru_sweep hw now h.isLru⟩

theorem takeAll (h : engine.Steady kind) (now : Instant) (hints : List Write) :
    (engine.takeAll now hints).Steady kind :=
  takeAll_keeps (fun _ write hengine => hengine.perform hw now write.call) h hints

/-- A call that spares a key leaves it bound to what it is bound to. -/
theorem find?_perform_of_spares (h : engine.Steady kind)
    (hlasting : Lasting (engine.shards.find? key)) {now : Instant} {α : Type} {call : Call α}
    (hspares : call.Spares key)
    (hfits : engine.Fits now (fun outcome => key ∉ outcome.evicted) call) :
    (engine.perform now call).1.shards.find? key = engine.shards.find? key := by
  have hfits' : engine.Fits now (PutOutcome.Spares key) call := by
    cases call with
    | set other value ttl => exact ⟨putOutcome_stored h.isLru now other value ttl, hfits⟩
    | get | getWithToken | delete | compareAndSwap | clear => trivial
  rw [h.toSettled.find?_perform hw now call key hfits', entryAfter_of_spares hlasting hspares]

/-- Handing deletes over takes their keys out and leaves the others. -/
theorem find?_takeAll (h : engine.Steady kind) {hints : List Write}
    (hdeletes : ∀ hint ∈ hints, ∃ key, hint = .delete key) (now : Instant) (key : String) :
    (engine.takeAll now hints).shards.find? key =
      if .delete key ∈ hints then none else engine.shards.find? key := by
  induction hints generalizing engine with
  | nil => rfl
  | cons hint hints ih =>
      obtain ⟨deleted, rfl⟩ := hdeletes hint List.mem_cons_self
      have hfirst := h.toSettled.find?_perform hw now (.delete deleted) key trivial
      have hrest := ih (h.perform hw now (.delete deleted))
        fun hint hmem => hdeletes hint (List.mem_cons_of_mem _ hmem)
      refine hrest.trans ?_
      rw [hfirst, entryAfter]
      by_cases heq : key = deleted
      · simp [heq]
      · simp [heq]

end Steady

end Engine

/-! ## Seen from one replica -/

namespace Account

variable {account : Account (Engine A)} {leads : String → Prop} {key : String}

def find? (account : Account (Engine A)) (key : String) : Option Entry :=
  account.node.bind fun engine => engine.shards.find? key

omit [Hears A] in
theorem find?_engine (engine : Engine A) (hints : List Write) (key : String) :
    (⟨some engine, hints⟩ : Account (Engine A)).find? key = engine.shards.find? key := rfl

/-- A replica whose engine is steady, and for which nothing waits but deletes of
keys that it does not lead. -/
structure Steady (kind : A → Prop) (leads : String → Prop) (account : Account (Engine A)) :
    Prop where
  engine : ∃ engine, account.node = some engine ∧ engine.Steady kind
  hints : ∀ hint ∈ account.hints, ∃ key, hint = .delete key ∧ ¬ leads key

/-- A steady engine declines nothing but to delete. -/
theorem of_mem_missed {engine : Engine A} (h : engine.Steady kind) {now : Instant}
    {write hint : Write} {isLeader : Bool}
    (hmem : hint ∈ missed write isLeader (some (engine.perform now write.call).2)) :
    hint = write ∧ (∃ key, write = .delete key) ∧ isLeader = false := by
  cases write with
  | set key value ttl =>
      have hanswer : (engine.perform now (Write.set key value ttl).call).2 = true :=
        (engine.perform_set_snd now key value ttl).trans
          (Engine.putOutcome_stored h.isLru now key value ttl)
      rw [hanswer] at hmem
      exact absurd hmem List.not_mem_nil
  | delete key =>
      cases hanswer : (engine.perform now (Write.delete key).call).2 with
      | true =>
          rw [hanswer] at hmem
          exact absurd hmem List.not_mem_nil
      | false =>
          rw [hanswer] at hmem
          cases isLeader with
          | true => exact absurd hmem List.not_mem_nil
          | false => exact ⟨List.mem_singleton.mp hmem, ⟨key, rfl⟩, rfl⟩
  | compareAndSwap key value expected ttl =>
      cases hanswer : (engine.perform now (Write.compareAndSwap key value expected ttl).call).2 <;>
        rw [hanswer] at hmem <;> exact absurd hmem List.not_mem_nil

namespace Steady

variable (hw : ∀ now, Watches kind heard record (Hears.hear now))
include hw

/-- A call keeps an account steady, whether the node can be reached or not. -/
theorem call (h : account.Steady kind leads) (now : Instant) {α : Type} (call : Call α) :
    (account.call now call).1.Steady kind leads := by
  obtain ⟨node, hints⟩ := account
  obtain ⟨⟨engine, rfl, hengine⟩, hhints⟩ := h
  exact ⟨⟨_, rfl, hengine.perform hw now call⟩, hhints⟩

/-- A write sent from the leader keeps the account steady, and so does a miss. -/
theorem receive (h : account.Steady kind leads) (now : Instant) (write : Write) {isLeader : Bool}
    (hleads : leads write.key → isLeader = true) :
    (account.receive now write isLeader).Steady kind leads := by
  obtain ⟨node, hints⟩ := account
  obtain ⟨⟨engine, rfl, hengine⟩, hhints⟩ := h
  refine ⟨⟨_, rfl, hengine.perform hw now write.call⟩, ?_⟩
  intro hint hmem
  rcases List.mem_append.mp hmem with hold | hnew
  · exact hhints hint hold
  -- what is kept is a delete that was declined, and the refusal of a leader is not kept
  · obtain ⟨rfl, ⟨key, rfl⟩, hfollower⟩ := of_mem_missed hengine hnew
    refine ⟨key, rfl, fun hleader => ?_⟩
    exact absurd (hfollower.symm.trans (hleads hleader)) Bool.false_ne_true

/-- A handover to a steady account empties its queue, and the only trace of the hints is that
the deleted keys are gone. -/
theorem handOver (h : account.Steady kind leads) (now : Instant) :
    (account.handOver now).Steady kind leads ∧ (account.handOver now).hints = [] ∧
      ∀ key, (account.handOver now).find? key =
        if .delete key ∈ account.hints then none else account.find? key := by
  obtain ⟨node, hints⟩ := account
  obtain ⟨⟨engine, rfl, hengine⟩, hhints⟩ := h
  have hdeletes : ∀ hint ∈ hints, ∃ key, hint = .delete key := fun hint hmem =>
    (hhints hint hmem).imp fun _ hdelete => hdelete.1
  rw [handOver_engine]
  refine ⟨⟨⟨_, rfl, hengine.takeAll hw now hints⟩, nofun⟩, rfl, ?_⟩
  exact fun key => hengine.find?_takeAll hw hdeletes now key

end Steady

/-- A steady replica at which a key is bound to something without a deadline, and a
delete of the key waits or not. -/
structure Keeps (kind : A → Prop) (leads : String → Prop) (key : String) (found : Option Entry)
    (waits : Prop) (account : Account (Engine A)) : Prop extends Steady kind leads account where
  find?_eq : account.find? key = found
  lasting : Lasting found
  waits_iff : .delete key ∈ account.hints ↔ waits

namespace Keeps

variable {found : Option Entry} {waits : Prop}
  (hw : ∀ now, Watches kind heard record (Hears.hear now))

include hw

/-- A call that spares the key keeps what the account holds under it, given that nothing evicts
it. -/
theorem call (h : account.Keeps kind leads key found waits) (now : Instant) {α : Type}
    (call : Call α) (hspares : call.Spares key)
    (hfits : ∀ engine ∈ account.node,
      engine.Fits now (fun outcome => key ∉ outcome.evicted) call) :
    (account.call now call).1.Keeps kind leads key found waits := by
  refine ⟨h.toSteady.call hw now call, ?_, h.lasting, ?_⟩
  · obtain ⟨node, hints⟩ := account
    obtain ⟨engine, rfl, hengine⟩ := h.engine
    have hfind : engine.shards.find? key = found := h.find?_eq
    have hkept := hengine.find?_perform_of_spares hw (hfind ▸ h.lasting) hspares
      (hfits engine rfl)
    exact (find?_engine _ _ key).trans (hkept.trans hfind)
  · rw [hints_call]
    exact h.waits_iff

/-- A write of another key keeps what the account holds under this one. -/
theorem receive (h : account.Keeps kind leads key found waits) {now : Instant} {write : Write}
    {isLeader : Bool} (hleads : leads write.key → isLeader = true) (hne : write.key ≠ key)
    (hfits : ∀ engine ∈ account.node,
      engine.Fits now (fun outcome => key ∉ outcome.evicted) write.call) :
    (account.receive now write isLeader).Keeps kind leads key found waits := by
  have hcalled := h.call hw now write.call (Write.spares_call hne) hfits
  refine ⟨h.toSteady.receive hw now write hleads, hcalled.find?_eq, h.lasting, ?_⟩
  obtain ⟨node, hints⟩ := account
  obtain ⟨engine, rfl, hengine⟩ := h.engine
  refine Iff.trans ?_ h.waits_iff
  refine ⟨fun hmem => ?_, fun hmem => List.mem_append_left _ hmem⟩
  rcases List.mem_append.mp hmem with hold | hnew
  · exact hold
  · obtain ⟨heq, -, -⟩ := of_mem_missed hengine hnew
    exact absurd (congrArg Write.key heq).symm hne

theorem sweep (h : account.Keeps kind leads key found waits) (now : Instant) :
    ({ account with node := account.node.map fun engine => engine.sweep now } :
      Account (Engine A)).Keeps kind leads key found waits := by
  obtain ⟨node, hints⟩ := account
  obtain ⟨engine, rfl, hengine⟩ := h.engine
  have hfind : engine.shards.find? key = found := h.find?_eq
  refine ⟨⟨⟨_, rfl, hengine.sweep hw now⟩, h.hints⟩, ?_, h.lasting, h.waits_iff⟩
  refine (hengine.toSettled.find?_sweep hw now key).trans ?_
  rw [Engine.lookup_of_lasting (hfind ▸ h.lasting), hfind]

end Keeps

end Account

namespace Cluster

variable {cluster : Cluster (Engine A)} {id key : String}

def Leads (cluster : Cluster (Engine A)) (id key : String) : Prop :=
  (cluster.replicas key).head? = some id

omit [Hears A] in
theorem leads_of_layout {other : Cluster (Engine A)} (h : other.layout = cluster.layout)
    (id : String) : other.Leads id = cluster.Leads id := by
  funext key
  rw [Leads, Leads, replicas_of_layout h]

omit [Hears A] in
/-- A replica with a steady engine for which nothing waits is steady. -/
theorem steady_of_start {engine : Engine A} (h : cluster.account id = ⟨some engine, []⟩)
    (hengine : engine.Steady kind) : (cluster.account id).Steady kind (cluster.Leads id) := by
  rw [h]
  exact ⟨⟨engine, rfl, hengine⟩, nofun⟩

section Runs

variable (hw : ∀ now, Watches kind heard record (Hears.hear now))
include hw

/-- Every step at a time of the history keeps the accounts steady. -/
theorem steady_apply (h : (cluster.account id).Steady kind (cluster.Leads id))
    {step : ClusterStep (Engine A)} {now : Instant} (hstep : step.At now) :
    ((cluster.apply step).account id).Steady kind (cluster.Leads id) := by
  by_cases hhands : step.HandsOverTo id
  · rw [account_of_handsOverTo cluster hhands hstep]
    exact (h.handOver hw now).1
  · refine account_apply _ h hhands ?_ ?_ ?_ ?_ ?_
    · intro now write _ _
      exact h.receive hw now write fun hleads => decide_eq_true (p := _ = some id) hleads
    · exact fun now _ => h.call hw now .clear
    · exact fun now key _ account haccount => haccount.call hw now (.get key)
    · exact fun now key _ account haccount => haccount.call hw now (.getWithToken key)
    · rintro change rfl
      obtain rfl : change = fun engine => engine.sweep now := hstep
      obtain ⟨engine, hnode, hengine⟩ := h.engine
      refine ⟨⟨engine.sweep now, ?_, hengine.sweep hw now⟩, h.hints⟩
      rw [hnode]
      rfl

/-- Accounts stay steady along a whole history. -/
theorem steady_run (h : (cluster.account id).Steady kind (cluster.Leads id))
    {steps : List (ClusterStep (Engine A))} (hsteps : ∀ step ∈ steps, ∃ now, step.At now) :
    ((cluster.run steps).account id).Steady kind (cluster.Leads id) := by
  induction steps generalizing cluster with
  | nil => exact h
  | cons step steps ih =>
      obtain ⟨now, hstep⟩ := hsteps step List.mem_cons_self
      have hnext := steady_apply hw h hstep
      have hsame := leads_of_layout (layout_apply cluster step) id
      rw [← hsame] at hnext ⊢
      exact ih hnext fun step hmem => hsteps step (List.mem_cons_of_mem _ hmem)

variable {found : Option Entry} {waits : Prop}

/-- A step that spares a key and hands nothing over leaves everything as it is. -/
theorem keeps_apply (h : (cluster.account id).Keeps kind (cluster.Leads id) key found waits)
    {step : ClusterStep (Engine A)} {now : Instant} (hstep : step.At now)
    (hspares : step.Spares key) (hnot : ¬ step.HandsOverTo id)
    (hfits : cluster.StepFits (fun outcome => key ∉ outcome.evicted) step) :
    ((cluster.apply step).account id).Keeps kind (cluster.Leads id) key found waits := by
  refine account_apply _ h hnot ?_ ?_ ?_ ?_ ?_
  · rintro issued write rfl hreplica
    exact h.receive hw (fun hleads => decide_eq_true (p := _ = some id) hleads) hspares
      fun engine hengine => hfits id hreplica engine hengine
  · rintro issued rfl
    exact hspares.elim
  · exact fun issued other _ account haccount =>
      haccount.call hw issued (.get other) trivial fun _ _ => trivial
  · exact fun issued other _ account haccount =>
      haccount.call hw issued (.getWithToken other) trivial fun _ _ => trivial
  · rintro change rfl
    obtain rfl : change = fun engine => engine.sweep now := hstep
    exact h.sweep hw now

/-- When the hints are handed over, a key leaves for whose delete is among them. -/
theorem keeps_handOver (h : (cluster.account id).Keeps kind (cluster.Leads id) key found waits)
    {step : ClusterStep (Engine A)} {now : Instant} (hstep : step.At now)
    (hhands : step.HandsOverTo id) :
    (waits → ((cluster.apply step).account id).Keeps kind (cluster.Leads id) key none False) ∧
      (¬ waits →
        ((cluster.apply step).account id).Keeps kind (cluster.Leads id) key found False) := by
  obtain ⟨hsteady, hhints, hfind⟩ := h.toSteady.handOver hw now
  have hempty : .delete key ∈ ((cluster.account id).handOver now).hints ↔ False := by
    simp [hhints]
  rw [account_of_handsOverTo cluster hhands hstep]
  constructor
  · intro hwaits
    refine ⟨hsteady, ?_, nofun, hempty⟩
    rw [hfind, if_pos (h.waits_iff.mpr hwaits)]
  · intro hfree
    refine ⟨hsteady, ?_, h.lasting, hempty⟩
    rw [hfind, if_neg (mt h.waits_iff.mp hfree), h.find?_eq]

/-- While a key is spared, it stays bound to what it is bound to, unless a delete
waits and the hints are handed over. -/
theorem keeps_run (h : (cluster.account id).Keeps kind (cluster.Leads id) key found waits)
    {steps : List (ClusterStep (Engine A))} (hsteps : ∀ step ∈ steps, ∃ now, step.At now)
    (hspares : ∀ step ∈ steps, step.Spares key)
    (hfits : cluster.RunFits (fun outcome => key ∉ outcome.evicted) steps) :
    ∃ left waiting,
      ((cluster.run steps).account id).Keeps kind (cluster.Leads id) key left waiting ∧
      (waits ∧ (∃ step ∈ steps, step.HandsOverTo id) → left = none) ∧
      (¬ (waits ∧ ∃ step ∈ steps, step.HandsOverTo id) → left = found) := by
  induction steps generalizing cluster found waits with
  | nil =>
      exact ⟨found, waits, h, fun ⟨_, _, hmem, _⟩ => absurd hmem List.not_mem_nil, fun _ => rfl⟩
  | cons step steps ih =>
      obtain ⟨now, hstep⟩ := hsteps step List.mem_cons_self
      have hspared := hspares step List.mem_cons_self
      have hsame := leads_of_layout (layout_apply cluster step) id
      have hlater {found : Option Entry} {waits : Prop}
          (hnext : ((cluster.apply step).account id).Keeps kind (cluster.Leads id) key found
            waits) :=
        ih (hsame ▸ hnext)
          (fun step hmem => hsteps step (List.mem_cons_of_mem _ hmem))
          (fun step hmem => hspares step (List.mem_cons_of_mem _ hmem)) hfits.2
      rw [hsame] at hlater
      by_cases hhands : step.HandsOverTo id
      -- the queue is empty afterwards, so the rest of the run takes nothing out
      · obtain ⟨hwaiting, hfree⟩ := keeps_handOver hw h hstep hhands
        by_cases hwaits : waits
        · obtain ⟨left, waiting, hend, -, hleft⟩ := hlater (hwaiting hwaits)
          refine ⟨left, waiting, hend, fun _ => hleft fun hboth => hboth.1, fun hnot => ?_⟩
          exact absurd ⟨hwaits, step, List.mem_cons_self, hhands⟩ hnot
        · obtain ⟨left, waiting, hend, -, hleft⟩ := hlater (hfree hwaits)
          exact ⟨left, waiting, hend, fun hboth => absurd hboth.1 hwaits,
            fun _ => hleft fun hboth => hboth.1⟩
      · have hnext := hlater (keeps_apply hw h hstep hspared hhands hfits.1)
        have hothers : (∃ later ∈ step :: steps, later.HandsOverTo id) ↔
            ∃ later ∈ steps, later.HandsOverTo id := by
          simp [hhands]
        rw [hothers]
        exact hnext

end Runs

/-! ## A set and what follows it -/

/-- A replica holds a value under a key, whatever the time. -/
def Holds (cluster : Cluster (Engine A)) (id key : String) (value : Value) : Prop :=
  ∃ engine, cluster.nodes[id]? = some engine ∧
    ∀ now, (engine.lookup now key).map Entry.value = some value

omit [Hears A] in
/-- A replica holds what it keeps. -/
theorem holds_iff {leads : String → Prop} {found : Option Entry} {waits : Prop}
    (h : (cluster.account id).Keeps kind leads key found waits) {value : Value} :
    cluster.Holds id key value ↔ found.map Entry.value = some value := by
  obtain ⟨engine, hnode, -⟩ := h.engine
  have hfind : engine.shards.find? key = found := by
    have hfound := h.find?_eq
    rwa [Account.find?, hnode, Option.bind_some] at hfound
  have hlookup (now : Instant) : engine.lookup now key = found :=
    (Engine.lookup_of_lasting (hfind ▸ h.lasting) now).trans hfind
  constructor
  · rintro ⟨other, hother, hholds⟩
    obtain rfl : engine = other := Option.some.inj (hnode.symm.trans hother)
    rw [← hlookup 0]
    exact hholds 0
  · intro hvalue
    refine ⟨engine, hnode, fun now => ?_⟩
    rw [hlookup]
    exact hvalue

section Set

variable (hw : ∀ now, Watches kind heard record (Hears.hear now))
include hw

/-- A steady replica takes a set and goes on waiting for what it waited for. -/
theorem keeps_set (h : (cluster.account id).Steady kind (cluster.Leads id))
    (hreplica : id ∈ cluster.replicas key) (now : Instant) (value : Value) :
    cluster.acknowledges now (.set key value .zero) id = true ∧
      ∃ entry, entry.value = value ∧
        ((cluster.set now key value .zero).1.account id).Keeps kind (cluster.Leads id) key
          (some entry) (.delete key ∈ cluster.handoff.pending id) := by
  obtain ⟨engine, hnode, hengine⟩ := h.engine
  have hstored := Engine.putOutcome_stored hengine.isLru now key value .zero
  have hanswer : (engine.perform now (Write.set key value .zero).call).2 = true :=
    (engine.perform_set_snd now key value .zero).trans hstored
  have hfind : (engine.perform now (.set key value .zero)).1.shards.find? key =
      some (engine.fresh value (deadlineAfter now .zero)) :=
    (hengine.toSettled.find?_perform hw now (.set key value .zero) key
      (hengine.sound.spares_self hstored)).trans (if_pos rfl)
  have hafter : (cluster.set now key value .zero).1.account id =
      ⟨some (engine.perform now (.set key value .zero)).1, cluster.handoff.pending id⟩ := by
    refine (account_replicate now (.set key value .zero) cluster id).trans
      ((if_pos hreplica).trans ?_)
    rw [account_engine hnode, Account.receive_engine, hanswer, Account.missed,
      List.append_nil]
    rfl
  refine ⟨(acknowledges_engine hnode now _).trans hanswer,
    engine.fresh value (deadlineAfter now .zero), rfl, ?_⟩
  have hsteady := hengine.perform hw now (.set key value .zero)
  rw [hafter]
  refine ⟨⟨⟨_, rfl, hsteady⟩, h.hints⟩, (Account.find?_engine _ _ key).trans hfind, ?_, Iff.rfl⟩
  rintro entry ⟨⟩
  rfl

/-- A steady replica holds the value of a set. It loses the value when its hints are
handed over, if a delete is among them that was there before the set. -/
theorem holds_run_iff (h : (cluster.account id).Steady kind (cluster.Leads id))
    (hreplica : id ∈ cluster.replicas key) (now : Instant) (value : Value)
    (steps : List (ClusterStep (Engine A))) (hsteps : ∀ step ∈ steps, ∃ now, step.At now)
    (hspares : ∀ step ∈ steps, step.Spares key)
    (hfits : (cluster.set now key value .zero).1.RunFits (fun outcome => key ∉ outcome.evicted)
      steps) :
    (cluster.set now key value .zero).1.Holds id key value ∧
      (((cluster.set now key value .zero).1.run steps).Holds id key value ↔
        ¬ (.delete key ∈ cluster.handoff.pending id ∧ ∃ step ∈ steps, step.HandsOverTo id)) := by
  obtain ⟨-, entry, rfl, hkeeps⟩ := keeps_set hw h hreplica now value
  have hsame : (cluster.set now key entry.value .zero).1.Leads id = cluster.Leads id :=
    leads_of_layout (layout_apply cluster (.write now (.set key entry.value .zero))) id
  obtain ⟨left, waiting, hend, hlost, hkept⟩ := keeps_run hw (hsame ▸ hkeeps) hsteps hspares hfits
  refine ⟨(holds_iff hkeeps).mpr rfl, (holds_iff hend).trans ?_⟩
  constructor
  · intro hleft hboth
    rw [hlost hboth] at hleft
    exact nomatch hleft
  · intro hnot
    rw [hkept hnot]
    rfl

/-- If all replicas are steady, a set succeeds unless there are none. -/
theorem set_eq_ok_iff
    (h : ∀ id ∈ cluster.replicas key, (cluster.account id).Steady kind (cluster.Leads id))
    (now : Instant) (value : Value) :
    (cluster.set now key value .zero).2 = .ok true ↔ cluster.replicas key ≠ [] := by
  have hall : cluster.acknowledgements now (.set key value .zero) =
      (cluster.replicas key).length := by
    apply List.countP_eq_length.mpr
    exact fun id hreplica => (keeps_set hw (h id hreplica) hreplica now value).1
  refine (decides_write cluster now (.set key value .zero)).accepted_iff.trans ?_
  rw [HasQuorum, hall, ← List.length_pos_iff_ne_nil]
  change majority (cluster.replicas key).length ≤ (cluster.replicas key).length ↔ _
  rw [majority]
  omega

end Set

theorem steady_unheard : unheard.Steady fun _ => True :=
  ⟨settled_unheard, Shards.isLru_create _ _⟩

/-- A delete of an absent key is kept for all replicas but the leader. -/
theorem account_delete_of_absent {engine : Engine A} (hnode : cluster.nodes[id]? = some engine)
    (hreplica : id ∈ cluster.replicas key) {now : Instant}
    (habsent : engine.lookup now key = none) :
    (cluster.apply (.write now (.delete key))).account id =
      ⟨some (engine.perform now (.delete key)).1, cluster.handoff.pending id ++
        if (cluster.replicas key).head? = some id then [] else [.delete key]⟩ := by
  have hanswer : (engine.perform now (Write.delete key).call).2 = false :=
    (engine.perform_delete_snd now key).trans (congrArg Option.isSome habsent)
  refine (account_replicate now (.delete key) cluster id).trans ((if_pos hreplica).trans ?_)
  rw [account_engine hnode, Account.receive_engine, hanswer]
  change (⟨_, _ ++ if (true && !decide ((cluster.replicas key).head? = some id)) = true then _
    else _⟩ : Account (Engine A)) = _
  by_cases hleader : (cluster.replicas key).head? = some id
  · simp [hleader]
    rfl
  · simp [hleader]
    rfl

/-- An acknowledged value without a deadline lasts at every replica, as long as its
key is neither written nor cleared nor evicted, unless the replica is handed a
delete of the key for which it had not been there before. The leader has no such
hint. -/
theorem acknowledged_value_lasts_iff (hw : ∀ now, Watches kind heard record (Hears.hear now))
    (hstart : ∀ id ∈ cluster.replicas key, ∃ engine,
      cluster.account id = ⟨some engine, []⟩ ∧ engine.Steady kind)
    (before after : List (ClusterStep (Engine A)))
    (hsteps : ∀ step ∈ before ++ after, ∃ now, step.At now)
    (hspares : ∀ step ∈ after, step.Spares key) (now : Instant) (value : Value)
    (hfits : ((cluster.run before).set now key value .zero).1.RunFits
      (fun outcome => key ∉ outcome.evicted) after) :
    let reached := cluster.run before
    let written := reached.set now key value .zero
    (written.2 = .ok true ↔ cluster.replicas key ≠ []) ∧
      ∀ id ∈ cluster.replicas key, written.1.Holds id key value ∧
        ((written.1.run after).Holds id key value ↔
          ¬ (.delete key ∈ reached.handoff.pending id ∧ ∃ step ∈ after, step.HandsOverTo id)) ∧
        ((cluster.replicas key).head? = some id →
          .delete key ∉ reached.handoff.pending id) := by
  intro reached written
  have hlayout : reached.layout = cluster.layout := layout_run cluster before
  have hreplicas := replicas_of_layout hlayout key
  have hsteady : ∀ id ∈ reached.replicas key,
      (reached.account id).Steady kind (reached.Leads id) := by
    intro id hreplica
    rw [hreplicas] at hreplica
    obtain ⟨engine, haccount, hengine⟩ := hstart id hreplica
    rw [leads_of_layout hlayout]
    exact steady_run hw (steady_of_start haccount hengine) fun step hmem =>
      hsteps step (List.mem_append_left _ hmem)
  rw [← hreplicas]
  refine ⟨set_eq_ok_iff hw hsteady now value, fun id hreplica => ?_⟩
  obtain ⟨hholds, hlasts⟩ := holds_run_iff hw (hsteady id hreplica) hreplica now value after
    (fun step hmem => hsteps step (List.mem_append_right _ hmem)) hspares hfits
  refine ⟨hholds, hlasts, fun hleader hwaits => ?_⟩
  obtain ⟨deleted, heq, hnot⟩ := (hsteady id hreplica).hints _ hwaits
  exact hnot (Write.delete.inj heq ▸ hleader)

/-- After a delete of an absent key, a set of the key lasts at its leader. -/
theorem value_lasts_at_leader :
    let written := ((trio 2).run [.write 0 (.delete "k")]).set 0 "k" "v".toUTF8 .zero
    written.2 = .ok true ∧ (written.1.run [.replayPending 0]).Holds "b" "k" "v".toUTF8 := by
  have hstart : ∀ id ∈ (trio 2).replicas "k", ∃ engine,
      (trio 2).account id = ⟨some engine, []⟩ ∧ engine.Steady fun _ => True :=
    fun id hreplica => ⟨unheard, account_trio_of_replica hreplica, steady_unheard⟩
  obtain ⟨hok, hreplica⟩ := acknowledged_value_lasts_iff watches_nobody hstart
    [.write 0 (.delete "k")] [.replayPending 0]
    (by simp [ClusterStep.At]) (by simp [ClusterStep.Spares]) 0 "v".toUTF8
    ⟨trivial, trivial⟩
  rw [replicas_trio_k] at hok hreplica
  obtain ⟨-, hlasts, hleader⟩ := hreplica "b" List.mem_cons_self
  exact ⟨hok.mpr nofun, hlasts.mpr fun hboth => hleader rfl hboth.1⟩

/-- A delete of an absent key waits for a follower while the key is set, and takes the
acknowledged value out when it is handed over. All nodes answer, and nobody leaves. -/
theorem declined_delete_undoes_set :
    let reached := (trio 2).apply (.write 0 (.delete "k"))
    let written := reached.set 0 "k" "v".toUTF8 .zero
    (trio 2).RunFits (fun outcome => outcome.evicted = [])
        [.write 0 (.delete "k"), .write 0 (.set "k" "v".toUTF8 .zero), .replayPending 0] ∧
      written.2 = .ok true ∧ "c" ∈ (trio 2).replicas "k" ∧
      ¬ (written.1.run [.replayPending 0]).Holds "c" "k" "v".toUTF8 := by
  intro reached written
  have hreplicas : reached.replicas "k" = (trio 2).replicas "k" :=
    replicas_apply (trio 2) (.write 0 (.delete "k")) "k"
  have hdeleted := steady_unheard.perform watches_nobody 0 (.delete "k")
  have hempty (key : String) :
      (unheard.perform 0 (.delete "k")).1.shards.find? key = none := by
    rw [settled_unheard.find?_perform watches_nobody 0 (.delete "k") key trivial, Engine.entryAfter,
      find?_unheard, ite_self]
  have haccount : ∀ id ∈ reached.replicas "k", reached.account id =
      ⟨some (unheard.perform 0 (.delete "k")).1,
        if ((trio 2).replicas "k").head? = some id then [] else [.delete "k"]⟩ := by
    intro id hreplica
    rw [hreplicas] at hreplica
    have hstart := account_trio_of_replica hreplica
    have hnode : (trio 2).nodes[id]? = some unheard := by rw [← node_account, hstart]
    rw [account_delete_of_absent hnode hreplica (Engine.lookup_of_find (find?_unheard "k")),
      ← hints_account, hstart, List.nil_append]
  have hsteady : ∀ id ∈ reached.replicas "k",
      (reached.account id).Steady (fun _ => True) (reached.Leads id) := by
    intro id hreplica
    have hstart := account_trio_of_replica (hreplicas ▸ hreplica)
    rw [leads_of_layout (layout_apply (trio 2) (.write 0 (.delete "k")))]
    exact steady_apply watches_nobody (steady_of_start hstart steady_unheard) rfl
  have hset : reached.StepFits PutOutcome.Plain (.write 0 (.set "k" "v".toUTF8 .zero)) := by
    apply fits_set 0 "v".toUTF8 .zero
    intro id hreplica engine hnode
    obtain rfl : (unheard.perform 0 (.delete "k")).1 = engine :=
      Option.some.inj ((congrArg Account.node (haccount id hreplica)).symm.trans hnode)
    exact ⟨hdeleted.sound, hdeleted.sound.shards.hasRoom_of_empty hempty "k"⟩
  have hfollows : "c" ∈ (trio 2).replicas "k" := by
    rw [replicas_trio_k]
    decide
  have hc : "c" ∈ reached.replicas "k" := hreplicas.symm ▸ hfollows
  obtain ⟨-, hlasts⟩ := holds_run_iff watches_nobody (hsteady "c" hc) hc 0 "v".toUTF8
    [.replayPending 0] (by simp [ClusterStep.At]) (by simp [ClusterStep.Spares])
    ⟨trivial, trivial⟩
  have hwaits : .delete "k" ∈ reached.handoff.pending "c" := by
    have hfollower : ((trio 2).replicas "k").head? ≠ some "c" := by
      rw [replicas_trio_k]
      decide
    rw [← hints_account, haccount "c" hc, if_neg hfollower]
    exact List.mem_singleton_self _
  have hok := (set_eq_ok_iff watches_nobody hsteady 0 "v".toUTF8).mpr (List.ne_nil_of_mem hc)
  have hdelete : (trio 2).StepFits (fun outcome => outcome.evicted = [])
      (.write 0 (.delete "k")) := fun _ _ _ _ => trivial
  refine ⟨⟨hdelete, ?_, ?_⟩, hok, hfollows, ?_⟩
  · exact fun id hreplica engine hnode => (hset id hreplica engine hnode).2
  · exact ⟨trivial, trivial⟩
  · intro hholds
    exact hlasts.mp hholds ⟨hwaits, .replayPending 0, List.mem_singleton_self _, trivial⟩

end Cluster

end ReplicatedCache
