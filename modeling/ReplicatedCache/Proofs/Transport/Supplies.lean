import ReplicatedCache.Proofs.Transport.Fronts

/-! # Where values come from

The values of an engine come in through requests, each of which fitted into a frame. Calls
and sweeps add no others, and the hints of a cluster keep none that did not come in this
way. What a read finds has therefore room in a frame as well.
-/

namespace ReplicatedCache

/-! ## Values in requests -/

namespace Operation

/-- The value that an operation brings. -/
def value? : Operation → Option Value
  | set _ value _ | compareAndSwap _ value _ _ => some value
  | _ => none

end Operation

namespace Request

/-- The value that a request brings. -/
def value? : Request → Option Value
  | plain operation | client operation => operation.value?
  | ping => none

end Request

/-- A request that brings the value fits into a frame. -/
def Brought (value : Value) : Prop :=
  ∃ request : Request, request.value? = some value ∧ request.write.size ≤ Frame.limit

/-- Next to a value, the shortest request that brings it has a number, a key, a time to live
and two lengths. -/
theorem brought_iff {value : Value} : Brought value ↔ value.size + 28 ≤ Frame.limit := by
  constructor
  · rintro ⟨request, hvalue, hfits⟩
    have hsize {operation : Operation} (hvalue : operation.value? = some value) :
        value.size + 28 ≤ operation.write.size := by
      cases operation with
      | set key other ttl =>
          obtain rfl : other = value := Option.some.inj hvalue
          simp only [Operation.write, Wire.writeWord, ByteArray.size_append,
            Wire.size_writeVariant, Wire.size_writeText, Wire.size_writeValue, Wire.size_bytes,
            Wire.length_digits]
          omega
      | compareAndSwap key other expected ttl =>
          obtain rfl : other = value := Option.some.inj hvalue
          simp only [Operation.write, Wire.writeWord, ByteArray.size_append,
            Wire.size_writeVariant, Wire.size_writeText, Wire.size_writeValue, Wire.size_bytes,
            Wire.length_digits]
          omega
      | get | getWithToken | delete | clear => cases hvalue
    cases request with
    | plain operation => exact Nat.le_trans (hsize hvalue) hfits
    | client operation =>
        rw [Request.write, ByteArray.size_append] at hfits
        exact Nat.le_trans (hsize hvalue) (Nat.le_trans (Nat.le_add_left _ _) hfits)
    | ping => cases hvalue
  · intro hsize
    refine ⟨.plain (.set "" value 0), rfl, ?_⟩
    simp only [Request.write, Operation.write, Wire.writeWord, ByteArray.size_append,
      Wire.size_writeVariant, Wire.size_writeText, Wire.size_writeValue, Wire.size_bytes,
      Wire.length_digits]
    have hempty : ("" : String).toUTF8.size = 0 := rfl
    omega

namespace Call

/-- The value that a call brings. -/
def value? : {α : Type} → Call α → Option Value
  | _, .set _ value _ | _, .compareAndSwap _ value _ _ => some value
  | _, _ => none

/-- The call brings no value that did not come in through a request. -/
def Brings {α : Type} (call : Call α) : Prop := ∀ value ∈ call.value?, Brought value

theorem brings_of_none {α : Type} {call : Call α} (h : call.value? = none) : call.Brings := by
  intro value hvalue
  rw [h] at hvalue
  cases hvalue

end Call

/-- An operation asks for one call, which brings the same value. -/
theorem Operation.exists_call (operation : Operation) :
    ∃ (α : Type) (call : Call α), call.value? = operation.value? ∧
      ∀ {β : Type} (use : {α : Type} → Call α → β), operation.withCall use = use call := by
  cases operation <;> exact ⟨_, _, rfl, fun _ => rfl⟩

/-! ## Values in engines -/

namespace Engine

variable {A ρ : Type}

/-- Every value of an engine came in through a request. -/
def Stocked (engine : Engine A) : Prop :=
  ∀ key entry, engine.shards.find? key = some entry → Brought entry.value

variable [Hears A] {engine : Engine A} {now : Instant}

omit [Hears A] in
/-- A call leaves under a key what was there, or the value that it brings. -/
theorem find?_or_value?_of_entryAfter {α : Type} {call : Call α} {other : String} {entry : Entry}
    (h : engine.entryAfter now other call = some entry) :
    engine.shards.find? other = some entry ∨ call.value? = some entry.value := by
  by_cases hwrites : call.Writes other
  · cases call with
    | set key value ttl =>
        obtain rfl : key = other := hwrites
        rw [entryAfter, if_pos rfl] at h
        exact Or.inr (Option.some.inj h ▸ rfl)
    | compareAndSwap key value expected ttl =>
        obtain rfl : key = other := hwrites
        rw [entryAfter] at h
        split at h
        next =>
          rw [if_pos rfl] at h
          cases h
        next found hfound =>
          split at h
          next => exact Or.inr (Option.some.inj h ▸ rfl)
          next => exact Or.inl h
    | get | getWithToken | delete | clear => exact hwrites.elim
  · exact Or.inl (entryAfter_of_not_writes hwrites h)

theorem Stocked.get (h : engine.Stocked) {key : String} {value : Value}
    (hfound : (engine.perform now (.get key)).2 = some value) : Brought value := by
  rw [perform_get_snd] at hfound
  obtain ⟨entry, hlookup, rfl⟩ := Option.map_eq_some_iff.mp hfound
  exact h _ _ (find?_of_lookup hlookup)

theorem Stocked.getWithToken (h : engine.Stocked) {key : String} {value : Value} {token : Token}
    (hfound : (engine.perform now (.getWithToken key)).2 = some (value, token)) :
    Brought value := by
  rw [perform_getWithToken_snd] at hfound
  obtain ⟨entry, hlookup, heq⟩ := Option.map_eq_some_iff.mp hfound
  obtain ⟨rfl, -⟩ := Prod.mk.inj heq
  exact h _ _ (find?_of_lookup hlookup)

/-- An engine in order, all of whose values came in through requests. -/
structure Supplied (kind : A → Prop) (engine : Engine A) : Prop where
  settled : engine.Settled kind
  stocked : engine.Stocked

variable {kind : A → Prop} {heard : A → List ρ} {record : Signal → List ρ}

theorem Supplied.perform (hw : ∀ now, Watches kind heard record (Hears.hear now))
    (h : engine.Supplied kind) (now : Instant) {α : Type} {call : Call α} (hcall : call.Brings) :
    (engine.perform now call).1.Supplied kind := by
  refine ⟨h.settled.perform hw now call, fun other entry hfind => ?_⟩
  rcases h.settled.find?_of_perform hw now call hfind with hold | hafter
  · exact h.stocked other entry hold
  · rcases find?_or_value?_of_entryAfter hafter with hold | hnew
    · exact h.stocked other entry hold
    · exact hcall _ hnew

/-- A sweep leaves no values that were not there. -/
theorem Supplied.sweep (hw : ∀ now, Watches kind heard record (Hears.hear now))
    (h : engine.Supplied kind) (now : Instant) : (engine.sweep now).Supplied kind := by
  refine ⟨h.settled.sweep hw now, fun key entry hfind => ?_⟩
  rw [h.settled.find?_sweep hw] at hfind
  exact h.stocked key entry (find?_of_lookup hfind)

/-- A request that fits into a frame brings a value that fits. -/
theorem Supplied.handle (hw : ∀ now, Watches kind heard record (Hears.hear now))
    (h : engine.Supplied kind) (now : Instant) {request : Request}
    (hfits : request.write.size ≤ Frame.limit) : (engine.handle now request).1.Supplied kind := by
  cases request with
  | plain operation =>
      obtain ⟨α, call, hvalue, huse⟩ := operation.exists_call
      have hcall : call.Brings :=
        fun value hbrings => ⟨.plain operation, hvalue.symm.trans hbrings, hfits⟩
      rw [Engine.handle, operate, huse]
      exact h.perform hw now hcall
  | ping | client => exact h

end Engine

/-! ## Values in a cluster -/

section Clusters

variable {N : Type} [Node N]

/-- Nodes with values that came in through requests stay so when they are called with such
values. -/
def Retains (supplied : N → Prop) : Prop :=
  ∀ {node : N}, supplied node → ∀ (now : Instant) {α : Type} (call : Call α), call.Brings →
    supplied (Node.perform node now call).1

/-- A node in order, before an engine all of whose values came in through requests. -/
def SuppliedBehind {A : Type} (inOrder : N → Prop) (engine : N → Engine A) (kind : A → Prop)
    (node : N) : Prop :=
  inOrder node ∧ (engine node).Supplied kind

theorem FrontsWhile.retains {A ρ : Type} [Hears A] {kind : A → Prop} {heard : A → List ρ}
    {record : Signal → List ρ} {inOrder : N → Prop} {engine : N → Engine A}
    (hw : ∀ now, Watches kind heard record (Hears.hear now)) (h : FrontsWhile inOrder engine) :
    Retains (SuppliedBehind inOrder engine kind) := by
  intro node hnode now α call hcall
  refine ⟨h.stays hnode.1 now call, ?_⟩
  rcases h.reaches hnode.1 now call with hsame | hcarried
  · rw [hsame]
    exact hnode.2
  · rw [hcarried]
    exact hnode.2.perform hw now hcall

namespace ClusterStep

/-- The step brings no value that did not come in through a request. What a node undergoes by
itself leaves its values as they should be. -/
def Brings (supplied : N → Prop) : ClusterStep N → Prop
  | .write _ issued => issued.call.Brings
  | .shift _ change => ∀ node, supplied node → supplied (change node)
  | _ => True

end ClusterStep

namespace Account

/-- The values of a node, and those of the hints for it, came in through requests. -/
structure Supplied (supplied : N → Prop) (account : Account N) : Prop where
  node : ∀ {node : N}, account.node = some node → supplied node
  hints : ∀ hint ∈ account.hints, hint.call.Brings

variable {supplied : N → Prop} {account : Account N} {now : Instant}

theorem Supplied.call (hretains : Retains supplied) (h : account.Supplied supplied) {α : Type}
    {call : Call α} (hcall : call.Brings) : (account.call now call).1.Supplied supplied := by
  obtain ⟨_ | node, hints⟩ := account
  · exact h
  · refine ⟨?_, h.hints⟩
    rintro - ⟨⟩
    exact hretains (h.node rfl) now call hcall

theorem Supplied.receive (hretains : Retains supplied) (h : account.Supplied supplied)
    {write : Write} (hwrite : write.call.Brings) (isLeader : Bool) :
    (account.receive now write isLeader).Supplied supplied := by
  refine ⟨(h.call hretains hwrite).node, fun hint hmem => ?_⟩
  rcases List.mem_append.mp hmem with hold | hnew
  · exact h.hints hint hold
  · obtain rfl := eq_of_mem_missed hnew
    exact hwrite

theorem supplied_deliver (hretains : Retains supplied) {node : N} (h : supplied node)
    {hints : List Write} (hhints : ∀ hint ∈ hints, hint.call.Brings) :
    supplied (Handoff.deliver node now hints).node := by
  induction hints generalizing node with
  | nil => exact h
  | cons hint hints ih =>
      obtain ⟨hfirst, hrest⟩ := List.forall_mem_cons.mp hhints
      have hnext := hretains h now hint.call hfirst
      rw [Handoff.deliver]
      rcases hperform : Node.perform node now hint.call with ⟨next, failure | answer⟩
      · rw [hperform] at hnext
        exact hnext
      · rw [hperform] at hnext
        exact ih hnext hrest

theorem Supplied.handOver (hretains : Retains supplied) (h : account.Supplied supplied) :
    (account.handOver now).Supplied supplied := by
  refine ⟨?_, fun hint hmem => ?_⟩
  · obtain ⟨_ | node, hints⟩ := account
    · rintro node ⟨⟩
    · rintro - ⟨⟩
      exact supplied_deliver hretains (h.node rfl) h.hints
  · rw [hints_handOver] at hmem
    exact h.hints hint (List.mem_of_mem_drop hmem)

end Account

namespace Cluster

variable {cluster : Cluster N} {supplied : N → Prop}

/-- A step that hands the hints of a node over does nothing else to its account. -/
theorem exists_account_of_handsOverTo (cluster : Cluster N) {id : String} {step : ClusterStep N}
    (h : step.HandsOverTo id) :
    ∃ now, (cluster.apply step).account id = (cluster.account id).handOver now := by
  cases step with
  | nodeRejoined now other =>
      obtain rfl : other = id := h
      exact ⟨now, account_nodeRejoined_self cluster now other⟩
  | replayPending now => exact ⟨now, account_replayPending cluster now id⟩
  | write | clear | get | getWithToken | shift => exact h.elim

/-- All values in a cluster, those of waiting hints included, came in through requests. -/
def Supplied (supplied : N → Prop) (cluster : Cluster N) : Prop :=
  ∀ id, (cluster.account id).Supplied supplied

omit [Node N] in
/-- A cluster without nodes has no values. -/
theorem supplied_of_create? {ring : Ring} {factor : Nat} {created : Cluster N}
    (h : create? ring factor = .ok created) : created.Supplied supplied := by
  rw [create?] at h
  split at h
  next =>
    obtain rfl := Except.ok.inj h
    refine fun id => ⟨?_, ?_⟩
    · rintro node ⟨⟩
    · rintro hint ⟨⟩
  next => cases h

omit [Node N] in
theorem Supplied.addNode (h : cluster.Supplied supplied) {id : String} {node : N}
    (hnode : supplied node) : (cluster.addNode id node).Supplied supplied := by
  refine fun other => ⟨fun {found} hfound => ?_, (h other).hints⟩
  change (cluster.nodes.insert id node)[other]? = some found at hfound
  rw [Std.ExtTreeMap.getElem?_insert] at hfound
  split at hfound
  next => exact Option.some.inj hfound ▸ hnode
  next => exact (h other).node hfound

theorem Supplied.apply (hretains : Retains supplied) (h : cluster.Supplied supplied)
    {step : ClusterStep N} (hstep : step.Brings supplied) :
    (cluster.apply step).Supplied supplied := by
  intro id
  by_cases hhands : step.HandsOverTo id
  · obtain ⟨now, hafter⟩ := cluster.exists_account_of_handsOverTo hhands
    rw [hafter]
    exact (h id).handOver hretains
  · refine account_apply _ (h id) hhands ?_ ?_ ?_ ?_ ?_
    · rintro now write rfl -
      exact (h id).receive hretains hstep _
    · exact fun _ _ => (h id).call hretains (Call.brings_of_none rfl)
    · exact fun _ _ _ _ haccount => haccount.call hretains (Call.brings_of_none rfl)
    · exact fun _ _ _ _ haccount => haccount.call hretains (Call.brings_of_none rfl)
    · rintro change rfl
      refine ⟨fun {node} hnode => ?_, (h id).hints⟩
      obtain ⟨before, hbefore, rfl⟩ := Option.map_eq_some_iff.mp hnode
      exact hstep before ((h id).node hbefore)

theorem Supplied.run (hretains : Retains supplied) (h : cluster.Supplied supplied)
    {steps : List (ClusterStep N)} (hsteps : ∀ step ∈ steps, step.Brings supplied) :
    (cluster.run steps).Supplied supplied := by
  induction steps generalizing cluster with
  | nil => exact h
  | cons step steps ih =>
      obtain ⟨hstep, hrest⟩ := List.forall_mem_cons.mp hsteps
      exact ih (h.apply hretains hstep) hrest

end Cluster

end Clusters

end ReplicatedCache
