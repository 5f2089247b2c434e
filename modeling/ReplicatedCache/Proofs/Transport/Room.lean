import ReplicatedCache.Proofs.Cluster.Solitary
import ReplicatedCache.Proofs.Transport.Supplies

/-! # Room for responses

A request that fits into a frame gets a response that does, as long as no operation has to
report that it missed its quorum: what is found fits because it came in, and everything
else is short. A report repeats the key and adds why the leader failed. Then there may be
no room for it, and the request goes unanswered.
-/

namespace ReplicatedCache

/-! ## The size of responses -/

def Reply.value? : Reply → Option Value
  | value found => found
  | valueWithToken found => found.map (·.1)
  | _ => none

/-- A reply is longer than its value by a number, a mark, a length and a token at most. -/
theorem Reply.size_write_le {reply : Reply} (h : ∀ value ∈ reply.value?, Brought value) :
    reply.write.size ≤ Frame.limit := by
  have hlimit : 5 ≤ Frame.limit := by decide
  have hbool (ok : Bool) : (Wire.writeBool ok).size = 1 := rfl
  have hnone {α : Type} (write : α → ByteArray) : (Wire.writeOption write none).size = 1 := rfl
  cases reply with
  | stored | deleted | swapped =>
      simp only [write, ByteArray.size_append, Wire.size_writeVariant, hbool]
      omega
  | value found =>
      cases found with
      | none =>
          simp only [write, ByteArray.size_append, Wire.size_writeVariant, hnone]
          omega
      | some v =>
          have hsize := brought_iff.mp (h v rfl)
          simp only [write, Wire.writeOption, ByteArray.size_append, Wire.size_writeVariant,
            Wire.size_writeValue, Wire.size_bytes, List.length_singleton]
          omega
  | valueWithToken found =>
      cases found with
      | none =>
          simp only [write, ByteArray.size_append, Wire.size_writeVariant, hnone]
          omega
      | some pair =>
          have hsize := brought_iff.mp (h pair.1 rfl)
          simp only [write, Wire.writeOption, Wire.writeWord, ByteArray.size_append,
            Wire.size_writeVariant, Wire.size_writeValue, Wire.size_bytes,
            List.length_singleton, Wire.length_digits]
          omega
  | cleared | pong =>
      simp only [write, Wire.size_writeVariant]
      omega

theorem Reply.size_write_le_of_none {reply : Reply} (h : reply.value? = none) :
    reply.write.size ≤ Frame.limit :=
  size_write_le fun value hvalue => by
    rw [h] at hvalue
    cases hvalue

theorem Response.size_write_error (text : String) :
    (Response.error text).write.size = 12 + text.utf8ByteSize := by
  have hsize : text.toUTF8.size = text.utf8ByteSize := rfl
  rw [write, ByteArray.size_append, Wire.size_writeVariant, Wire.size_writeText, hsize]
  omega

/-- An engine answers every request with a response that fits into a frame. -/
theorem Engine.Stocked.size_handle_le {A : Type} [Hears A] {engine : Engine A}
    (h : engine.Stocked) (now : Instant) (request : Request) :
    (engine.handle now request).2.write.size ≤ Frame.limit := by
  cases request with
  | plain operation =>
      apply Reply.size_write_le
      intro value hvalue
      cases operation with
      | get key => exact h.get hvalue
      | getWithToken key =>
          obtain ⟨⟨found, token⟩, hfound, rfl⟩ := Option.map_eq_some_iff.mp hvalue
          exact h.getWithToken hfound
      | set | delete | compareAndSwap | clear => cases hvalue
  | ping =>
      have hpong : Reply.pong.write.size ≤ Frame.limit := by decide
      exact hpong
  | client operation =>
      have herror : ServiceError.needsCluster.response.write.size ≤ Frame.limit := by decide
      exact herror

/-! ## Reports of missed quorums -/

/-- The write of which an operation reports that it missed its quorum. -/
def Operation.reported? : Operation → Option Write
  | set key value ttl => some (.set key value (.ofWire ttl))
  | compareAndSwap key value expected ttl =>
    some (.compareAndSwap key value expected (.ofWire ttl))
  | _ => none

namespace Cluster

section Reports

variable {N : Type} [Node N] {cluster : Cluster N} {now : Instant}

/-- A write misses its quorum without its leader, and there is no room to report this with
the key of the write and the cause. -/
def Overflows (cluster : Cluster N) (now : Instant) (write : Write) : Prop :=
  ¬ cluster.HasQuorum now write ∧ ∃ absence, cluster.LeaderAbsent now write absence ∧
    Frame.limit < 42 + write.name.utf8ByteSize + write.key.utf8ByteSize +
      (toString (cluster.acknowledgements now write)).utf8ByteSize +
      (toString (majority (cluster.replicas write.key).length)).utf8ByteSize +
      (describeAbsence absence).utf8ByteSize

theorem not_overflows_of_none {asked : Option Write} (h : asked = none) :
    ¬ ∃ write, asked = some write ∧ cluster.Overflows now write := by
  rintro ⟨write, hwrite, -⟩
  cases h.symm.trans hwrite

theorem utf8ByteSize_describeMissed (missed : QuorumMissed (Node.Failure N)) :
    (describeMissed missed).utf8ByteSize = 30 + missed.write.name.utf8ByteSize +
      missed.write.key.utf8ByteSize + (toString missed.acknowledged).utf8ByteSize +
      (toString missed.needed).utf8ByteSize + (describeAbsence missed.leader).utf8ByteSize := by
  have hspace : (" " : String).utf8ByteSize = 1 := rfl
  have hmissed : (" missed quorum (" : String).utf8ByteSize = 16 := rfl
  have hslash : ("/" : String).utf8ByteSize = 1 := rfl
  have hreplicas : (" replicas): " : String).utf8ByteSize = 12 := rfl
  simp only [describeMissed, String.utf8ByteSize_append, hspace, hmissed, hslash, hreplicas]
  omega

/-- A leader without followers that fails is reported. -/
theorem write_of_alone (write : Write) {id : String} {absence : Absence (Node.Failure N)}
    (hreplicas : cluster.replicas write.key = [id])
    (hreply : cluster.reply now write id = .error absence) :
    (cluster.write now write).2 = .error ⟨write, 0, 1, absence⟩ := by
  have hnobody : cluster.acknowledgements now write = 0 := by
    rw [acknowledgements, hreplicas, List.countP_singleton, acknowledges, hreply]
    rfl
  have hmissed : ¬ cluster.HasQuorum now write := by
    rw [HasQuorum, hreplicas, hnobody, List.length_singleton]
    decide
  refine ((cluster.decides_write now write).failed_iff _).mpr
    ⟨hmissed, absence, ⟨id, by rw [hreplicas, List.head?_cons], hreply⟩, ?_⟩
  rw [hnobody, hreplicas, List.length_singleton]
  rfl

theorem handle_set_of_alone {key id : String} {value : Value} {ttl : UInt64}
    {absence : Absence (Node.Failure N)} (hreplicas : cluster.replicas key = [id])
    (hreply : cluster.reply now (.set key value (.ofWire ttl)) id = .error absence) :
    (cluster.handle now (.set key value ttl)).2 =
      .error ("SET " ++ key ++ (" missed quorum (0/1 replicas): " ++ describeAbsence absence)) := by
  change writeResponse .stored (cluster.write now (.set key value (.ofWire ttl))).2 = _
  rw [write_of_alone (.set key value (.ofWire ttl)) hreplicas hreply]
  have hbefore : "SET" ++ " " = "SET " := rfl
  have hbehind : " missed quorum (" ++ toString 0 ++ "/" ++ toString 1 ++ " replicas): " =
      " missed quorum (0/1 replicas): " := rfl
  rw [← hbefore, ← hbehind]
  simp only [writeResponse, describeMissed, String.append_assoc]
  rfl

/-- The response to a write does not fit into a frame if and only if it is such a report. -/
theorem limit_lt_writeResponse_iff (reply : Bool → Reply) (hreply : ∀ ok, (reply ok).value? = none)
    (write : Write) :
    Frame.limit < (writeResponse reply (cluster.write now write).2).write.size ↔
      cluster.Overflows now write := by
  have hdecides := decides_write cluster now write
  cases houtcome : (cluster.write now write).2 with
  | ok ok =>
      have hfits : (Response.reply (reply ok)).write.size ≤ Frame.limit :=
        Reply.size_write_le_of_none (hreply ok)
      refine iff_of_false (Nat.not_lt.mpr hfits) ?_
      rintro ⟨hmissed, absence, habsent, -⟩
      have herror := (hdecides.failed_iff _).mpr ⟨hmissed, absence, habsent, rfl⟩
      cases houtcome.symm.trans herror
  | error missed =>
      rw [houtcome] at hdecides
      obtain ⟨hmissed, absence, habsent, rfl⟩ := (hdecides.failed_iff missed).mp rfl
      rw [writeResponse, Response.size_write_error, utf8ByteSize_describeMissed]
      dsimp only
      constructor
      · exact fun hlong => ⟨hmissed, absence, habsent, by omega⟩
      · rintro ⟨-, other, hother, hlong⟩
        have hsame := (hdecides.failed_iff _).mpr ⟨hmissed, other, hother, rfl⟩
        obtain rfl : absence = other := congrArg QuorumMissed.leader (Except.error.inj hsame)
        omega

end Reports

section Finds

variable {N A ρ : Type} [Node N] [Hears A] {kind : A → Prop} {heard : A → List ρ}
  {record : Signal → List ρ} {inOrder : N → Prop} {engine : N → Engine A} {cluster : Cluster N}
  (hw : ∀ now, Watches kind heard record (Hears.hear now)) (hfronts : FrontsWhile inOrder engine)
  (h : cluster.Supplied (SuppliedBehind inOrder engine kind))
include hw hfronts h

/-- What a cluster finds came in through a request. -/
theorem Supplied.get {now : Instant} {key : String} {value : Value}
    (hfound : (cluster.get now key).2 = some value) : Brought value := by
  have hcall : (Call.get key).Brings := Call.brings_of_none rfl
  refine of_firstFound_eq_some (fun account => account.Supplied _) Brought
    (fun _ haccount => haccount.call (hfronts.retains hw) hcall) ?_ (fun id _ => h id) hfound
  intro account value haccount hvalue
  obtain ⟨node, hnode, hengine⟩ :=
    hfronts.found (fun hnode => (haccount.node hnode).1) rfl hvalue
  exact (haccount.node hnode).2.stocked.get hengine

theorem Supplied.getWithToken {now : Instant} {key : String} {pair : Value × Token}
    (hfound : (cluster.getWithToken now key).2 = some pair) : Brought pair.1 := by
  have hcall : (Call.getWithToken key).Brings := Call.brings_of_none rfl
  refine of_firstFound_eq_some (fun account => account.Supplied _) (fun pair => Brought pair.1)
    (fun _ haccount => haccount.call (hfronts.retains hw) hcall) ?_ (fun id _ => h id) hfound
  intro account pair haccount hpair
  obtain ⟨node, hnode, hengine⟩ :=
    hfronts.found (fun hnode => (haccount.node hnode).1) rfl hpair
  exact (haccount.node hnode).2.stocked.getWithToken hengine

/-- A cluster answers every operation with a response that fits into a frame, unless the
report of a missed quorum does not. -/
theorem Supplied.limit_lt_handle_iff (now : Instant) (operation : Operation) :
    Frame.limit < (cluster.handle now operation).2.write.size ↔
      ∃ write, operation.reported? = some write ∧ cluster.Overflows now write := by
  have hreply {reply : Reply} (hfits : reply.write.size ≤ Frame.limit) :
      ¬ Frame.limit < (Response.reply reply).write.size := Nat.not_lt.mpr hfits
  cases operation with
  | set key value ttl =>
      exact (limit_lt_writeResponse_iff .stored (fun _ => rfl) _).trans
        (by simp [Operation.reported?])
  | compareAndSwap key value expected ttl =>
      exact (limit_lt_writeResponse_iff .swapped (fun _ => rfl) _).trans
        (by simp [Operation.reported?])
  | get key =>
      refine iff_of_false (hreply (Reply.size_write_le fun value hvalue => ?_))
        (not_overflows_of_none rfl)
      exact h.get hw hfronts hvalue
  | getWithToken key =>
      refine iff_of_false (hreply (Reply.size_write_le fun value hvalue => ?_))
        (not_overflows_of_none rfl)
      obtain ⟨pair, hpair, rfl⟩ := Option.map_eq_some_iff.mp hvalue
      exact h.getWithToken hw hfronts hpair
  | delete key | clear =>
      exact iff_of_false (hreply (Reply.size_write_le_of_none rfl)) (not_overflows_of_none rfl)

end Finds

end Cluster

/-! ## One request, one response -/

namespace Service

variable {S : Type} [Service S]

/-- A request at the front of a stream gets one response, and the conversation goes on
behind it. -/
def Answers (state : S) (now : Instant) (request : Request) (rest : ByteArray) : Prop :=
  let answered := answer state now request
  let conversation := converse answered.1 now rest
  converse state now (Frame.wrap request.write ++ rest) =
    { conversation with sent := Frame.wrap answered.2.write ++ conversation.sent }

/-- A request at the front of a stream is carried out and gets no response, and the
conversation ends. -/
def BreaksOff (state : S) (now : Instant) (request : Request) (rest : ByteArray) : Prop :=
  let answered := answer state now request
  converse state now (Frame.wrap request.write ++ rest) =
    { state := answered.1, fault := some (.tooLong answered.2.write.size) }

theorem answers_of_le (state : S) (now : Instant) {request : Request} (rest : ByteArray)
    (hrequest : request.write.size ≤ Frame.limit)
    (hresponse : (answer state now request).2.write.size ≤ Frame.limit) :
    Answers state now request rest := by
  have hconverse := converse_request state now hrequest rest
  rw [Frame.write_of_le hresponse] at hconverse
  exact hconverse

theorem breaksOff_of_lt (state : S) (now : Instant) {request : Request} (rest : ByteArray)
    (hrequest : request.write.size ≤ Frame.limit)
    (hresponse : Frame.limit < (answer state now request).2.write.size) :
    BreaksOff state now request rest := by
  have hconverse := converse_request state now hrequest rest
  rw [Frame.write_of_lt hresponse] at hconverse
  exact hconverse

end Service

/-- The write of which a request asks for a report if it misses its quorum. -/
def Request.reported? : Request → Option Write
  | client operation => operation.reported?
  | _ => none

section Requests

variable {N A B ρ : Type} [Node N] [Hears A] [Hears B] {kind : A → Prop} {heard : A → List ρ}
  {record : Signal → List ρ} {inOrder : N → Prop} {engine : N → Engine A} {cluster : Cluster N}
  {own : Engine B}

theorem Gateway.answer_client (own : Engine B) (cluster : Cluster N) (now : Instant)
    (operation : Operation) :
    (Service.answer (⟨own, cluster⟩ : Gateway B N) now (.client operation)).2 =
      (cluster.handle now operation).2 := rfl

theorem Gateway.limit_lt_answer_iff
    (hw : ∀ now, Watches kind heard record (Hears.hear now)) (hfronts : FrontsWhile inOrder engine)
    (h : cluster.Supplied (SuppliedBehind inOrder engine kind))
    (hown : own.Stocked) (now : Instant) (request : Request) :
    Frame.limit < (Service.answer (⟨own, cluster⟩ : Gateway B N) now request).2.write.size ↔
      ∃ write, request.reported? = some write ∧ cluster.Overflows now write := by
  cases request with
  | client operation => exact h.limit_lt_handle_iff hw hfronts now operation
  | plain operation =>
      exact iff_of_false (Nat.not_lt.mpr (hown.size_handle_le now (.plain operation)))
        (Cluster.not_overflows_of_none rfl)
  | ping =>
      exact iff_of_false (Nat.not_lt.mpr (hown.size_handle_le now .ping))
        (Cluster.not_overflows_of_none rfl)

/-- Whatever has happened to a cluster, as long as its values came in through requests that
fit into a frame: every such request gets one response, unless it asks for a write that
misses its quorum and there is no room for the report of this. Then it gets none, and the
conversation ends. -/
theorem requests_answered_unless_report_overflows
    (hw : ∀ now, Watches kind heard record (Hears.hear now)) (hfronts : FrontsWhile inOrder engine)
    {start : Cluster N} (hstart : start.Supplied (SuppliedBehind inOrder engine kind))
    {steps : List (ClusterStep N)}
    (hsteps : ∀ step ∈ steps, step.Brings (SuppliedBehind inOrder engine kind))
    (hown : own.Stocked) (now : Instant) {request : Request}
    (hrequest : request.write.size ≤ Frame.limit) (rest : ByteArray) :
    let gateway : Gateway B N := ⟨own, start.run steps⟩
    let overflows := ∃ write, request.reported? = some write ∧
      (start.run steps).Overflows now write
    (¬ overflows → Service.Answers gateway now request rest) ∧
      (overflows → Service.BreaksOff gateway now request rest) := by
  intro gateway overflows
  have hiff : Frame.limit < (Service.answer gateway now request).2.write.size ↔ overflows :=
    Gateway.limit_lt_answer_iff hw hfronts (hstart.run (hfronts.retains hw) hsteps) hown now request
  constructor
  · exact fun hroom => Service.answers_of_le gateway now rest hrequest
      (Nat.not_lt.mp (mt hiff.mp hroom))
  · exact fun hover => Service.breaksOff_of_lt gateway now rest hrequest (hiff.mpr hover)

end Requests

/-! ## A report without room -/

theorem stocked_unheard : Cluster.unheard.Stocked := by
  intro key entry h
  cases (Cluster.find?_unheard key).symm.trans h

theorem supplied_unheard : Cluster.unheard.Supplied fun _ => True :=
  ⟨Cluster.settled_unheard, stocked_unheard⟩

/-- A node that the program has, behind a switch. -/
abbrev AnyNode := Switched (Member Unit (Host (Served (Engine Unit))))

namespace AnyNode

/-- The connection of the node is idle, and its values came in through requests. -/
def Supplied : AnyNode → Prop :=
  SuppliedBehind (fun switched => switched.node.Idle)
    (fun switched => switched.node.engine fun host => host.peer.service) fun _ => True

/-- Something happens to the engine of this process, past all switches. -/
def onOwn (change : Engine Unit → Engine Unit) : AnyNode → AnyNode
  | ⟨id, switch, .own engine⟩ => ⟨id, switch, .own (change engine)⟩
  | remote => remote

theorem Supplied.onOwn {change : Engine Unit → Engine Unit} {node : AnyNode} (h : node.Supplied)
    (hchange : ∀ engine : Engine Unit, engine.Supplied (fun _ => True) →
      (change engine).Supplied fun _ => True) : (node.onOwn change).Supplied := by
  obtain ⟨id, switch, engine | remote⟩ := node
  · exact ⟨trivial, hchange engine h.2⟩
  · exact h

end AnyNode

/-- An engine, and one that is served by a host. -/
def mixedPair : Cluster AnyNode :=
  (Cluster.addNode ⟨.ofVirtualNodes 1, ∅, 2, .empty, Nat.zero_lt_two⟩
      "a" ⟨"a", {}, .own Cluster.unheard⟩).addNode
    "b" ⟨"b", {}, .remote
      { id := "b", address := "127.0.0.1:7000", connectTimeout := ⟨1⟩, requestTimeout := ⟨1⟩
        peer := { peer := ⟨Cluster.unheard⟩ } }⟩

theorem supplied_mixedPair : mixedPair.Supplied AnyNode.Supplied := by
  have hcreated : Cluster.create? (.ofVirtualNodes 1) 2 =
      .ok (⟨.ofVirtualNodes 1, ∅, 2, .empty, Nat.zero_lt_two⟩ : Cluster AnyNode) := rfl
  refine ((Cluster.supplied_of_create? hcreated).addNode ⟨trivial, supplied_unheard⟩).addNode
    ⟨?_, supplied_unheard⟩
  rintro connection ⟨⟩

/-- A read that follows a plain request, a write while one of two nodes cannot be reached,
and a sweep. -/
theorem requests_answered_get :
    let plain : Request := .plain (.set "l" "w".toUTF8 1)
    let steps : List (ClusterStep AnyNode) :=
      [.shift "a" (AnyNode.onOwn fun engine => (engine.handle 999 plain).1),
        .shift "b" fun switched => { switched with switch := { mode := .down } },
        .write 1000 (.set "k" "v".toUTF8 ⟨0⟩),
        .shift "a" (AnyNode.onOwn fun engine => engine.sweep 1001)]
    let gateway : Gateway Unit AnyNode := ⟨Cluster.unheard, mixedPair.run steps⟩
    let request : Request := .client (.get "k")
    request.write.size ≤ Frame.limit ∧ Service.Answers gateway 1002 request .empty := by
  intro plain steps gateway request
  have hserves : Serves fun served : Served (Engine Unit) => served.service := serves_engine
  have hsteps : ∀ step ∈ steps, step.Brings AnyNode.Supplied := by
    have hvalue : Brought "v".toUTF8 := brought_iff.mpr (by decide)
    have hplain : plain.write.size ≤ Frame.limit := by decide
    intro step hmem
    simp only [steps, List.mem_cons, List.not_mem_nil, or_false] at hmem
    rcases hmem with rfl | rfl | rfl | rfl
    · exact fun _ h => AnyNode.Supplied.onOwn h fun _ hengine =>
        hengine.handle watches_nobody 999 hplain
    · exact fun _ h => h
    · rintro value ⟨⟩
      exact hvalue
    · exact fun _ h => AnyNode.Supplied.onOwn h fun _ hengine => hengine.sweep watches_nobody 1001
  have hrequest : request.write.size ≤ Frame.limit := by decide
  have hanswers := requests_answered_unless_report_overflows watches_nobody
    hserves.host.member.switched supplied_mixedPair hsteps stocked_unheard 1002 hrequest .empty
  exact ⟨hrequest, hanswers.1 (Cluster.not_overflows_of_none rfl)⟩

def repeated (text : String) : Nat → String
  | 0 => ""
  | n + 1 => text ++ repeated text n

theorem utf8ByteSize_repeated (text : String) (n : Nat) :
    (repeated text n).utf8ByteSize = n * text.utf8ByteSize := by
  induction n with
  | zero => rw [Nat.zero_mul]; rfl
  | succ n ih => rw [repeated, String.utf8ByteSize_append, ih, Nat.succ_mul, Nat.add_comm]

/-- Repeating a text begins and ends elsewhere in another one. -/
theorem append_repeated_append (front behind : String) (n : Nat) :
    front ++ repeated (behind ++ front) n ++ behind = repeated (front ++ behind) (n + 1) := by
  induction n with
  | zero => rw [repeated, repeated, repeated, String.append_empty, String.append_empty]
  | succ n ih =>
      calc front ++ repeated (behind ++ front) (n + 1) ++ behind
          = front ++ behind ++ (front ++ repeated (behind ++ front) n ++ behind) := by
            simp only [repeated, String.append_assoc]
        _ = repeated (front ++ behind) (n + 1 + 1) := by rw [ih]; rfl

/-- A new engine that cannot be reached, by itself on the ring. -/
def unreachable : Cluster (Switched (Engine Unit)) :=
  Cluster.addNode
    { ring := .ofVirtualNodes 1, nodes := ∅, replicationFactor := 1, handoff := .empty,
      factor_pos := Nat.one_pos }
    "a" ⟨"a", { mode := .down }, Cluster.unheard⟩

def besideUnreachable : Gateway Unit (Switched (Engine Unit)) := ⟨Cluster.unheard, unreachable⟩

theorem answer_besideUnreachable (now : Instant) (key : String) (value : Value) (ttl : UInt64) :
    (Service.answer besideUnreachable now (.client (.set key value ttl))).2 =
      .error ("SET " ++ key ++ " missed quorum (0/1 replicas): a is unreachable") := by
  have hreplicas : unreachable.replicas key = ["a"] :=
    Ring.replicas_eq_of_nodes (Ring.nodes_add_ofVirtualNodes 1 "a") key unreachable.factor_pos
  have hreply : unreachable.reply now (.set key value (.ofWire ttl)) "a" =
      .error (.failed (.unreachable "a")) := rfl
  have hcause : " missed quorum (0/1 replicas): " ++ ("a" ++ " is unreachable") =
      " missed quorum (0/1 replicas): a is unreachable" := rfl
  have hresponse := Cluster.handle_set_of_alone hreplicas hreply
  rw [besideUnreachable, Gateway.answer_client, hresponse, ← hcause]
  rfl

theorem supplied_unreachable :
    unreachable.Supplied (SuppliedBehind (fun _ => True) Switched.node fun _ => True) := by
  have hcreated : Cluster.create? (.ofVirtualNodes 1) 1 =
      .ok (⟨.ofVirtualNodes 1, ∅, 1, .empty, Nat.one_pos⟩ : Cluster (Switched (Engine Unit))) := rfl
  exact (Cluster.supplied_of_create? hcreated).addNode ⟨trivial, supplied_unheard⟩

/-- The longest key in a request is longer than the longest key in a report. -/
theorem unanswered_of_size {key : String} (hfits : 32 + key.utf8ByteSize ≤ Frame.limit)
    (hlong : Frame.limit < 63 + key.utf8ByteSize) :
    (Request.client (.set key .empty 0)).write.size ≤ Frame.limit ∧
      Frame.limit <
        (Service.answer besideUnreachable 0 (.client (.set key .empty 0))).2.write.size := by
  constructor
  · have hsize : key.toUTF8.size = key.utf8ByteSize := rfl
    have hempty : ByteArray.empty.size = 0 := rfl
    simp only [Request.write, Operation.write, Wire.writeWord, ByteArray.size_append,
      Wire.size_writeVariant, Wire.size_writeText, Wire.size_writeValue, Wire.size_bytes,
      Wire.length_digits, hsize, hempty]
    omega
  · have hfront : ("SET " : String).utf8ByteSize = 4 := rfl
    have hbehind : (" missed quorum (0/1 replicas): a is unreachable" : String).utf8ByteSize = 47 :=
      rfl
    rw [answer_besideUnreachable, Response.size_write_error, String.utf8ByteSize_append,
      String.utf8ByteSize_append, hfront, hbehind]
    omega

/-- Such a key may make the report the same words over and over. -/
theorem unanswered_of_repeated {n : Nat} (hfits : 32 + n * 51 ≤ Frame.limit)
    (hlong : Frame.limit < 63 + n * 51) :
    let key := repeated " missed quorum (0/1 replicas): a is unreachableSET " n
    let request : Request := .client (.set key .empty 0)
    request.write.size ≤ Frame.limit ∧
      (Service.answer besideUnreachable 0 request).2 =
        .error (repeated "SET  missed quorum (0/1 replicas): a is unreachable" (n + 1)) ∧
      Service.BreaksOff besideUnreachable 0 request .empty := by
  intro key request
  have hsize : key.utf8ByteSize = n * 51 := utf8ByteSize_repeated _ n
  obtain ⟨hrequest, hover⟩ := unanswered_of_size (hsize ▸ hfits) (hsize ▸ hlong)
  refine ⟨hrequest, ?_, Service.breaksOff_of_lt besideUnreachable 0 .empty hrequest hover⟩
  have hturned : "SET " ++ key ++ " missed quorum (0/1 replicas): a is unreachable" =
      repeated "SET  missed quorum (0/1 replicas): a is unreachable" (n + 1) :=
    append_repeated_append "SET " " missed quorum (0/1 replicas): a is unreachable" n
  rw [← hturned]
  exact answer_besideUnreachable 0 key .empty 0

/-- A set of an empty value under a key of 67108809 bytes fits into a frame, and the report
that its only replica cannot be reached has 67108872 bytes: the conversation ends without a
response, although nothing but requests that fit has brought values in. -/
theorem report_overflows_repeated :
    let key := repeated " missed quorum (0/1 replicas): a is unreachableSET " 1315859
    let request : Request := .client (.set key .empty 0)
    FrontsWhile (fun _ => True) (fun switched : Switched (Engine Unit) => switched.node) ∧
      besideUnreachable.cluster.Supplied
        (SuppliedBehind (fun _ => True) Switched.node fun _ => True) ∧
      besideUnreachable.engine.Stocked ∧
      request.write.size ≤ Frame.limit ∧
      (Service.answer besideUnreachable 0 request).2 =
        .error (repeated "SET  missed quorum (0/1 replicas): a is unreachable" 1315860) ∧
      Service.BreaksOff besideUnreachable 0 request .empty :=
  ⟨fronts_engine.always.switched, supplied_unreachable, stocked_unheard,
    unanswered_of_repeated (by decide) (by decide)⟩

end ReplicatedCache
