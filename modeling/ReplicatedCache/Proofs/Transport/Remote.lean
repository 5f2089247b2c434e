import ReplicatedCache.Transport.Remote
import ReplicatedCache.Proofs.Time
import ReplicatedCache.Proofs.Wire.Stream

/-! # Calling an engine through a connection

A call to the server of an engine has the answer that the engine itself would have
given, and leaves the engine as the call itself would have left it. The time to live
travels in whole milliseconds, but no deadline depends on more than these; everything
else travels as it is.
-/

namespace ReplicatedCache

namespace Engine

@[simp] theorem swapDecision_ofWire_toWire (now : Instant) (value : Value) (expected : Token)
    (ttl : Span) (fresh : Token) :
    swapDecision now value expected (.ofWire ttl.toWire) fresh =
      swapDecision now value expected ttl fresh := by
  funext found
  simp only [swapDecision, swapDeadline, Span.nanos_ofWire_toWire_eq_zero,
    deadlineAfter_ofWire_toWire]

end Engine

/-! ## The server -/

/-- A call as it arrives: its time to live has travelled. -/
def Call.arrived {α : Type} : Call α → Call α
  | .set key value ttl => .set key value (.ofWire ttl.toWire)
  | .compareAndSwap key value expected ttl =>
    .compareAndSwap key value expected (.ofWire ttl.toWire)
  | call => call

theorem Operation.withCall_ofCall {α β : Type} (call : Call α)
    (use : {α : Type} → Call α → β) : (ofCall call).withCall use = use call.arrived := by
  cases call <;> rfl

@[simp] theorem Reply.ofAnswer_arrived {α : Type} (call : Call α) (answer : α) :
    ofAnswer call.arrived answer = ofAnswer call answer := by
  cases call <;> rfl

namespace Engine

variable {A : Type} [Hears A]

/-- An engine does with a call that arrives what it does with the call itself. -/
@[simp] theorem perform_arrived {α : Type} (engine : Engine A) (now : Instant) (call : Call α) :
    engine.perform now call.arrived = engine.perform now call := by
  cases call with
  | set => simp only [Call.arrived, perform, set, deadlineAfter_ofWire_toWire]
  | compareAndSwap =>
      simp only [Call.arrived, perform, compareAndSwap, swapDecision_ofWire_toWire]
  | get => rfl
  | getWithToken => rfl
  | delete => rfl
  | clear => rfl

theorem answer_ofCall {α : Type} (engine : Engine A) (now : Instant) (call : Call α) :
    Service.answer engine now (.plain (.ofCall call)) =
      ((engine.perform now call).1, .reply (.ofAnswer call (engine.perform now call).2)) := by
  change engine.handle now (.plain (.ofCall call)) = _
  simp only [handle, operate, Operation.withCall_ofCall, perform_arrived, Reply.ofAnswer_arrived]

end Engine

namespace Coordinator

variable {A P : Type} [Hears A] [Peer P] {α : Type} {coordinator : Coordinator (Member A P)}
  {engine : Engine A}

/-- A node of a cluster that calls itself calls its own engine. -/
theorem callNode_own (hown : coordinator.cluster.nodes[coordinator.id]? = some (.own engine))
    (now : Instant) (call : Call α) :
    coordinator.cluster.callNode now coordinator.id call =
      ({ coordinator.cluster with
          nodes := coordinator.cluster.nodes.insert coordinator.id
            (.own (engine.perform now call).1) }, .ok (engine.perform now call).2) := by
  rw [Cluster.callNode, hown]
  rfl

/-- A node of a cluster carries out plain requests on its own engine. -/
theorem operate_of_own (hown : coordinator.cluster.nodes[coordinator.id]? = some (.own engine))
    (now : Instant) (operation : Operation) :
    coordinator.operate now operation =
      (⟨coordinator.id, { coordinator.cluster with
          nodes := coordinator.cluster.nodes.insert coordinator.id
            (.own (engine.operate now operation).1) }⟩,
        .reply (engine.operate now operation).2) := by
  cases operation <;>
    simp only [operate, Engine.operate, Operation.withCall, callNode_own hown]

theorem answer_ofCall (hown : coordinator.cluster.nodes[coordinator.id]? = some (.own engine))
    (now : Instant) (call : Call α) :
    Service.answer coordinator now (.plain (.ofCall call)) =
      (⟨coordinator.id, { coordinator.cluster with
          nodes := coordinator.cluster.nodes.insert coordinator.id
            (.own (engine.perform now call).1) }⟩,
        .reply (.ofAnswer call (engine.perform now call).2)) := by
  change coordinator.operate now (.ofCall call) = _
  simp only [operate_of_own hown, Engine.operate, Operation.withCall_ofCall,
    Engine.perform_arrived, Reply.ofAnswer_arrived]

end Coordinator

namespace Service

variable {S : Type} [Service S]

theorem converse_of_closed (state : S) (now : Instant) {stream : ByteArray}
    (h : Frame.read stream = .closed) : converse state now stream = { state } := by
  rw [converse]
  split
  next => rfl
  next heq => cases h.symm.trans heq
  next heq => cases h.symm.trans heq

/-- A payload whose response fits into a frame is answered, and the conversation goes on. -/
theorem converse_of_found {state after : S} {now : Instant} {stream payload rest : ByteArray}
    {response : Response} (h : Frame.read stream = .found payload rest)
    (hanswer : answerPayload state now payload = (after, response))
    (hresponse : response.write.size ≤ Frame.limit) :
    converse state now stream =
      { converse after now rest with
        sent := Frame.wrap response.write ++ (converse after now rest).sent } := by
  rw [converse]
  split
  next heq => cases h.symm.trans heq
  next heq => cases h.symm.trans heq
  next heq =>
    injection h.symm.trans heq with hsame hrest
    subst hsame hrest
    simp only [hanswer, Frame.write_of_le hresponse]

/-- A conversation of one request: the frame of the response is sent back. -/
theorem converse_wrap {state after : S} {now : Instant} {request : Request} {response : Response}
    (hrequest : request.write.size ≤ Frame.limit) (hresponse : response.write.size ≤ Frame.limit)
    (hanswer : answer state now request = (after, response)) :
    converse state now (Frame.wrap request.write) =
      { state := after, sent := Frame.wrap response.write } := by
  have hread : Frame.read (Frame.wrap request.write) = .found request.write .empty := by
    have hread := Frame.read_wrap hrequest .empty
    rwa [ByteArray.append_empty] at hread
  have hpayload : answerPayload state now request.write = (after, response) := by
    rw [answerPayload, Frame.readsBack_request _ hrequest]
    exact hanswer
  rw [converse_of_found hread hpayload hresponse, converse_of_closed after now rfl,
    ByteArray.append_empty]

end Service

/-! ## The client -/

namespace Connection

/-- A connection that is open and on which nothing waits to be read. -/
def Idle (connection : Connection) : Prop := connection = {}

/-- A response that has arrived is read. -/
theorem await_wrap {response : Response} (h : response.write.size ≤ Frame.limit)
    (closed : Bool) :
    Connection.await { inbox := Frame.wrap response.write, closed } =
      .response response .empty := by
  have hread : Frame.readMessage Response.decode (Frame.wrap response.write) =
      .found response .empty := by
    have hread := Frame.read_wrap h .empty
    rw [ByteArray.append_empty] at hread
    rw [Frame.readMessage, hread]
    dsimp only
    rw [Frame.readsBack_response _ h]
  rw [await, hread]

end Connection

namespace RemoteNode

variable {S : Type} [Service S]

/-- A node that has no connection, or one on which nothing is under way. -/
def Idle {P : Type} (node : RemoteNode P) : Prop :=
  ∀ connection ∈ node.connection, connection.Idle

/-- A request to a service has the reply of the service, if both fit into a frame. -/
theorem request_of_answer {node : RemoteNode (Served S)} (hidle : node.Idle) {now : Instant}
    {request : Request} {reply : Reply} {after : S}
    (hanswer : Service.answer node.peer.service now request = (after, .reply reply))
    (hrequest : request.write.size ≤ Frame.limit)
    (hreply : (Response.reply reply).write.size ≤ Frame.limit) :
    node.request now request =
      ({ node with peer := ⟨after⟩, connection := some {} }, .ok reply) := by
  have hconnected : node.connected = .ok (node.peer, {}) := by
    cases hconnection : node.connection with
    | none => simp only [connected, hconnection]; rfl
    | some connection =>
        obtain rfl : connection = {} := hidle connection hconnection
        simp only [connected, hconnection]
  have htransmit : transmit node.peer now {} request.write =
      (⟨after⟩, { inbox := Frame.wrap (Response.reply reply).write }) := by
    have hreceive : Peer.receive node.peer now request.write =
        (⟨after⟩, { bytes := Frame.wrap (Response.reply reply).write }) := by
      change ((_ : Served S), (_ : Arrival)) = _
      rw [Service.converse_wrap hrequest hreply hanswer]
      rfl
    simp only [transmit, hreceive, ByteArray.empty_append]
    rfl
  simp only [RemoteNode.request, hconnected, Frame.write_of_le hrequest, htransmit,
    Connection.await_wrap hreply]

/-- A call to a service that answers it has that answer. -/
theorem perform_of_answer {α : Type} {node : RemoteNode (Served S)} (hidle : node.Idle)
    {now : Instant} {call : Call α} {answer : α} {after : S}
    (hanswer : Service.answer node.peer.service now (.plain (.ofCall call)) =
      (after, .reply (.ofAnswer call answer)))
    (hrequest : (Request.plain (.ofCall call)).write.size ≤ Frame.limit)
    (hresponse : (Response.reply (.ofAnswer call answer)).write.size ≤ Frame.limit) :
    node.perform now call =
      ({ node with peer := ⟨after⟩, connection := some {} }, .ok answer) := by
  have hreply := request_of_answer hidle hanswer hrequest hresponse
  simp only [perform, hreply, Reply.answer?_ofAnswer]

section Engines

variable {A α : Type} [Hears A]

/-- A call to the server of an engine has the answer that the engine gives, and leaves
the engine as the call itself leaves it. The connection is kept for the next call. -/
theorem perform_eq_local {node : RemoteNode (Served (Engine A))} (hidle : node.Idle)
    (now : Instant) (call : Call α)
    (hrequest : (Request.plain (.ofCall call)).write.size ≤ Frame.limit)
    (hresponse : (Response.reply (.ofAnswer call (node.peer.service.perform now call).2)).write.size
      ≤ Frame.limit) :
    node.perform now call =
      ({ node with peer := ⟨(node.peer.service.perform now call).1⟩, connection := some {} },
        .ok (node.peer.service.perform now call).2) :=
  perform_of_answer hidle (node.peer.service.answer_ofCall now call) hrequest hresponse

/-- A write that may live for one nanosecond, on a first connection. -/
theorem perform_eq_local_nanosecond :
    let engine : Engine Unit := .create ⟨4, 2, .lru⟩ ()
    let node : RemoteNode (Served (Engine Unit)) :=
      { id := "n1", address := "127.0.0.1:7000", connectTimeout := ⟨1⟩, requestTimeout := ⟨1⟩
        peer := ⟨engine⟩ }
    let call : Call Bool := .set "key" "value".toUTF8 ⟨1⟩
    node.Idle ∧
      (Request.plain (.ofCall call)).write.size ≤ Frame.limit ∧
      (Response.reply (.ofAnswer call (engine.perform 1000 call).2)).write.size ≤ Frame.limit ∧
      node.perform 1000 call =
        ({ node with peer := ⟨(engine.perform 1000 call).1⟩, connection := some {} },
          .ok (engine.perform 1000 call).2) := by
  intro engine node call
  have hidle : node.Idle := fun _ h => nomatch h
  have hrequest : (Request.plain (.ofCall call)).write.size ≤ Frame.limit := by decide
  have hanswer : ∀ ok : Bool,
      (Response.reply (.ofAnswer call ok)).write.size ≤ Frame.limit := by decide
  exact ⟨hidle, hrequest, hanswer _, perform_eq_local hidle 1000 call hrequest (hanswer _)⟩

end Engines

end RemoteNode

end ReplicatedCache
