import ReplicatedCache.Proofs.Cluster.Account
import ReplicatedCache.Proofs.Transport.Remote
import ReplicatedCache.Proofs.Wire.Frames

/-! # Conversations

A server answers what arrives on a connection payload by payload: every complete frame
gets one response, which is found from what the responses before it have left behind. A
payload that is no request is answered as well, and changes nothing.
-/

namespace ReplicatedCache

/-! ## Payload by payload -/

namespace Service

variable {S : Type} [Service S]

/-- Answers payloads one after another, each on what the ones before it have left. -/
def answerAll (state : S) (now : Instant) : List ByteArray → S × List Response
  | [] => (state, [])
  | payload :: payloads =>
    let (state, response) := answerPayload state now payload
    let (state, responses) := answerAll state now payloads
    (state, response :: responses)

theorem converse_of_failed (state : S) (now : Instant) {stream rest : ByteArray}
    {error : Frame.Error} (h : Frame.read stream = .failed error rest) :
    converse state now stream = { state, fault := some error } := by
  rw [converse]
  split
  next heq => cases h.symm.trans heq
  next heq =>
    injection h.symm.trans heq with herror _
    rw [herror]
  next heq => cases h.symm.trans heq

/-- As long as the responses fit into frames, a conversation answers the payloads on the
stream one after another, sends back the frames of the responses, and ends as the stream
does. -/
theorem converse_eq_answerAll (state : S) (now : Instant) (stream : ByteArray)
    (hfit : ∀ response ∈ (answerAll state now (Frame.payloads stream).messages).2,
      response.write.size ≤ Frame.limit) :
    converse state now stream =
      { state := (answerAll state now (Frame.payloads stream).messages).1
        sent := Frame.frames
          ((answerAll state now (Frame.payloads stream).messages).2.map Response.write)
        fault := (Frame.payloads stream).fault } := by
  induction stream using Frame.stream_induction generalizing state with
  | closed stream h =>
      rw [converse_of_closed state now h, Frame.payloads_of_closed h]
      rfl
  | failed stream error rest h =>
      rw [converse_of_failed state now h, Frame.payloads_of_failed h]
      rfl
  | found stream payload rest h ih =>
      rw [Frame.payloads_of_found h] at hfit ⊢
      obtain ⟨hfirst, hrest⟩ := List.forall_mem_cons.mp hfit
      rw [converse_of_found h rfl hfirst, ih _ hrest]
      rfl

/-- A payload is answered, and the conversation goes on if the response fits into a frame. -/
theorem converse_of_payload (state : S) (now : Instant) {stream payload rest : ByteArray}
    (h : Frame.read stream = .found payload rest) :
    converse state now stream =
      match Frame.write (answerPayload state now payload).2.write with
      | .error error => { state := (answerPayload state now payload).1, fault := some error }
      | .ok frame =>
        let conversation := converse (answerPayload state now payload).1 now rest
        { conversation with sent := frame ++ conversation.sent } := by
  rw [converse]
  split
  next heq => cases h.symm.trans heq
  next heq => cases h.symm.trans heq
  next heq =>
    injection h.symm.trans heq with hpayload hrest
    subst hpayload hrest
    rfl

end Service

/-- A service with a clock. Whenever it answers a request, the clock has moved on. -/
structure Clocked (S : Type) where
  service : S
  /-- The instants of the requests that are still to come. -/
  instants : Nat → Instant

namespace Clocked

variable {S : Type}

def now (clocked : Clocked S) : Instant := clocked.instants 0

def moveOn (clocked : Clocked S) (service : S) : Clocked S :=
  ⟨service, fun i => clocked.instants (i + 1)⟩

instance [Service S] : Service (Clocked S) where
  answer clocked _ request :=
    let (service, response) := Service.answer clocked.service clocked.now request
    (clocked.moveOn service, response)

end Clocked

/-! ## Servers -/

/-- An engine that is served beside a cluster that does not have it. -/
structure Gateway (A N : Type) where
  engine : Engine A
  cluster : Cluster N

instance {A N : Type} [Hears A] [Node N] : Service (Gateway A N) where
  answer gateway now
    | .client operation =>
      let (cluster, response) := gateway.cluster.handle now operation
      ({ gateway with cluster }, response)
    | request =>
      let (engine, response) := gateway.engine.handle now request
      ({ gateway with engine }, response)

/-- An engine that is served by itself, as a node of a cluster, or beside one. -/
abbrev Server (A P : Type) := Engine A ⊕ Coordinator (Member A P) ⊕ Gateway A (Member A P)

namespace Server

variable {A P : Type}

/-- The engine that answers the plain requests to a server. In a cluster that has it, it
is the node with the id of the server. -/
def Hosts (server : Server A P) (engine : Engine A) : Prop :=
  match server with
  | .inl own => own = engine
  | .inr (.inl coordinator) => coordinator.cluster.nodes[coordinator.id]? = some (.own engine)
  | .inr (.inr gateway) => gateway.engine = engine

def withEngine (server : Server A P) (engine : Engine A) : Server A P :=
  match server with
  | .inl _ => .inl engine
  | .inr (.inl ⟨id, cluster⟩) =>
    .inr (.inl ⟨id, { cluster with nodes := cluster.nodes.insert id (.own engine) }⟩)
  | .inr (.inr gateway) => .inr (.inr { gateway with engine })

def cluster? : Server A P → Option (Cluster (Member A P))
  | .inl _ => none
  | .inr (.inl coordinator) => some coordinator.cluster
  | .inr (.inr gateway) => some gateway.cluster

def withCluster (server : Server A P) (cluster : Cluster (Member A P)) : Server A P :=
  match server with
  | .inl own => .inl own
  | .inr (.inl coordinator) => .inr (.inl { coordinator with cluster })
  | .inr (.inr gateway) => .inr (.inr { gateway with cluster })

theorem Hosts.addNode {cluster : Cluster (Member A P)} {own other : String} {engine : Engine A}
    (h : Hosts (.inr (.inl ⟨own, cluster⟩)) engine) (hother : other ≠ own)
    (member : Member A P) :
    Hosts (.inr (.inl ⟨own, cluster.addNode other member⟩)) engine := by
  have hne : ¬ compare other own = .eq := mt Std.LawfulEqCmp.eq_of_compare hother
  change (cluster.nodes.insert other member)[own]? = _
  rw [Std.ExtTreeMap.getElem?_insert, if_neg hne]
  exact h

variable [Hears A] [Peer P]

/-- What a server makes of one payload, and when. -/
inductive Turn (clocked : Clocked (Server A P)) (payload : ByteArray) :
    Clocked (Server A P) → Response → Prop
  /-- What is no request is answered with an error and changes nothing. -/
  | malformed {error : Wire.DecodeError} :
      Request.decode payload = .error error →
      Turn clocked payload clocked (ServiceError.malformed error).response
  /-- The engine answers a plain request. -/
  | plain {request : Request} {engine : Engine A} :
      Request.decode payload = .ok request → (∀ operation, request ≠ .client operation) →
      clocked.service.Hosts engine →
      Turn clocked payload
        (clocked.moveOn (clocked.service.withEngine (engine.handle clocked.now request).1))
        (engine.handle clocked.now request).2
  /-- The cluster answers a request of an application. -/
  | routed {operation : Operation} {cluster : Cluster (Member A P)} :
      Request.decode payload = .ok (.client operation) →
      clocked.service.cluster? = some cluster →
      Turn clocked payload
        (clocked.moveOn (clocked.service.withCluster (cluster.handle clocked.now operation).1))
        (cluster.handle clocked.now operation).2
  /-- Without a cluster it is answered with an error and changes nothing. -/
  | unroutable {operation : Operation} :
      Request.decode payload = .ok (.client operation) → clocked.service.cluster? = none →
      Turn clocked payload (clocked.moveOn clocked.service) ServiceError.routingDisabled.response

/-- What a server makes of payloads one after another: each gets one response. -/
inductive Turns : Clocked (Server A P) → List ByteArray → List Response →
    Clocked (Server A P) → Prop
  | done {clocked : Clocked (Server A P)} : Turns clocked [] [] clocked
  | go {clocked after final : Clocked (Server A P)} {payload : ByteArray} {response : Response}
      {payloads : List ByteArray} {responses : List Response} :
      Turn clocked payload after response → Turns after payloads responses final →
      Turns clocked (payload :: payloads) (response :: responses) final

/-! ## One turn -/

variable {server : Server A P} {engine : Engine A}

omit [Hears A] [Peer P] in
theorem hosts_withEngine (server : Server A P) (engine : Engine A) :
    (server.withEngine engine).Hosts engine := by
  obtain own | coordinator | gateway := server
  · rfl
  · exact Std.ExtTreeMap.getElem?_insert_self
  · rfl

omit [Hears A] [Peer P] in
theorem withEngine_of_hosts (h : server.Hosts engine) : server.withEngine engine = server := by
  obtain own | coordinator | gateway := server
  · exact congrArg Sum.inl h.symm
  · have hnodes : coordinator.cluster.nodes.insert coordinator.id (.own engine) =
        coordinator.cluster.nodes := by
      refine Std.ExtTreeMap.ext_getElem? fun id => ?_
      rw [Std.ExtTreeMap.getElem?_insert]
      split
      next heq => rw [← Std.LawfulEqCmp.eq_of_compare heq, h]
      next => rfl
    exact congrArg (fun nodes => (Sum.inr (Sum.inl
      ⟨coordinator.id, { coordinator.cluster with nodes }⟩) : Server A P)) hnodes
  · obtain rfl : gateway.engine = engine := h
    rfl

/-- Whatever is not for the cluster is for the engine. -/
theorem answer_of_hosts (h : server.Hosts engine) (now : Instant) {request : Request}
    (hrequest : ∀ operation, request ≠ .client operation) :
    Service.answer server now request =
      (server.withEngine (engine.handle now request).1, (engine.handle now request).2) := by
  cases request with
  | client operation => exact absurd rfl (hrequest operation)
  | ping =>
      rw [Engine.handle, withEngine_of_hosts h]
      obtain own | coordinator | gateway := server <;> rfl
  | plain operation =>
      obtain own | coordinator | gateway := server
      · obtain rfl : own = engine := h
        rfl
      · change Prod.map (Sum.inr ∘ Sum.inl) id (coordinator.operate now operation) = _
        rw [Coordinator.operate_of_own h]
        rfl
      · obtain rfl : gateway.engine = engine := h
        rfl

/-- What is for the cluster goes to it, if there is one. -/
theorem answer_client (server : Server A P) (now : Instant) (operation : Operation) :
    Service.answer server now (.client operation) =
      match server.cluster? with
      | some cluster =>
        (server.withCluster (cluster.handle now operation).1, (cluster.handle now operation).2)
      | none => (server, ServiceError.routingDisabled.response) := by
  obtain own | coordinator | gateway := server <;> rfl

/-- A cluster that calls its nodes, whatever for, keeps its own engine as one of them. -/
theorem exists_own_handle {cluster : Cluster (Member A P)} {id : String}
    (h : ∃ engine, cluster.nodes[id]? = some (.own engine)) (now : Instant)
    (operation : Operation) :
    ∃ engine, (cluster.handle now operation).1.nodes[id]? = some (.own engine) := by
  have hcall {α : Type} (call : Call α) (account : Account (Member A P))
      (h : ∃ engine, account.node = some (.own engine)) :
      ∃ engine, (account.call now call).1.node = some (.own engine) := by
    obtain ⟨engine, hnode⟩ := h
    refine ⟨(engine.perform now call).1, ?_⟩
    rw [Account.call, hnode]
    rfl
  have hwrite (write : Write) :
      ∃ engine, (cluster.replicate now write).1.nodes[id]? = some (.own engine) := by
    rw [← Cluster.node_account, Cluster.account_replicate]
    split
    next => exact hcall write.call _ h
    next => exact h
  have hread {α : Type} (key : String) (call : Call (Option α)) :
      ∃ engine, (cluster.firstFound now call (cluster.replicas key)).1.nodes[id]? =
        some (.own engine) :=
    Cluster.account_firstFound (fun account => ∃ engine, account.node = some (.own engine)) now
      call (hcall call) cluster _ h
  cases operation with
  | set key value ttl => exact hwrite (.set key value (.ofWire ttl))
  | get key => exact hread key (.get key)
  | getWithToken key => exact hread key (.getWithToken key)
  | delete key => exact hwrite (.delete key)
  | compareAndSwap key value expected ttl =>
      exact hwrite (.compareAndSwap key value expected (.ofWire ttl))
  | clear =>
      change ∃ engine, (cluster.clear now).nodes[id]? = some (.own engine)
      rw [← Cluster.node_account, Cluster.account_clear]
      split
      next => exact hcall .clear _ h
      next => exact h

theorem exists_hosts_withCluster (h : server.Hosts engine) {cluster : Cluster (Member A P)}
    (hcluster : server.cluster? = some cluster) (now : Instant) (operation : Operation) :
    ∃ engine, (server.withCluster (cluster.handle now operation).1).Hosts engine := by
  obtain own | coordinator | gateway := server
  · exact ⟨own, rfl⟩
  · obtain rfl : coordinator.cluster = cluster := Option.some.inj hcluster
    exact exists_own_handle ⟨engine, h⟩ now operation
  · exact ⟨gateway.engine, rfl⟩

/-- Every payload has its turn, after which there still is an engine. -/
theorem turn_answerPayload {clocked : Clocked (Server A P)} (h : clocked.service.Hosts engine)
    (now : Instant) (payload : ByteArray) :
    let outcome := Service.answerPayload clocked now payload
    Turn clocked payload outcome.1 outcome.2 ∧ ∃ engine, outcome.1.service.Hosts engine := by
  intro outcome
  have houtcome : outcome = Service.answerPayload clocked now payload := rfl
  unfold Service.answerPayload at houtcome
  cases hdecode : Request.decode payload with
  | error error =>
      rw [hdecode] at houtcome
      rw [houtcome]
      exact ⟨.malformed hdecode, engine, h⟩
  | ok request =>
      rw [hdecode] at houtcome
      by_cases hclient : ∃ operation, request = .client operation
      · obtain ⟨operation, rfl⟩ := hclient
        have hanswer := answer_client clocked.service clocked.now operation
        cases hcluster : clocked.service.cluster? with
        | none =>
            rw [hcluster] at hanswer
            rw [houtcome.trans (congrArg (Prod.map clocked.moveOn id) hanswer)]
            exact ⟨.unroutable hdecode hcluster, engine, h⟩
        | some cluster =>
            rw [hcluster] at hanswer
            rw [houtcome.trans (congrArg (Prod.map clocked.moveOn id) hanswer)]
            exact ⟨.routed hdecode hcluster, exists_hosts_withCluster h hcluster _ operation⟩
      · have hplain : ∀ operation, request ≠ .client operation :=
          fun operation heq => hclient ⟨operation, heq⟩
        have hanswer : outcome =
            (clocked.moveOn (clocked.service.withEngine (engine.handle clocked.now request).1),
              (engine.handle clocked.now request).2) :=
          houtcome.trans (congrArg (Prod.map clocked.moveOn id) (answer_of_hosts h _ hplain))
        rw [hanswer]
        exact ⟨.plain hdecode hplain h, _, hosts_withEngine _ _⟩

theorem turns_answerAll {clocked : Clocked (Server A P)} (h : clocked.service.Hosts engine)
    (now : Instant) (payloads : List ByteArray) :
    let outcome := Service.answerAll clocked now payloads
    Turns clocked payloads outcome.2 outcome.1 := by
  induction payloads generalizing clocked engine with
  | nil => exact .done
  | cons payload payloads ih =>
      obtain ⟨hturn, engine, hafter⟩ := turn_answerPayload h now payload
      exact .go hturn (ih hafter)

/-- The conversation of a server is the fold of its requests. Every complete frame on the
stream has its turn, in order, on what the turns before it have left, and as long as the
responses fit into frames, what is sent back is one frame for each, until the stream
ends or a frame is too long or cut off. -/
theorem converse_eq_frames {clocked : Clocked (Server A P)} (h : clocked.service.Hosts engine)
    (now : Instant) (stream : ByteArray) :
    let received := Frame.payloads stream
    let (after, responses) := Service.answerAll clocked now received.messages
    (∃ tail, Frame.Splits stream received.messages received.fault tail) ∧
      Turns clocked received.messages responses after ∧
      ((∀ response ∈ responses, response.write.size ≤ Frame.limit) →
        Service.converse clocked now stream =
          { state := after
            sent := Frame.frames (responses.map Response.write)
            fault := received.fault }) :=
  ⟨Frame.exists_splits stream, turns_answerAll h now _,
    Service.converse_eq_answerAll clocked now stream⟩

/-- An empty payload gets an error, and the next request is answered all the same. -/
theorem converse_eq_frames_empty :
    let engine : Engine Unit := .create ⟨4, 2, .lru⟩ ()
    let cluster : Cluster (Member Unit (Served (Engine Unit))) :=
      ⟨.ofVirtualNodes 1, Std.ExtTreeMap.empty.insert "a" (.own engine), 1, .empty, by decide⟩
    let clocked : Clocked (Server Unit (Served (Engine Unit))) :=
      ⟨.inr (.inl ⟨"a", cluster⟩), Int64.ofNat⟩
    let payloads : List ByteArray := [.empty, Request.ping.write]
    let responses : List Response := [(ServiceError.malformed .truncated).response, .reply .pong]
    let after := clocked.moveOn clocked.service
    clocked.service.Hosts engine ∧
      Turns clocked payloads responses after ∧
      (∀ response ∈ responses, response.write.size ≤ Frame.limit) ∧
      Service.converse clocked 0 (Frame.frames payloads) =
        { state := after, sent := Frame.frames (responses.map Response.write) } := by
  intro engine cluster clocked payloads responses after
  have hhosts : clocked.service.Hosts engine := Std.ExtTreeMap.getElem?_insert_self
  have hpayloads : Frame.payloads (Frame.frames payloads) = { messages := payloads } := by
    have hsmall : ∀ payload ∈ payloads, payload.size ≤ Frame.limit := by decide
    have hall := Frame.payloads_frames hsmall .empty
    have hclosed : Frame.payloads .empty = {} := Frame.payloads_of_closed rfl
    rwa [ByteArray.append_empty, hclosed, List.append_nil] at hall
  have hanswers : Service.answerAll clocked 0 payloads = (after, responses) := rfl
  have hfit : ∀ response ∈ responses, response.write.size ≤ Frame.limit := by decide
  obtain ⟨-, hturns, hconverse⟩ := converse_eq_frames hhosts 0 (Frame.frames payloads)
  rw [hpayloads] at hturns hconverse
  exact ⟨hhosts, hturns, hfit, hconverse hfit⟩

end Server

end ReplicatedCache
