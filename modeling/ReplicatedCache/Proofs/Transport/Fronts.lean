import ReplicatedCache.Proofs.Cluster.Deadlines
import ReplicatedCache.Proofs.Transport.Conversation

/-! # Engines behind nodes

An engine may be called through a switch, over a connection, or directly. Whatever is in
between, a call is carried out by the engine or does not reach it, and what is answered is
a refusal or the answer of the engine. A node behind a connection relies on nothing being
under way on it, and leaves it so.
-/

namespace ReplicatedCache

variable {N A P : Type}

/-! ## Nodes in order -/

section Fronts

variable [Node N] [Hears A]

/-- Nodes that stand before engines while they are in order, and stay in order when they
are called. A call that was carried out may fail all the same. -/
structure FrontsWhile (inOrder : N → Prop) (engine : N → Engine A) : Prop where
  stays : ∀ {node : N}, inOrder node → ∀ (now : Instant) {α : Type} (call : Call α),
    inOrder (Node.perform node now call).1
  reaches : ∀ {node : N}, inOrder node → ∀ (now : Instant) {α : Type} (call : Call α),
    engine (Node.perform node now call).1 = engine node ∨
      engine (Node.perform node now call).1 = ((engine node).perform now call).1
  answers : ∀ {node : N}, inOrder node → ∀ (now : Instant) {α : Type} (call : Call α) {answer : α},
    (Node.perform node now call).2 = .ok answer →
      answer = call.refusal ∨ answer = ((engine node).perform now call).2

/-- What a node finds is what the engine behind it finds. -/
theorem FrontsWhile.found {inOrder : N → Prop} {engine : N → Engine A}
    (h : FrontsWhile inOrder engine) {account : Account N}
    (hnode : ∀ {node : N}, account.node = some node → inOrder node) {now : Instant} {α : Type}
    {call : Call (Option α)} (hrefusal : call.refusal = none) {found : α}
    (hfound : (account.call now call).2 = some (some found)) :
    ∃ node, account.node = some node ∧ ((engine node).perform now call).2 = some found := by
  obtain ⟨_ | node, hints⟩ := account
  · cases hfound
  · change (Node.perform node now call).2.toOption = some (some found) at hfound
    cases hanswer : (Node.perform node now call).2 with
    | error failure =>
        rw [hanswer] at hfound
        cases hfound
    | ok answer =>
        rw [hanswer] at hfound
        obtain rfl := Option.some.inj hfound
        rcases h.answers (hnode rfl) now call hanswer with hrefused | hanswered
        · cases hrefused.trans hrefusal
        · exact ⟨node, rfl, hanswered.symm⟩

theorem Fronts.always {engine : N → Engine A} (h : Fronts engine) :
    FrontsWhile (fun _ => True) engine :=
  ⟨fun _ _ _ _ => trivial, fun {node} _ => h.reaches node,
    fun {node} _ now _ call {answer} => h.answers node now call answer⟩

/-- A switch keeps a call from the node behind it, and answers with a refusal if at all, or
the node is called and its answer is passed on. -/
theorem Switched.perform_cases (switched : Switched N) (now : Instant) {α : Type}
    (call : Call α) :
    ((Node.perform switched now call).1 = switched ∧
        ∀ answer, (Node.perform switched now call).2 = .ok answer → answer = call.refusal) ∨
      ((Node.perform switched now call).1.node = (Node.perform switched.node now call).1 ∧
        ∀ answer, (Node.perform switched now call).2 = .ok answer →
          (Node.perform switched.node now call).2 = .ok answer) := by
  obtain ⟨id, switch, node⟩ := switched
  simp only [Node.perform, Switched.perform]
  split
  next => exact Or.inl ⟨rfl, fun _ h => by cases h⟩
  next =>
    split
    next => exact Or.inl ⟨rfl, fun _ h => by cases h⟩
    next =>
      split
      next => exact Or.inl ⟨rfl, fun _ h => (Except.ok.inj h).symm⟩
      next =>
        refine Or.inr ⟨rfl, fun answer h => ?_⟩
        cases hanswer : (Node.perform node now call).2 with
        | error failure =>
            rw [hanswer] at h
            cases h
        | ok behind =>
            rw [hanswer] at h
            exact congrArg Except.ok (Except.ok.inj h)

/-- A switch may stand before any node. -/
theorem FrontsWhile.switched {inOrder : N → Prop} {engine : N → Engine A}
    (h : FrontsWhile inOrder engine) :
    FrontsWhile (fun switched : Switched N => inOrder switched.node)
      fun switched => engine switched.node := by
  constructor
  · intro switched hnode now α call
    rcases switched.perform_cases now call with ⟨hsame, -⟩ | ⟨hbehind, -⟩
    · rwa [hsame]
    · rw [hbehind]
      exact h.stays hnode now call
  · intro switched hnode now α call
    rcases switched.perform_cases now call with ⟨hsame, -⟩ | ⟨hbehind, -⟩
    · exact Or.inl (congrArg (engine ·.node) hsame)
    · rw [hbehind]
      exact h.reaches hnode now call
  · intro switched hnode now α call answer hanswer
    rcases switched.perform_cases now call with ⟨-, hrefused⟩ | ⟨-, hbehind⟩
    · exact Or.inl (hrefused answer hanswer)
    · exact h.answers hnode now call (hbehind answer hanswer)

end Fronts

/-! ## Behind connections -/

section Connections

variable [Peer P] [Hears A]

/-- A peer that serves an engine. It carries out a plain request that arrives, and sends the
response back, or closes the connection if the response does not fit into a frame. -/
structure Serves (engine : P → Engine A) : Prop where
  connect : ∀ {peer next : P}, Peer.connect peer = .ok next → engine next = engine peer
  hangUp : ∀ peer : P, engine (Peer.hangUp peer) = engine peer
  receive : ∀ (peer : P) (now : Instant) {α : Type} (call : Call α),
    (Request.plain (.ofCall call)).write.size ≤ Frame.limit →
      engine (Peer.receive peer now (Request.plain (.ofCall call)).write).1 =
        ((engine peer).perform now call).1
  arrival : ∀ (peer : P) (now : Instant) {α : Type} (call : Call α),
    (Request.plain (.ofCall call)).write.size ≤ Frame.limit →
      (Peer.receive peer now (Request.plain (.ofCall call)).write).2 =
        let response := Response.reply (.ofAnswer call ((engine peer).perform now call).2)
        if Frame.limit < response.write.size then { closed := true }
        else { bytes := Frame.wrap response.write }

/-- A request at the front of a stream is answered, and the conversation goes on behind it
if the response fits into a frame. -/
theorem Service.converse_request {S : Type} [Service S] (state : S) (now : Instant)
    {request : Request} (h : request.write.size ≤ Frame.limit) (rest : ByteArray) :
    converse state now (Frame.wrap request.write ++ rest) =
      match Frame.write (answer state now request).2.write with
      | .error error => { state := (answer state now request).1, fault := some error }
      | .ok frame =>
        let conversation := converse (answer state now request).1 now rest
        { conversation with sent := frame ++ conversation.sent } := by
  have hpayload : answerPayload state now request.write = answer state now request := by
    rw [answerPayload, Frame.readsBack_request _ h]
  have hconverse := converse_of_payload state now (Frame.read_wrap h rest)
  rw [hpayload] at hconverse
  exact hconverse

theorem serves_engine : Serves fun served : Served (Engine A) => served.service := by
  have hreceive (served : Served (Engine A)) (now : Instant) {α : Type} (call : Call α)
      (hrequest : (Request.plain (.ofCall call)).write.size ≤ Frame.limit) :
      Peer.receive served now (Request.plain (.ofCall call)).write =
        (⟨(served.service.perform now call).1⟩,
          let response := Response.reply (.ofAnswer call (served.service.perform now call).2)
          if Frame.limit < response.write.size then { closed := true }
          else { bytes := Frame.wrap response.write }) := by
    have hconverse := Service.converse_request served.service now hrequest .empty
    rw [ByteArray.append_empty, served.service.answer_ofCall now call] at hconverse
    change ((_ : Served (Engine A)), (_ : Arrival)) = _
    rw [hconverse]
    by_cases hlong : Frame.limit <
        (Response.reply (.ofAnswer call (served.service.perform now call).2)).write.size
    · rw [if_pos hlong, Frame.write_of_lt hlong]
      rfl
    · rw [if_neg hlong, Frame.write_of_le (Nat.not_lt.mp hlong)]
      dsimp only
      rw [Service.converse_of_closed _ _ rfl, ByteArray.append_empty]
      rfl
  refine ⟨fun h => ?_, fun _ => rfl, fun served now _ call h => ?_, fun served now _ call h => ?_⟩
  · rw [← Except.ok.inj h]
  · rw [hreceive served now call h]
  · rw [hreceive served now call h]

/-- The network may be in any condition. -/
theorem Serves.host {engine : P → Engine A} (h : Serves engine) :
    Serves fun host : Host P => engine host.peer := by
  refine ⟨fun {host next} hconnect => ?_, fun host => h.hangUp host.peer,
    fun host => h.receive host.peer, fun host => h.arrival host.peer⟩
  change host.connect = .ok next at hconnect
  rw [Host.connect] at hconnect
  split at hconnect
  next => cases hconnect
  next =>
    split at hconnect
    next =>
      split at hconnect
      next peer hpeer => exact Except.ok.inj hconnect ▸ h.connect hpeer
      next => cases hconnect
    next => cases hconnect

namespace RemoteNode

variable {engine : P → Engine A} {node : RemoteNode P}

/-- A connection that is used is open and has nothing under way on it. -/
theorem Idle.connected (h : Serves engine) (hidle : node.Idle) {peer : P}
    {connection : Connection} (hconnected : node.connected = .ok (peer, connection)) :
    connection = {} ∧ engine peer = engine node.peer := by
  rw [RemoteNode.connected] at hconnected
  split at hconnected
  next kept hkept =>
    obtain ⟨rfl, rfl⟩ := Prod.mk.inj (Except.ok.inj hconnected)
    exact ⟨hidle kept hkept, rfl⟩
  next =>
    cases hpeer : Peer.connect node.peer with
    | error failure =>
        rw [hpeer] at hconnected
        cases hconnected
    | ok next =>
        rw [hpeer] at hconnected
        obtain ⟨rfl, rfl⟩ := Prod.mk.inj (Except.ok.inj hconnected)
        exact ⟨rfl, h.connect hpeer⟩

omit [Hears A] in
theorem idle_dropped (node : RemoteNode P) (peer : P) : (node.dropped peer).Idle := by
  rintro connection ⟨⟩

omit [Hears A] in
theorem transmit_idle (peer : P) (now : Instant) (payload : ByteArray) :
    transmit peer now {} payload =
      ((Peer.receive peer now payload).1, ⟨(Peer.receive peer now payload).2.bytes,
        (Peer.receive peer now payload).2.closed⟩) := by
  rw [transmit, if_neg Bool.false_ne_true]
  exact congrArg (fun inbox => (_, Connection.mk inbox _)) ByteArray.empty_append

/-- What comes of a plain request: nothing is under way on the connection afterwards, the
engine has carried the request out or not, and a reply is what the engine answers. -/
theorem Idle.request (h : Serves engine) (hidle : node.Idle) (now : Instant) {α : Type}
    (call : Call α) :
    let requested := node.request now (.plain (.ofCall call))
    requested.1.Idle ∧
      (engine requested.1.peer = engine node.peer ∨
        engine requested.1.peer = ((engine node.peer).perform now call).1) ∧
      ∀ reply, requested.2 = .ok reply →
        reply = .ofAnswer call ((engine node.peer).perform now call).2 := by
  dsimp only
  rw [RemoteNode.request]
  split
  next => exact ⟨hidle, Or.inl rfl, fun _ h => by cases h⟩
  next peer connection hconnected =>
    obtain ⟨rfl, hpeer⟩ := hidle.connected h hconnected
    split
    next =>
      exact ⟨idle_dropped node peer, Or.inl ((h.hangUp peer).trans hpeer), fun _ h => by cases h⟩
    next hwrite =>
      have hrequest : (Request.plain (.ofCall call)).write.size ≤ Frame.limit := by
        by_contra hlong
        rw [Frame.write_of_lt (Nat.not_le.mp hlong)] at hwrite
        cases hwrite
      have hcarried := h.receive peer now call hrequest
      have harrival := h.arrival peer now call hrequest
      rw [hpeer] at hcarried harrival
      rw [transmit_idle, harrival]
      by_cases hlong : Frame.limit <
          (Response.reply (.ofAnswer call ((engine node.peer).perform now call).2)).write.size
      · rw [if_pos hlong]
        exact ⟨idle_dropped node _, Or.inr ((h.hangUp _).trans hcarried), fun _ h => by cases h⟩
      · rw [if_neg hlong]
        dsimp only
        rw [Connection.await_wrap (Nat.not_lt.mp hlong)]
        refine ⟨fun connection hmem => ?_, Or.inr hcarried, fun reply hreply => ?_⟩
        · exact (Option.some.inj hmem).symm
        · exact (Except.ok.inj hreply).symm

end RemoteNode

/-- A remote node stands before the engine that its peer serves. -/
theorem Serves.remote {engine : P → Engine A} (h : Serves engine) :
    FrontsWhile RemoteNode.Idle fun node : RemoteNode P => engine node.peer := by
  have hcases {node : RemoteNode P} (hidle : node.Idle) (now : Instant) {α : Type}
      (call : Call α) :
      (node.perform now call).1.Idle ∧
        (engine (node.perform now call).1.peer = engine node.peer ∨
          engine (node.perform now call).1.peer = ((engine node.peer).perform now call).1) ∧
        ∀ answer, (node.perform now call).2 = .ok answer →
          answer = ((engine node.peer).perform now call).2 := by
    have hrequest := hidle.request h now call
    dsimp only at hrequest
    rw [RemoteNode.perform]
    rcases hresult : node.request now (.plain (.ofCall call)) with ⟨after, cause | reply⟩
    · rw [hresult] at hrequest
      exact ⟨hrequest.1, hrequest.2.1, fun _ h => by cases h⟩
    · rw [hresult] at hrequest
      obtain ⟨hafter, hreaches, hreply⟩ := hrequest
      rw [hreply reply rfl]
      dsimp only
      rw [Reply.answer?_ofAnswer]
      exact ⟨hafter, hreaches, fun answer h => (Except.ok.inj h).symm⟩
  exact ⟨fun hidle now _ call => (hcases hidle now call).1,
    fun hidle now _ call => (hcases hidle now call).2.1,
    fun hidle now _ call answer hanswer => Or.inr ((hcases hidle now call).2.2 answer hanswer)⟩

/-- Nothing is under way on the connection of a member of a cluster. -/
def Member.Idle : Member A P → Prop
  | own _ => True
  | remote node => node.Idle

def Member.engine (served : P → Engine A) : Member A P → Engine A
  | own engine => engine
  | remote node => served node.peer

/-- A member of a cluster stands before its own engine, or before that of its peer. -/
theorem Serves.member {engine : P → Engine A} (h : Serves engine) :
    FrontsWhile Member.Idle (Member.engine engine) := by
  constructor
  · rintro (own | node) hidle now α call
    · trivial
    · exact h.remote.stays hidle now call
  · rintro (own | node) hidle now α call
    · exact Or.inr rfl
    · exact h.remote.reaches hidle now call
  · rintro (own | node) hidle now α call answer hanswer
    · exact Or.inr (Except.ok.inj hanswer).symm
    · exact h.remote.answers hidle now call hanswer

end Connections

end ReplicatedCache
