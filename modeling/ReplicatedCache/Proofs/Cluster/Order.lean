import ReplicatedCache.Cluster.Switched
import ReplicatedCache.Proofs.Cluster.History
import ReplicatedCache.Proofs.Engine.Steps

/-! # The order in which nodes apply changes

Hints alone keep the order in which changes are issued, since a queue is handed
over from its front. The order breaks at a node exactly when the node answers the
client directly while a hint for the same key waits for it, and is handed this
hint afterwards.
-/

namespace ReplicatedCache

/-- A node has applied the changes to each key in the order in which they were
issued. Which answers say that a change was applied is left open: it may be every
answer, or only a yes. -/
def InOrder (counts : Bool → Prop) (journal : List Application) : Prop :=
  journal.Pairwise fun early late => counts early.answer → counts late.answer →
    early.change.Meets late.change → early.issued ≤ late.issued

/-- The hints of a queue with the numbers of the steps at which their writes were
issued: in this order, and before the current step. -/
structure Queued (turn : Nat) (waiting : List (Nat × Write)) (hints : List Write) : Prop where
  hints_eq : waiting.map Prod.snd = hints
  before : ∀ hint ∈ waiting, hint.1 < turn
  sorted : waiting.Pairwise fun first second => first.1 ≤ second.1

/-- One more turn keeps the queue numbered: what was missed in this turn joins at the end. -/
theorem Queued.next {turn : Nat} {waiting : List (Nat × Write)} {hints : List Write}
    (h : Queued turn waiting hints) (share : Share) :
    Queued (turn + 1) (share.waiting turn waiting) (share.left hints) := by
  have hhints : (share.waiting turn waiting).map Prod.snd = share.left hints := by
    rw [Share.map_snd_waiting, h.hints_eq]
  cases share with
  | own change answer missed =>
      refine ⟨hhints, ?_, ?_⟩
      · intro hint hmem
        rcases List.mem_append.mp hmem with hold | hnew
        · exact Nat.lt_succ_of_lt (h.before hint hold)
        · obtain ⟨write, -, rfl⟩ := List.mem_map.mp hnew
          exact Nat.lt_succ_self turn
      · refine List.pairwise_append.mpr ⟨h.sorted, ?_, ?_⟩
        · exact List.pairwise_map.mpr (List.pairwise_of_forall fun _ _ => Nat.le_refl turn)
        · intro first hfirst second hsecond
          obtain ⟨write, -, rfl⟩ := List.mem_map.mp hsecond
          exact Nat.le_of_lt (h.before first hfirst)
  | handed answers =>
      refine ⟨hhints, ?_, h.sorted.sublist (List.drop_sublist _ _)⟩
      intro hint hmem
      exact Nat.lt_succ_of_lt (h.before hint (List.mem_of_mem_drop hmem))

section Own

variable {turn position : Nat} {waiting : List (Nat × Write)} {hint : Nat × Write}
  {change : Change} {answer : Option Bool} {missed : List Write}

/-- A hint keeps its place when the client's own write comes behind it. -/
theorem Share.getElem?_waiting_own (h : waiting[position]? = some hint) :
    ((own change answer missed).waiting turn waiting)[position]? = some hint := by
  rw [Share.waiting, List.getElem?_append_left (List.getElem?_eq_some_iff.mp h).1]
  exact h

/-- Whatever waits after a change from the client waited before or is new. -/
theorem Share.waits_or_new
    (h : ((own change answer missed).waiting turn waiting)[position]? = some hint) :
    waiting[position]? = some hint ∨ hint.1 = turn := by
  by_cases hlt : position < waiting.length
  · rw [Share.waiting, List.getElem?_append_left hlt] at h
    exact Or.inl h
  · rw [Share.waiting, List.getElem?_append_right (Nat.le_of_not_lt hlt)] at h
    obtain ⟨write, -, rfl⟩ := List.mem_map.mp (List.mem_of_getElem? h)
    exact Or.inr rfl

end Own

namespace Cluster

variable {N : Type} [Node N]

/-- At some step of a run a node answers a change from the client, and it is later
handed a hint that concerns the same key and waited for it at this step. -/
inductive Overtaken (counts : Bool → Prop) (id : String) :
    Cluster N → List (ClusterStep N) → Prop
  | here {cluster : Cluster N} {step : ClusterStep N} {steps : List (ClusterStep N)}
    {change : Change} {answer late : Bool} {missed : List Write} {position : Nat} {hint : Write}
    (happlied : cluster.share id step = .own change (some answer) missed)
    (hanswer : counts answer)
    (hwaits : (cluster.handoff.pending id)[position]? = some hint)
    (hmeets : change.Meets (.write hint))
    (hhanded : (handed id (cluster.apply step) steps)[position]? = some late)
    (hlate : counts late) : Overtaken counts id cluster (step :: steps)
  | later {cluster : Cluster N} {step : ClusterStep N} {steps : List (ClusterStep N)}
    (hlater : Overtaken counts id (cluster.apply step) steps) :
    Overtaken counts id cluster (step :: steps)

section Journal

variable {cluster : Cluster N} {id : String} {turn : Nat} {waiting : List (Nat × Write)}
  {steps : List (ClusterStep N)}

/-- A hint that waits and is handed over is applied with the number under which
it was issued. -/
theorem mem_journal_of_handed {position : Nat} {hint : Nat × Write} {answer : Bool}
    (hwaits : waiting[position]? = some hint)
    (hhanded : (handed id cluster steps)[position]? = some answer) :
    ⟨hint.1, .write hint.2, answer⟩ ∈ cluster.journal id turn waiting steps := by
  induction steps generalizing cluster turn waiting position with
  | nil => exact nomatch hhanded
  | cons step steps ih =>
      rw [handed] at hhanded
      rw [journal, List.mem_append]
      cases hshare : cluster.share id step with
      | own change direct missed =>
          rw [hshare] at hhanded
          exact Or.inr (ih (Share.getElem?_waiting_own hwaits) hhanded)
      | handed answers =>
          rw [hshare, Share.answers] at hhanded
          by_cases hlt : position < answers.length
          · rw [List.getElem?_append_left hlt] at hhanded
            refine Or.inl (List.mem_iff_getElem?.mpr ⟨position, ?_⟩)
            simp [Share.applied, List.getElem?_zipWith, hwaits, hhanded]
          · have hle := Nat.le_of_not_lt hlt
            rw [List.getElem?_append_right hle] at hhanded
            refine Or.inr (ih ?_ hhanded)
            rw [Share.waiting, List.getElem?_drop, Nat.add_sub_cancel' hle]
            exact hwaits

/-- What a node applies is issued in the run, or waits at first and is handed
over in the run. -/
theorem mem_journal {application : Application}
    (h : application ∈ cluster.journal id turn waiting steps) :
    turn ≤ application.issued ∨ ∃ (position : Nat) (hint : Nat × Write) (answer : Bool),
      waiting[position]? = some hint ∧
      (handed id cluster steps)[position]? = some answer ∧
      application = ⟨hint.1, .write hint.2, answer⟩ := by
  induction steps generalizing cluster turn waiting with
  | nil => exact nomatch h
  | cons step steps ih =>
      rw [handed]
      rw [journal, List.mem_append] at h
      cases hshare : cluster.share id step with
      | own change direct missed =>
          rw [hshare] at h
          rcases h with hnow | hlater
          · rw [Share.applied, Option.mem_toList, Option.map_eq_some_iff] at hnow
            obtain ⟨answer, -, rfl⟩ := hnow
            exact Or.inl (Nat.le_refl turn)
          · rcases ih hlater with hnew | ⟨position, hint, answer, hwaits, hhanded, rfl⟩
            · exact Or.inl (Nat.le_of_succ_le hnew)
            · rcases Share.waits_or_new hwaits with hold | hnew
              · exact Or.inr ⟨position, hint, answer, hold, hhanded, rfl⟩
              · exact Or.inl (Nat.le_of_eq hnew.symm)
      | handed answers =>
          rw [hshare] at h
          rcases h with hnow | hlater
          · obtain ⟨position, hposition⟩ := List.mem_iff_getElem?.mp hnow
            rw [Share.applied, List.getElem?_zipWith_eq_some] at hposition
            obtain ⟨hint, answer, hwaits, hanswer, rfl⟩ := hposition
            refine Or.inr ⟨position, hint, answer, hwaits, ?_, rfl⟩
            rw [Share.answers,
              List.getElem?_append_left (List.getElem?_eq_some_iff.mp hanswer).1]
            exact hanswer
          · rcases ih hlater with hnew | ⟨position, hint, answer, hwaits, hhanded, rfl⟩
            · exact Or.inl (Nat.le_of_succ_le hnew)
            · rw [Share.waiting, List.getElem?_drop] at hwaits
              refine Or.inr ⟨answers.length + position, hint, answer, hwaits, ?_, rfl⟩
              rw [Share.answers, List.getElem?_append_right (Nat.le_add_right _ _),
                Nat.add_sub_cancel_left]
              exact hhanded

/-- Hints are applied with the numbers of the front of the queue. -/
theorem issued_applied_handed (turn : Nat) (waiting : List (Nat × Write)) (answers : List Bool) :
    ((Share.handed answers).applied turn waiting).map Application.issued =
      (waiting.take answers.length).map Prod.fst := by
  induction answers generalizing waiting with
  | nil => simp [Share.applied]
  | cons answer answers ih =>
      cases waiting with
      | nil => rfl
      | cons hint waiting => exact congrArg (hint.1 :: ·) (ih waiting)

/-- What is applied when hints are handed over was issued in this order, and
before everything that the node applies afterwards. -/
theorem issued_le_of_handed {hints : List Write} (hqueued : Queued turn waiting hints)
    (answers : List Bool) (cluster : Cluster N) (id : String) (steps : List (ClusterStep N)) :
    ((Share.handed answers).applied turn waiting).Pairwise
        (fun early late => early.issued ≤ late.issued) ∧
      ∀ early ∈ (Share.handed answers).applied turn waiting,
        ∀ late ∈ cluster.journal id (turn + 1) ((Share.handed answers).waiting turn waiting) steps,
          early.issued ≤ late.issued := by
  have hissued := issued_applied_handed turn waiting answers
  have hsorted := hqueued.sorted
  rw [← List.take_append_drop answers.length waiting, List.pairwise_append] at hsorted
  obtain ⟨hfront, -, hcross⟩ := hsorted
  constructor
  · rw [← List.pairwise_map, hissued, List.pairwise_map]
    exact hfront
  · intro early hearly late hlate
    have hmem : early.issued ∈ ((Share.handed answers).applied turn waiting).map (·.issued) :=
      List.mem_map.mpr ⟨early, hearly, rfl⟩
    rw [hissued] at hmem
    obtain ⟨first, hfirst, heq⟩ := List.mem_map.mp hmem
    rw [← heq]
    rcases mem_journal hlate with hnew | ⟨position, hint, answer, hwaits, -, rfl⟩
    · have hbefore := hqueued.before first (List.mem_of_mem_take hfirst)
      omega
    · exact hcross first hfirst hint (List.mem_of_getElem? hwaits)

/-- A hint that is overtaken is applied after a change that was issued later. -/
theorem Overtaken.not_inOrder {counts : Bool → Prop} (h : Overtaken counts id cluster steps)
    (hqueued : Queued turn waiting (cluster.handoff.pending id)) :
    ¬ InOrder counts (cluster.journal id turn waiting steps) := by
  induction h generalizing turn waiting with
  | @here cluster step steps change answer late missed position write happlied hanswer hwaits
      hmeets hhanded hlate =>
      intro hordered
      rw [journal, happlied, InOrder, List.pairwise_append] at hordered
      rw [← hqueued.hints_eq, List.getElem?_map, Option.map_eq_some_iff] at hwaits
      obtain ⟨hint, hwaits, rfl⟩ := hwaits
      have hstill : ((Share.own change (some answer) missed).waiting turn waiting)[position]? =
          some hint := Share.getElem?_waiting_own hwaits
      have hle := hordered.2.2 ⟨turn, change, answer⟩ (by simp [Share.applied]) _
        (mem_journal_of_handed hstill hhanded) hanswer hlate hmeets
      exact absurd (hqueued.before hint (List.mem_of_getElem? hwaits)) (Nat.not_lt.mpr hle)
  | @later cluster step steps hlater ih =>
      intro hordered
      have hnext := hqueued.next (cluster.share id step)
      rw [← pending_apply] at hnext
      rw [journal, InOrder, List.pairwise_append] at hordered
      exact ih hnext hordered.2.1

/-- A node that is never overtaken applies everything in order. -/
theorem inOrder_of_not_overtaken {counts : Bool → Prop}
    (hnever : ¬ Overtaken counts id cluster steps)
    (hqueued : Queued turn waiting (cluster.handoff.pending id)) :
    InOrder counts (cluster.journal id turn waiting steps) := by
  induction steps generalizing cluster turn waiting with
  | nil => exact List.Pairwise.nil
  | cons step steps ih =>
      have hnext := hqueued.next (cluster.share id step)
      rw [← pending_apply] at hnext
      have hlater := ih (fun hovertaken => hnever hovertaken.later) hnext
      rw [journal, InOrder, List.pairwise_append]
      cases hshare : cluster.share id step with
      | handed answers =>
          obtain ⟨hnow, hcross⟩ :=
            issued_le_of_handed hqueued answers (cluster.apply step) id steps
          rw [hshare] at hlater
          refine ⟨hnow.imp fun h _ _ _ => h, hlater, ?_⟩
          intro early hearly late hlate _ _ _
          exact hcross early hearly late hlate
      | own change direct missed =>
          rw [hshare] at hlater
          refine ⟨?_, hlater, ?_⟩
          · cases direct <;> simp [Share.applied]
          · intro early hearly late hlate hearlyCounts hlateCounts hmeets
            rw [Share.applied, Option.mem_toList, Option.map_eq_some_iff] at hearly
            obtain ⟨answer, rfl, rfl⟩ := hearly
            rcases mem_journal hlate with hnew | ⟨position, hint, late, hwaits, hhanded, rfl⟩
            · exact Nat.le_of_succ_le hnew
            · rcases Share.waits_or_new hwaits with hold | hnew
              · have hqueue : (cluster.handoff.pending id)[position]? = some hint.2 := by
                  rw [← hqueued.hints_eq, List.getElem?_map, hold]
                  rfl
                exact absurd
                  (Overtaken.here hshare hearlyCounts hqueue hmeets hhanded hlateCounts) hnever
              · exact Nat.le_of_eq hnew.symm

end Journal

omit [Node N] in
/-- Hints that wait at first were issued before the run. -/
theorem queued_start (cluster : Cluster N) (id : String) :
    Queued 1 ((cluster.handoff.pending id).map (0, ·)) (cluster.handoff.pending id) := by
  refine ⟨by simp [Function.comp_def], ?_, ?_⟩
  · intro hint hmem
    obtain ⟨write, -, rfl⟩ := List.mem_map.mp hmem
    exact Nat.zero_lt_one
  · exact List.pairwise_map.mpr (List.pairwise_of_forall fun _ _ => Nat.le_refl 0)

/-- A node applies changes out of order if and only if it is overtaken: it answers
the client directly while a hint for the same key waits for it, and is handed the
hint later. The log of the node tells that its history is what it applies. -/
theorem applies_in_order_iff (counts : Bool → Prop) (cluster : Cluster (Recorder N)) (id : String)
    (steps : List (ClusterStep N)) :
    let run := steps.map ClusterStep.recorded
    ((cluster.run run).account id).log =
        (cluster.account id).log ++ (cluster.history id run).map Application.remark ∧
      (InOrder counts (cluster.history id run) ↔ ¬ Overtaken counts id cluster run) :=
  ⟨log_run cluster id steps,
    fun hordered hovertaken => hovertaken.not_inOrder (queued_start cluster id) hordered,
    fun hnever => inOrder_of_not_overtaken hnever (queued_start cluster id)⟩

/-! ## A node that returns -/

section Return

def switchedAccount (id : String) (mode : SwitchMode) (engine : Engine Unit)
    (log : List (Change × Bool)) (hints : List Write) :
    Account (Recorder (Switched (Engine Unit))) :=
  ⟨some ⟨⟨id, { mode }, engine⟩, log⟩, hints⟩

def turn (id : String) (mode : SwitchMode) : ClusterStep (Switched (Engine Unit)) :=
  .shift id fun switched => { switched with switch.mode := mode }

/-- A node misses a write, is back for the next one to the same key, and is
handed its hints. -/
def missAndReturn (now : Instant) (id key : String) (old new : Value) :
    List (ClusterStep (Switched (Engine Unit))) :=
  [turn id .down, .write now (.set key old .zero), turn id .up,
    .write now (.set key new .zero), .replayPending now]

/-- An engine that nobody listens to stores under a key for which it has room. -/
theorem perform_set {engine : Engine Unit} (hsound : engine.Sound) {key : String}
    (hroom : engine.shards.HasRoom key)
    (now : Instant) (value : Value) (ttl : Span) :
    let stored := engine.perform now (Write.set key value ttl).call
    stored.2 = true ∧ stored.1.Sound ∧
      (stored.1.shards.find? key).map Entry.value = some value := by
  let record : Signal → List Remark := fun _ => []
  have hw : Watches (fun _ : Unit => True) (fun _ => []) record (Hears.hear now) :=
    ⟨fun _ _ => rfl, fun _ _ => trivial, fun _ _ => rfl⟩
  have hstart : Engine.Follows (fun _ : Unit => True) (fun _ => []) engine
      (engine.transcribed fun _ => ([] : List Remark)) := ⟨trivial, rfl⟩
  obtain ⟨hafter, hanswer⟩ := hstart.set now key hw value ttl
  have hmirror : (engine.transcribed fun _ => ([] : List Remark)).Sound := hsound.congr rfl rfl
  have hadmitted : ((engine.transcribed fun _ => ([] : List Remark)).putOutcome now key value
      ttl).stored = true := Shards.HasRoom.put_stored hroom _
  have hstores := hmirror.set_stored record now key value ttl hadmitted
  have hexpiries := congrArg Engine.expiries hafter.mirror_eq
  refine ⟨?_, (hmirror.set record now key value ttl).congr hafter.shards_eq.symm hexpiries.symm, ?_⟩
  · rw [Engine.set_snd, hadmitted] at hanswer
    exact hanswer.symm
  · change ((engine.set (Hears.hear now) now key value ttl).1.shards.find? key).map _ = _
    rw [← hafter.shards_eq, hstores.find?_eq, if_pos rfl]
    rfl

variable {cluster : Cluster (Recorder (Switched (Engine Unit)))} {id key : String}
  {mode : SwitchMode} {engine : Engine Unit} {log : List (Change × Bool)} {hints : List Write}

theorem account_turn (h : cluster.account id = switchedAccount id mode engine log hints)
    (turned : SwitchMode) :
    (cluster.apply (turn id turned).recorded).account id =
      switchedAccount id turned engine log hints := by
  rw [turn, ClusterStep.recorded, account_shift_self, h]
  rfl

/-- A write to a switched engine that is down becomes a hint. -/
theorem account_write_down (h : cluster.account id = switchedAccount id .down engine log hints)
    (now : Instant) (write : Write) (hreplica : id ∈ cluster.replicas write.key) :
    (cluster.apply (.write now write)).account id =
      switchedAccount id .down engine log (hints ++ [write]) := by
  rw [apply_write, account_replicate, if_pos hreplica, h]
  rfl

/-- A write that a switched engine takes leaves its hints alone. -/
theorem account_write_up (h : cluster.account id = switchedAccount id .up engine log hints)
    (now : Instant) (write : Write) (hreplica : id ∈ cluster.replicas write.key)
    (htaken : (engine.perform now write.call).2 = true) :
    cluster.share id (.write now write) = .own (.write write) (some true) [] ∧
      ∃ log, (cluster.apply (.write now write)).account id =
        switchedAccount id .up (engine.perform now write.call).1 log hints := by
  have hanswer : ((switchedAccount id .up engine log hints).call now write.call).2 =
      some true := congrArg some htaken
  constructor
  · rw [share, if_pos hreplica, h, hanswer]
    rfl
  · rw [apply_write, account_replicate, if_pos hreplica, h, Account.receive]
    dsimp only
    rw [hanswer, Account.missed, List.append_nil]
    exact ⟨_, rfl⟩

/-- A switched engine that is up takes every hint. -/
theorem account_replayPending_up {write : Write}
    (h : cluster.account id = switchedAccount id .up engine log [write]) (now : Instant) :
    (cluster.account id).answers now = [(engine.perform now write.call).2] ∧
      ∃ log, (cluster.apply (.replayPending now)).account id =
        switchedAccount id .up (engine.perform now write.call).1 log [] := by
  rw [apply, account_replayPending, h]
  exact ⟨rfl, _, rfl⟩

/-- A hint for a key is overtaken when a switched engine stores under the key
first, and the engine ends with the value of the hint. -/
theorem overtaken_of_waiting {old : Value}
    (haccount : cluster.account id = switchedAccount id .up engine log [.set key old .zero])
    (hreplica : id ∈ cluster.replicas key) (hsound : engine.Sound)
    (hroom : engine.shards.HasRoom key)
    (now : Instant) (new : Value) :
    Overtaken (· = true) id cluster [.write now (.set key new .zero), .replayPending now] ∧
      ∃ engine log,
        ((cluster.apply (.write now (.set key new .zero))).apply (.replayPending now)).account id =
          switchedAccount id .up engine log [] ∧
        (engine.shards.find? key).map Entry.value = some old := by
  obtain ⟨htaken, hkept, hvalue⟩ := perform_set hsound hroom now new .zero
  obtain ⟨hshare, log, htook⟩ :=
    account_write_up haccount now (.set key new .zero) hreplica htaken
  obtain ⟨hanswers, log, hhanded⟩ := account_replayPending_up htook now
  -- the key is there now, so the engine has room for the hint
  have hthere :
      (engine.perform now (Write.set key new .zero).call).1.shards.HasRoom key := by
    left
    by_contra habsent
    have hnone :
        (engine.perform now (Write.set key new .zero).call).1.shards.find? key = none :=
      Segment.peek_eq_none_iff.mpr habsent
    exact nomatch hvalue.symm.trans (congrArg (Option.map Entry.value) hnone)
  obtain ⟨hlate, -, hold⟩ := perform_set hkept hthere now old .zero
  have hwaits : (cluster.handoff.pending id)[0]? = some (.set key old .zero) :=
    congrArg (fun account => account.hints[0]?) haccount
  have hreceived : (handed id (cluster.apply (.write now (.set key new .zero)))
      [.replayPending now])[0]? = some true := by
    rw [handed, share, hanswers]
    exact congrArg some hlate
  have hmeets : (Change.write (.set key new .zero)).Meets (.write (.set key old .zero)) :=
    ⟨key, rfl, rfl⟩
  constructor
  · exact .here hshare rfl hwaits hmeets hreceived rfl
  · exact ⟨_, log, hhanded, hold⟩

/-- An engine behind a switch that misses a write and returns for the next one is
overtaken, and ends with the value of the write that it missed. -/
theorem overtaken_missAndReturn
    (haccount : cluster.account id = switchedAccount id .up engine log [])
    (hreplica : id ∈ cluster.replicas key) (hsound : engine.Sound)
    (hroom : engine.shards.HasRoom key)
    (now : Instant) (old new : Value) :
    let run := (missAndReturn now id key old new).map ClusterStep.recorded
    Overtaken (· = true) id cluster run ∧ ∃ engine log,
      (cluster.run run).account id = switchedAccount id .up engine log [] ∧
        (engine.shards.find? key).map Entry.value = some old := by
  have hdown := account_turn haccount .down
  have hmissed := account_write_down hdown now (.set key old .zero)
    ((replicas_apply cluster _ key).symm ▸ hreplica)
  have hup := account_turn hmissed .up
  obtain ⟨hovertaken, hends⟩ := overtaken_of_waiting hup
    (by rwa [replicas_apply, replicas_apply, replicas_apply]) hsound hroom now new
  exact ⟨.later (.later (.later hovertaken)), hends⟩

/-- Of three replicas, one misses the first of two writes, answers the second, and
is then handed the first. -/
theorem hint_restores_old_value :
    let node (id : String) : Recorder (Switched (Engine Unit)) :=
      ⟨⟨id, {}, Engine.create ⟨1000, 4, .lru⟩ ()⟩, []⟩
    let cluster : Cluster (Recorder (Switched (Engine Unit))) :=
      ⟨Ring.ofVirtualNodes 1, ∅, 3, .empty, Nat.zero_lt_succ 2⟩
    let started := ((cluster.addNode "a" (node "a")).addNode "b" (node "b")).addNode "c" (node "c")
    let run := (missAndReturn 1000000 "b" "k" "v1".toUTF8 "v2".toUTF8).map ClusterStep.recorded
    ¬ InOrder (· = true) (started.history "b" run) ∧
      ∃ engine log, (started.run run).account "b" = switchedAccount "b" .up engine log [] ∧
        (engine.shards.find? "k").map Entry.value = some "v1".toUTF8 := by
  intro node cluster started run
  have haccount : started.account "b" =
      switchedAccount "b" .up (Engine.create ⟨1000, 4, .lru⟩ ()) [] [] := by
    rfl
  have hreplica : "b" ∈ started.replicas "k" := by
    change "b" ∈ ((((Ring.ofVirtualNodes 1).add "a").add "b").add "c").replicas "k" 3
    decide +kernel
  have hroom := Shards.hasRoom_create 4 (Engine.shareOf ⟨1000, 4, .lru⟩) .lru "k"
  obtain ⟨hovertaken, hends⟩ := overtaken_missAndReturn haccount hreplica
    (Engine.sound_create _ _) hroom 1000000 "v1".toUTF8 "v2".toUTF8
  exact ⟨hovertaken.not_inOrder (queued_start started "b"), hends⟩

end Return

end Cluster

end ReplicatedCache
