import ReplicatedCache.Proofs.Engine.Chronicle

/-! # What is announced

An engine is called, and listeners that keep their hands off it come and go. Whoever
follows the events of writes and the removals, in the order in which they are issued,
knows at all times which keys there are. Every key that leaves in a call is announced
once, when it is gone, and with its reason; and every listener is told of all removals
from the moment at which it comes until it is dismissed, whatever the others do.
-/

namespace ReplicatedCache

/-- What is done with an engine and its audience. -/
inductive Deed
  | call (now : Instant) (made : EngineCall)
  /-- A listener comes that answers removals in a given way. -/
  | subscribe (react : List Remark → String → RemovalCause → Reaction)
  | unsubscribe (id : Nat)

/-- Calls report what they do, and listeners keep their hands off the engine. -/
def Deed.HandsOff : Deed → Prop
  | call _ made => made.Audible
  | subscribe react => ∀ log key cause, (react log key cause).HandsOff
  | unsubscribe _ => True

namespace LiveEngine

def carryOut (engine : LiveEngine) : Deed → LiveEngine
  | .call now made => (engine.apply (Audience.hear now Audience.nesting) now made).1
  | .subscribe react => (engine.listen { react }).1
  | .unsubscribe id => engine.ignore id

def after (config : EngineConfig) (deeds : List Deed) : LiveEngine :=
  deeds.foldl carryOut (create config)

end LiveEngine

/-- Listeners, their logs and the feed, between two moments in which signals were issued. -/
structure Told (during : List Deed) (start after : Audience) (report : List Issue) : Prop where
  feed_eq : after.feed =
    (report.filterMap fun issue => issue.signal.event?).foldl EventFeed.publish start.feed
  logOf_eq : ∀ id, after.logOf id = start.logOf id ++ Act.written id (report.flatMap Issue.acts)
  /-- A listener is told of one signal after another, until one of those who are told
  dismisses it. -/
  reaches_iff : ∀ {first second : List Issue} {issue : Issue}, report = first ++ issue :: second →
    ∀ id < start.listeners.size, .unsubscribe id ∉ during →
      (issue.Reaches id ↔
        id ∈ start.active ∧ ∀ earlier ∈ first, Act.dismisses id ∉ earlier.acts)
  active_iff : ∀ id < start.listeners.size, .unsubscribe id ∉ during →
    (id ∈ after.active ↔ id ∈ start.active ∧ ∀ issue ∈ report, Act.dismisses id ∉ issue.acts)
  /-- Who has been dismissed is not told again. -/
  silent : ∀ id < start.listeners.size, id ∉ start.active →
    ∀ issue ∈ report, ¬ issue.Reaches id
  /-- Who is told at the end has been told all the time since it came. -/
  present : ∀ id ∈ after.active, ∀ issue ∈ report,
    id < issue.engine.audience.listeners.size → issue.Reaches id
  /-- A listener that writes down every removal has written down all that it was told of. -/
  transcribed : ∀ {id : Nat} {listener : Listener}, start.listeners[id]? = some listener →
    listener.Transcribes → after.logOf id = start.logOf id ++ report.flatMap fun issue =>
      if issue.Reaches id then Audience.remarks issue.signal else []
  comes : ∀ react, during = [.subscribe react] →
    start.listeners.size ∈ after.active ∧ start.listeners.size < after.listeners.size
  goes : ∀ id, during = [.unsubscribe id] → id ∉ after.active

/-- What is issued in a call explains which keys left. -/
structure Explained (now : Instant) (made : EngineCall) (answer : EngineAnswer)
    (start after : Shards) (report : List Issue) : Prop where
  /-- A removed key was there, and it is gone whenever it is somebody's turn to be told. -/
  departed : ∀ issue ∈ report, ∀ {key cause}, issue.signal = .removal key cause →
    key ∈ start.residents ∧ ∀ id, key ∉ (issue.turn id).shards.residents
  once : ((report.map Issue.signal).filterMap Signal.removed?).Nodup
  /-- Exactly the keys that left are reported, with the reason for which they left. -/
  removal_iff : ∀ {key cause}, .removal key cause ∈ report.map Issue.signal ↔
    (key ∈ start.residents ∧ key ∉ after.residents) ∧ made.Reason answer key cause
  /-- A key for which a delete succeeds is among them. -/
  deleted : ∀ {key}, made.Deletes answer key → .removal key .deleted ∈ report.map Issue.signal
  lapsed : ∀ {key}, .removal key .expired ∈ report.map Issue.signal →
    ∃ entry, start.find? key = some entry ∧ 0 < entry.deadline ∧ entry.deadline ≤ now

namespace ChronicledEngine

variable {engine start after : ChronicledEngine} {now : Instant} {made : EngineCall}

def attend (engine : ChronicledEngine) (change : Audience → Audience) : ChronicledEngine :=
  { engine with audience := ⟨change engine.audience.audience, engine.audience.issues⟩ }

def carryOut (engine : ChronicledEngine) : Deed → ChronicledEngine
  | .call now made => (engine.apply (hear now) now made).1
  | .subscribe react => attend engine fun audience => (audience.subscribe { react }).1
  | .unsubscribe id => attend engine (·.unsubscribe id)

/-- A new engine after some deeds, with a chronicle from the beginning. -/
def chronicled (config : EngineConfig) (deeds : List Deed) : ChronicledEngine :=
  deeds.foldl carryOut (Engine.create config {})

/-- Dropping the chronicle commutes with every deed: writing issues down does not change the
engine. -/
theorem live_carryOut (engine : ChronicledEngine) (deed : Deed) :
    live (carryOut engine deed) = (live engine).carryOut deed := by
  cases deed with
  | call now made => exact (apply_live engine now made).1
  | subscribe react => rfl
  | unsubscribe id => rfl

/-- The chronicled run is the run of the plain engine with its issues written down. -/
theorem live_chronicled (config : EngineConfig) (deeds : List Deed) :
    live (chronicled config deeds) = LiveEngine.after config deeds := by
  have hfold (engine : ChronicledEngine) :
      live (deeds.foldl carryOut engine) = deeds.foldl LiveEngine.carryOut (live engine) := by
    induction deeds generalizing engine with
    | nil => rfl
    | cons deed rest ih => rw [List.foldl_cons, List.foldl_cons, ih, live_carryOut]
  exact hfold _

/-! ## One call -/

/-- The engine is sound, and its listeners keep their hands off it. -/
structure Settled (engine : ChronicledEngine) : Prop where
  sound : engine.Sound
  handsOff : engine.audience.audience.HandsOff

/-- From one engine to a later one: what has been issued, and what has come of it. -/
structure Proceeds (dismissed : Nat → Prop) (start after : ChronicledEngine)
    (report : List Issue) : Prop where
  settled : Settled after
  issues_eq : after.audience.issues = start.audience.issues ++ report
  residents_eq : after.shards.residents =
    (report.map Issue.signal).foldl Signal.mirror start.shards.residents
  hears : start.audience.audience.Hears dismissed report after.audience.audience

/-- Whatever a call issues is heard, and an engine that keeps dispatches in the place of a
chronicle takes the same call. -/
theorem Settled.hears_call (h : Settled engine) (dismissed : Nat → Prop) (now : Instant)
    (made : EngineCall) :
    ∃ report, Settled (carryOut engine (.call now made)) ∧
      (carryOut engine (.call now made)).audience.issues = engine.audience.issues ++ report ∧
      engine.audience.audience.Hears dismissed report
        (carryOut engine (.call now made)).audience.audience ∧
      (engine.heardBy ([] : List Dispatch)).apply dispatching now made =
        ((carryOut engine (.call now made)).heardBy (report.map Issue.dispatch),
          (engine.apply (hear now) now made).2) := by
  have htwins : Engine.Twins (Recounts dismissed engine.audience.issues engine.audience.audience)
      engine (engine.heardBy []) :=
    ⟨rfl, h.handsOff, [], (List.append_nil _).symm, rfl, .done _⟩
  have hsound : (engine.heardBy ([] : List Dispatch)).Sound := h.sound.congr rfl rfl
  obtain ⟨⟨hsame, hhands, report, hissues, hdispatches, hears⟩, hanswer⟩ :=
    htwins.apply (bond_recounts dismissed _ _ now) now made
  have hafter := hsound.apply_dispatching now made
  rw [← hdispatches] at hsame
  rw [hsame] at hafter
  exact ⟨report, ⟨hafter.congr rfl rfl, hhands⟩, hissues, hears, Prod.ext hsame hanswer⟩

/-- A call proceeds by the issues of its report, told in time and each for a reason. -/
theorem Settled.apply (h : Settled engine) (dismissed : Nat → Prop) (now : Instant)
    (hmade : made.Audible) :
    ∃ report, Proceeds dismissed engine (carryOut engine (.call now made)) report ∧
      (∀ issue ∈ report, issue.dispatch.Timely) ∧
      engine.shards.Reports now made (engine.apply (hear now) now made).2
        (carryOut engine (.call now made)).shards (report.map Issue.signal) := by
  obtain ⟨report, hsettled, hissues, hears, hcall⟩ := h.hears_call dismissed now made
  have hsound : (engine.heardBy ([] : List Dispatch)).Sound := h.sound.congr rfl rfl
  obtain ⟨dispatches, haudience, htimely, hreports⟩ :=
    Engine.reports_apply (engine.heardBy []) now hsound hmade
  rw [hcall] at haudience hreports
  obtain rfl : report.map Issue.dispatch = dispatches := haudience.trans (List.nil_append _)
  rw [List.map_map] at hreports
  refine ⟨report, ⟨hsettled, hissues, ?_, hears⟩, fun issue hissue => ?_, hreports⟩
  · exact hreports.mirrored h.sound.shards hsettled.sound.shards
  · exact htimely _ (List.mem_map_of_mem hissue)

/-- Every removal in a call is explained. -/
theorem explained_call {dismissed : Nat → Prop} {report : List Issue} (h : Settled engine)
    (hproceeds : Proceeds dismissed engine after report)
    (htimely : ∀ issue ∈ report, issue.dispatch.Timely) {answer : EngineAnswer}
    (hreports : engine.shards.Reports now made answer after.shards (report.map Issue.signal)) :
    Explained now made answer engine.shards after.shards report := by
  have hleft {key : String} : engine.shards.Left after.shards key ↔
      key ∈ engine.shards.residents ∧ key ∉ after.shards.residents := by
    rw [h.sound.shards.mem_residents_iff, hproceeds.settled.sound.shards.mem_residents_iff,
      not_not, Shards.Left]
  constructor
  · intro issue hissue key cause hsignal
    have hmem : .removal key cause ∈ report.map Issue.signal :=
      hsignal ▸ List.mem_map_of_mem hissue
    refine ⟨(hleft.mp (hreports.removal_mem_iff.mp hmem).1).1, fun id => ?_⟩
    obtain ⟨hhands, -⟩ := hproceeds.hears.exists_split hissue
    obtain ⟨-, audience, hturn, -⟩ := Issue.turn_eq hhands id
    have ht := htimely issue hissue
    rw [hturn]
    exact fun hresident => ht.sound.mem_residents_iff.mp hresident (ht.gone hsignal)
  · exact hreports.nodup_removed
  · intro key cause
    rw [hreports.removal_mem_iff, hleft]
  · intro key hdeletes
    exact hreports.removal_mem_iff.mpr ⟨hreports.left_of_deletes hdeletes, hdeletes⟩
  · intro key hmem
    obtain ⟨entry, hfind, hover⟩ := hreports.over_of_expired hmem
    rw [Entry.expired, Bool.and_eq_true, decide_eq_true_eq, decide_eq_true_eq] at hover
    exact ⟨entry, hfind, hover⟩

/-! ## Whole runs -/

namespace Proceeds

variable {dismissed : Nat → Prop} {middle : ChronicledEngine} {first second : List Issue}

theorem refl (h : Settled engine) : Proceeds dismissed engine engine [] :=
  ⟨h, (List.append_nil _).symm, rfl, .done _⟩

/-- Reports join: what two stretches issue, one after the other, is what both issue. -/
theorem trans (h : Proceeds dismissed start middle first)
    (h' : Proceeds dismissed middle after second) :
    Proceeds dismissed start after (first ++ second) := by
  refine ⟨h'.settled, ?_, ?_, h.hears.trans h'.hears⟩
  · rw [h'.issues_eq, h.issues_eq, List.append_assoc]
  · rw [h'.residents_eq, h.residents_eq, List.map_append, List.foldl_append]

/-- Nothing is issued when the audience changes. -/
theorem attend {acts : List Act} (h : Settled engine) (change : Audience → Audience)
    (hhands : (change engine.audience.audience).HandsOff)
    (hcontinues : engine.audience.audience.Continues acts (change engine.audience.audience))
    (hacts : ∀ act ∈ acts, ∃ id, dismissed id ∧ act = .dismisses id) :
    Proceeds dismissed engine (attend engine change) [] :=
  ⟨⟨h.sound.congr rfl rfl, hhands⟩, (List.append_nil _).symm, rfl,
    .attended hcontinues hacts (.done _)⟩

/-- Any deed that hands off proceeds by some report. -/
theorem carryOut (h : Settled engine) {deed : Deed} (hdeed : deed.HandsOff)
    (hdismissed : ∀ id, deed = .unsubscribe id → dismissed id) :
    ∃ report, Proceeds dismissed engine (carryOut engine deed) report := by
  cases deed with
  | call now made =>
      obtain ⟨report, hproceeds, -⟩ := h.apply dismissed now hdeed
      exact ⟨report, hproceeds⟩
  | subscribe react =>
      refine ⟨[], attend h (fun audience => (audience.subscribe { react }).1)
        (h.handsOff.subscribe hdeed) (Audience.continues_subscribe _ { react } rfl) ?_⟩
      exact fun _ hact => absurd hact List.not_mem_nil
  | unsubscribe id =>
      refine ⟨[], attend h (·.unsubscribe id) (h.handsOff.unsubscribe id)
        (Audience.continues_unsubscribe _ id) ?_⟩
      intro act hact
      exact ⟨id, hdismissed id rfl, List.mem_singleton.mp hact⟩

/-- A sequence of deeds proceeds by some report, the reports of its deeds in turn. -/
theorem foldl {deeds : List Deed} (h : Settled engine) (hdeeds : ∀ deed ∈ deeds, deed.HandsOff)
    (hdismissed : ∀ id, .unsubscribe id ∈ deeds → dismissed id) :
    ∃ report, Proceeds dismissed engine (deeds.foldl ChronicledEngine.carryOut engine) report := by
  induction deeds generalizing engine with
  | nil => exact ⟨[], refl h⟩
  | cons deed rest ih =>
      obtain ⟨first, hfirst⟩ := carryOut h (hdeeds deed List.mem_cons_self) fun id heq =>
        hdismissed id (heq ▸ List.mem_cons_self)
      obtain ⟨second, hsecond⟩ := ih hfirst.settled
        (fun deed hmem => hdeeds deed (List.mem_cons_of_mem _ hmem))
        fun id hmem => hdismissed id (List.mem_cons_of_mem _ hmem)
      exact ⟨first ++ second, hfirst.trans hsecond⟩

end Proceeds

theorem settled_create (config : EngineConfig) : Settled (Engine.create config {}) :=
  ⟨Engine.sound_create config _, fun _ hmem => absurd hmem (Array.not_mem_empty _)⟩

theorem residents_create (config : EngineConfig) :
    (Engine.create config ({} : Chronicle)).shards.residents = ∅ := by
  refine Finset.eq_empty_of_forall_notMem fun key hmem => ?_
  have hthere := (settled_create config).sound.shards.mem_residents_iff.mp hmem
  exact hthere (Shards.find?_create _ _ _ _)

theorem chronicled_append (config : EngineConfig) (before during : List Deed) :
    chronicled config (before ++ during) = during.foldl carryOut (chronicled config before) :=
  List.foldl_append

section Chronicled

variable (config : EngineConfig) {before during : List Deed}
  (hbefore : ∀ deed ∈ before, deed.HandsOff)
include hbefore

theorem settled_chronicled : Settled (chronicled config before) := by
  obtain ⟨_, hproceeds⟩ := Proceeds.foldl (settled_create config) hbefore fun _ hmem => hmem
  exact hproceeds.settled

/-- Between any two points of a run the residents move as the report of that stretch says. -/
theorem proceeds_chronicled (hduring : ∀ deed ∈ during, deed.HandsOff) :
    ∃ report, Proceeds (fun id => .unsubscribe id ∈ during) (chronicled config before)
      (chronicled config (before ++ during)) report := by
  rw [chronicled_append]
  exact Proceeds.foldl (settled_chronicled config hbefore) hduring fun _ hmem => hmem

/-- The whole chronicle tells which keys there are. -/
theorem residents_chronicled : (chronicled config before).shards.residents =
    ((chronicled config before).audience.issues.map Issue.signal).foldl Signal.mirror ∅ := by
  obtain ⟨report, hproceeds⟩ := Proceeds.foldl (settled_create config) hbefore fun _ hmem => hmem
  have hissues : (chronicled config before).audience.issues = report :=
    hproceeds.issues_eq.trans (List.nil_append _)
  rw [hissues, ← residents_create config]
  exact hproceeds.residents_eq

end Chronicled

/-- What listeners have heard is what has been issued while they were there. -/
theorem told_of_hears {during : List Deed} {report : List Issue}
    (hears : start.audience.audience.Hears (fun id => .unsubscribe id ∈ during) report
      after.audience.audience)
    (hcomes : ∀ react, during = [.subscribe react] →
      after.audience.audience = (start.audience.audience.subscribe { react }).1)
    (hgoes : ∀ id, during = [.unsubscribe id] →
      after.audience.audience = start.audience.audience.unsubscribe id) :
    Told during start.audience.audience after.audience.audience report := by
  constructor
  · exact hears.feed_eq
  · exact hears.logOf_eq
  · rintro first second issue rfl id hid hkept
    exact hears.split.2.1.mem_active_iff hkept hid
  · exact fun id hid hkept => hears.mem_active_iff hkept hid
  · intro id hid hnot issue hissue hreaches
    obtain ⟨-, _, _, hfront, -⟩ := hears.exists_split hissue
    exact hnot (hfront.mem_active hid hreaches)
  · intro id hid issue hissue hthere
    obtain ⟨-, _, _, -, hback⟩ := hears.exists_split hissue
    exact hback.mem_active hthere hid
  · intro id listener hget hlistener
    rw [hears.logOf_eq, Act.written_flatMap]
    congr 1
    refine List.flatMap_congr fun issue hissue => ?_
    obtain ⟨hhands, _, _, hfront, -⟩ := hears.exists_split hissue
    obtain ⟨later, hlater, hreact⟩ := hfront.react_eq hget
    split
    next hreaches =>
      refine Issue.written_acts hhands hreaches hlater ?_
      rw [Listener.Transcribes, hreact]
      exact hlistener
    next hnot => exact Issue.written_acts_of_not_reaches hnot
  · intro react heq
    rw [hcomes react heq]
    have hsize : (start.audience.audience.subscribe { react }).1.listeners.size =
        start.audience.audience.listeners.size + 1 := Array.size_push _
    refine ⟨Audience.mem_active_iff.mpr ⟨{ react }, Array.getElem?_push_size, rfl⟩, ?_⟩
    rw [hsize]
    exact Nat.lt_succ_self _
  · intro id heq
    rw [hgoes id heq, Audience.mem_active_iff]
    rintro ⟨listener, hget, hactive⟩
    rw [Audience.getElem?_unsubscribe, if_pos rfl] at hget
    obtain ⟨old, -, rfl⟩ := Option.map_eq_some_iff.mp hget
    exact Bool.false_ne_true hactive

end ChronicledEngine

/-- Whatever is done with an engine in front of listeners that keep their hands off it: the
signals that are issued, of which a chronicle can be kept without changing anything, tell
at all times which keys there are. They reach every listener from the moment at which it
comes until it is dismissed. In a call every key that leaves is reported, once and for its
reason, when it is gone. -/
theorem announced_throughout (config : EngineConfig) {before during : List Deed}
    (hbefore : ∀ deed ∈ before, deed.HandsOff) (hduring : ∀ deed ∈ during, deed.HandsOff) :
    let start := LiveEngine.after config before
    let after := LiveEngine.after config (before ++ during)
    let past := (ChronicledEngine.chronicled config before).audience.issues
    let chronicled := ChronicledEngine.chronicled config (before ++ during)
    ChronicledEngine.live chronicled = after ∧
      after.shards.residents =
        (chronicled.audience.issues.map Issue.signal).foldl Signal.mirror ∅ ∧
      ∃ report, chronicled.audience.issues = past ++ report ∧
        after.shards.residents =
          (report.map Issue.signal).foldl Signal.mirror start.shards.residents ∧
        Told during start.audience after.audience report ∧
        ∀ now made, during = [.call now made] →
          Explained now made (start.apply (Audience.hear now Audience.nesting) now made).2
            start.shards after.shards report := by
  intro start after past chronicled
  have hall : ∀ deed ∈ before ++ during, deed.HandsOff := fun deed hmem =>
    (List.mem_append.mp hmem).elim (hbefore deed) (hduring deed)
  have hafter : ChronicledEngine.live chronicled = after := ChronicledEngine.live_chronicled _ _
  have hstart : ChronicledEngine.live (ChronicledEngine.chronicled config before) = start :=
    ChronicledEngine.live_chronicled _ _
  have hchronicled : chronicled = during.foldl ChronicledEngine.carryOut
      (ChronicledEngine.chronicled config before) :=
    ChronicledEngine.chronicled_append config before during
  obtain ⟨report, hproceeds⟩ := ChronicledEngine.proceeds_chronicled config hbefore hduring
  rw [← hafter, ← hstart]
  refine ⟨rfl, ChronicledEngine.residents_chronicled config hall, report, hproceeds.issues_eq,
    hproceeds.residents_eq, ?_, ?_⟩
  · refine ChronicledEngine.told_of_hears hproceeds.hears ?_ ?_
    · rintro react rfl
      rw [hchronicled]
      rfl
    · rintro id rfl
      rw [hchronicled]
      rfl
  · rintro now made rfl
    have hsettled := ChronicledEngine.settled_chronicled config hbefore
    obtain ⟨issued, hcall, htimely, hreports⟩ := hsettled.apply (fun _ => False) now
      (hduring _ List.mem_cons_self)
    have hsame : chronicled = ChronicledEngine.carryOut _ (.call now made) := hchronicled
    rw [← hsame] at hcall hreports
    -- The chronicle goes on in one way, so both reports are the same.
    obtain rfl : issued = report :=
      List.append_cancel_left (hcall.issues_eq.symm.trans hproceeds.issues_eq)
    rw [← (ChronicledEngine.apply_live _ now made).2]
    exact ChronicledEngine.explained_call hsettled hcall htimely hreports

/-- One listener fails whenever it is told, one looks at the engine, and one dismisses the
first of them and lets another come, while an entry makes room for another one. -/
theorem announced_turnover :
    let replacing (_ : List Remark) (_ : String) (_ : RemovalCause) : Reaction :=
      .unsubscribe 0 (.subscribe Listener.recording.react fun _ => .finish)
    let before : List Deed :=
      [.subscribe Listener.failing.react, .subscribe Listener.probing.react,
        .subscribe replacing, .call 1 (.set "a" "x".toUTF8 (.ofMillis 5))]
    let crowding : EngineCall := .set "b" "y".toUTF8 .zero
    let start := LiveEngine.after ⟨1, 1, .lru⟩ before
    let after := LiveEngine.after ⟨1, 1, .lru⟩ (before ++ [.call 2 crowding])
    (∀ deed ∈ before, deed.HandsOff) ∧ (∀ deed ∈ [Deed.call 2 crowding], deed.HandsOff) ∧
      ∃ report, Told [.call 2 crowding] start.audience after.audience report ∧
        Explained 2 crowding (start.apply (Audience.hear 2 Audience.nesting) 2 crowding).2
          start.shards after.shards report := by
  intro replacing before crowding start after
  have hbefore : ∀ deed ∈ before, deed.HandsOff := by
    simp only [before, List.forall_mem_cons]
    refine ⟨fun log key cause => .write .fail, fun log key cause => ?_, fun log key cause => ?_,
      trivial, nofun⟩
    · exact .contains fun live => .size fun size => .write .finish
    · exact .unsubscribe (.subscribe (fun log key cause => .write .finish) fun number => .finish)
  have hduring : ∀ deed ∈ [Deed.call 2 crowding], deed.HandsOff :=
    List.forall_mem_singleton.mpr trivial
  obtain ⟨-, -, report, -, -, htold, hexplained⟩ :=
    announced_throughout ⟨1, 1, .lru⟩ hbefore hduring
  exact ⟨hbefore, hduring, report, htold, hexplained 2 crowding rfl⟩

end ReplicatedCache
