import ReplicatedCache.Proofs.Engine.Deliveries
import ReplicatedCache.Proofs.Engine.Reports

/-! # Chronicles

A chronicle is kept beside the audience of an engine. It takes every signal down when it
is issued, with the engine as it is at that moment, and does not interfere. Among
listeners that keep their hands off the engine, the chronicle tells which keys there are,
why the others left, and what every listener has heard.
-/

namespace ReplicatedCache

/-- A signal, and the engine at the moment at which it is issued. -/
structure Issue where
  now : Instant
  engine : LiveEngine
  signal : Signal

namespace Issue

def dispatch (issue : Issue) : Dispatch := ⟨issue.engine.shards, issue.signal⟩

/-- A listener is told of what is issued while it is subscribed. -/
def Reaches (issue : Issue) (id : Nat) : Prop := id ∈ issue.engine.audience.active

instance (issue : Issue) (id : Nat) : Decidable (issue.Reaches id) :=
  inferInstanceAs (Decidable (id ∈ issue.engine.audience.active))

/-- The calls that listeners make find this hearing. -/
def nested (issue : Issue) : Hearing Audience := Audience.hear issue.now (Audience.nesting - 1)

/-- The engine when it is the turn of a listener. -/
def turn (issue : Issue) (id : Nat) : LiveEngine :=
  match issue.signal with
  | .event _ => issue.engine
  | .removal key cause =>
    Audience.turn issue.nested issue.now key cause issue.engine.audience.active issue.engine id

/-- What happens to the audience when the signal is heard. -/
def acts (issue : Issue) : List Act :=
  match issue.signal with
  | .event event => [.publishes event]
  | .removal key cause =>
    Audience.deliveryActs issue.nested issue.now key cause issue.engine.audience.active
      issue.engine

theorem events_acts (issue : Issue) : Act.events issue.acts = issue.signal.event?.toList := by
  obtain ⟨now, engine, signal⟩ := issue
  cases signal with
  | event event => rfl
  | removal key cause => exact Audience.events_deliveryActs _ _

/-- Who is not reached writes nothing. -/
theorem written_acts_of_not_reaches {issue : Issue} {id : Nat} (h : ¬ issue.Reaches id) :
    Act.written id issue.acts = [] := by
  obtain ⟨now, engine, signal⟩ := issue
  cases signal with
  | event event => rfl
  | removal key cause => exact Audience.written_actsOf_others h _

/-- Nobody touches the engine before it is somebody's turn. -/
theorem turn_eq {issue : Issue} (h : issue.engine.audience.HandsOff) (id : Nat) :
    ∃ acts audience, issue.turn id = { issue.engine with audience } ∧
      issue.engine.audience.Continues acts audience := by
  obtain ⟨now, engine, signal⟩ := issue
  cases signal with
  | event event => exact ⟨[], engine.audience, rfl, .refl _⟩
  | removal key cause => exact h.turn_eq (Audience.nodup_active _) id

end Issue

/-- A listener that writes down every removal does so when a signal reaches it. -/
theorem Issue.written_acts {issue : Issue} (h : issue.engine.audience.HandsOff) {id : Nat}
    (hreaches : issue.Reaches id) {listener : Listener}
    (hget : issue.engine.audience.listeners[id]? = some listener)
    (hlistener : listener.Transcribes) :
    Act.written id issue.acts = Audience.remarks issue.signal := by
  obtain ⟨_, audience, hturn, hcontinues⟩ := Issue.turn_eq h id
  obtain ⟨later, hlater, hreact, -⟩ := hcontinues.keeps hget
  have hturned : (issue.turn id).audience.listeners[id]? = some later := hturn ▸ hlater
  have hlater' : later.Transcribes := by rwa [Listener.Transcribes, hreact]
  obtain ⟨now, engine, signal⟩ := issue
  cases signal with
  | event event => rfl
  | removal key cause =>
      exact (Audience.written_deliveryActs (Audience.nodup_active _) hreaches _).trans
        (Audience.written_actsOf_of_transcribes hturned hlater')

namespace Audience

/-- A signal is heard by those it reaches, and the engine stays as it is. -/
theorem HandsOff.hear_eq {engine : LiveEngine} (h : engine.audience.HandsOff) (now : Instant)
    (signal : Signal) :
    ∃ audience, hear now nesting engine signal = { engine with audience } ∧ audience.HandsOff ∧
      engine.audience.Continues (Issue.acts ⟨now, engine, signal⟩) audience := by
  cases signal with
  | event event => exact ⟨_, rfl, h, continues_publish _ event⟩
  | removal key cause => exact h.foldl_tell (nodup_active _)

/-- Signals are issued one after another in front of listeners that keep their hands off
the engine. In between listeners may come, and some may be dismissed. -/
inductive Hears (dismissed : Nat → Prop) : Audience → List Issue → Audience → Prop
  | done (audience : Audience) : Hears dismissed audience [] audience
  | issued {issue : Issue} {rest : List Issue} {middle after : Audience}
    (hhands : issue.engine.audience.HandsOff)
    (hfirst : issue.engine.audience.Continues issue.acts middle)
    (hrest : Hears dismissed middle rest after) :
    Hears dismissed issue.engine.audience (issue :: rest) after
  | attended {acts : List Act} {report : List Issue} {before middle after : Audience}
    (hfirst : before.Continues acts middle)
    (hacts : ∀ act ∈ acts, ∃ id, dismissed id ∧ act = .dismisses id)
    (hrest : Hears dismissed middle report after) : Hears dismissed before report after

namespace Hears

variable {dismissed : Nat → Prop} {before middle after : Audience}
  {report first second : List Issue} {id : Nat}

/-- What is heard in two stretches, one after the other, is heard in both together. -/
theorem trans (h : Hears dismissed before first middle)
    (h' : Hears dismissed middle second after) :
    Hears dismissed before (first ++ second) after := by
  induction h with
  | done => exact h'
  | issued hhands hfirst _ ih => exact .issued hhands hfirst (ih h')
  | attended hfirst hacts _ ih => exact .attended hfirst hacts (ih h')

/-- What the audience was like at the moment at which a signal was issued. -/
theorem split {issue : Issue} (h : Hears dismissed before (first ++ issue :: second) after) :
    issue.engine.audience.HandsOff ∧ Hears dismissed before first issue.engine.audience ∧
      Hears dismissed issue.engine.audience (issue :: second) after := by
  generalize hreport : first ++ issue :: second = report at h
  induction h generalizing first with
  | done => exact absurd hreport (by simp)
  | @issued head rest middle after hhands hfirst hrest ih =>
      cases first with
      | nil =>
          obtain ⟨rfl, rfl⟩ := List.cons.inj hreport
          exact ⟨hhands, .done _, .issued hhands hfirst hrest⟩
      | cons own others =>
          obtain ⟨rfl, htail⟩ := List.cons.inj hreport
          obtain ⟨hissue, hfront, hback⟩ := ih htail
          exact ⟨hissue, .issued hhands hfirst hfront, hback⟩
  | attended hfirst hacts _ ih =>
      -- Nothing is issued here, so the cut comes later.
      obtain ⟨hissue, hfront, hback⟩ := ih hreport
      exact ⟨hissue, .attended hfirst hacts hfront, hback⟩

/-- An issue divides its report into what the audience heard before it and what it hears from
then on. -/
theorem exists_split {issue : Issue} (h : Hears dismissed before report after)
    (hissue : issue ∈ report) :
    issue.engine.audience.HandsOff ∧
      ∃ first second, Hears dismissed before first issue.engine.audience ∧
        Hears dismissed issue.engine.audience second after := by
  obtain ⟨first, second, rfl⟩ := List.append_of_mem hissue
  exact ⟨h.split.1, first, issue :: second, h.split.2⟩

/-- The feed gets the events that are issued. -/
theorem feed_eq (h : Hears dismissed before report after) :
    after.feed = (report.filterMap fun issue => issue.signal.event?).foldl EventFeed.publish
      before.feed := by
  induction h with
  | done => rfl
  | @issued issue _ _ _ _ hfirst _ ih =>
      rw [ih, hfirst.feed_eq, issue.events_acts, List.filterMap_cons]
      cases issue.signal.event? <;> rfl
  | @attended acts _ _ _ _ hfirst hacts _ ih =>
      have hnone : Act.events acts = [] := List.filterMap_eq_nil_iff.mpr fun act hact => by
        obtain ⟨_, -, rfl⟩ := hacts act hact
        rfl
      rw [ih, hfirst.feed_eq, hnone, List.foldl_nil]

/-- Logs get what is written when signals are heard. -/
theorem logOf_eq (h : Hears dismissed before report after) (id : Nat) :
    after.logOf id = before.logOf id ++ Act.written id (report.flatMap Issue.acts) := by
  induction h with
  | done => exact (List.append_nil _).symm
  | issued _ hfirst _ ih =>
      rw [ih, hfirst.logOf_eq, List.flatMap_cons, Act.written_append, List.append_assoc]
  | @attended acts _ _ _ _ hfirst hacts _ ih =>
      have hnone : Act.written id acts = [] := List.filterMap_eq_nil_iff.mpr fun act hact => by
        obtain ⟨_, -, rfl⟩ := hacts act hact
        rfl
      rw [ih, hfirst.logOf_eq, hnone, List.append_nil]

/-- Listeners keep their ways. -/
theorem react_eq (h : Hears dismissed before report after) {listener : Listener}
    (hget : before.listeners[id]? = some listener) :
    ∃ later, after.listeners[id]? = some later ∧ later.react = listener.react := by
  induction h generalizing listener with
  | done => exact ⟨listener, hget, rfl⟩
  | issued _ hfirst _ ih =>
      obtain ⟨between, hbetween, hreact, -⟩ := hfirst.keeps hget
      obtain ⟨later, hlater, hreact'⟩ := ih hbetween
      exact ⟨later, hlater, hreact'.trans hreact⟩
  | attended hfirst _ _ ih =>
      obtain ⟨between, hbetween, hreact, -⟩ := hfirst.keeps hget
      obtain ⟨later, hlater, hreact'⟩ := ih hbetween
      exact ⟨later, hlater, hreact'.trans hreact⟩

/-- Who was there and is told at the end has been told all the time. -/
theorem mem_active (h : Hears dismissed before report after) (hid : id < before.listeners.size)
    (hafter : id ∈ after.active) : id ∈ before.active := by
  induction h with
  | done => exact hafter
  | issued _ hfirst _ ih =>
      exact ((hfirst.mem_active_iff hid).mp (ih (hid.trans_le hfirst.size_le) hafter)).1
  | attended hfirst _ _ ih =>
      exact ((hfirst.mem_active_iff hid).mp (ih (hid.trans_le hfirst.size_le) hafter)).1

/-- Who was told is told still, unless it has been dismissed by one of those who heard. -/
theorem mem_active_iff (h : Hears dismissed before report after) (hkept : ¬ dismissed id)
    (hid : id < before.listeners.size) :
    id ∈ after.active ↔
      id ∈ before.active ∧ ∀ issue ∈ report, Act.dismisses id ∉ issue.acts := by
  induction h with
  | done => simp
  | issued _ hfirst _ ih =>
      rw [ih (hid.trans_le hfirst.size_le), hfirst.mem_active_iff hid, List.forall_mem_cons,
        and_assoc]
  | attended hfirst hacts _ ih =>
      have hnot : Act.dismisses id ∉ _ := fun hmem => by
        obtain ⟨_, hgone, heq⟩ := hacts _ hmem
        obtain rfl := Act.dismisses.inj heq
        exact hkept hgone
      rw [ih (hid.trans_le hfirst.size_le), hfirst.mem_active_iff hid, and_iff_left hnot]

end Hears

end Audience

/-! ## Keeping a chronicle -/

/-- An audience, and what has been issued in front of it. -/
structure Chronicle where
  audience : Audience := {}
  issues : List Issue := []

abbrev ChronicledEngine := Engine Chronicle

namespace ChronicledEngine

def live (engine : ChronicledEngine) : LiveEngine := engine.heardBy engine.audience.audience

/-- The audience hears a signal, and the chronicle takes it down. -/
def hear (now : Instant) : Hearing Chronicle := fun engine signal =>
  let issue : Issue := ⟨now, ChronicledEngine.live engine, signal⟩
  let heard := Audience.hear now Audience.nesting issue.engine signal
  heard.heardBy ⟨heard.audience, engine.audience.issues ++ [issue]⟩

/-- A signal is heard, and it is taken down beside the audience. -/
theorem hear_eq {engine : ChronicledEngine} (h : engine.audience.audience.HandsOff)
    (now : Instant) (signal : Signal) :
    ∃ audience, hear now engine signal = engine.heardBy
        ⟨audience, engine.audience.issues ++ [⟨now, live engine, signal⟩]⟩ ∧
      audience.HandsOff ∧
      engine.audience.audience.Continues (Issue.acts ⟨now, live engine, signal⟩) audience := by
  have hlive : (live engine).audience.HandsOff := h
  obtain ⟨audience, hheard, hafter, hcontinues⟩ := hlive.hear_eq now signal
  refine ⟨audience, ?_, hafter, hcontinues⟩
  rw [hear]
  dsimp only
  rw [hheard]
  rfl

/-- Nothing that happens to an engine depends on the chronicle. -/
theorem bond_live (now : Instant) :
    Engine.Bond (fun engine (chronicle : Chronicle) => chronicle.audience = engine.audience)
      (Audience.hear now Audience.nesting) (hear now) := by
  constructor
  · exact fun hstep hrelated => hrelated.trans hstep.audience_eq.symm
  · rintro engine twin signal ⟨hsame, hrelated⟩
    have hlive : live twin = engine := by
      rw [live, hrelated, hsame]
      rfl
    rw [hear, hlive]
    exact ⟨rfl, rfl⟩

/-- Writing the chronicle does not disturb a call: engine and answer are those of the plain
engine. -/
theorem apply_live (engine : ChronicledEngine) (now : Instant) (made : EngineCall) :
    live (engine.apply (hear now) now made).1 =
        ((live engine).apply (Audience.hear now Audience.nesting) now made).1 ∧
      (engine.apply (hear now) now made).2 =
        ((live engine).apply (Audience.hear now Audience.nesting) now made).2 := by
  have htwins : Engine.Twins (fun engine (chronicle : Chronicle) =>
      chronicle.audience = engine.audience) (live engine) engine := ⟨rfl, rfl⟩
  obtain ⟨⟨hsame, hrelated⟩, hanswer⟩ := htwins.apply (bond_live now) now made
  refine ⟨?_, hanswer⟩
  rw [live, hrelated, hsame]
  rfl

/-! ## What a call adds to a chronicle -/

/-- What has been taken down since a moment is what the audience has heard since then. -/
def Recounts (dismissed : Nat → Prop) (past : List Issue) (start : Audience)
    (engine : ChronicledEngine) (dispatches : List Dispatch) : Prop :=
  engine.audience.audience.HandsOff ∧
    ∃ report, engine.audience.issues = past ++ report ∧
      report.map Issue.dispatch = dispatches ∧
      start.Hears dismissed report engine.audience.audience

/-- An audience that chronicles is bound to one that only keeps the dispatches. -/
theorem bond_recounts (dismissed : Nat → Prop) (past : List Issue) (start : Audience)
    (now : Instant) : Engine.Bond (Recounts dismissed past start) (hear now) dispatching := by
  constructor
  · intro engine after dispatches hstep h
    have haudience : after.audience = engine.audience := hstep.audience_eq
    rw [Recounts, haudience]
    exact h
  · rintro engine twin signal ⟨hsame, hhands, report, hissues, hdispatches, hears⟩
    obtain ⟨audience, heard, hafter, hcontinues⟩ := hear_eq hhands now signal
    rw [heard]
    refine ⟨?_, hafter, report ++ [⟨now, live engine, signal⟩], ?_, ?_, ?_⟩
    · rw [hsame]
      rfl
    · change engine.audience.issues ++ _ = _
      rw [hissues, List.append_assoc]
    · rw [List.map_append, hdispatches, hsame]
      rfl
    · exact hears.trans (@Audience.Hears.issued dismissed ⟨now, live engine, signal⟩ _ _ _ hhands
        hcontinues (.done _))

end ChronicledEngine

end ReplicatedCache
