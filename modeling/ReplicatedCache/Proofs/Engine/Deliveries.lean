import ReplicatedCache.Proofs.Engine.QuietListeners

/-! # Deliveries

A listener keeps its hands off the engine if it may look at it, write into its log, let
listeners come and go, and fail, but never calls the engine to change it. When such
listeners are told of a removal, the engine stays as it is. Each of those who are
subscribed at the moment of the removal reacts once, whatever the others do when it is
their turn, and nothing else happens to the audience.
-/

namespace ReplicatedCache

/-- Reactions that do not change the engine. -/
inductive Reaction.HandsOff : Reaction → Prop
  | finish : HandsOff .finish
  | fail : HandsOff .fail
  | write {remark : Remark} {next : Reaction} : HandsOff next → HandsOff (.write remark next)
  | contains {key : String} {next : Bool → Reaction} :
    (∀ live, HandsOff (next live)) → HandsOff (.contains key next)
  | size {next : Nat → Reaction} : (∀ size, HandsOff (next size)) → HandsOff (.size next)
  | subscribe {react : List Remark → String → RemovalCause → Reaction} {next : Nat → Reaction} :
    (∀ log key cause, HandsOff (react log key cause)) → (∀ number, HandsOff (next number)) →
      HandsOff (.subscribe react next)
  | unsubscribe {id : Nat} {next : Reaction} : HandsOff next → HandsOff (.unsubscribe id next)

/-! ## What happens to an audience -/

/-- What happens to an audience: an event is published, a listener writes into its log, or
a listener is told no more. -/
inductive Act
  | publishes (event : KeyEvent)
  | writes (id : Nat) (remark : Remark)
  | dismisses (id : Nat)

namespace Act

def event? : Act → Option KeyEvent
  | publishes event => some event
  | writes _ _ => none
  | dismisses _ => none

def remark? (id : Nat) : Act → Option Remark
  | publishes _ => none
  | writes other remark => if other = id then some remark else none
  | dismisses _ => none

def events (acts : List Act) : List KeyEvent := acts.filterMap event?

def written (id : Nat) (acts : List Act) : List Remark := acts.filterMap (remark? id)

variable (id : Nat) (first second : List Act)

theorem events_append : events (first ++ second) = events first ++ events second :=
  List.filterMap_append

theorem written_append : written id (first ++ second) = written id first ++ written id second :=
  List.filterMap_append

theorem written_flatMap {α : Type} (items : List α) (acts : α → List Act) :
    written id (items.flatMap acts) = items.flatMap fun item => written id (acts item) :=
  List.filterMap_flatMap

end Act

namespace Audience

/-- Every listener keeps its hands off the engine. -/
def HandsOff (audience : Audience) : Prop :=
  ∀ listener ∈ audience.listeners, ∀ log key cause, (listener.react log key cause).HandsOff

theorem nodup_active (audience : Audience) : audience.active.Nodup := List.nodup_range.filter _

theorem mem_active_iff {audience : Audience} {id : Nat} : id ∈ audience.active ↔
    ∃ listener, audience.listeners[id]? = some listener ∧ listener.active = true := by
  rw [active, List.mem_filter, List.mem_range]
  constructor
  · rintro ⟨hlt, hactive⟩
    rw [Array.getElem?_eq_getElem hlt] at hactive ⊢
    exact ⟨_, rfl, hactive⟩
  · rintro ⟨listener, hget, hactive⟩
    exact ⟨(Array.getElem?_eq_some_iff.mp hget).1, by rw [hget]; exact hactive⟩

/-- What becomes of an audience when acts are done in front of it. Listeners keep their
ways, and are told as long as nobody dismisses them. -/
structure Continues (acts : List Act) (before after : Audience) : Prop where
  feed_eq : after.feed = (Act.events acts).foldl EventFeed.publish before.feed
  logOf_eq : ∀ id, after.logOf id = before.logOf id ++ Act.written id acts
  keeps : ∀ {id : Nat} {listener : Listener}, before.listeners[id]? = some listener →
    ∃ later, after.listeners[id]? = some later ∧ later.react = listener.react ∧
      (later.active = true ↔ listener.active = true ∧ Act.dismisses id ∉ acts)

namespace Continues

theorem refl (audience : Audience) : Continues [] audience audience :=
  ⟨rfl, fun _ => (List.append_nil _).symm, fun {_ listener} hget =>
    ⟨listener, hget, rfl, (and_iff_left List.not_mem_nil).symm⟩⟩

/-- What two stretches do to an audience, one after the other, is done by their acts in turn. -/
theorem trans {first second : List Act} {before middle after : Audience}
    (h : Continues first before middle) (h' : Continues second middle after) :
    Continues (first ++ second) before after := by
  constructor
  · rw [h'.feed_eq, h.feed_eq, Act.events_append, List.foldl_append]
  · intro id
    rw [h'.logOf_eq, h.logOf_eq, Act.written_append, List.append_assoc]
  · intro id listener hget
    obtain ⟨between, hbetween, hreact, hactive⟩ := h.keeps hget
    obtain ⟨later, hlater, hreact', hactive'⟩ := h'.keeps hbetween
    refine ⟨later, hlater, hreact'.trans hreact, ?_⟩
    rw [hactive', hactive, List.mem_append, not_or, and_assoc]

variable {acts : List Act} {before after : Audience} {id : Nat}

/-- Listeners are only ever added: the numbers given out stay valid. -/
theorem size_le (h : Continues acts before after) :
    before.listeners.size ≤ after.listeners.size := by
  by_contra hlt
  have hmem : after.listeners.size < before.listeners.size := Nat.lt_of_not_le hlt
  obtain ⟨later, hlater, -⟩ := h.keeps (Array.getElem?_eq_getElem hmem)
  exact absurd (Array.getElem?_eq_some_iff.mp hlater).1 (Nat.lt_irrefl _)

/-- Who was there is told still if it was told and has not been dismissed. -/
theorem mem_active_iff (h : Continues acts before after) (hid : id < before.listeners.size) :
    id ∈ after.active ↔ id ∈ before.active ∧ Act.dismisses id ∉ acts := by
  have hget := Array.getElem?_eq_getElem hid
  obtain ⟨later, hlater, -, hactive⟩ := h.keeps hget
  rw [Audience.mem_active_iff, Audience.mem_active_iff, hlater, hget]
  simp only [Option.some.injEq, exists_eq_left', hactive]

end Continues

/-! ## The steps of a reaction -/

variable {audience : Audience}

/-- Writing a remark down leaves an audience that hands off one that hands off. -/
theorem HandsOff.write (h : audience.HandsOff) (id : Nat) (remark : Remark) :
    (audience.write id remark).HandsOff := by
  intro listener hmem
  have hlogged : listener ∈ (audience.logged id [remark]).listeners := hmem
  obtain ⟨old, hold, hreact⟩ := react_of_mem_logged hlogged
  rw [hreact]
  exact h old hold

/-- An audience still hands off with a further listener that does. -/
theorem HandsOff.subscribe (h : audience.HandsOff) {listener : Listener}
    (hnew : ∀ log key cause, (listener.react log key cause).HandsOff) :
    (audience.subscribe listener).1.HandsOff := by
  intro other hmem
  rcases Array.mem_push.mp hmem with hold | rfl
  · exact h other hold
  · exact hnew

theorem getElem?_unsubscribe (audience : Audience) (id other : Nat) :
    (audience.unsubscribe id).listeners[other]? =
      if id = other then audience.listeners[other]?.map fun l => { l with active := false }
      else audience.listeners[other]? := by
  rw [unsubscribe, Array.getElem?_modify]

theorem HandsOff.unsubscribe (h : audience.HandsOff) (id : Nat) :
    (audience.unsubscribe id).HandsOff := by
  intro listener hmem
  obtain ⟨i, hi, rfl⟩ := Array.mem_iff_getElem.mp hmem
  have hget := getElem?_unsubscribe audience id i
  rw [Array.getElem?_eq_getElem hi] at hget
  split at hget
  next =>
    obtain ⟨old, hold, heq⟩ := Option.map_eq_some_iff.mp hget.symm
    rw [← heq]
    exact h old (Array.mem_of_getElem? hold)
  next => exact h _ (Array.mem_of_getElem? hget.symm)

theorem continues_write {id : Nat} (hid : id < audience.listeners.size) (remark : Remark) :
    Continues [.writes id remark] audience (audience.write id remark) := by
  have hget (other : Nat) : (audience.write id remark).listeners[other]? = _ :=
    getElem?_logged audience id [remark] other
  refine ⟨rfl, fun other => ?_, fun {other listener} hlistener => ?_⟩
  · rw [logOf, logOf, hget]
    by_cases heq : id = other
    · subst heq
      rw [if_pos rfl, Array.getElem?_eq_getElem hid]
      simp [Act.written, Act.remark?]
    · rw [if_neg heq]
      simp [Act.written, Act.remark?, heq]
  · rw [hget, hlistener]
    split
    next => exact ⟨_, rfl, rfl, by simp⟩
    next => exact ⟨_, rfl, rfl, by simp⟩

/-- Who comes has written nothing. -/
theorem continues_subscribe (audience : Audience) (listener : Listener) (hlog : listener.log = []) :
    Continues [] audience (audience.subscribe listener).1 := by
  have hget (other : Nat) : (audience.subscribe listener).1.listeners[other]? =
      if other = audience.listeners.size then some listener else audience.listeners[other]? :=
    Array.getElem?_push
  refine ⟨rfl, fun other => ?_, fun {other old} hold => ?_⟩
  · rw [logOf, logOf, hget]
    by_cases heq : other = audience.listeners.size
    · rw [if_pos heq, heq, Array.getElem?_eq_none (Nat.le_refl _)]
      exact hlog
    · rw [if_neg heq]
      exact (List.append_nil _).symm
  · have hlt := (Array.getElem?_eq_some_iff.mp hold).1
    rw [hget, if_neg (Nat.ne_of_lt hlt)]
    exact ⟨old, hold, rfl, (and_iff_left List.not_mem_nil).symm⟩

/-- Dismissing a listener continues an audience by that act. -/
theorem continues_unsubscribe (audience : Audience) (id : Nat) :
    Continues [.dismisses id] audience (audience.unsubscribe id) := by
  refine ⟨rfl, fun other => ?_, fun {other listener} hlistener => ?_⟩
  · have hwritten : Act.written other [.dismisses id] = [] := rfl
    rw [hwritten, List.append_nil, logOf, logOf, getElem?_unsubscribe]
    by_cases heq : id = other
    · rw [if_pos heq]
      cases audience.listeners[other]? <;> rfl
    · rw [if_neg heq]
  · rw [getElem?_unsubscribe, hlistener]
    by_cases heq : id = other
    · rw [if_pos heq]
      exact ⟨_, rfl, rfl, by simp [heq]⟩
    · rw [if_neg heq]
      exact ⟨_, rfl, rfl, by simp [Ne.symm heq]⟩

theorem continues_publish (audience : Audience) (event : KeyEvent) :
    Continues [.publishes event] audience { audience with feed := audience.feed.publish event } :=
  ⟨rfl, fun _ => (List.append_nil _).symm, fun hget => ⟨_, hget, rfl, by simp⟩⟩

end Audience

/-! ## A whole delivery -/

/-- What a listener does in front of the audience while it reacts. -/
def Reaction.acts (hear : Hearing Audience) (now : Instant) (id : Nat) :
    Reaction → LiveEngine → List Act
  | finish, _ => []
  | fail, _ => []
  | write remark next, engine =>
    .writes id remark ::
      acts hear now id next { engine with audience := engine.audience.write id remark }
  | set key value ttl next, engine =>
    let (engine, stored) := engine.set hear now key value ttl
    acts hear now id (next stored) engine
  | get key next, engine =>
    let (engine, found) := engine.get hear now key
    acts hear now id (next found) engine
  | contains key next, engine => acts hear now id (next (engine.contains now key)) engine
  | size next, engine => acts hear now id (next engine.size) engine
  | subscribe react next, engine =>
    let (audience, number) := engine.audience.subscribe { react }
    acts hear now id (next number) { engine with audience }
  | unsubscribe other next, engine =>
    .dismisses other ::
      acts hear now id next { engine with audience := engine.audience.unsubscribe other }

variable {hear : Hearing Audience} {now : Instant} {key : String} {cause : RemovalCause}

/-- A reaction that keeps its hands off the engine changes the audience only. -/
theorem Reaction.HandsOff.run_eq {reaction : Reaction} (h : reaction.HandsOff) {id : Nat}
    {engine : LiveEngine} (hid : id < engine.audience.listeners.size)
    (haudience : engine.audience.HandsOff) :
    ∃ audience, reaction.run hear now id engine = { engine with audience } ∧ audience.HandsOff ∧
      engine.audience.Continues (reaction.acts hear now id engine) audience := by
  induction h generalizing engine with
  | finish => exact ⟨_, rfl, haudience, .refl _⟩
  | fail => exact ⟨_, rfl, haudience, .refl _⟩
  | @write remark next _ ih =>
      have hwrote := Audience.continues_write hid remark
      obtain ⟨audience, hrun, hafter, hcontinues⟩ :=
        @ih { engine with audience := engine.audience.write id remark }
          (Nat.lt_of_lt_of_le hid hwrote.size_le) (haudience.write id remark)
      exact ⟨audience, hrun, hafter, hwrote.trans hcontinues⟩
  | contains _ ih => exact ih _ hid haudience
  | size _ ih => exact ih _ hid haudience
  | @subscribe react next hreact _ _ ih =>
      have hcame := Audience.continues_subscribe engine.audience { react } rfl
      obtain ⟨audience, hrun, hafter, hcontinues⟩ :=
        @ih engine.audience.listeners.size
          { engine with audience := (engine.audience.subscribe { react }).1 }
          (Nat.lt_of_lt_of_le hid hcame.size_le) (haudience.subscribe hreact)
      exact ⟨audience, hrun, hafter, hcame.trans hcontinues⟩
  | @unsubscribe other next _ ih =>
      have hwent := Audience.continues_unsubscribe engine.audience other
      obtain ⟨audience, hrun, hafter, hcontinues⟩ :=
        @ih { engine with audience := engine.audience.unsubscribe other }
          (Nat.lt_of_lt_of_le hid hwent.size_le) (haudience.unsubscribe other)
      exact ⟨audience, hrun, hafter, hwent.trans hcontinues⟩

/-- While a listener reacts, it writes into its own log and dismisses listeners. -/
theorem Reaction.mem_acts {id : Nat} {reaction : Reaction} {engine : LiveEngine} {act : Act}
    (h : act ∈ reaction.acts hear now id engine) :
    (∃ remark, act = .writes id remark) ∨ ∃ other, act = .dismisses other := by
  induction reaction generalizing engine with
  | finish => exact absurd h List.not_mem_nil
  | fail => exact absurd h List.not_mem_nil
  | write remark next ih =>
      rcases List.mem_cons.mp h with rfl | hrest
      · exact .inl ⟨remark, rfl⟩
      · exact ih hrest
  | set key value ttl next ih => exact ih _ h
  | get key next ih => exact ih _ h
  | contains key next ih => exact ih _ h
  | size next ih => exact ih _ h
  | subscribe react next _ ih => exact ih _ h
  | unsubscribe other next ih =>
      rcases List.mem_cons.mp h with rfl | hrest
      · exact .inr ⟨other, rfl⟩
      · exact ih hrest

/-- Writes down every removal and does nothing else, unless it fails. -/
def Listener.Transcribes (listener : Listener) : Prop :=
  ∀ log key cause, ∃ last ∈ [Reaction.finish, Reaction.fail],
    listener.react log key cause = .write (.removed key cause) last

namespace Audience

def actsOf (hear : Hearing Audience) (now : Instant) (key : String) (cause : RemovalCause)
    (id : Nat) (engine : LiveEngine) : List Act :=
  match engine.audience.listeners[id]? with
  | none => []
  | some listener => (listener.react listener.log key cause).acts hear now id engine

/-- A listener that is told writes remarks of its own or dismisses listeners. -/
theorem mem_actsOf {id : Nat} {engine : LiveEngine} {act : Act}
    (h : act ∈ actsOf hear now key cause id engine) :
    (∃ remark, act = .writes id remark) ∨ ∃ other, act = .dismisses other := by
  rw [actsOf] at h
  split at h
  next => exact absurd h List.not_mem_nil
  next => exact Reaction.mem_acts h

/-- Who writes down every removal does so when it is told. -/
theorem written_actsOf_of_transcribes {id : Nat} {engine : LiveEngine} {listener : Listener}
    (hget : engine.audience.listeners[id]? = some listener) (h : listener.Transcribes) :
    Act.written id (actsOf hear now key cause id engine) = [.removed key cause] := by
  obtain ⟨last, hlast, hwrites⟩ := h listener.log key cause
  rw [actsOf, hget]
  dsimp only
  rw [hwrites]
  rcases List.mem_pair.mp hlast with rfl | rfl
  · exact List.filterMap_cons_some (if_pos rfl)
  · exact List.filterMap_cons_some (if_pos rfl)

/-- Telling a listener that hands off changes the audience only, by the acts of that
listener. -/
theorem HandsOff.tell_eq {engine : LiveEngine} (h : engine.audience.HandsOff) (id : Nat) :
    ∃ audience, tell hear now key cause engine id = { engine with audience } ∧
      audience.HandsOff ∧
      engine.audience.Continues (actsOf hear now key cause id engine) audience := by
  rw [tell, actsOf]
  cases hget : engine.audience.listeners[id]? with
  | none => exact ⟨_, rfl, h, .refl _⟩
  | some listener =>
      obtain ⟨hid, -⟩ := Array.getElem?_eq_some_iff.mp hget
      exact (h listener (Array.mem_of_getElem? hget) _ _ _).run_eq hid h

/-- The engine when it is the turn of a listener among those who are told. -/
def turn (hear : Hearing Audience) (now : Instant) (key : String) (cause : RemovalCause)
    (ids : List Nat) (engine : LiveEngine) (id : Nat) : LiveEngine :=
  (ids.takeWhile fun other => decide (other ≠ id)).foldl (tell hear now key cause) engine

theorem turn_cons_self (ids : List Nat) (engine : LiveEngine) (id : Nat) :
    turn hear now key cause (id :: ids) engine id = engine := by
  rw [turn, List.takeWhile_cons_of_neg (by simp), List.foldl_nil]

theorem turn_cons_of_ne {first id : Nat} (h : first ≠ id) (ids : List Nat) (engine : LiveEngine) :
    turn hear now key cause (first :: ids) engine id =
      turn hear now key cause ids (tell hear now key cause engine first) id := by
  rw [turn, List.takeWhile_cons_of_pos (by simpa using h), List.foldl_cons, turn]

/-- What listeners do when they are told of a removal one after another. -/
def deliveryActs (hear : Hearing Audience) (now : Instant) (key : String) (cause : RemovalCause)
    (ids : List Nat) (engine : LiveEngine) : List Act :=
  ids.flatMap fun id => actsOf hear now key cause id (turn hear now key cause ids engine id)

/-- The acts of a delivery are those of the first listener and then those of the others, who are
told in the engine it leaves. -/
theorem deliveryActs_cons {first : Nat} {rest : List Nat} (h : first ∉ rest)
    (engine : LiveEngine) :
    deliveryActs hear now key cause (first :: rest) engine =
      actsOf hear now key cause first engine ++
        deliveryActs hear now key cause rest (tell hear now key cause engine first) := by
  rw [deliveryActs, List.flatMap_cons, turn_cons_self, deliveryActs]
  congr 1
  refine List.flatMap_congr fun id hid => ?_
  have hne : first ≠ id := fun heq => h (heq ▸ hid)
  rw [turn_cons_of_ne hne]

/-- A delivery to listeners publishes no event. -/
theorem events_deliveryActs (ids : List Nat) (engine : LiveEngine) :
    Act.events (deliveryActs hear now key cause ids engine) = [] := by
  refine List.filterMap_eq_nil_iff.mpr fun act hact => ?_
  obtain ⟨id, -, hmem⟩ := List.mem_flatMap.mp hact
  rcases mem_actsOf hmem with ⟨_, rfl⟩ | ⟨_, rfl⟩
  · rfl
  · rfl

/-- Nobody else writes into the log of a listener, whenever the others react. -/
theorem written_actsOf_others {ids : List Nat} {id : Nat} (h : id ∉ ids)
    (turn : Nat → LiveEngine) :
    Act.written id (ids.flatMap fun other => actsOf hear now key cause other (turn other)) =
      [] := by
  refine List.filterMap_eq_nil_iff.mpr fun act hact => ?_
  obtain ⟨other, hother, hmem⟩ := List.mem_flatMap.mp hact
  rcases mem_actsOf hmem with ⟨_, rfl⟩ | ⟨_, rfl⟩
  · have hne : other ≠ id := fun heq => h (heq ▸ hother)
    exact if_neg hne
  · rfl

/-- A listener that is told writes what its reaction says when it is its turn. -/
theorem written_deliveryActs {ids : List Nat} (hnodup : ids.Nodup) {id : Nat} (hid : id ∈ ids)
    (engine : LiveEngine) :
    Act.written id (deliveryActs hear now key cause ids engine) =
      Act.written id (actsOf hear now key cause id (turn hear now key cause ids engine id)) := by
  obtain ⟨front, back, rfl⟩ := List.append_of_mem hid
  have hnot := (List.nodup_cons.mp (List.nodup_middle.mp hnodup)).1
  obtain ⟨hfront, hback⟩ := not_or.mp (mt List.mem_append.mpr hnot)
  rw [deliveryActs, List.flatMap_append, List.flatMap_cons, Act.written_append,
    Act.written_append, written_actsOf_others hfront, written_actsOf_others hback,
    List.nil_append, List.append_nil]

/-- Everybody who is told reacts when it is its turn, and nothing else happens. -/
theorem HandsOff.foldl_tell {engine : LiveEngine} (h : engine.audience.HandsOff) {ids : List Nat}
    (hnodup : ids.Nodup) :
    ∃ audience, ids.foldl (tell hear now key cause) engine = { engine with audience } ∧
      audience.HandsOff ∧
      engine.audience.Continues (deliveryActs hear now key cause ids engine) audience := by
  induction ids generalizing engine with
  | nil => exact ⟨_, rfl, h, .refl _⟩
  | cons first rest ih =>
      obtain ⟨hnot, hrest⟩ := List.nodup_cons.mp hnodup
      obtain ⟨told, htell, htold, hfirst⟩ := h.tell_eq first
      obtain ⟨audience, hfold, hafter, hothers⟩ := @ih { engine with audience := told } htold hrest
      rw [List.foldl_cons, deliveryActs_cons hnot, htell]
      exact ⟨audience, hfold, hafter, hfirst.trans hothers⟩

/-- The engine is as it was whenever it is somebody's turn. -/
theorem HandsOff.turn_eq {engine : LiveEngine} (h : engine.audience.HandsOff) {ids : List Nat}
    (hnodup : ids.Nodup) (id : Nat) :
    ∃ acts audience, turn hear now key cause ids engine id = { engine with audience } ∧
      engine.audience.Continues acts audience := by
  obtain ⟨audience, hfold, -, hcontinues⟩ :=
    h.foldl_tell (hnodup.sublist (List.takeWhile_sublist _))
  exact ⟨_, audience, hfold, hcontinues⟩

end Audience

end ReplicatedCache
