import ReplicatedCache.Proofs.Engine.Announcements
import ReplicatedCache.Proofs.Engine.Dealings

/-! # The balance of the statistics

An engine is called in any way, and listeners that keep their hands off it come and go.
Its counters are then what can be counted from outside: in the answers that calls have
been given, and in the events and removals that have been told. Its size is the number of
keys that have come less the number of those that have left. A counter has 64 bits, so it
is known up to multiples of 2^64; the size is known exactly.

The sweeps of a reaper are calls as well, and so is what a visitor does with an engine
while it visits the entries.
-/

namespace ReplicatedCache

/-- Calls of all kinds, and listeners that keep their hands off the engine. -/
def Deed.Harmless : Deed → Prop
  | call _ _ => True
  | subscribe react => ∀ log key cause, (react log key cause).HandsOff
  | unsubscribe _ => True

namespace LiveEngine

/-- What a deed comes to for an engine: nothing, unless it is a call. -/
def dealings (engine : LiveEngine) : Deed → List Dealing
  | .call now made => Engine.dealings (Audience.hear now Audience.nesting) now engine made
  | .subscribe _ => []
  | .unsubscribe _ => []

/-- The dealings of some deeds, in order. -/
def history (engine : LiveEngine) : List Deed → List Dealing
  | [] => []
  | deed :: rest => engine.dealings deed ++ (engine.carryOut deed).history rest

/-- The statistics and the size of an engine agree with the signals that have been issued
and with the dealings that there have been. -/
structure Balanced (engine : LiveEngine) (signals : List Signal) (dealings : List Dealing) :
    Prop where
  lookups : engine.stats.hits + engine.stats.misses =
    UInt64.ofNat (dealings.countP Dealing.looksUp)
  hits : engine.stats.hits = UInt64.ofNat (dealings.countP Dealing.hits)
  misses : engine.stats.misses = UInt64.ofNat (dealings.countP Dealing.misses)
  sets : engine.stats.sets = UInt64.ofNat (dealings.countP Dealing.writes)
  told_sets : signals.countP Signal.tellsSet = dealings.countP Dealing.writes
  rejectedSets : engine.stats.rejectedSets = UInt64.ofNat (dealings.countP Dealing.rejected)
  deletes : engine.stats.deletes = UInt64.ofNat (dealings.countP Dealing.deletes)
  told_deletes : signals.countP (Signal.tellsRemoval .deleted) =
    dealings.countP Dealing.deletes
  expirations : engine.stats.expirations =
    UInt64.ofNat (signals.countP (Signal.tellsRemoval .expired))
  evictions : engine.stats.evictions = UInt64.ofNat
    (signals.countP (Signal.tellsRemoval .evicted) + (dealings.map Dealing.displaced).sum)
  size : engine.size + (signals.countP (Signal.tellsRemoval .deleted) +
      signals.countP (Signal.tellsRemoval .expired) +
      (signals.countP (Signal.tellsRemoval .evicted) + (dealings.map Dealing.displaced).sum) +
      (dealings.map Dealing.silenced).sum) =
    dealings.countP Dealing.arrives

/-- What balances from the beginning balances. -/
theorem balanced_of_create (config : EngineConfig) {engine : LiveEngine} {signals : List Signal}
    {dealings : List Dealing} (h : (create config).Balances engine signals dealings) :
    engine.Balanced signals dealings := by
  have hstats (counter : Counter) : engine.stats.get counter =
      UInt64.ofNat (counter.tally signals dealings) := by
    rw [h.stats_eq]
    cases counter <;> exact UInt64.zero_add _
  have hempty : (create config).size = 0 :=
    (Engine.sound_create config ({} : Audience)).shards.size_eq_card.trans
      (Finset.card_eq_zero.mpr (ChronicledEngine.residents_create config))
  have hhits := hstats .hits
  have hmisses := hstats .misses
  have hsize := h.size_eq
  constructor
  · rw [h.lookups_eq, UInt64.ofNat_add]
    exact congrArg₂ (· + ·) hhits hmisses
  · exact hhits
  · exact hmisses
  · exact hstats .sets
  · exact h.told_sets
  · exact hstats .rejectedSets
  · exact hstats .deletes
  · exact h.told_deletes
  · exact hstats .expirations
  · exact hstats .evictions
  · rw [h.told_deletes]
    rw [hempty, Nat.zero_add] at hsize
    exact hsize

end LiveEngine

namespace ChronicledEngine

variable {engine start middle after : ChronicledEngine} {dismissed : Nat → Prop}

/-- A chronicle is kept without interfering. -/
theorem watches_hear (now : Instant) :
    Watches (fun chronicle : Chronicle => chronicle.audience.HandsOff)
      (fun chronicle => chronicle.issues.map Issue.signal) (fun signal => [signal]) (hear now) := by
  constructor
  · intro engine signal h
    obtain ⟨audience, heard, -⟩ := hear_eq h now signal
    rw [heard]
    rfl
  · intro engine signal h
    obtain ⟨audience, heard, hafter, -⟩ := hear_eq h now signal
    rw [heard]
    exact hafter
  · intro engine signal h
    obtain ⟨audience, heard, -⟩ := hear_eq h now signal
    rw [heard]
    exact List.map_append

/-- From one engine to a later one: what has been issued has been heard, and the statistics
agree with it. -/
structure Settles (dismissed : Nat → Prop) (start after : ChronicledEngine)
    (report : List Issue) (dealings : List Dealing) : Prop where
  settled : Settled after
  issues_eq : after.audience.issues = start.audience.issues ++ report
  hears : start.audience.audience.Hears dismissed report after.audience.audience
  balances : start.Balances after (report.map Issue.signal) dealings

/-- A call of any kind. -/
theorem Settled.settles_call (h : Settled engine) (dismissed : Nat → Prop) (now : Instant)
    (made : EngineCall) :
    ∃ report, Settles dismissed engine (carryOut engine (.call now made)) report
      (engine.dealings (hear now) now made) := by
  obtain ⟨report, hsettled, hissues, hears, -⟩ := h.hears_call dismissed now made
  let signals (chronicle : Chronicle) : List Signal := chronicle.issues.map Issue.signal
  -- An engine that writes the signals down follows, and its statistics are the same.
  have hfollows : Engine.Follows (fun chronicle : Chronicle => chronicle.audience.HandsOff) signals
      engine (engine.transcribed signals) := ⟨h.handsOff, rfl⟩
  have hbond := Engine.bond_of_watches (watches_hear now)
  have hdealings := (Engine.Follows.twins_iff.mpr hfollows).dealings hbond now made
  obtain ⟨⟨-, hmirror⟩, -⟩ := hfollows.apply now (watches_hear now) made
  have hsound : (engine.transcribed signals).Sound := h.sound.congr rfl rfl
  obtain ⟨issued, haudience, hbalances⟩ := Engine.balances_apply hsound now made
  rw [Engine.noting] at haudience hbalances
  rw [hmirror] at haudience hbalances
  rw [hdealings] at hbalances
  have hgrown : signals (carryOut engine (.call now made)).audience =
      signals engine.audience ++ report.map Issue.signal := by
    rw [← List.map_append, ← hissues]
  obtain rfl : report.map Issue.signal = issued :=
    List.append_cancel_left (hgrown.symm.trans haudience)
  exact ⟨report, hsettled, hissues, hears, hbalances.heardBy engine.audience _⟩

namespace Settles

variable {first second : List Issue} {dealings next : List Dealing}

theorem refl (h : Settled engine) : Settles dismissed engine engine [] [] :=
  ⟨h, (List.append_nil _).symm, .done _, .refl rfl rfl⟩

/-- Settlements join, their reports and their dealings alike. -/
theorem trans (h : Settles dismissed start middle first dealings)
    (h' : Settles dismissed middle after second next) :
    Settles dismissed start after (first ++ second) (dealings ++ next) := by
  refine ⟨h'.settled, ?_, h.hears.trans h'.hears, ?_⟩
  · rw [h'.issues_eq, h.issues_eq, List.append_assoc]
  · rw [List.map_append]
    exact h.balances.trans h'.balances

/-- Nothing is counted when the audience changes. -/
theorem attend {acts : List Act} (h : Settled engine) (change : Audience → Audience)
    (hhands : (change engine.audience.audience).HandsOff)
    (hcontinues : engine.audience.audience.Continues acts (change engine.audience.audience))
    (hacts : ∀ act ∈ acts, ∃ id, dismissed id ∧ act = .dismisses id) :
    Settles dismissed engine (attend engine change) [] [] :=
  ⟨⟨h.sound.congr rfl rfl, hhands⟩, (List.append_nil _).symm,
    .attended hcontinues hacts (.done _), .refl rfl rfl⟩

/-- One harmless deed settles: its counters move as its dealings and its report say. -/
theorem carryOut (h : Settled engine) {deed : Deed} (hdeed : deed.Harmless)
    (hdismissed : ∀ id, deed = .unsubscribe id → dismissed id) :
    ∃ report, Settles dismissed engine (carryOut engine deed) report
      ((live engine).dealings deed) := by
  cases deed with
  | call now made =>
      have htwins : Engine.Twins (fun engine (chronicle : Chronicle) =>
          chronicle.audience = engine.audience) (live engine) engine := ⟨rfl, rfl⟩
      obtain ⟨report, hsettles⟩ := h.settles_call dismissed now made
      rw [htwins.dealings (bond_live now)] at hsettles
      exact ⟨report, hsettles⟩
  | subscribe react =>
      refine ⟨[], attend h (fun audience => (audience.subscribe { react }).1)
        (h.handsOff.subscribe hdeed) (Audience.continues_subscribe _ { react } rfl) ?_⟩
      exact fun _ hact => absurd hact List.not_mem_nil
  | unsubscribe id =>
      refine ⟨[], attend h (·.unsubscribe id) (h.handsOff.unsubscribe id)
        (Audience.continues_unsubscribe _ id) ?_⟩
      intro act hact
      exact ⟨id, hdismissed id rfl, List.mem_singleton.mp hact⟩

/-- A sequence of harmless deeds settles with the dealings of its history. -/
theorem foldl {deeds : List Deed} (h : Settled engine) (hdeeds : ∀ deed ∈ deeds, deed.Harmless)
    (hdismissed : ∀ id, .unsubscribe id ∈ deeds → dismissed id) :
    ∃ report, Settles dismissed engine (deeds.foldl ChronicledEngine.carryOut engine) report
      ((live engine).history deeds) := by
  induction deeds generalizing engine with
  | nil => exact ⟨[], refl h⟩
  | cons deed rest ih =>
      obtain ⟨first, hfirst⟩ := carryOut h (hdeeds deed List.mem_cons_self) fun id heq =>
        hdismissed id (heq ▸ List.mem_cons_self)
      obtain ⟨second, hsecond⟩ := ih hfirst.settled
        (fun deed hmem => hdeeds deed (List.mem_cons_of_mem _ hmem))
        fun id hmem => hdismissed id (List.mem_cons_of_mem _ hmem)
      rw [live_carryOut] at hsecond
      exact ⟨first ++ second, hfirst.trans hsecond⟩

end Settles

end ChronicledEngine

/-- Whatever is done with a new engine in front of listeners that keep their hands off it:
the signals that are issued, of which a chronicle can be kept without changing anything,
reach the feed and the listeners, and with the answers of all calls they account for the
statistics and for the size. -/
theorem balanced_throughout (config : EngineConfig) {deeds : List Deed}
    (hdeeds : ∀ deed ∈ deeds, deed.Harmless) :
    let after := LiveEngine.after config deeds
    let chronicled := ChronicledEngine.chronicled config deeds
    ChronicledEngine.live chronicled = after ∧
      Told deeds {} after.audience chronicled.audience.issues ∧
      after.Balanced (chronicled.audience.issues.map Issue.signal)
        ((LiveEngine.create config).history deeds) := by
  intro after chronicled
  have hafter : ChronicledEngine.live chronicled = after := ChronicledEngine.live_chronicled _ _
  obtain ⟨report, hsettles⟩ := ChronicledEngine.Settles.foldl
    (ChronicledEngine.settled_create config) hdeeds fun _ hmem => hmem
  obtain rfl : chronicled.audience.issues = report :=
    hsettles.issues_eq.trans (List.nil_append _)
  rw [← hafter]
  refine ⟨rfl, ChronicledEngine.told_of_hears hsettles.hears ?_ ?_,
    LiveEngine.balanced_of_create config ?_⟩
  · rintro react rfl
    rfl
  · rintro id rfl
    rfl
  · exact hsettles.balances.heardBy ({} : Audience) _

/-- A listener that fails whenever it is told hears of an entry that lapses. One entry
makes room for a recorded one without a word, another is read and deleted, and what is
restored is cleared. -/
theorem balanced_turnover :
    let deeds : List Deed :=
      [.subscribe Listener.failing.react, .call 1 (.set "a" "x".toUTF8 (.ofMillis 5)),
        .call 2 (.replay (.set "b" "y".toUTF8 3)), .call 4 (.get "b"),
        .call 5 (.set "c" "z".toUTF8 .zero), .call 6 (.getWithToken "c"), .call 7 (.delete "c"),
        .call 8 (.restore [none, some (.set "d" "w".toUTF8 0)]), .call 9 .clear]
    let after := LiveEngine.after ⟨1, 1, .lru⟩ deeds
    let issues := (ChronicledEngine.chronicled ⟨1, 1, .lru⟩ deeds).audience.issues
    (∀ deed ∈ deeds, deed.Harmless) ∧ Told deeds {} after.audience issues ∧
      after.Balanced (issues.map Issue.signal)
        ((LiveEngine.create ⟨1, 1, .lru⟩).history deeds) := by
  intro deeds after issues
  have hdeeds : ∀ deed ∈ deeds, deed.Harmless := by
    simp only [deeds, List.forall_mem_cons]
    exact ⟨fun log key cause => .write .fail, trivial, trivial, trivial, trivial, trivial, trivial,
      trivial, trivial, nofun⟩
  obtain ⟨-, htold, hbalanced⟩ := balanced_throughout ⟨1, 1, .lru⟩ hdeeds
  exact ⟨hdeeds, htold, hbalanced⟩

end ReplicatedCache
