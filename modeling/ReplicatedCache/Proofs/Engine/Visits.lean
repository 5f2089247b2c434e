import ReplicatedCache.Proofs.Engine.QuietListeners
import ReplicatedCache.Proofs.Engine.Restoring
import ReplicatedCache.Proofs.Engine.Steps

/-! # Visitors that change what they visit

A visit copies a segment when it reaches it. Whatever the visitor does to the engine,
the copy stays as it is, and what is done to segments further on shows when they are
reached. So a visitor that takes out every key that it is shown is shown all that was
live when it began, and a visitor that stores new entries is not kept going by them.
-/

namespace ReplicatedCache

variable {A ρ σ : Type}

theorem Shards.keys_nodup_entriesAt (shards : Shards) (i : Nat) :
    ((shards.entriesAt i).map (·.1)).Nodup := by
  unfold entriesAt
  split
  next segment _ => exact segment.keys_nodup
  next => exact List.nodup_nil

namespace Engine

/-- The live entries of one segment, eldest first. -/
def liveAt (engine : Engine A) (now : Instant) (i : Nat) : List (String × Entry) :=
  (engine.shards.entriesAt i).filter fun binding => binding.2.live now

/-- A dump goes through the segments in turn. -/
theorem dump_eq_flatMap (engine : Engine A) (now : Instant) :
    engine.dump now = (List.range engine.segmentCount).flatMap (engine.liveAt now) := by
  rw [dump, Shards.entries_eq_flatMap, List.filter_flatMap]
  rfl

/-! ## One segment after another -/

section Turns

variable (visitor : Engine A → σ → String → Entry → Engine A × σ) (now : Instant)

/-- A visitor is shown entries one after another, each with the engine and the state as it
has left them. -/
inductive Shown : Engine A × σ → List (String × Entry) → Engine A × σ → Prop
  | stop {state : Engine A × σ} : Shown state [] state
  | go {state last : Engine A × σ} {key : String} {entry : Entry} {rest : List (String × Entry)} :
    Shown (visitor state.1 state.2 key entry) rest last → Shown state ((key, entry) :: rest) last

/-- From `start` to `last` a visit reaches `count` segments. The visitor is shown what is
live of each when it is reached, and nothing happens in between; `seen` is all that it is
shown. -/
structure Rounds (count : Nat) (start last : Engine A × σ) (reached : Nat → Engine A × σ)
    (seen : List (String × Entry)) : Prop where
  first : reached 0 = start
  last : reached count = last
  shown : ∀ i < count, Shown visitor (reached i) ((reached i).1.liveAt now i) (reached (i + 1))
  seen_eq : seen = (List.range count).flatMap fun i => (reached i).1.liveAt now i

def showing (list : List (String × Entry)) (state : Engine A × σ) : Engine A × σ :=
  list.foldl (fun state binding => visitor state.1 state.2 binding.1 binding.2) state

/-- How a visit reaches a segment. -/
def reaching (start : Engine A × σ) : Nat → Engine A × σ
  | 0 => start
  | i + 1 =>
    let state := reaching start i
    showing visitor (state.1.liveAt now i) state

/-- The visitor that also writes down what it is shown. -/
def logging (engine : Engine A) (s : σ × List (String × Entry)) (key : String) (entry : Entry) :
    Engine A × (σ × List (String × Entry)) :=
  let (after, t) := visitor engine s.1 key entry
  (after, (t, s.2 ++ [(key, entry)]))

variable {visitor now}

theorem shown_showing (list : List (String × Entry)) (state : Engine A × σ) :
    Shown visitor state list (showing visitor list state) := by
  induction list generalizing state with
  | nil => exact .stop
  | cons first rest ih => exact .go (ih _)

/-- A visit reaches all segments. -/
theorem visit_eq_reaching (engine : Engine A) (start : σ) :
    engine.visit now visitor start = reaching visitor now (engine, start) engine.segmentCount := by
  have hround (state : Engine A × σ) (i : Nat) :
      (state.1.shards.entriesAt i).foldl (fun (state : Engine A × σ) (binding : String × Entry) =>
          if binding.2.expired now then state
          else visitor state.1 state.2 binding.1 binding.2) state =
        showing visitor (state.1.liveAt now i) state := by
    rw [showing, liveAt, List.foldl_filter]
    congr 1
    funext state binding
    cases hexpired : binding.2.expired now <;> simp [Entry.live, hexpired]
  rw [visit]
  -- the number of segments is read once, when the visit begins
  induction engine.segmentCount with
  | zero => rfl
  | succ count ih =>
      rw [List.range_succ, List.foldl_concat, ih]
      exact hround _ count

/-- Over one segment the log grows by what is shown, and the visitor does what it does without a
log. -/
theorem showing_logging (list : List (String × Entry)) (state : Engine A × σ)
    (seen : List (String × Entry)) :
    showing (logging visitor) list (state.1, (state.2, seen)) =
      ((showing visitor list state).1, ((showing visitor list state).2, seen ++ list)) := by
  induction list generalizing state seen with
  | nil => simp [showing]
  | cons first rest ih =>
      have hrest := ih (visitor state.1 state.2 first.1 first.2) (seen ++ [first])
      rw [List.append_assoc, List.singleton_append] at hrest
      exact hrest

/-- To write down what is shown does not change what happens. -/
theorem reaching_logging (start : Engine A × σ) (count : Nat) :
    reaching (logging visitor) now (start.1, (start.2, [])) count =
      ((reaching visitor now start count).1, ((reaching visitor now start count).2,
        (List.range count).flatMap fun i => (reaching visitor now start i).1.liveAt now i)) := by
  induction count with
  | zero => rfl
  | succ count ih =>
      rw [reaching, ih, List.range_succ, List.flatMap_append, List.flatMap_singleton]
      exact showing_logging _ (reaching visitor now start count) _

theorem rounds_reaching (start : Engine A × σ) (count : Nat) :
    Rounds visitor now count start (reaching visitor now start count) (reaching visitor now start)
      ((List.range count).flatMap fun i => (reaching visitor now start i).1.liveAt now i) :=
  ⟨rfl, rfl, fun i _ => shown_showing _ (reaching visitor now start i), rfl⟩

/-- What a visitor keeps holds whenever a segment is reached. -/
theorem reaching_keeps {kept : Engine A → Prop}
    (hvisitor : ∀ engine s key entry, kept engine → kept (visitor engine s key entry).1)
    (start : Engine A × σ) (h : kept start.1) (now : Instant) (i : Nat) :
    kept (reaching visitor now start i).1 := by
  induction i with
  | zero => exact h
  | succ i ih =>
      have hshowing (list : List (String × Entry)) (state : Engine A × σ) (hstate : kept state.1) :
          kept (showing visitor list state).1 := by
        induction list generalizing state with
        | nil => exact hstate
        | cons first rest ih => exact ih _ (hvisitor _ _ _ _ hstate)
      exact hshowing _ _ ih

end Turns

/-! ## No more entries than places -/

namespace Orderly

variable {config : EngineConfig} {engine : Engine A} (h : Orderly config engine)
include h

theorem segmentCount_eq : engine.segmentCount = max 1 config.segments :=
  Shards.size_segments_of_capacities h.capacities

/-- A segment shows at most as many entries as its share. -/
theorem length_liveAt_le (now : Instant) (i : Nat) :
    (engine.liveAt now i).length ≤ shareOf config :=
  (List.length_filter_le _ _).trans (h.length_entriesAt_le i)

end Orderly

/-- A visitor that keeps engines orderly is shown no more entries than the engine has
places, however many it stores. -/
theorem length_reaching_le {config : EngineConfig} {now : Instant}
    {visitor : Engine A → σ → String → Entry → Engine A × σ}
    (hvisitor : ∀ engine s key entry, Orderly config engine →
      Orderly config (visitor engine s key entry).1)
    {engine : Engine A} (h : Orderly config engine) (start : σ) :
    ((List.range engine.segmentCount).flatMap fun i =>
      (reaching visitor now (engine, start) i).1.liveAt now i).length ≤ engine.places := by
  have hround (i : Nat) :
      ((reaching visitor now (engine, start) i).1.liveAt now i).length ≤ shareOf config :=
    (reaching_keeps hvisitor (engine, start) h now i).length_liveAt_le now i
  rw [h.places_eq, placesOf, h.segmentCount_eq]
  induction max 1 config.segments with
  | zero => exact Nat.zero_le _
  | succ count ih =>
      rw [List.range_succ, List.flatMap_append, List.flatMap_singleton, List.length_append,
        Nat.succ_mul]
      exact Nat.add_le_add ih (hround count)

/-! ## What is live of the first segments -/

section Before

/-- The live entries of the segments before one. -/
def liveBefore (engine : Engine A) (now : Instant) (i : Nat) : List (String × Entry) :=
  (List.range i).flatMap (engine.liveAt now)

/-- Before the next segment come all the entries from before and those of this one. -/
theorem liveBefore_succ (engine : Engine A) (now : Instant) (i : Nat) :
    engine.liveBefore now (i + 1) = engine.liveBefore now i ++ engine.liveAt now i := by
  rw [liveBefore, List.range_succ, List.flatMap_append, List.flatMap_singleton, liveBefore]

variable {engine : Engine A} (hs : engine.shards.Sound) {now : Instant} {i : Nat}
  {binding : String × Entry}
include hs

theorem find?_of_mem_liveBefore (hmem : binding ∈ engine.liveBefore now i) :
    engine.shards.find? binding.1 = some binding.2 := by
  obtain ⟨j, -, hlive⟩ := List.mem_flatMap.mp hmem
  exact hs.find?_of_mem_entriesAt (List.mem_of_mem_filter hlive)

/-- A key that is at home in a segment is not among those before it. -/
theorem not_mem_keys_liveBefore (hmem : binding ∈ engine.shards.entriesAt i) :
    binding.1 ∉ (engine.liveBefore now i).map (·.1) := by
  intro hbefore
  obtain ⟨other, hother, hkey⟩ := List.mem_map.mp hbefore
  obtain ⟨j, hj, hlive⟩ := List.mem_flatMap.mp hother
  have hhome := hs.home_of_mem_entriesAt (List.mem_of_mem_filter hlive)
  rw [hkey, hs.home_of_mem_entriesAt hmem] at hhome
  exact Nat.ne_of_gt (List.mem_range.mp hj) hhome

theorem keys_nodup_liveBefore (now : Instant) (i : Nat) :
    ((engine.liveBefore now i).map (·.1)).Nodup := by
  induction i with
  | zero => exact List.nodup_nil
  | succ i ih =>
      rw [liveBefore_succ, List.map_append, List.nodup_append]
      refine ⟨ih, ?_, ?_⟩
      · exact (engine.shards.keys_nodup_entriesAt i).sublist (List.filter_sublist.map _)
      · intro key hbefore other hhere heq
        obtain ⟨found, hfound, rfl⟩ := List.mem_map.mp hhere
        exact not_mem_keys_liveBefore hs (List.mem_of_mem_filter hfound) (heq ▸ hbefore)

end Before

/-! ## A visitor that takes out what it is shown -/

section Taking

/-- Takes out the key that is shown, the `n`-th of them at `times n`, and writes down the
answer. -/
def taking (hear : Instant → Hearing A) (times : Nat → Instant) (engine : Engine A)
    (taken : List ((String × Entry) × EngineAnswer)) (key : String) (entry : Entry) :
    Engine A × List ((String × Entry) × EngineAnswer) :=
  let now := times taken.length
  let made := engine.apply (hear now) now (.delete key)
  (made.1, taken ++ [((key, entry), made.2)])

/-- What is written down of entries that are all still there: each delete finds its entry,
unless its time is over by then. -/
def answersFrom (times : Nat → Instant) (n : Nat) (list : List (String × Entry)) :
    List ((String × Entry) × EngineAnswer) :=
  (list.zipIdx n).map fun (binding, n) => (binding, .holds (binding.2.live (times n)))

/-- Entries have been taken out, and no others. -/
structure Takes (times : Nat → Instant) (list : List (String × Entry))
    (start last : Engine A × List ((String × Entry) × EngineAnswer)) : Prop where
  sound : last.1.shards.Sound
  entriesAt_eq : ∀ i, last.1.shards.entriesAt i =
    (start.1.shards.entriesAt i).filter fun binding => decide (binding.1 ∉ list.map (·.1))
  answers_eq : last.2 = start.2 ++ answersFrom times start.2.length list

variable (record : Signal → List ρ) (times : Nat → Instant) {engine : Engine (List ρ)}

/-- The visitor finds an entry that is there, and takes it out. -/
theorem taking_spec {key : String} {entry : Entry} (hfind : engine.shards.find? key = some entry)
    (taken : List ((String × Entry) × EngineAnswer)) :
    (taking (fun _ => recording record) times engine taken key entry).1.shards =
        engine.shards.remove key ∧
      (taking (fun _ => recording record) times engine taken key entry).2 =
        taken ++ [((key, entry), .holds (entry.live (times taken.length)))] := by
  constructor
  · obtain ⟨stats, audience, heq⟩ := delete_fst record (times taken.length) key engine
    exact congrArg Engine.shards heq
  · have hanswer : (engine.lookup (times taken.length) key).isSome =
        entry.live (times taken.length) := by
      rw [lookup, hfind, Option.filter_some]
      cases entry.live (times taken.length) <;> rfl
    rw [taking, apply_delete, delete_snd, hanswer]

/-- A visitor takes out all entries of a list that are there. -/
theorem takes_showing {list : List (String × Entry)} (hs : engine.shards.Sound)
    (hnodup : (list.map (·.1)).Nodup)
    (hfind : ∀ binding ∈ list, engine.shards.find? binding.1 = some binding.2)
    (taken : List ((String × Entry) × EngineAnswer)) :
    Takes times list (engine, taken)
      (showing (taking (fun _ => recording record) times) list (engine, taken)) := by
  induction list generalizing engine taken with
  | nil => exact ⟨hs, fun i => by simp [showing], by simp [showing, answersFrom]⟩
  | cons first rest ih =>
      obtain ⟨key, entry⟩ := first
      obtain ⟨hkey, hrest⟩ := List.nodup_cons.mp hnodup
      obtain ⟨hfirst, hothers⟩ := List.forall_mem_cons.mp hfind
      obtain ⟨hshards, hanswers⟩ := taking_spec record times hfirst taken
      -- no key is listed twice, so the others are still there when the first has gone
      have hstill (binding : String × Entry) (hmem : binding ∈ rest) :
          (engine.shards.remove key).find? binding.1 = some binding.2 := by
        rw [Shards.find?_remove, if_neg, hothers binding hmem]
        exact fun heq => hkey (heq ▸ List.mem_map.mpr ⟨binding, hmem, rfl⟩)
      have hnext := ih (hshards ▸ hs.remove key) hrest (hshards ▸ hstill)
        (taking (fun _ => recording record) times engine taken key entry).2
      refine ⟨hnext.sound, fun i => (hnext.entriesAt_eq i).trans ?_, hnext.answers_eq.trans ?_⟩
      · rw [hshards, Shards.entriesAt_remove hs, List.filter_filter]
        refine List.filter_congr fun binding _ => ?_
        rw [List.map_cons, Bool.eq_iff_iff]
        simp [and_comm]
      · simp only [hanswers, List.length_append, List.length_singleton, List.append_assoc,
          List.singleton_append, answersFrom, List.zipIdx_cons, List.map_cons]

variable (now : Instant)

/-- Whenever a visit reaches a segment, the visitor has taken out what was live of those
before it, and nothing of this one. -/
theorem reaching_taking (hs : engine.shards.Sound) (i : Nat) :
    reaching (taking (fun _ => recording record) times) now (engine, []) i =
      showing (taking (fun _ => recording record) times) (engine.liveBefore now i)
        (engine, []) := by
  induction i with
  | zero => rfl
  | succ i ih =>
      have htakes := takes_showing record times hs (keys_nodup_liveBefore hs now i)
        (fun binding hmem => find?_of_mem_liveBefore hs hmem) []
      have hhere : (reaching (taking (fun _ => recording record) times) now (engine, []) i).1.liveAt
          now i = engine.liveAt now i := by
        -- all that has been taken out was at home in other segments
        have huntouched : (engine.shards.entriesAt i).filter (fun binding =>
            decide (binding.1 ∉ (engine.liveBefore now i).map (·.1))) = engine.shards.entriesAt i :=
          List.filter_eq_self.mpr fun _ hmem => decide_eq_true (not_mem_keys_liveBefore hs hmem)
        rw [ih, liveAt, htakes.entriesAt_eq, huntouched, liveAt]
      rw [reaching, hhere, ih, liveBefore_succ]
      exact (List.foldl_append ..).symm

/-- A visitor that takes out what it is shown is shown what is live when the visit begins,
and leaves what is over. -/
theorem takes_visit (hs : engine.shards.Sound) :
    Takes times (engine.dump now) (engine, [])
        (engine.visit now (taking (fun _ => recording record) times) []) ∧
      ∀ i, (engine.visit now (taking (fun _ => recording record) times) []).1.shards.entriesAt i =
        (engine.shards.entriesAt i).filter fun binding => binding.2.expired now := by
  have htakes := takes_showing record times hs (keys_nodup_liveBefore hs now engine.segmentCount)
    (fun binding hmem => find?_of_mem_liveBefore hs hmem) []
  rw [← reaching_taking record times now hs, ← visit_eq_reaching, liveBefore,
    ← dump_eq_flatMap] at htakes
  refine ⟨htakes, fun i => (htakes.entriesAt_eq i).trans (List.filter_congr ?_)⟩
  rintro ⟨key, entry⟩ hmem
  have hfind := hs.find?_of_mem_entriesAt hmem
  have hlive : key ∈ (engine.dump now).map (·.1) ↔ entry.live now = true := by
    simp [dump, hs.mem_entries_iff, hfind]
  rw [Bool.eq_iff_iff, decide_eq_true_iff, hlive, Entry.live]
  simp

end Taking

/-! ## Listeners that only watch -/

/-- A visitor that takes out what it is shown is shown all that is live when the visit
begins, in order, and no key twice. It finds everything there, unless the time of an entry
is over in the meantime. What was over when the visit began is left, and nothing else. -/
structure TakesAll (times : Nat → Instant) (now : Instant) (engine : Engine A)
    (last : Engine A × List ((String × Entry) × EngineAnswer)) : Prop where
  answers_eq : last.2 = answersFrom times 0 (engine.dump now)
  once : ((last.2.map (·.1)).map (·.1)).Nodup
  found : (∀ n, times n = now) → ∀ answer ∈ last.2, answer.2 = .holds true
  remaining : ∀ i, last.1.shards.entriesAt i =
    (engine.shards.entriesAt i).filter fun binding => binding.2.expired now

theorem map_answersFrom (times : Nat → Instant) (n : Nat) (list : List (String × Entry)) :
    (answersFrom times n list).map (·.1) = list := by
  rw [answersFrom, List.map_map]
  exact List.zipIdx_map_fst n list

/-- While the clock stands still, nothing that is live is over when its turn comes. -/
theorem holds_of_mem_answersFrom {times : Nat → Instant} {now : Instant} {engine : Engine A}
    (hstill : ∀ n, times n = now) {answer : (String × Entry) × EngineAnswer}
    (hmem : answer ∈ answersFrom times 0 (engine.dump now)) : answer.2 = .holds true := by
  obtain ⟨⟨binding, n⟩, hindexed, rfl⟩ := List.mem_map.mp hmem
  have hlive : binding.2.live now = true :=
    (List.mem_filter.mp (List.fst_mem_of_mem_zipIdx hindexed)).2
  exact congrArg EngineAnswer.holds ((congrArg binding.2.live (hstill n)).trans hlive)

section Watched

variable {kind : A → Prop} {heard : A → List ρ} {record : Signal → List ρ} {engine : Engine A}

/-- What a visitor takes out does not depend on listeners that only watch. -/
theorem takesAll_visit {hear : Instant → Hearing A}
    (hw : ∀ now, Watches kind heard record (hear now)) (hkind : kind engine.audience)
    (hs : engine.shards.Sound) (times : Nat → Instant) (now : Instant) :
    TakesAll times now engine (engine.visit now (taking hear times) []) := by
  have hfollows : Follows kind heard engine (engine.transcribed heard) := ⟨hkind, rfl⟩
  have htaking {engine : Engine A} {mirror : Engine (List ρ)}
      (taken : List ((String × Entry) × EngineAnswer)) (key : String) (entry : Entry)
      (h : Twins (Transcribes kind heard) engine mirror) :
      Twins (Transcribes kind heard) (taking hear times engine taken key entry).1
          (taking (fun _ => recording record) times mirror taken key entry).1 ∧
        (taking (fun _ => recording record) times mirror taken key entry).2 =
          (taking hear times engine taken key entry).2 := by
    obtain ⟨hnext, hanswer⟩ := (Follows.twins_iff.mp h).apply (times taken.length)
      (hw (times taken.length)) (.delete key)
    exact ⟨Follows.twins_iff.mpr hnext, by simp only [taking, hanswer]⟩
  obtain ⟨htwins, hanswers⟩ := Twins.visit htaking (Follows.twins_iff.mpr hfollows) now []
  have hmirror : (engine.transcribed heard).shards.Sound := hs
  obtain ⟨htakes, hleft⟩ := takes_visit record times now hmirror
  have hsame : (engine.visit now (taking hear times) []).2 =
      answersFrom times 0 (engine.dump now) := hanswers.symm.trans htakes.answers_eq
  constructor
  · exact hsame
  · rw [hsame, map_answersFrom]
    exact hs.keys_nodup.sublist (List.filter_sublist.map _)
  · rw [hsame]
    exact fun hstill answer hmem => holds_of_mem_answersFrom hstill hmem
  · intro i
    rw [← (Follows.twins_iff.mp htwins).shards_eq]
    exact hleft i

end Watched

/-- A visit comes to an end. The visitor is shown what is live of each segment when it is
reached, no more entries than the engine has places, and nothing else happens. -/
structure Ends (visitor : Engine A → σ → String → Entry → Engine A × σ) (now : Instant)
    (engine : Engine A) (start : σ) (seen : List (String × Entry)) : Prop where
  rounds : ∃ reached, Rounds visitor now engine.segmentCount (engine, start)
    (engine.visit now visitor start) reached seen ∧
      ∀ i, (reached i).1.segmentCount = engine.segmentCount
  length_le : seen.length ≤ engine.places

/-- Every visit ends whose visitor keeps engines orderly, and to write down what it is
shown changes nothing. -/
theorem ends_visit {config : EngineConfig} {engine : Engine A} (h : Orderly config engine)
    {visitor : Engine A → σ → String → Entry → Engine A × σ}
    (hvisitor : ∀ engine s key entry, Orderly config engine →
      Orderly config (visitor engine s key entry).1) (now : Instant) (start : σ) :
    let logged := engine.visit now (logging visitor) (start, [])
    (logged.1, logged.2.1) = engine.visit now visitor start ∧
      Ends visitor now engine start logged.2.2 := by
  intro logged
  have hlogged : logged = _ :=
    (visit_eq_reaching engine (start, [])).trans (reaching_logging (engine, start) _)
  rw [hlogged]
  refine ⟨(visit_eq_reaching engine start).symm,
    ⟨reaching visitor now (engine, start), ?_, fun i => ?_⟩, ?_⟩
  · rw [visit_eq_reaching]
    exact rounds_reaching (engine, start) engine.segmentCount
  · have hreached := reaching_keeps hvisitor (engine, start) h now i
    exact hreached.segmentCount_eq.trans h.segmentCount_eq.symm
  · exact length_reaching_le hvisitor h start

end Engine

/-! ## Visitors that call the engine -/

namespace Program

open Engine

variable {kind : Audience → Prop} {heard : Audience → List ρ} {record : Signal → List ρ}

/-- Deletes the key that is shown, the `n`-th of them at `times n`, and writes down the
answer. -/
def taking (times : Nat → Instant) (taken : List ((String × Entry) × EngineAnswer))
    (key : String) (entry : Entry) : Program (List ((String × Entry) × EngineAnswer)) :=
  .call (times taken.length) (.delete key) fun answer => .finish (taken ++ [((key, entry), answer)])

/-- A visitor that carries out a program for every entry that it is shown. -/
def visitor (hear : Instant → Hearing Audience) (shown : σ → String → Entry → Program σ)
    (engine : LiveEngine) (s : σ) (key : String) (entry : Entry) : LiveEngine × σ :=
  (shown s key entry).run .plain hear engine

/-- What silent steps and changes of the audience keep, every program keeps. -/
theorem run_keeps {kept : LiveEngine → Prop}
    (hsilent : ∀ {engine after : LiveEngine}, Engine.Silent engine after → kept engine → kept after)
    (hheard : ∀ {engine : LiveEngine} (audience : Audience), kept engine →
      kept { engine with audience }) (depth : Nat) (program : Program σ) {engine : LiveEngine}
    (h : kept engine) :
    kept (program.run .plain (fun now => Audience.hear now depth) engine).1 := by
  have hstart : Twins (Witness.Sees kept) engine (engine.heardBy ⟨engine.audience, []⟩) :=
    ⟨rfl, rfl, h, nofun⟩
  exact ((Stage.shows_witness hsilent hheard).run depth program hstart).1.related.engine

/-- Whenever a listener is told and after every call, a visitor may change what it visits.
If from then on the listeners only watch, one that deletes every key that it is shown is
shown all that is live, once and in order, every delete finds its entry, unless the time of
that is over by then, and what was over is left. Whatever a visitor does with the engine,
and whatever the listeners do, the visit ends, and of each segment it shows what is live of
it when it is reached, by the time at which the visit began. -/
theorem visits_tolerate_changes {hear : Instant → Hearing Audience}
    (hw : ∀ now, Watches kind heard record (hear now)) (config : EngineConfig) (depth : Nat)
    {τ : Type} (program : Program τ) {engine : LiveEngine}
    (hmem : engine ∈ program.sights config depth) (now : Instant) :
    (kind engine.audience → ∀ times,
      TakesAll times now engine (engine.visit now (visitor hear (taking times)) [])) ∧
    ∀ {σ : Type} (shown : σ → String → Entry → Program σ) (start : σ),
      let visitor := visitor (fun now => Audience.hear now depth) shown
      let logged := engine.visit now (logging visitor) (start, [])
      (logged.1, logged.2.1) = engine.visit now visitor start ∧
        Ends visitor now engine start logged.2.2 := by
  have horderly : Orderly config engine :=
    ((program.witnessed_spec config depth).2 engine hmem).orderly
  refine ⟨fun hkind times => takesAll_visit hw hkind horderly.shards times now, ?_⟩
  intro σ shown start
  refine ends_visit horderly (fun engine s key entry h => ?_) now start
  exact run_keeps (fun hstep h => h.silent hstep) (fun _ h => h.reshard h.shards rfl rfl rfl) depth
    (shown s key entry) h

/-- One of two entries is over. The visitor deletes what it is shown, or stores a copy of
it under another key. -/
theorem visits_tolerate_changes_restored :
    let engine := ((restoring 0 [⟨"a", "v".toUTF8, 0⟩, ⟨"b", "w".toUTF8, 3⟩]).carriedOut
      ⟨4, 2, .lru⟩ Audience.nesting).1
    let hear := fun now => Audience.hear now Audience.nesting
    let taken := engine.visit 5 (visitor hear (taking fun _ => 5)) []
    let copied := engine.visit 5 (logging (visitor hear fun _ key entry =>
      .call 5 (.set (key ++ "-copy") entry.value .zero) fun _ => .finish ())) ((), [])
    "a" ∈ taken.2.map (·.1.1) ∧ (∀ answer ∈ taken.2, answer.2 = .holds true) ∧
      copied.2.2.length ≤ engine.places := by
  intro engine hear
  have hw (now : Instant) := Audience.watches_quiet now Audience.nesting
  have hcreated : Follows Audience.Quiet (fun _ => ([] : List Remark))
      (LiveEngine.create ⟨4, 2, .lru⟩) (Engine.create ⟨4, 2, .lru⟩ []) :=
    ⟨fun listener hmem => absurd hmem (Array.not_mem_empty listener), rfl⟩
  have hquiet : engine.audience.Quiet := by
    have hrestored := (hcreated.apply 0 (hw 0) (.restore
      ([(⟨"a", "v".toUTF8, 0⟩ : Seen), ⟨"b", "w".toUTF8, 3⟩].map
        fun seen => some seen.record))).1.kind
    rwa [apply_restore, ← carriedOut_restoring _ Audience.nesting] at hrestored
  have hmem : engine ∈ (restoring 0 [⟨"a", "v".toUTF8, 0⟩, ⟨"b", "w".toUTF8, 3⟩]).sights
      ⟨4, 2, .lru⟩ Audience.nesting := List.mem_append_right _ (List.mem_singleton.mpr rfl)
  have hrestored := restored_restoring ⟨4, 2, .lru⟩ Audience.nesting 0
    [⟨"a", "v".toUTF8, 0⟩, ⟨"b", "w".toUTF8, 3⟩] (by decide) (by decide)
  obtain ⟨token, hfind⟩ := hrestored.exists_find? (by decide) List.mem_cons_self
  have hlive : ("a", (⟨"v".toUTF8, 0, token⟩ : Entry)) ∈ engine.dump 5 :=
    List.mem_filter.mpr ⟨hrestored.sound.mem_entries_iff.mpr hfind, rfl⟩
  -- what the engine is made of does not matter from here on
  clear_value engine
  intro taken copied
  obtain ⟨htaking, hvisitor⟩ :=
    visits_tolerate_changes hw ⟨4, 2, .lru⟩ Audience.nesting
      (restoring 0 [⟨"a", "v".toUTF8, 0⟩, ⟨"b", "w".toUTF8, 3⟩]) hmem 5
  have htaken := htaking hquiet fun _ => 5
  have hcopied := hvisitor (fun (_ : Unit) key entry =>
    .call 5 (.set (key ++ "-copy") entry.value .zero) fun _ => .finish ()) ()
  refine ⟨?_, htaken.found fun _ => rfl, hcopied.2.length_le⟩
  rw [← map_answersFrom (fun _ => 5) 0 (engine.dump 5), ← htaken.answers_eq] at hlive
  obtain ⟨answer, hanswer, hshown⟩ := List.mem_map.mp hlive
  exact List.mem_map.mpr ⟨answer, hanswer, congrArg Prod.fst hshown⟩

end Program

end ReplicatedCache
