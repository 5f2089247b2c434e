import ReplicatedCache.Proofs.Cluster.Lockstep
import ReplicatedCache.Proofs.Engine.Coverage
import ReplicatedCache.Proofs.Engine.QuietListeners
import ReplicatedCache.Proofs.Engine.Restoring
import ReplicatedCache.Proofs.Engine.Revisions

/-! # Nobody notices a sweep

A sweep thins an engine out: every segment keeps its live entries in their order and
loses the others. As long as the clock does not go back behind the sweep and the engine
without it turns nobody down and lets nobody leave, the two cannot be told apart. What
the one finds to be over the other does not find at all, both revise their segments
alike, and where there is room among entries that are over there is room without them.
-/

namespace ReplicatedCache

/-- A list of entries without some of those that are over at a time. -/
structure Thinned (now : Instant) (whole thin : List (String × Entry)) : Prop where
  sublist : thin.Sublist whole
  live_eq : (thin.filter fun binding => binding.2.live now) =
    whole.filter fun binding => binding.2.live now

namespace Thinned

variable {now later : Instant} {whole thin : List (String × Entry)}

theorem filter_live (now : Instant) (list : List (String × Entry)) :
    Thinned now list (list.filter fun binding => binding.2.live now) :=
  ⟨List.filter_sublist, by rw [List.filter_filter]; simp only [Bool.and_self]⟩

/-- What is over stays over. -/
theorem mono (h : Thinned now whole thin) (hle : now ≤ later) : Thinned later whole thin := by
  have hlater (list : List (String × Entry)) :
      (list.filter fun binding => binding.2.live later) =
        (list.filter fun binding => binding.2.live now).filter fun binding =>
          binding.2.live later := by
    rw [List.filter_filter]
    apply List.filter_congr
    intro binding _
    cases hlive : binding.2.live later with
    | false => rw [Bool.false_and]
    | true => rw [Engine.live_of_later hle hlive, Bool.true_and]
  exact ⟨h.sublist, by rw [hlater thin, h.live_eq, ← hlater whole]⟩

/-- A filter that is applied to both lists keeps the one a thinning of the other. -/
theorem filter (h : Thinned now whole thin) (keep : String × Entry → Bool) :
    Thinned now (whole.filter keep) (thin.filter keep) := by
  refine ⟨h.sublist.filter keep, ?_⟩
  rw [List.filter_comm, h.live_eq, List.filter_comm]

theorem append (h : Thinned now whole thin) (rest : List (String × Entry)) :
    Thinned now (whole ++ rest) (thin ++ rest) :=
  ⟨h.sublist.append_right rest, by rw [List.filter_append, List.filter_append, h.live_eq]⟩

/-- Both lists are revised alike. -/
theorem revised (h : Thinned now whole thin) (key : String) (entry : Option Entry) :
    Thinned now (revised key entry whole) (revised key entry thin) :=
  (h.filter _).append _

end Thinned

/-! ## Calls that displace nobody -/

namespace Engine

section Gentle

variable {A : Type}

/-- No key leaves for a record. One that is over by now takes no place. -/
def GentleRecord (engine : Engine A) (now : Instant) : Option Record → Prop
  | some (.set key value deadline) =>
    ¬ (0 < deadline ∧ deadline ≤ now) → (engine.replayOutcome key value deadline).Plain
  | _ => True

/-- No key leaves for records that are applied one after another. -/
def GentleRecords (engine : Engine A) (now : Instant) : List (Option Record) → Prop
  | [] => True
  | record :: rest =>
    engine.GentleRecord now record ∧ (engine.replayIfAny now record).GentleRecords now rest

/-- A call that turns no write down, and for which no key leaves. -/
def Gentle (engine : Engine A) (now : Instant) : EngineCall → Prop
  | .set key value ttl => (engine.putOutcome now key value ttl).Plain
  | .replay record => engine.GentleRecord now (some record)
  | .restore records => engine.GentleRecords now records
  | _ => True

/-- A run of such calls. -/
def GentleRun (hear : Instant → Hearing A) (engine : Engine A) :
    List (Instant × EngineCall) → Prop
  | [] => True
  | (now, call) :: rest =>
    engine.Gentle now call ∧ (engine.apply (hear now) now call).1.GentleRun hear rest

end Gentle

end Engine

/-- An answer without the number of entries that a sweep took out. -/
def EngineAnswer.uncounted : EngineAnswer → EngineAnswer
  | .reaped _ => .reaped 0
  | answer => answer

namespace Engine

variable {A ρ : Type}

/-! ## Engines that cannot be told apart -/

/-- An engine, and one that lacks some of the entries that are over at a time. -/
structure Thins (now : Instant) (whole thin : Engine A) : Prop where
  sound : whole.Sound
  thin_sound : thin.Sound
  nextToken_eq : thin.nextToken = whole.nextToken
  capacities_eq : thin.shards.capacities = whole.shards.capacities
  thinned : ∀ i, Thinned now (whole.shards.entriesAt i) (thin.shards.entriesAt i)

namespace Thins

section Shown

variable {past now : Instant} {whole thin : Engine A} (h : Thins past whole thin)
include h

theorem home_eq (key : String) : thin.shards.home key = whole.shards.home key :=
  Shards.home_of_capacities h.capacities_eq key

theorem fresh_eq (value : Value) (deadline : Instant) :
    thin.fresh value deadline = whole.fresh value deadline := by
  rw [fresh, fresh, freshToken, freshToken, h.nextToken_eq]

theorem freshToken_eq : thin.freshToken = whole.freshToken := by
  rw [freshToken, freshToken, h.nextToken_eq]

/-- Under every key the same is live. -/
theorem lookup_eq (hle : past ≤ now) (key : String) :
    thin.lookup now key = whole.lookup now key := by
  have hmem (engine : Engine A) (entry : Entry) : engine.lookup now key = some entry ↔
      (key, entry) ∈ (engine.shards.entriesAt (engine.shards.home key)).filter
        fun binding => binding.2.live now := by
    rw [lookup_eq_some_iff, Shards.find?_eq_some_iff, List.mem_filter, Entry.live,
      Bool.not_eq_true']
  apply Option.ext
  intro entry
  rw [hmem, hmem, h.home_eq, ((h.thinned _).mono hle).live_eq]

/-- Where there is room among entries that are over, there is room without them. -/
theorem hasRoom {key : String} (hroom : whole.shards.HasRoom key) : thin.shards.HasRoom key := by
  have hsublist := (h.thinned (whole.shards.home key)).sublist
  have hcapacity := Shards.capacity_segmentOf_of_capacities h.capacities_eq key
  have hfits := h.sound.shards.fits_home key
  rw [Shards.entriesAt_home, ← h.home_eq, Shards.entriesAt_home] at hsublist
  have hle := hsublist.length_le
  rw [← Segment.size_eq_length, ← Segment.size_eq_length] at hle
  by_cases hthere : key ∈ (thin.shards.segmentOf key).keys
  · exact Or.inl hthere
  · refine Or.inr ?_
    rw [hcapacity]
    rcases hroom with hmem | hfree
    · -- the key is missed, so the sublist is a proper one
      refine Nat.lt_of_lt_of_le (Nat.lt_of_le_of_ne hle fun hsize => hthere ?_) hfits
      rw [Segment.size_eq_length, Segment.size_eq_length] at hsize
      rwa [Segment.keys_eq, hsublist.eq_of_length hsize, ← Segment.keys_eq]
    · exact Nat.lt_of_le_of_lt hle hfree

/-- From the sweep on, the same entries are shown in the same order. -/
theorem dump_eq (hle : past ≤ now) : thin.dump now = whole.dump now := by
  have hcount : thin.shards.count = whole.shards.count := by
    rw [Shards.count, Shards.count, ← Shards.length_capacities, ← Shards.length_capacities,
      h.capacities_eq]
  rw [dump, dump, Shards.entries_eq_flatMap, Shards.entries_eq_flatMap, hcount,
    List.filter_flatMap, List.filter_flatMap]
  congr 1
  funext i
  exact ((h.thinned i).mono hle).live_eq

/-- Both revise the home of a key alike. -/
theorem revise {key : String} {entry : Option Entry} {whole' thin' : Engine A}
    (hwhole : whole.shards.Revises key entry whole'.shards)
    (hthin : thin.shards.Revises key entry thin'.shards) (hsound : whole'.Sound)
    (hsound' : thin'.Sound) (hnext : thin'.nextToken = whole'.nextToken) :
    Thins past whole' thin' := by
  refine ⟨hsound, hsound', hnext, ?_, fun i => ?_⟩
  · rw [hthin.capacities_eq, hwhole.capacities_eq, h.capacities_eq]
  · rw [hthin.entriesAt_eq, hwhole.entriesAt_eq, h.home_eq]
    split
    next => exact (h.thinned i).revised key entry
    next => exact h.thinned i

end Shown

/-! ## Call by call -/

section Records

variable {past now : Instant} {whole thin : Engine A}

/-- Replaying a record, if nobody has to leave for it, goes alike in the whole and in the
thinned engine. -/
theorem replay (h : Thins past whole thin) (change : Record)
    (hgentle : whole.GentleRecord now (some change)) :
    Thins past (whole.replay now change) (thin.replay now change) := by
  have hsound := h.sound.replay now change
  have hsound' := h.thin_sound.replay now change
  cases change with
  | delete key =>
      exact h.revise (Shards.revises_remove _ key) (Shards.revises_remove _ key) hsound hsound'
        h.nextToken_eq
  | set key value deadline =>
      by_cases hover : 0 < deadline ∧ deadline ≤ now
      · rw [replay_set_of_over now key value deadline _ hover] at hsound hsound' ⊢
        rw [replay_set_of_over now key value deadline _ hover]
        exact h.revise (Shards.revises_remove _ key) (Shards.revises_remove _ key) hsound hsound'
          h.nextToken_eq
      · have hplain := hgentle hover
        have hroom := h.hasRoom (h.sound.shards.hasRoom_of_putForce hplain)
        have hplain' : (thin.shards.putForce key (thin.fresh value deadline)).2.Plain :=
          hroom.putForce_plain h.thin_sound.shards
        have hrevises := h.sound.shards.revises_putForce hplain
        have hrevises' := h.thin_sound.shards.revises_putForce hplain'
        have hshards (engine : Engine A) : (engine.replay now (.set key value deadline)).shards =
            (engine.shards.putForce key (engine.fresh value deadline)).1 := by
          obtain ⟨stats, heq⟩ := replay_set_of_live now key value deadline engine hover
          rw [heq, trackExpiry_eq]
        rw [← hshards] at hrevises
        rw [← hshards, h.fresh_eq] at hrevises'
        refine h.revise hrevises hrevises' hsound hsound' ?_
        rw [nextToken_replay_set now key value deadline _ hover,
          nextToken_replay_set now key value deadline _ hover, h.freshToken_eq]

theorem restore (h : Thins past whole thin) (records : List (Option Record))
    (hgentle : whole.GentleRecords now records) :
    Thins past (whole.restore now records).1 (thin.restore now records).1 := by
  rw [restore_eq, restore_eq]
  dsimp only
  induction records generalizing whole thin with
  | nil => exact h
  | cons first rest ih =>
      obtain ⟨hfirst, hrest⟩ := hgentle
      cases first with
      | none => exact ih h hrest
      | some change => exact ih (h.replay change hfirst) hrest

theorem clear (h : Thins past whole thin) : Thins past whole.clear thin.clear := by
  refine ⟨h.sound.clear, h.thin_sound.clear, h.nextToken_eq, ?_, fun i => ?_⟩
  · exact (Shards.capacities_clear _).trans
      (h.capacities_eq.trans (Shards.capacities_clear _).symm)
  · have hnothing (engine : Engine A) : engine.clear.shards.entriesAt i = [] :=
      Shards.entriesAt_clear engine.shards i
    rw [hnothing, hnothing]
    exact ⟨List.Sublist.slnil, rfl⟩

end Records

section Calls

variable {past now : Instant} {whole thin : Engine (List ρ)} (record : Signal → List ρ)
  (h : Thins past whole thin) (hle : past ≤ now)
include h

/-- A plain `set` answers alike in the whole engine and in the thinned one. -/
theorem set (key : String) (value : Value) (ttl : Span)
    (hplain : (whole.putOutcome now key value ttl).Plain) :
    Thins past (whole.set (recording record) now key value ttl).1
        (thin.set (recording record) now key value ttl).1 ∧
      (thin.set (recording record) now key value ttl).2 =
        (whole.set (recording record) now key value ttl).2 := by
  have hroom := h.hasRoom (h.sound.shards.hasRoom_of_put hplain)
  have hplain' : (thin.putOutcome now key value ttl).Plain :=
    hroom.put_plain h.thin_sound.shards
  have hrevises := h.sound.shards.revises_put hplain
  have hrevises' := h.thin_sound.shards.revises_put hplain'
  rw [← shards_set record] at hrevises
  rw [← shards_set record, h.fresh_eq] at hrevises'
  constructor
  · refine h.revise hrevises hrevises' (h.sound.set record now key value ttl)
      (h.thin_sound.set record now key value ttl) ?_
    rw [nextToken_set, nextToken_set, h.freshToken_eq]
  · rw [set_snd, set_snd, hplain.1, hplain'.1]

include hle

/-- A lookup answers alike: whether a lapsed entry is still there makes no difference. -/
theorem getWithToken (key : String) :
    Thins past (whole.getWithToken (recording record) now key).1
        (thin.getWithToken (recording record) now key).1 ∧
      (thin.getWithToken (recording record) now key).2 =
        (whole.getWithToken (recording record) now key).2 := by
  have hrevises' := revises_getWithToken record thin now key
  rw [h.lookup_eq hle] at hrevises'
  constructor
  · refine h.revise (revises_getWithToken record whole now key) hrevises'
      (h.sound.getWithToken record now key) (h.thin_sound.getWithToken record now key) ?_
    rw [nextToken_getWithToken, nextToken_getWithToken, h.nextToken_eq]
  · rw [getWithToken_snd, getWithToken_snd, h.lookup_eq hle]

theorem delete (key : String) :
    Thins past (whole.delete (recording record) now key).1
        (thin.delete (recording record) now key).1 ∧
      (thin.delete (recording record) now key).2 =
        (whole.delete (recording record) now key).2 := by
  constructor
  · refine h.revise (revises_delete record whole now key) (revises_delete record thin now key)
      (h.sound.delete record now key) (h.thin_sound.delete record now key) ?_
    rw [nextToken_delete, nextToken_delete, h.nextToken_eq]
  · rw [delete_snd, delete_snd, h.lookup_eq hle]

theorem compareAndSwap (key : String) (value : Value) (expected : Token) (ttl : Span) :
    Thins past (whole.compareAndSwap (recording record) now key value expected ttl).1
        (thin.compareAndSwap (recording record) now key value expected ttl).1 ∧
      (thin.compareAndSwap (recording record) now key value expected ttl).2 =
        (whole.compareAndSwap (recording record) now key value expected ttl).2 := by
  have hsound := h.sound.compareAndSwap record now key value expected ttl
  have hsound' := h.thin_sound.compareAndSwap record now key value expected ttl
  have hsame := h.lookup_eq hle key
  cases hlookup : whole.lookup now key with
  | none =>
      rw [hlookup] at hsame
      obtain ⟨hanswer, _, _, heq⟩ :=
        compareAndSwap_of_none record now key value expected ttl hlookup
      obtain ⟨hanswer', _, _, heq'⟩ :=
        compareAndSwap_of_none record now key value expected ttl hsame
      refine ⟨?_, hanswer'.trans hanswer.symm⟩
      refine h.revise (revises_compareAndSwap_of_none record value expected ttl hlookup)
        (revises_compareAndSwap_of_none record value expected ttl hsame) hsound hsound' ?_
      rw [heq, heq']
      exact h.nextToken_eq
  | some found =>
      rw [hlookup] at hsame
      by_cases htoken : found.token = expected
      · obtain ⟨hanswer, _, _, heq⟩ :=
          compareAndSwap_of_eq record now key value expected ttl hlookup htoken
        obtain ⟨hanswer', _, _, heq'⟩ :=
          compareAndSwap_of_eq record now key value expected ttl hsame htoken
        have hrevises' := revises_compareAndSwap_of_eq record value expected ttl hsame htoken
        rw [h.fresh_eq] at hrevises'
        constructor
        · refine h.revise (revises_compareAndSwap_of_eq record value expected ttl hlookup htoken)
            hrevises' hsound hsound' ?_
          rw [heq, heq']
          exact congrArg (· + 1) h.freshToken_eq
        · rw [hanswer, hanswer', h.freshToken_eq]
      · rw [compareAndSwap_of_ne record now key value expected ttl hlookup htoken,
          compareAndSwap_of_ne record now key value expected ttl hsame htoken]
        exact ⟨h, rfl⟩

omit hle in
/-- Whatever a sweep still finds, it leaves the same behind. -/
theorem reap (now : Instant) :
    Thins past (whole.reap (recording record) now).1 (thin.reap (recording record) now).1 := by
  have hsound := h.sound.reap record now
  have hsound' := h.thin_sound.reap record now
  rw [reap_recording] at hsound hsound' ⊢
  rw [reap_recording]
  refine ⟨hsound, hsound', h.nextToken_eq, ?_, fun i => ?_⟩
  · rw [capacities_swept, capacities_swept, h.capacities_eq]
  · rw [entriesAt_swept h.sound, entriesAt_swept h.thin_sound]
    exact (h.thinned i).filter _

/-- A call has the same answer with and without what is over. -/
theorem apply (call : EngineCall) (hgentle : whole.Gentle now call) :
    Thins past (whole.apply (recording record) now call).1
        (thin.apply (recording record) now call).1 ∧
      (thin.apply (recording record) now call).2.uncounted =
        (whole.apply (recording record) now call).2.uncounted := by
  cases call with
  | set key value ttl =>
      obtain ⟨hnext, hanswer⟩ := h.set record key value ttl hgentle
      rw [apply_set, apply_set, hanswer]
      exact ⟨hnext, rfl⟩
  | get key =>
      obtain ⟨hnext, hanswer⟩ := h.getWithToken record hle key
      rw [apply_get, apply_get, hanswer]
      exact ⟨hnext, rfl⟩
  | getWithToken key =>
      obtain ⟨hnext, hanswer⟩ := h.getWithToken record hle key
      rw [apply_getWithToken, apply_getWithToken, hanswer]
      exact ⟨hnext, rfl⟩
  | contains key =>
      refine ⟨h, congrArg (fun holds => (EngineAnswer.holds holds).uncounted) ?_⟩
      rw [contains_eq, contains_eq, h.lookup_eq hle]
  | delete key =>
      obtain ⟨hnext, hanswer⟩ := h.delete record hle key
      rw [apply_delete, apply_delete, hanswer]
      exact ⟨hnext, rfl⟩
  | compareAndSwap key value expected ttl =>
      obtain ⟨hnext, hanswer⟩ := h.compareAndSwap record hle key value expected ttl
      rw [apply_compareAndSwap, apply_compareAndSwap, hanswer]
      exact ⟨hnext, rfl⟩
  | clear => exact ⟨h.clear, rfl⟩
  | replay change => exact ⟨h.replay change hgentle, rfl⟩
  | restore records =>
      rw [apply_restore, apply_restore]
      exact ⟨h.restore records hgentle, by rw [restore_eq, restore_eq]⟩
  | reap => exact ⟨h.reap record now, rfl⟩

omit hle in
/-- So has a whole run, as long as the clock does not go back behind the sweep. -/
theorem run {steps : List (Instant × EngineCall)} (hclock : ∀ step ∈ steps, past ≤ step.1)
    (hgentle : whole.GentleRun (fun _ => recording record) steps) :
    Thins past (whole.run (fun _ => recording record) steps).1
        (thin.run (fun _ => recording record) steps).1 ∧
      (thin.run (fun _ => recording record) steps).2.map EngineAnswer.uncounted =
        (whole.run (fun _ => recording record) steps).2.map EngineAnswer.uncounted := by
  induction steps generalizing whole thin with
  | nil => exact ⟨h, rfl⟩
  | cons step rest ih =>
      obtain ⟨now, call⟩ := step
      obtain ⟨hfirst, hrest⟩ := List.forall_mem_cons.mp hclock
      obtain ⟨hnext, hanswer⟩ := h.apply record hfirst call hgentle.1
      obtain ⟨hlast, hanswers⟩ := ih hnext hrest hgentle.2
      exact ⟨hlast, congrArg₂ List.cons hanswer hanswers⟩

end Calls

end Thins

/-- A sweep thins an engine out. -/
theorem Sound.thins_reap (record : Signal → List ρ) {engine : Engine (List ρ)}
    (h : engine.Sound) (now : Instant) :
    Thins now engine (engine.reap (recording record) now).1 := by
  have hsound := h.reap record now
  rw [reap_recording] at hsound ⊢
  refine ⟨h, hsound, rfl, capacities_swept _ _, fun i => ?_⟩
  rw [entriesAt_swept h]
  exact .filter_live now _

/-! ## Audiences that only watch -/

section Watched

variable {kind : A → Prop} {heard : A → List ρ} {record : Signal → List ρ} {engine : Engine A}
  {mirror : Engine (List ρ)}

theorem Follows.gentleRecords (h : Follows kind heard engine mirror) {now : Instant}
    {records : List (Option Record)} (hgentle : engine.GentleRecords now records) :
    mirror.GentleRecords now records := by
  induction records generalizing engine mirror with
  | nil => trivial
  | cons first rest ih =>
      obtain ⟨hfirst, hrest⟩ := hgentle
      have hfirst' : mirror.GentleRecord now first := h.mirror_eq ▸ hfirst
      cases first with
      | none => exact ⟨hfirst', ih h hrest⟩
      | some change => exact ⟨hfirst', ih (h.replay now change) hrest⟩

/-- A gentle run is gentle for the transcript too. -/
theorem Follows.gentleRun {hear : Instant → Hearing A}
    (hw : ∀ now, Watches kind heard record (hear now)) (h : Follows kind heard engine mirror)
    {steps : List (Instant × EngineCall)} (hgentle : engine.GentleRun hear steps) :
    mirror.GentleRun (fun _ => recording record) steps := by
  induction steps generalizing engine mirror with
  | nil => trivial
  | cons step rest ih =>
      obtain ⟨now, call⟩ := step
      obtain ⟨hfirst, hrest⟩ := hgentle
      refine ⟨?_, ih (h.apply now (hw now) call).1 hrest⟩
      cases call with
      | restore records => exact h.gentleRecords hfirst
      | set | get | getWithToken | contains | delete | compareAndSwap | clear | replay | reap =>
          exact h.mirror_eq ▸ hfirst

/-- Nobody notices a sweep of a sound engine. -/
theorem Sound.reap_unnoticed {hear : Instant → Hearing A}
    (hw : ∀ now, Watches kind heard record (hear now)) (hsound : engine.Sound)
    (hkind : kind engine.audience) {past : Instant} {steps : List (Instant × EngineCall)}
    (hclock : ∀ step ∈ steps, past ≤ step.1) (hgentle : engine.GentleRun hear steps) :
    let swept := (engine.reap (hear past) past).1
    (swept.run hear steps).2.map EngineAnswer.uncounted =
        (engine.run hear steps).2.map EngineAnswer.uncounted ∧
      ∀ now, past ≤ now →
        (swept.run hear steps).1.dump now = (engine.run hear steps).1.dump now := by
  intro swept
  have hfollows : Follows kind heard engine (engine.transcribed heard) := ⟨hkind, rfl⟩
  have hmirror : (engine.transcribed heard).Sound := hsound.congr rfl rfl
  obtain ⟨hthins, hanswers⟩ :=
    (hmirror.thins_reap record past).run record hclock (hfollows.gentleRun hw hgentle)
  obtain ⟨hrun, hsame⟩ := hfollows.run hw steps
  obtain ⟨hrun', hsame'⟩ := (hfollows.reap past (hw past)).1.run hw steps
  rw [hsame, hsame'] at hanswers
  refine ⟨hanswers, fun now hle => ?_⟩
  have hdump := hthins.dump_eq hle
  rwa [dump, dump, hrun.shards_eq, hrun'.shards_eq] at hdump

end Watched

end Engine

/-! ## After any program -/

namespace Program

open Engine

variable {ρ σ : Type} {kind : Audience → Prop} {heard : Audience → List σ}
  {record : Signal → List σ}

/-- Whatever a program and its listeners have done to an engine: if from now on the
listeners only watch, nobody notices a sweep. As long as the clock does not go back
behind it, and no call to the engine without the sweep turns a write down or makes a
key leave, all calls have the same answers with it, but for the numbers of entries that
later sweeps find to be over, and the same is shown with the same fingerprint. -/
theorem sweep_unnoticed {hear : Instant → Hearing Audience}
    (hw : ∀ now, Watches kind heard record (hear now)) (config : EngineConfig) (depth : Nat)
    (program : Program ρ) (hkind : kind (program.carriedOut config depth).1.audience)
    {past : Instant} {steps : List (Instant × EngineCall)}
    (hclock : ∀ step ∈ steps, past ≤ step.1)
    (hgentle : (program.carriedOut config depth).1.GentleRun hear steps) :
    let engine := (program.carriedOut config depth).1
    let swept := (engine.reap (hear past) past).1
    (swept.run hear steps).2.map EngineAnswer.uncounted =
        (engine.run hear steps).2.map EngineAnswer.uncounted ∧
      ∀ now, past ≤ now →
        (swept.run hear steps).1.dump now = (engine.run hear steps).1.dump now ∧
          (swept.run hear steps).1.seen now = (engine.run hear steps).1.seen now ∧
          (swept.run hear steps).1.fingerprint now = (engine.run hear steps).1.fingerprint now := by
  intro engine swept
  obtain ⟨hanswers, hdump⟩ :=
    (program.sound_carriedOut config depth).reap_unnoticed hw hkind hclock hgentle
  refine ⟨hanswers, fun now hle => ⟨hdump now hle, ?_, ?_⟩⟩
  · rw [seen_eq, seen_eq, hdump now hle]
  · rw [fingerprint, fingerprint, hdump now hle]

/-- An entry that is over is swept or not, another one is stored, and the clock goes back
a little. -/
theorem sweep_unnoticed_restored :
    let engine := ((restoring 0 [⟨"a", "v".toUTF8, 3⟩]).carriedOut ⟨4, 1, .lfu⟩ 0).1
    let hear := fun now => Audience.hear now Audience.nesting
    let swept := (engine.reap (hear 5) 5).1
    let steps : List (Instant × EngineCall) :=
      [(9, .set "b" "w".toUTF8 (.ofMillis 2)), (6, .getWithToken "a"), (7, .getWithToken "b"),
        (8, .reap)]
    (swept.run hear steps).2.map EngineAnswer.uncounted =
      (engine.run hear steps).2.map EngineAnswer.uncounted := by
  intro engine hear swept steps
  have hw (now : Instant) := Audience.watches_quiet now Audience.nesting
  have hcreated : Follows Audience.Quiet (fun _ => ([] : List Remark))
      (LiveEngine.create ⟨4, 1, .lfu⟩) (Engine.create ⟨4, 1, .lfu⟩ []) :=
    ⟨fun listener hmem => absurd hmem (Array.not_mem_empty listener), rfl⟩
  have hquiet : engine.audience.Quiet := by
    have hrestored := (hcreated.apply 0 (hw 0) (.restore
      ([(⟨"a", "v".toUTF8, 3⟩ : Seen)].map fun seen => some seen.record))).1.kind
    rwa [apply_restore, ← carriedOut_restoring _ 0] at hrestored
  have hrestored := restored_restoring ⟨4, 1, .lfu⟩ 0 0 [⟨"a", "v".toUTF8, 3⟩] (by decide)
    (by decide)
  have hgentle (engine : LiveEngine) (hs : engine.shards.Sound)
      (hroom : engine.shards.HasRoom "b") : engine.GentleRun hear steps :=
    ⟨hroom.put_plain hs, trivial, trivial, trivial, trivial⟩
  exact (sweep_unnoticed hw ⟨4, 1, .lfu⟩ 0 (restoring 0 [⟨"a", "v".toUTF8, 3⟩]) hquiet
    (by decide) (hgentle engine hrestored.sound (hrestored.hasRoom (by decide) "b"))).1

end Program

end ReplicatedCache
