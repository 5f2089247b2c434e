import ReplicatedCache.Proofs.Engine.Sights
import ReplicatedCache.Proofs.Engine.Echoes
import ReplicatedCache.Proofs.Engine.LeastRecent

/-! # What clearing gives back

The policy of the least recently used key remembers nothing of the keys that have left.
Once an engine with this policy has been cleared, nothing of what was done with it is left
but the token that it mints next, so that it echoes a new engine of its configuration. The
listeners do not see tokens, and whatever they do in the middle of the operations, they do
it in front of both.
-/

namespace ReplicatedCache

open Engine

variable {A : Type} {config : EngineConfig} {gap : Token}

/-! ## Listeners in front of an echo -/

section Listeners

variable {engine echo : LiveEngine} {hear : Hearing Audience}
  (hh : Attuned config gap hear) (h : Echoes config gap engine echo) (now : Instant)
include hh h

/-- A listener does the same in front of an engine and of its echo. -/
theorem Reaction.run_echoes (id : Nat) (reaction : Reaction) :
    Echoes config gap (reaction.run hear now id engine) (reaction.run hear now id echo) := by
  induction reaction generalizing engine echo with
  | finish => exact h
  | fail => exact h
  | write remark next ih => exact ih (h.attend (·.write id remark))
  | set key value ttl next ih =>
      obtain ⟨hnext, hanswer⟩ := h.set hh now key value ttl
      simp only [Reaction.run, hanswer]
      exact ih _ hnext
  | get key next ih =>
      obtain ⟨hnext, hanswer⟩ := h.get hh now key
      simp only [Reaction.run, hanswer]
      exact ih _ hnext
  | contains key next ih =>
      simp only [Reaction.run, h.contains_eq]
      exact ih _ h
  | size next ih =>
      simp only [Reaction.run, h.size_eq]
      exact ih _ h
  | subscribe react next _ ih =>
      have hnumber : (echo.audience.subscribe { react }).2 =
          (engine.audience.subscribe { react }).2 := by rw [h.audience_eq]
      simp only [Reaction.run, hnumber]
      exact ih _ (h.attend fun audience => (audience.subscribe { react }).1)
  | unsubscribe other next ih => exact ih (h.attend (·.unsubscribe other))

theorem Audience.tell_echoes (key : String) (cause : RemovalCause) (id : Nat) :
    Echoes config gap (Audience.tell hear now key cause engine id)
      (Audience.tell hear now key cause echo id) := by
  rw [Audience.tell, Audience.tell, h.audience_eq]
  cases engine.audience.listeners[id]? with
  | none => exact h
  | some listener => exact (listener.react listener.log key cause).run_echoes hh h now id

end Listeners

/-- Listeners hear the same in front of an engine and of its echo, however deeply their
calls nest. -/
theorem Audience.attuned_hear (now : Instant) (depth : Nat) :
    Attuned config gap (Audience.hear now depth) := by
  intro engine echo signal h
  induction depth generalizing engine echo signal with
  | zero =>
      cases signal with
      | event event =>
          exact h.attend fun audience => { audience with feed := audience.feed.publish event }
      | removal key cause => exact h
  | succ depth ih =>
      cases signal with
      | event event =>
          exact h.attend fun audience => { audience with feed := audience.feed.publish event }
      | removal key cause =>
          rw [Audience.hear, Audience.hear, h.audience_eq]
          induction engine.audience.active generalizing engine echo with
          | nil => exact h
          | cons id rest ihrest => exact ihrest (Audience.tell_echoes ih h now key cause id)

/-! ## Cleared engines -/

/-- Shards without entries echo each other, if their segments have the same capacity and
the policy that has no state. -/
theorem Shards.echoes_of_empty {shards echo : Shards} {capacity : Nat} {rename : Token → Token}
    (hempty : ∀ segment ∈ shards.segments, segment.toList = [])
    (hempty' : ∀ segment ∈ echo.segments, segment.toList = [])
    (hlru : shards.IsLru) (hlru' : echo.IsLru)
    (hcapacities : shards.capacities = List.replicate (max 1 config.segments) capacity)
    (hcapacities' : echo.capacities = List.replicate (max 1 config.segments) capacity) :
    shards.Echoes config rename echo := by
  refine fun i => ⟨Shards.size_segments_of_capacities hcapacities,
    Shards.size_segments_of_capacities hcapacities', fun a b ha hb => ?_⟩
  have ha := Array.mem_of_getElem? ha
  have hb := Array.mem_of_getElem? hb
  refine ⟨?_, (hlru' b hb).trans (hlru a ha).symm, ?_, fun _ _ => trivial⟩
  · rw [Shards.capacity_of_mem hcapacities ha, Shards.capacity_of_mem hcapacities' hb]
  · rw [hempty a ha, hempty' b hb]
    rfl

namespace Engine

/-- At every moment of a run, the segments have the policy that they were made with. -/
theorem Moment.isLru {engine : Engine A} (hlru : config.eviction = .lru)
    (h : Moment config engine) : engine.shards.IsLru := by
  induction h with
  | created audience =>
      rw [create, hlru]
      exact Shards.isLru_create _ _
  | heard _ audience ih => exact ih
  | silent _ hstep ih =>
      cases hstep with
      | put now key value ttl => exact (ih.put key _).1
      | putForce key value deadline stats => exact ih.putForce key _
      | swap key value deadline hfind => exact ih.insert key _
      | get key => exact ih.get key
      | remove key => exact ih.remove key
      | removeAt i key => exact ih.removeAt i key
      | track key deadline =>
          rw [trackExpiry_eq]
          exact ih
      | clear => exact ih.clear
      | count | drain => exact ih

/-- A cleared engine echoes a new one, from the token that it mints next. -/
theorem Moment.clear_echoes {engine : Engine A} (hlru : config.eviction = .lru)
    (h : Moment config engine) (audience : A) :
    Echoes config (engine.freshToken - 1) (create config audience)
      (engine.clear.heardBy audience) := by
  have hcreated : Moment config (create config audience) := .created audience
  have hcleared : Moment config engine.clear := h.silent (.clear engine)
  have hcapacities := hcreated.orderly.capacities
  have hcapacities' := hcleared.orderly.capacities
  have hlru' : engine.clear.shards.IsLru := hcleared.isLru hlru
  refine ⟨?_, rfl, ?_, ?_, rfl⟩
  · exact Shards.echoes_of_empty (fun segment hmem => (Shards.toList_create segment hmem).1)
      Shards.toList_clear (hcreated.isLru hlru) hlru' hcapacities hcapacities'
  · have hsame : engine.clear.capacity = (create config audience).capacity :=
      Shards.capacity_of_capacities (hcapacities'.trans hcapacities.symm)
    exact hcleared.orderly.threshold.trans
      ((congrArg (fun capacity => max minCompaction (min (2 * capacity) (UInt64.size - 1)))
        hsame).trans hcreated.orderly.threshold.symm)
  · exact (laterBy_one engine.freshToken_ne_zero).symm

end Engine

/-! ## Runs after a clear -/

namespace Program

variable {ρ : Type}

/-- Clearing gives back a new engine. Whatever a program and its listeners have done to an
engine with the policy of the least recently used key, from the clear on it answers every run
of calls as a new engine of its configuration does, and shows the same whenever a run is
over, in front of the same listeners, which are told the same, whatever they do about it.
Only the tokens differ: each is later by as much as the counter has counted, and as long as
the counter does not come round, this is a sum. -/
theorem clear_renews (hlru : config.eviction = .lru) (depth : Nat) (program : Program ρ)
    (audience : Audience) (nesting : Nat) (steps : List (Instant × EngineCall)) :
    let hear := fun now => Audience.hear now nesting
    let reached := (program.carriedOut config depth).1
    let gap := reached.freshToken - 1
    let created := (create config audience).run hear steps
    let cleared := (reached.clear.heardBy audience).run hear (laterRun gap steps)
    cleared.2 = created.2.map (EngineAnswer.renamed (laterBy gap)) ∧
      Resembles (laterBy gap) created.1 cleared.1 ∧ Function.Bijective (laterBy gap) ∧
      ∀ token : Token, token ≠ 0 → token.toNat + gap.toNat < UInt64.size →
        laterBy gap token = token + gap := by
  intro hear reached gap created cleared
  have hmoment : Moment config reached :=
    (program.witnessed_spec config depth).2 reached (List.mem_append_right _ List.mem_cons_self)
  have hattuned (now : Instant) : Attuned config gap (hear now) :=
    Audience.attuned_hear now nesting
  obtain ⟨hechoes, hanswers⟩ := (hmoment.clear_echoes hlru audience).run hattuned steps
  exact ⟨hanswers, hechoes.resembles, laterBy_bijective gap, fun _ => laterBy_eq_add⟩

/-- Two tokens are used up before the clear, and after it the next one is swapped. -/
theorem clear_renews_restored :
    let program := restoring 0 [⟨"a", "u".toUTF8, 5⟩, ⟨"b", "u".toUTF8, 9⟩]
    let config : EngineConfig := ⟨1, 1, .lru⟩
    let reached := (program.carriedOut config 0).1
    let audience := (({} : Audience).subscribe .reviving).1
    let hear := fun now => Audience.hear now 2
    let steps (expected : Token) : List (Instant × EngineCall) :=
      [(1, .set "a" "v".toUTF8 (.ofMillis 3)), (2, .getWithToken "a"),
        (3, .compareAndSwap "a" "w".toUTF8 expected .zero), (4, .reap)]
    let created := (create config audience).run hear (steps 1)
    let cleared := (reached.clear.heardBy audience).run hear (steps 3)
    config.eviction = .lru ∧ reached.freshToken = 3 ∧
      cleared.2 = created.2.map (EngineAnswer.renamed (laterBy 2)) ∧
      Resembles (laterBy 2) created.1 cleared.1 := by
  intro program config reached audience hear steps created cleared
  have hlru : config.eviction = .lru := rfl
  have hreached (first second : Seen) : ((restoring 0 [first, second]).carriedOut config 0).1 =
      ((LiveEngine.create config).replay 0 first.record).replay 0 second.record := rfl
  have hnext (engine : LiveEngine) {seen : Seen}
      (hlive : ¬ (0 < seen.deadline ∧ seen.deadline ≤ 0)) :
      (engine.replay 0 seen.record).freshToken = nextAfter engine.freshToken := by
    rw [Engine.freshToken, Seen.record, nextToken_replay_set _ _ _ _ _ hlive]
    rfl
  have hfresh : reached.freshToken = 3 := by
    unfold reached program
    rw [hreached, hnext _ (by decide), hnext _ (by decide)]
    decide
  obtain ⟨hanswers, hresembles, -⟩ := clear_renews hlru 0 program audience 2 (steps 1)
  have hgap : (program.carriedOut config 0).1.freshToken - 1 = 2 := hfresh ▸ rfl
  rw [hgap] at hanswers hresembles
  exact ⟨hlru, hfresh, hanswers, hresembles⟩

end Program

end ReplicatedCache
