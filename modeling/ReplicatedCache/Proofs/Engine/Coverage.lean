import ReplicatedCache.Proofs.Engine.Sights
import ReplicatedCache.Proofs.Engine.Steps

/-! # Every deadline is noted in the end

In the middle of an operation an engine may owe a note. A write stores its entry, and
tells of the keys that left for it, before the deadline is noted; a sweep takes all due
notes from the queue before it looks at the first of them. A listener that is told at
such a moment may call the engine, and its calls leave no more notes owed than they
found. So when all calls have returned the engine is sound, whatever the listeners did.
-/

namespace ReplicatedCache

namespace Engine

variable {A : Type} {engine after : Engine A} {owed notes : List Pending} {key : String}
  {entry : Entry} {hear : Hearing A}

/-! ## Notes that are owed -/

def owing (engine : Engine A) (owed : List Pending) : Engine A :=
  { engine with expiries := ⟨engine.expiries.pending ++ owed⟩ }

/-- An engine that would be sound if it had noted what it owes. -/
def Owes (engine : Engine A) (owed : List Pending) : Prop := (engine.owing owed).Sound

/-- To owe nothing is to be sound. -/
theorem owes_nil : engine.Owes [] ↔ engine.Sound := by
  rw [Owes, owing, List.append_nil]

/-- The note of a deadline, if there is one to be noted. -/
def promised (engine : Engine A) (key : String) (deadline : Instant) : List Pending :=
  if 0 < deadline then [⟨deadline, key, engine.shards.home key⟩] else []

theorem of_mem_promised {deadline : Instant} {note : Pending}
    (h : note ∈ engine.promised key deadline) :
    0 < deadline ∧ note = ⟨deadline, key, engine.shards.home key⟩ := by
  unfold promised at h
  split at h
  next hpos => exact ⟨hpos, List.mem_singleton.mp h⟩
  next => exact absurd h List.not_mem_nil

theorem of_promised {deadline : Instant} {note : Pending}
    (h : note ∈ engine.promised key deadline) : note.key = key ∧ note.deadline = deadline := by
  obtain ⟨-, rfl⟩ := of_mem_promised h
  exact ⟨rfl, rfl⟩

namespace Owes

/-- Bindings may go without a note becoming due for it: only a new binding needs one. -/
theorem reshard (h : engine.Owes owed) (hexpiries : after.expiries = engine.expiries)
    (hs : after.shards.Sound) (hhome : ∀ other, after.shards.home other = engine.shards.home other)
    (hfind : ∀ {other entry}, after.shards.find? other = some entry →
      engine.shards.find? other = some entry) : after.Owes owed :=
  show (after.owing owed).Sound from
    Sound.reshard h (by rw [owing, owing, hexpiries]) hs hhome hfind

theorem congr (h : engine.Owes owed) (hshards : after.shards = engine.shards)
    (hexpiries : after.expiries = engine.expiries) : after.Owes owed :=
  show (after.owing owed).Sound from Sound.congr h hshards (by rw [owing, owing, hexpiries])

/-- Counters have no part in what is owed. -/
theorem count (h : engine.Owes owed) (counter : Counter) : (engine.count counter).Owes owed :=
  h.congr rfl rfl

theorem remove (h : engine.Owes owed) (hexpiries : after.expiries = engine.expiries)
    (hshards : after.shards = engine.shards.remove key) : after.Owes owed :=
  show (after.owing owed).Sound from Sound.remove h (by rw [owing, owing, hexpiries]) hshards

theorem get (h : engine.Owes owed) (hexpiries : after.expiries = engine.expiries)
    (hshards : after.shards = engine.shards.get key) : after.Owes owed :=
  show (after.owing owed).Sound from Sound.get h (by rw [owing, owing, hexpiries]) hshards

/-- A stored entry needs a note. -/
theorem stores (h : engine.Owes owed) (after : Engine A) {evicted : List String}
    (hstores : engine.shards.Stores key entry after.shards evicted)
    (hexpiries : after.expiries = engine.expiries) :
    after.Owes (after.promised key entry.deadline ++ owed) := by
  constructor
  · exact hstores.sound
  · intro note hmem
    change 0 < note.deadline ∧ note.segment = after.shards.home note.key
    rcases List.mem_append.mp hmem with hold | hmem
    · rw [hstores.home_eq]
      exact h.noted note (List.mem_append_left _ (hexpiries ▸ hold))
    · rcases List.mem_append.mp hmem with hnew | hold
      · obtain ⟨hpos, rfl⟩ := of_mem_promised hnew
        exact ⟨hpos, rfl⟩
      · rw [hstores.home_eq]
        exact h.noted note (List.mem_append_right _ hold)
  · intro other found hfind hpos
    change _ ∈ after.expiries.pending ++ (after.promised key entry.deadline ++ owed)
    change after.shards.find? other = some found at hfind
    rw [hstores.find?_eq] at hfind
    split at hfind
    next heq =>
      obtain rfl := Option.some.inj hfind
      subst heq
      refine List.mem_append_right _ (List.mem_append_left _ ?_)
      rw [promised, if_pos hpos]
      exact List.mem_cons_self
    next =>
      split at hfind
      next => exact absurd hfind nofun
      next =>
        have hnote := h.covered hfind hpos
        rw [hexpiries]
        rcases List.mem_append.mp hnote with hold | howed
        · exact List.mem_append_left _ (hstores.home_eq other ▸ hold)
        · exact List.mem_append_right _
            (List.mem_append_right _ (hstores.home_eq other ▸ howed))

/-- Noting a deadline pays for the notes of it that are owed. -/
theorem trackExpiry (h : engine.Owes (notes ++ owed)) (key : String) (deadline : Instant)
    (hnotes : ∀ note ∈ notes, note.key = key ∧ note.deadline = deadline) :
    (engine.trackExpiry key deadline).Owes owed := by
  rw [trackExpiry_eq]
  constructor
  · exact h.shards
  · intro note hmem
    rcases List.mem_append.mp hmem with htracked | howed
    · rcases of_mem_tracked htracked with hold | ⟨hpos, rfl⟩
      · exact h.noted note (List.mem_append_left _ hold)
      · exact ⟨hpos, rfl⟩
    · exact h.noted note (List.mem_append_right _ (List.mem_append_right _ howed))
  · intro other found hfind hpos
    have hcurrent :
        isCurrent engine.shards ⟨found.deadline, other, engine.shards.home other⟩ = true :=
      (isCurrent_iff h.shards).mpr ⟨rfl, found, hfind, rfl⟩
    rcases List.mem_append.mp (h.covered hfind hpos) with hold | hmem
    · exact List.mem_append_left _ (mem_tracked hcurrent (Or.inl hold))
    · rcases List.mem_append.mp hmem with hnew | howed
      · obtain ⟨rfl, rfl⟩ := hnotes _ hnew
        exact List.mem_append_left _ (mem_tracked hcurrent (Or.inr ⟨hpos, rfl⟩))
      · exact List.mem_append_right _ howed

/-- A note to which no entry answers need not be owed. -/
theorem settle {note : Pending} (h : engine.Owes (note :: owed))
    (hstale : ¬ isCurrent engine.shards note = true) : engine.Owes owed := by
  constructor
  · exact h.shards
  · intro other hmem
    refine h.noted other ?_
    rcases List.mem_append.mp hmem with hold | howed
    · exact List.mem_append_left _ hold
    · exact List.mem_append_right _ (List.mem_cons_of_mem _ howed)
  · intro key entry hfind hpos
    rcases List.mem_append.mp (h.covered hfind hpos) with hold | hmem
    · exact List.mem_append_left _ hold
    · rcases List.mem_cons.mp hmem with heq | howed
      · have hcurrent :
            isCurrent engine.shards ⟨entry.deadline, key, engine.shards.home key⟩ = true :=
          (isCurrent_iff h.shards).mpr ⟨rfl, entry, hfind, rfl⟩
        exact absurd (heq ▸ hcurrent) hstale
      · exact List.mem_append_right _ howed

/-- Clearing keeps what is owed, since a note may outlive its entry. -/
theorem clear (h : engine.Owes owed) : engine.clear.Owes owed := by
  have hclear : engine.clear.shards.Sound := h.shards.clear
  constructor
  · exact hclear
  · intro note hmem
    have howed : note ∈ owed := hmem
    have hnoted := h.noted note (List.mem_append_right _ howed)
    refine ⟨hnoted.1, hnoted.2.trans ?_⟩
    exact (Shards.home_of_capacities (Shards.capacities_clear engine.shards) note.key).symm
  · intro key entry hfind
    exact absurd ((Shards.find?_clear engine.shards key).symm.trans hfind) nofun

/-- A sweep owes the due notes once it has taken them from the queue. -/
theorem drained (h : engine.Owes owed) (now : Instant) :
    (engine.drained now).Owes (engine.dueNotes now ++ owed) := by
  have hsplit {note : Pending} : note ∈ engine.expiries.pending ++ owed ↔
      note ∈ (engine.drained now).expiries.pending ++ (engine.dueNotes now ++ owed) := by
    simp only [Engine.drained, List.mem_append, mem_dueNotes_iff, List.mem_filter,
      Bool.not_eq_true', decide_eq_false_iff_not]
    by_cases hdue : note.deadline ≤ now <;> simp [hdue]
  exact ⟨h.shards, fun note hmem => h.noted note (hsplit.mpr hmem),
    fun hfind hpos => hsplit.mp (h.covered hfind hpos)⟩

end Owes

/-! ## Listeners leave no more owed than before -/

/-- Whatever happens when a signal is heard, no more notes are owed afterwards. -/
def Solvent (hear : Hearing A) : Prop :=
  ∀ {owed : List Pending} {engine : Engine A} (signal : Signal),
    engine.Owes owed → (hear engine signal).Owes owed

namespace Owes

section Hearing

variable (hsolvent : Solvent hear) (now : Instant)
include hsolvent

/-- Telling evictions to an audience that pays its debts leaves the engine owing what it
owed. -/
theorem reportEvictions (h : engine.Owes owed) (victims : List String) :
    (engine.reportEvictions hear victims).Owes owed := by
  induction victims generalizing engine with
  | nil => exact h
  | cons victim rest ih => exact ih (hsolvent _ (h.count _))

theorem reportExpiry (h : engine.Owes owed) (key : String) :
    (engine.reportExpiry hear key).Owes owed :=
  hsolvent _ (h.count _)

/-- After a `set` every deadline is covered again, whatever the listeners did in between. -/
theorem set (h : engine.Owes owed) (key : String) (value : Value) (ttl : Span) :
    (engine.set hear now key value ttl).1.Owes owed := by
  have hs : engine.shards.Sound := h.shards
  rw [set_eq]
  dsimp only
  rcases hs.put_cases key (engine.fresh value (deadlineAfter now ttl)) with
    ⟨houtcome, -, hsound, hhome, hsame⟩ | ⟨hstored, hstores⟩
  · have hput : (engine.afterPut now key value ttl).Owes owed :=
      h.reshard rfl hsound hhome fun hfind => (hsame _).symm.trans hfind
    have hrejected : (engine.putOutcome now key value ttl).stored = false :=
      congrArg PutOutcome.stored houtcome
    rw [hrejected]
    exact (hput.reportEvictions hsolvent _).count _
  · have hput := h.stores (engine.afterPut now key value ttl) hstores rfl
    have htold := hput.reportEvictions hsolvent (engine.putOutcome now key value ttl).evicted
    have htracked := htold.trackExpiry key (deadlineAfter now ttl) fun note => of_promised
    have hstored' : (engine.putOutcome now key value ttl).stored = true := hstored
    rw [hstored']
    exact (hsolvent _ htracked).count _

theorem getWithToken (h : engine.Owes owed) (key : String) :
    (engine.getWithToken hear now key).1.Owes owed := by
  have hlooked : ({ engine with shards := engine.shards.get key } : Engine A).Owes owed :=
    h.get rfl rfl
  have hremoved : ({ engine with shards := (engine.shards.get key).remove key } :
      Engine A).Owes owed := hlooked.remove rfl rfl
  rw [getWithToken_eq]
  dsimp only
  split
  next => exact hlooked.count _
  next =>
    split
    next => exact (hremoved.reportExpiry hsolvent key).count _
    next => exact hlooked.count _

theorem delete (h : engine.Owes owed) (key : String) :
    (engine.delete hear now key).1.Owes owed := by
  have hremoved : ({ engine with shards := engine.shards.remove key } : Engine A).Owes owed :=
    h.remove rfl rfl
  rw [delete_eq]
  dsimp only
  split
  next => exact hremoved
  next =>
    split
    next => exact hremoved.reportExpiry hsolvent key
    next => exact hsolvent _ (hsolvent _ (hremoved.count _))

theorem compareAndSwap (h : engine.Owes owed) (key : String) (value : Value) (expected : Token)
    (ttl : Span) : (engine.compareAndSwap hear now key value expected ttl).1.Owes owed := by
  have hremoved : ({ engine with shards := engine.shards.remove key } : Engine A).Owes owed :=
    h.remove rfl rfl
  rw [compareAndSwap_eq]
  split
  next => exact h
  next found hfind =>
    split
    next => exact hremoved.reportExpiry hsolvent key
    next =>
      split
      next => exact h
      next =>
        have hs : engine.shards.Sound := h.shards
        have hstores := hs.stores_insert hfind (engine.fresh value (swapDeadline now ttl found))
        have hstored := h.stores { engine with
          nextToken := engine.freshToken + 1
          shards := engine.shards.insert key (engine.fresh value (swapDeadline now ttl found)) }
          hstores rfl
        have htracked := hstored.trackExpiry key (swapDeadline now ttl found) fun note =>
          of_promised
        exact (hsolvent _ htracked).count _

/-- One after another the due notes are no longer owed. -/
theorem foldl_reapStep (h : engine.Owes (notes ++ owed)) (reaped : Nat) :
    (notes.foldl (reapStep hear) (engine, reaped)).1.Owes owed := by
  induction notes generalizing engine reaped with
  | nil => exact h
  | cons note rest ih =>
      refine ih ?_ _
      change (engine.reapOne hear note).1.Owes (rest ++ owed)
      have hs : engine.shards.Sound := h.shards
      rw [reapOne_eq]
      split
      next hcurrent =>
        rw [((isCurrent_iff hs).mp hcurrent).1, removeAt_home]
        have hremoved : ({ engine with shards := engine.shards.remove note.key } :
            Engine A).Owes (note :: (rest ++ owed)) := h.remove rfl rfl
        refine (hremoved.settle ?_).reportExpiry hsolvent note.key
        exact fun hstill => ((isCurrent_remove hs note.key note).mp hstill).2 rfl
      next hstale => exact h.settle hstale

/-- A sweep owes every note that it has drained until it comes to it, and nothing in the end. -/
theorem reap (h : engine.Owes owed) : (engine.reap hear now).1.Owes owed := by
  rw [reap_eq]
  exact (h.drained now).foldl_reapStep hsolvent 0

omit hsolvent in
theorem replay (h : engine.Owes owed) (change : Record) :
    (engine.replay now change).Owes owed := by
  cases change with
  | delete key => exact h.remove rfl rfl
  | set key value deadline =>
      by_cases hover : 0 < deadline ∧ deadline ≤ now
      · rw [replay_set_of_over now key value deadline engine hover]
        exact h.remove rfl rfl
      · obtain ⟨stats, heq⟩ := replay_set_of_live now key value deadline engine hover
        have hs : engine.shards.Sound := h.shards
        have hstored := h.stores { engine with
          nextToken := engine.freshToken + 1
          shards := (engine.shards.putForce key (engine.fresh value deadline)).1
          stats } (hs.stores_putForce key _).2 rfl
        rw [heq]
        exact hstored.trackExpiry key deadline fun note => of_promised

omit hsolvent in
/-- Each restored record notes its own deadline, so nothing new is owed after a restore. -/
theorem restore (h : engine.Owes owed) (records : List (Option Record)) :
    (engine.restore now records).1.Owes owed := by
  rw [restore_eq]
  dsimp only
  induction records generalizing engine with
  | nil => exact h
  | cons first rest ih =>
      apply ih
      cases first with
      | none => exact h
      | some change => exact h.replay now change

/-- No call leaves an engine owing more than it owed before. -/
theorem apply (h : engine.Owes owed) (call : EngineCall) :
    (engine.apply hear now call).1.Owes owed := by
  cases call with
  | set key value ttl => exact h.set hsolvent now key value ttl
  | get key => exact h.getWithToken hsolvent now key
  | getWithToken key => exact h.getWithToken hsolvent now key
  | contains key => exact h
  | delete key => exact h.delete hsolvent now key
  | compareAndSwap key value expected ttl =>
      exact h.compareAndSwap hsolvent now key value expected ttl
  | clear => exact h.clear
  | replay change => exact h.replay now change
  | restore records => exact h.restore now records
  | reap => exact h.reap hsolvent now

end Hearing

end Owes

/-- What visitors keep, a visit keeps. -/
theorem visit_keeps {σ : Type} (kept : Engine A → Prop)
    (visitor : Engine A → σ → String → Entry → Engine A × σ)
    (hvisitor : ∀ engine s key entry, kept engine → kept (visitor engine s key entry).1)
    (h : kept engine) (now : Instant) (start : σ) : kept (engine.visit now visitor start).1 := by
  have hfoldl {ι : Type} (step : Engine A × σ → ι → Engine A × σ)
      (hstep : ∀ state item, kept state.1 → kept (step state item).1) (items : List ι)
      (state : Engine A × σ) (hstate : kept state.1) : kept (items.foldl step state).1 := by
    induction items generalizing state with
    | nil => exact hstate
    | cons item rest ih => exact ih _ (hstep state item hstate)
  refine hfoldl _ (fun state i hstate => ?_) _ _ h
  refine hfoldl _ (fun state binding hstate => ?_) _ _ hstate
  dsimp only
  split
  next => exact hstate
  next => exact hvisitor _ _ _ _ hstate

end Engine

/-! ## Listeners that call the engine -/

section Listeners

open Engine

variable {engine : LiveEngine} {owed : List Pending} {hear : Hearing Audience}

/-- Whatever a listener does, it leaves no more notes owed than before. -/
theorem Reaction.owes_run (hsolvent : Solvent hear) (now : Instant) (id : Nat) (reaction : Reaction)
    (h : engine.Owes owed) : (reaction.run hear now id engine).Owes owed := by
  induction reaction generalizing engine with
  | finish => exact h
  | fail => exact h
  | write remark next ih => exact ih (h.congr rfl rfl)
  | set key value ttl next ih => exact ih _ (h.set hsolvent now key value ttl)
  | get key next ih => exact ih _ (h.getWithToken hsolvent now key)
  | contains key next ih => exact ih _ h
  | size next ih => exact ih _ h
  | subscribe react next _ ih => exact ih _ (h.congr rfl rfl)
  | unsubscribe other next ih => exact ih (h.congr rfl rfl)

/-- Listeners that call the engine, to any depth, leave no more notes owed than they found. -/
theorem Audience.solvent_hear (now : Instant) (depth : Nat) :
    Solvent (Audience.hear now depth) := by
  induction depth with
  | zero =>
      intro owed engine signal h
      cases signal with
      | event event => exact h.congr rfl rfl
      | removal key cause => exact h
  | succ depth ih =>
      intro owed engine signal h
      cases signal with
      | event event => exact h.congr rfl rfl
      | removal key cause =>
          rw [Audience.hear]
          generalize engine.audience.active = ids
          induction ids generalizing engine with
          | nil => exact h
          | cons id rest hrest =>
              refine hrest ?_
              unfold Audience.tell
              split
              next => exact h
              next => exact Reaction.owes_run ih now id _ h

end Listeners

namespace Program

open Engine

/-- At the end of any program the engine owes nothing. -/
theorem owes_run (depth : Nat) {ρ : Type} (program : Program ρ) {engine : LiveEngine}
    (h : engine.Owes []) :
    (program.run .plain (fun now => Audience.hear now depth) engine).1.Owes [] := by
  induction program generalizing engine with
  | finish result => exact h
  | call now made next ih => exact ih _ (h.apply (Audience.solvent_hear now depth) now made)
  | visit now visitor start next hvisitor ih =>
      have hvisited := visit_keeps (fun engine => engine.Owes [])
        (fun engine s key entry =>
          (visitor s key entry).run .plain (fun now => Audience.hear now depth) engine)
        (fun engine s key entry hengine => hvisitor s key entry hengine) h now start
      exact ih _ hvisited
  | look next ih => exact ih _ h
  | attend change next ih => exact ih (h.congr rfl rfl)

/-- When all calls have returned, every entry with a deadline has a note, whatever the
listeners have done in between. -/
theorem sound_carriedOut (config : EngineConfig) (depth : Nat) {ρ : Type} (program : Program ρ) :
    (program.carriedOut config depth).1.Sound := by
  have hcreated : (LiveEngine.create config).Sound := sound_create config ({} : Audience)
  exact owes_nil.mp (program.owes_run depth (owes_nil.mpr hcreated))

end Program

end ReplicatedCache
