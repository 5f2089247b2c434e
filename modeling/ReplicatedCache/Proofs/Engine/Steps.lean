import ReplicatedCache.Proofs.Engine.Sweep

/-! # What each call does to a sound engine

For every call: the answer in terms of the entry that is live under the key,
what the shards hold under each key afterwards, what becomes of the token
counter, and that the engine stays sound. The audience keeps a transcript.
-/

namespace ReplicatedCache.Engine

section Lookup

variable {A : Type}

def lookup (engine : Engine A) (now : Instant) (key : String) : Option Entry :=
  (engine.shards.find? key).filter fun entry => entry.live now

variable {engine : Engine A} {now : Instant} {key : String} {entry : Entry}

/-- What can be looked up is resident and not over. -/
theorem lookup_eq_some_iff :
    engine.lookup now key = some entry ↔
      engine.shards.find? key = some entry ∧ entry.expired now = false := by
  rw [lookup, Option.filter_eq_some_iff, Entry.live, Bool.not_eq_true']

theorem lookup_of_find (h : engine.shards.find? key = none) : engine.lookup now key = none := by
  rw [lookup, h, Option.filter_none]

theorem lookup_of_expired (h : engine.shards.find? key = some entry)
    (hexpired : entry.expired now = true) : engine.lookup now key = none := by
  rw [lookup, h, Option.filter_some, if_neg]
  rw [Entry.live, hexpired]
  decide

theorem lookup_of_live (h : engine.shards.find? key = some entry)
    (hlive : ¬ entry.expired now = true) : engine.lookup now key = some entry :=
  lookup_eq_some_iff.mpr ⟨h, eq_false_of_ne_true hlive⟩

/-- Asking whether a key is there is a lookup that leaves no trace. -/
theorem contains_eq (engine : Engine A) (now : Instant) (key : String) :
    engine.contains now key = (engine.lookup now key).isSome := by
  have hpeek : (engine.shards.segmentOf key).peek key = engine.shards.find? key := rfl
  unfold contains lookup
  rw [hpeek]
  cases engine.shards.find? key with
  | none => rfl
  | some entry =>
      rw [Option.filter_some]
      cases h : entry.live now <;> simp [h]

end Lookup

variable {A ρ : Type} (record : Signal → List ρ) {engine : Engine (List ρ)} (now : Instant)
  (key other : String)

theorem reportEvictions_recording (engine : Engine (List ρ)) (victims : List String) :
    ∃ stats audience, engine.reportEvictions (recording record) victims =
      { engine with stats, audience } := by
  induction victims generalizing engine with
  | nil => exact ⟨engine.stats, engine.audience, rfl⟩
  | cons victim rest ih =>
      obtain ⟨stats, audience, heq⟩ :=
        ih (recording record (engine.count .evictions) (.removal victim .evicted))
      exact ⟨stats, audience, heq⟩

/-! ## Writing -/

section Set

variable (value : Value) (ttl : Span)

theorem set_snd (engine : Engine (List ρ)) :
    (engine.set (recording record) now key value ttl).2 =
      (engine.putOutcome now key value ttl).stored := by
  rw [set_eq]
  dsimp only
  cases (engine.putOutcome now key value ttl).stored <;> rfl

/-- A write leaves the shards as the segment of its key answers, and notes the
deadline of an entry that it stores. -/
theorem set_fst (engine : Engine (List ρ)) :
    ∃ stats audience, (engine.set (recording record) now key value ttl).1 =
      { engine.afterPut now key value ttl with
        expiries := if (engine.putOutcome now key value ttl).stored then
          (engine.afterPut now key value ttl).tracked key (deadlineAfter now ttl)
          else engine.expiries
        stats, audience } := by
  obtain ⟨stats, audience, hquiet⟩ := reportEvictions_recording record
    (engine.afterPut now key value ttl) (engine.putOutcome now key value ttl).evicted
  rw [set_eq, hquiet]
  dsimp only
  rw [trackExpiry_eq]
  cases (engine.putOutcome now key value ttl).stored with
  | true => exact ⟨_, _, rfl⟩
  | false => exact ⟨_, _, rfl⟩

theorem shards_set (engine : Engine (List ρ)) :
    (engine.set (recording record) now key value ttl).1.shards =
      (engine.shards.put key (engine.fresh value (deadlineAfter now ttl))).1 := by
  obtain ⟨stats, audience, heq⟩ := set_fst record now key value ttl engine
  rw [heq]
  rfl

theorem nextToken_set (engine : Engine (List ρ)) :
    (engine.set (recording record) now key value ttl).1.nextToken = engine.freshToken + 1 := by
  obtain ⟨stats, audience, heq⟩ := set_fst record now key value ttl engine
  rw [heq]
  rfl

/-- A rejected write finds its key absent and leaves all bindings alone. -/
theorem Sound.set_rejected (h : engine.Sound)
    (hrejected : (engine.putOutcome now key value ttl).stored = false) :
    engine.putOutcome now key value ttl = { stored := false } ∧
      engine.shards.find? key = none ∧
      ∀ other, (engine.set (recording record) now key value ttl).1.shards.find? other =
        engine.shards.find? other := by
  rw [shards_set]
  rcases h.shards.put_cases key (engine.fresh value (deadlineAfter now ttl)) with
    ⟨houtcome, hnew, -, -, hsame⟩ | ⟨hstored, -⟩
  · exact ⟨houtcome, hnew, hsame⟩
  · exact absurd (hstored.symm.trans hrejected) (by decide)

/-- A stored write binds its key to the fresh entry, and unbinds the evicted keys. -/
theorem Sound.set_stored (h : engine.Sound)
    (hstored : (engine.putOutcome now key value ttl).stored = true) :
    engine.shards.Stores key (engine.fresh value (deadlineAfter now ttl))
      (engine.set (recording record) now key value ttl).1.shards
      (engine.putOutcome now key value ttl).evicted := by
  rw [shards_set]
  exact h.shards.stores_put hstored

theorem Sound.set (h : engine.Sound) :
    (engine.set (recording record) now key value ttl).1.Sound := by
  obtain ⟨stats, audience, heq⟩ := set_fst record now key value ttl engine
  rw [heq]
  rcases h.shards.put_cases key (engine.fresh value (deadlineAfter now ttl)) with
    ⟨houtcome, -, hsound, hhome, hsame⟩ | ⟨hstored, hstores⟩
  · rw [putOutcome, houtcome]
    exact h.reshard rfl hsound hhome fun hfind => (hsame _).symm.trans hfind
  · rw [putOutcome, hstored]
    have hnoted := h.stores (engine.afterPut now key value ttl) hstores rfl
    rw [trackExpiry_eq] at hnoted
    exact hnoted.congr rfl rfl

end Set

/-! ## Reading and deleting -/

/-- A lookup answers with the live entry of its key. -/
theorem getWithToken_snd (engine : Engine (List ρ)) :
    (engine.getWithToken (recording record) now key).2 =
      (engine.lookup now key).map fun entry => (entry.value, entry.token) := by
  rw [getWithToken_eq]
  dsimp only
  cases hfind : engine.shards.find? key with
  | none => rw [lookup_of_find hfind]; rfl
  | some entry =>
      dsimp only
      split
      next hexpired => rw [lookup_of_expired hfind hexpired]; rfl
      next hlive => rw [lookup_of_live hfind hlive]; rfl

/-- Reading makes its key the newest one, and takes it out if its entry is over. -/
theorem getWithToken_fst (engine : Engine (List ρ)) :
    ∃ stats audience, (engine.getWithToken (recording record) now key).1 =
      { engine with
        shards :=
          if engine.shards.find? key = engine.lookup now key then engine.shards.get key
          else (engine.shards.get key).remove key
        stats, audience } := by
  rw [getWithToken_eq]
  dsimp only
  cases hfind : engine.shards.find? key with
  | none =>
      rw [lookup_of_find hfind, if_pos rfl]
      exact ⟨_, _, rfl⟩
  | some entry =>
      dsimp only
      split
      next hexpired =>
        rw [lookup_of_expired hfind hexpired, if_neg nofun]
        exact ⟨_, _, rfl⟩
      next hlive =>
        rw [lookup_of_live hfind hlive, if_pos rfl]
        exact ⟨_, _, rfl⟩

theorem nextToken_getWithToken (engine : Engine (List ρ)) :
    (engine.getWithToken (recording record) now key).1.nextToken = engine.nextToken := by
  obtain ⟨stats, audience, heq⟩ := getWithToken_fst record now key engine
  rw [heq]

/-- A lookup takes an entry out that it finds over, and changes nothing else. -/
theorem find?_getWithToken (engine : Engine (List ρ)) :
    (engine.getWithToken (recording record) now key).1.shards.find? other =
      if other = key then engine.lookup now key else engine.shards.find? other := by
  obtain ⟨stats, audience, heq⟩ := getWithToken_fst record now key engine
  rw [heq]
  dsimp only
  split
  next hsame =>
    rw [Shards.find?_get]
    split
    next hkey => rw [hkey, hsame]
    next => rfl
  next hover =>
    rw [Shards.find?_remove, Shards.find?_get]
    split
    next =>
      cases hlookup : engine.lookup now key with
      | none => rfl
      | some entry =>
          exact absurd ((lookup_eq_some_iff.mp hlookup).1.trans hlookup.symm) hover
    next => rfl

theorem Sound.getWithToken (h : engine.Sound) :
    (engine.getWithToken (recording record) now key).1.Sound := by
  obtain ⟨stats, audience, heq⟩ := getWithToken_fst record now key engine
  rw [heq]
  have hlooked : { engine with shards := engine.shards.get key }.Sound := h.get rfl rfl
  split
  next => exact hlooked.congr rfl rfl
  next => exact hlooked.remove rfl rfl

theorem delete_snd (engine : Engine (List ρ)) :
    (engine.delete (recording record) now key).2 = (engine.lookup now key).isSome := by
  rw [delete_eq]
  dsimp only
  cases hfind : engine.shards.find? key with
  | none => rw [lookup_of_find hfind]; rfl
  | some entry =>
      dsimp only
      split
      next hexpired => rw [lookup_of_expired hfind hexpired]; rfl
      next hlive => rw [lookup_of_live hfind hlive]; rfl

/-- Whatever a delete answers, it takes its key out. -/
theorem delete_fst (engine : Engine (List ρ)) :
    ∃ stats audience, (engine.delete (recording record) now key).1 =
      { engine with shards := engine.shards.remove key, stats, audience } := by
  rw [delete_eq]
  dsimp only
  cases engine.shards.find? key with
  | none => exact ⟨_, _, rfl⟩
  | some entry =>
      dsimp only
      split
      next => exact ⟨_, _, rfl⟩
      next => exact ⟨_, _, rfl⟩

theorem nextToken_delete (engine : Engine (List ρ)) :
    (engine.delete (recording record) now key).1.nextToken = engine.nextToken := by
  obtain ⟨stats, audience, heq⟩ := delete_fst record now key engine
  rw [heq]

/-- A delete unbinds its key and leaves the others. -/
theorem find?_delete (engine : Engine (List ρ)) :
    (engine.delete (recording record) now key).1.shards.find? other =
      if other = key then none else engine.shards.find? other := by
  obtain ⟨stats, audience, heq⟩ := delete_fst record now key engine
  rw [heq]
  exact Shards.find?_remove _ _ _

theorem Sound.delete (h : engine.Sound) :
    (engine.delete (recording record) now key).1.Sound := by
  obtain ⟨stats, audience, heq⟩ := delete_fst record now key engine
  rw [heq]
  exact h.remove rfl rfl

/-! ## Comparing and swapping -/

section CompareAndSwap

variable (value : Value) (expected : Token) (ttl : Span) {found : Entry}

/-- On a key that is not live, a compare-and-swap takes out what is over. -/
theorem compareAndSwap_of_none (h : engine.lookup now key = none) :
    (engine.compareAndSwap (recording record) now key value expected ttl).2 = .notFound ∧
      ∃ stats audience,
        (engine.compareAndSwap (recording record) now key value expected ttl).1 =
          { engine with shards := engine.shards.remove key, stats, audience } := by
  rw [compareAndSwap_eq]
  cases hfind : engine.shards.find? key with
  | none =>
      rw [Shards.remove_of_absent _ _ hfind]
      exact ⟨rfl, _, _, rfl⟩
  | some entry =>
      have hexpired : entry.expired now = true :=
        by_contra fun hlive => nomatch h.symm.trans (lookup_of_live hfind hlive)
      dsimp only
      rw [if_pos hexpired]
      exact ⟨rfl, _, _, rfl⟩

/-- A swap that finds another token is a conflict and leaves the engine as it was. -/
theorem compareAndSwap_of_ne (h : engine.lookup now key = some found)
    (hne : found.token ≠ expected) :
    engine.compareAndSwap (recording record) now key value expected ttl =
      (engine, .conflict) := by
  obtain ⟨hfind, hlive⟩ := lookup_eq_some_iff.mp h
  rw [compareAndSwap_eq, hfind]
  dsimp only
  rw [if_neg (ne_true_of_eq_false hlive), if_pos hne]

/-- A swap that finds its token answers with the fresh one and inserts the new entry. -/
theorem compareAndSwap_of_eq (h : engine.lookup now key = some found)
    (heq : found.token = expected) :
    (engine.compareAndSwap (recording record) now key value expected ttl).2 =
        .stored engine.freshToken ∧
      ∃ stats audience,
        (engine.compareAndSwap (recording record) now key value expected ttl).1 =
          { engine with
            shards := engine.shards.insert key
              (engine.fresh value (swapDeadline now ttl found))
            expiries := { engine with
              shards := engine.shards.insert key
                (engine.fresh value (swapDeadline now ttl found)) : Engine (List ρ) }.tracked key
                  (swapDeadline now ttl found)
            nextToken := engine.freshToken + 1
            stats, audience } := by
  obtain ⟨hfind, hlive⟩ := lookup_eq_some_iff.mp h
  rw [compareAndSwap_eq, hfind]
  dsimp only
  rw [if_neg (ne_true_of_eq_false hlive), if_neg (not_not_intro heq), trackExpiry_eq]
  exact ⟨rfl, _, _, rfl⟩

theorem find?_compareAndSwap_of_none (h : engine.lookup now key = none) :
    (engine.compareAndSwap (recording record) now key value expected ttl).1.shards.find? other =
      if other = key then none else engine.shards.find? other := by
  obtain ⟨-, stats, audience, heq⟩ :=
    compareAndSwap_of_none record now key value expected ttl h
  rw [heq]
  exact Shards.find?_remove _ _ _

theorem find?_compareAndSwap_of_eq (hs : engine.Sound)
    (h : engine.lookup now key = some found) (heq : found.token = expected) :
    (engine.compareAndSwap (recording record) now key value expected ttl).1.shards.find? other =
      if other = key then some (engine.fresh value (swapDeadline now ttl found))
      else engine.shards.find? other := by
  obtain ⟨-, stats, audience, heq⟩ :=
    compareAndSwap_of_eq record now key value expected ttl h heq
  rw [heq]
  have hstores := hs.shards.stores_insert (lookup_eq_some_iff.mp h).1
    (engine.fresh value (swapDeadline now ttl found))
  rw [hstores.find?_eq other, if_neg List.not_mem_nil]

theorem Sound.compareAndSwap (h : engine.Sound) :
    (engine.compareAndSwap (recording record) now key value expected ttl).1.Sound := by
  cases hlookup : engine.lookup now key with
  | none =>
      obtain ⟨-, stats, audience, heq⟩ :=
        compareAndSwap_of_none record now key value expected ttl hlookup
      rw [heq]
      exact h.remove rfl rfl
  | some found =>
      by_cases htoken : found.token = expected
      · obtain ⟨-, stats, audience, heq⟩ :=
          compareAndSwap_of_eq record now key value expected ttl hlookup htoken
        have hstores := h.shards.stores_insert (lookup_eq_some_iff.mp hlookup).1
          (engine.fresh value (swapDeadline now ttl found))
        have hnoted := h.stores { engine with
          shards := engine.shards.insert key
            (engine.fresh value (swapDeadline now ttl found)) } hstores rfl
        rw [trackExpiry_eq] at hnoted
        rw [heq]
        exact hnoted.congr rfl rfl
      · rw [compareAndSwap_of_ne record now key value expected ttl hlookup htoken]
        exact h

end CompareAndSwap

/-! ## Replaying -/

def replayOutcome (engine : Engine A) (key : String) (value : Value) (deadline : Instant) :
    PutOutcome :=
  (engine.shards.putForce key (engine.fresh value deadline)).2

section Replay

variable (value : Value) (deadline : Instant)

theorem replay_set_of_over (engine : Engine A) (h : 0 < deadline ∧ deadline ≤ now) :
    engine.replay now (.set key value deadline) =
      { engine with shards := engine.shards.remove key } := by
  rw [replay_set_eq, if_pos h]

theorem replay_set_of_live (engine : Engine A) (h : ¬ (0 < deadline ∧ deadline ≤ now)) :
    ∃ stats, engine.replay now (.set key value deadline) =
      ({ engine with
        nextToken := engine.freshToken + 1
        shards := (engine.shards.putForce key (engine.fresh value deadline)).1
        stats } : Engine A).trackExpiry key deadline := by
  rw [replay_set_eq, if_neg h]
  exact ⟨_, rfl⟩

theorem nextToken_replay_set (engine : Engine A) (h : ¬ (0 < deadline ∧ deadline ≤ now)) :
    (engine.replay now (.set key value deadline)).nextToken = engine.freshToken + 1 := by
  obtain ⟨stats, heq⟩ := replay_set_of_live now key value deadline engine h
  rw [heq, trackExpiry_eq]

/-- A replayed record whose deadline has not come is stored, whatever the policy thinks of its
key. -/
theorem Sound.replay_stores {engine : Engine A} (hs : engine.Sound)
    (h : ¬ (0 < deadline ∧ deadline ≤ now)) :
    engine.shards.Stores key (engine.fresh value deadline)
      (engine.replay now (.set key value deadline)).shards
      (engine.replayOutcome key value deadline).evicted := by
  obtain ⟨stats, heq⟩ := replay_set_of_live now key value deadline engine h
  rw [heq, trackExpiry_eq]
  exact (hs.shards.stores_putForce key _).2

theorem Sound.replay {engine : Engine A} (h : engine.Sound) (record : Record) :
    (engine.replay now record).Sound := by
  cases record with
  | delete key => exact h.remove rfl rfl
  | set key value deadline =>
      by_cases hover : 0 < deadline ∧ deadline ≤ now
      · rw [replay_set_of_over now key value deadline engine hover]
        exact h.remove rfl rfl
      · obtain ⟨stats, heq⟩ := replay_set_of_live now key value deadline engine hover
        rw [heq]
        have hstores := (h.shards.stores_putForce key (engine.fresh value deadline)).2
        -- on its own, so that the entry is known when the deadlines are compared
        have hsound := h.stores { engine with
          nextToken := engine.freshToken + 1
          shards := (engine.shards.putForce key (engine.fresh value deadline)).1
          stats } hstores rfl
        exact hsound

end Replay

theorem Sound.restore {engine : Engine A} (h : engine.Sound) (records : List (Option Record)) :
    (engine.restore now records).1.Sound := by
  rw [restore_eq]
  dsimp only
  induction records generalizing engine with
  | nil => exact h
  | cons first rest ih =>
      apply ih
      cases first with
      | none => exact h
      | some record => exact h.replay now record

/-! ## Any call -/

/-- Every call keeps an engine sound. -/
theorem Sound.apply (h : engine.Sound) (call : EngineCall) :
    (engine.apply (recording record) now call).1.Sound := by
  cases call with
  | set key value ttl => exact h.set record now key value ttl
  | get key => exact h.getWithToken record now key
  | getWithToken key => exact h.getWithToken record now key
  | contains key => exact h
  | delete key => exact h.delete record now key
  | compareAndSwap key value expected ttl =>
      exact h.compareAndSwap record now key value expected ttl
  | clear => exact h.clear
  | replay change => exact h.replay now change
  | restore records => exact h.restore now records
  | reap => exact h.reap record now

/-- An engine is sound at the end of every run. -/
theorem Sound.run (h : engine.Sound) (steps : List (Instant × EngineCall)) :
    (engine.run (fun _ => recording record) steps).1.Sound :=
  run_invariant _ (fun _ now call hengine => hengine.apply record now call) steps h

end ReplicatedCache.Engine
