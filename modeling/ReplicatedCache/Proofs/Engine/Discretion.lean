import ReplicatedCache.Proofs.Engine.Calls
import ReplicatedCache.Proofs.Engine.QuietListeners

/-! # Audiences that keep off a key

Listeners hear of what an operation does while it is under way, and may call the engine
then. A listener that stores a key again whenever it hears that the key is gone undoes
every delete of it. An audience keeps off a key if it does nothing of the kind: it
leaves the key alone when it hears of a write or of an eviction, and does not bring the
key back when it hears that it is gone. Apart from that it may do as it likes, and an
operation on the key does what it would do if nobody listened.
-/

namespace ReplicatedCache

variable {A : Type}

/-- An engine with an audience of a kind and with shards in order holds an entry under
a key, or nothing. -/
structure Engine.Holds (kind : A → Prop) (key : String) (entry : Option Entry)
    (engine : Engine A) : Prop where
  kind : kind engine.audience
  sound : engine.shards.Sound
  find?_eq : engine.shards.find? key = entry

/-- The signal tells of an event or of a key that had to leave. -/
def Signal.Passing : Signal → Prop
  | .event _ => True
  | .removal _ cause => cause = .evicted

/-- Audiences of a kind keep off a key. -/
structure KeepsOff (kind : A → Prop) (key : String) (hear : Hearing A) : Prop where
  passing : ∀ {engine : Engine A} {entry : Option Entry} (signal : Signal), signal.Passing →
    engine.Holds kind key entry → (hear engine signal).Holds kind key entry
  gone : ∀ {engine : Engine A} (cause : RemovalCause), engine.Holds kind key none →
    (hear engine (.removal key cause)).Holds kind key none

namespace Engine.Holds

variable {kind : A → Prop} {key : String} {entry : Option Entry} {hear : Hearing A}
  {engine : Engine A} {now : Instant}

/-- Whether a key is held depends on the audience and on the shards alone. -/
theorem congr (h : engine.Holds kind key entry) {after : Engine A}
    (haudience : after.audience = engine.audience) (hshards : after.shards = engine.shards) :
    after.Holds kind key entry :=
  ⟨haudience ▸ h.kind, hshards ▸ h.sound, hshards ▸ h.find?_eq⟩

theorem trackExpiry (h : engine.Holds kind key entry) (other : String) (deadline : Instant) :
    (engine.trackExpiry other deadline).Holds kind key entry := by
  rw [trackExpiry_eq]
  exact h.congr rfl rfl

theorem remove (h : engine.Holds kind key entry) :
    ({ engine with shards := engine.shards.remove key } : Engine A).Holds kind key none :=
  ⟨h.kind, h.sound.remove key, (Shards.find?_remove ..).trans (if_pos rfl)⟩

/-- What a write leaves under its key: the new entry, or nothing if it is turned down,
which only happens to keys that are absent. -/
theorem afterPut (h : engine.Holds kind key entry) (now : Instant) (value : Value) (ttl : Span) :
    (engine.afterPut now key value ttl).Holds kind key
      (if (engine.putOutcome now key value ttl).stored then
        some (engine.fresh value (deadlineAfter now ttl)) else none) := by
  rcases h.sound.put_cases key (engine.fresh value (deadlineAfter now ttl)) with
    ⟨hrejected, habsent, hsound, -, hsame⟩ | ⟨hstored, hstores⟩
  · rw [putOutcome, hrejected]
    exact ⟨h.kind, hsound, (hsame key).trans habsent⟩
  · rw [putOutcome, hstored]
    exact ⟨h.kind, hstores.sound, (hstores.find?_eq key).trans (if_pos rfl)⟩

/-- A write of one key brings no other key in. -/
theorem afterPut_of_ne (h : engine.Holds kind key none) {other : String} (hne : other ≠ key)
    (now : Instant) (value : Value) (ttl : Span) :
    (engine.afterPut now other value ttl).Holds kind key none := by
  rcases h.sound.put_cases other (engine.fresh value (deadlineAfter now ttl)) with
    ⟨-, -, hsound, -, hsame⟩ | ⟨-, hstores⟩
  · exact ⟨h.kind, hsound, (hsame key).trans h.find?_eq⟩
  · refine ⟨h.kind, hstores.sound, (hstores.find?_eq key).trans ?_⟩
    rw [if_neg hne.symm, h.find?_eq, ite_self]

section Operations

variable (hoff : KeepsOff kind key hear)
include hoff

/-- A discreet audience that is told of evictions keeps its hands off the key. -/
theorem reportEvictions (h : engine.Holds kind key entry) (victims : List String) :
    (engine.reportEvictions hear victims).Holds kind key entry := by
  induction victims generalizing engine with
  | nil => exact h
  | cons victim victims ih =>
      have hcounted : (engine.count .evictions).Holds kind key entry := h.congr rfl rfl
      exact ih (hoff.passing (.removal victim .evicted) rfl hcounted)

theorem reportExpiry (h : engine.Holds kind key none) :
    (engine.reportExpiry hear key).Holds kind key none :=
  hoff.gone .expired (h.congr rfl rfl)

/-- Once the segment has dealt with a write, the rest of a set leaves the key alone. -/
theorem set_of_afterPut {other : String} {value : Value} {ttl : Span}
    (h : (engine.afterPut now other value ttl).Holds kind key entry) :
    (engine.set hear now other value ttl).1.Holds kind key entry := by
  have htold := h.reportEvictions hoff (engine.putOutcome now other value ttl).evicted
  rw [set_eq]
  dsimp only
  generalize (engine.afterPut now other value ttl).reportEvictions hear
    (engine.putOutcome now other value ttl).evicted = told at htold ⊢
  split
  next =>
    have htracked := htold.trackExpiry other (deadlineAfter now ttl)
    exact (hoff.passing (.event (.set other)) trivial htracked).congr rfl rfl
  next => exact htold.congr rfl rfl

/-- After a `set` a discreet audience finds the fresh entry if it was stored, and nothing
otherwise. -/
theorem set (h : engine.Holds kind key entry) (now : Instant) (value : Value) (ttl : Span) :
    (engine.set hear now key value ttl).1.Holds kind key
      (if (engine.putOutcome now key value ttl).stored then
        some (engine.fresh value (deadlineAfter now ttl)) else none) :=
  set_of_afterPut hoff (h.afterPut now value ttl)

theorem set_of_ne (h : engine.Holds kind key none) {other : String} (hne : other ≠ key)
    (now : Instant) (value : Value) (ttl : Span) :
    (engine.set hear now other value ttl).1.Holds kind key none :=
  set_of_afterPut hoff (h.afterPut_of_ne hne now value ttl)

/-- A deleted key stays absent while a discreet audience is told of it. -/
theorem delete (h : engine.Holds kind key entry) (now : Instant) :
    (engine.delete hear now key).1.Holds kind key none := by
  rw [delete_eq]
  dsimp only
  cases engine.shards.find? key with
  | none => exact h.remove
  | some found =>
      dsimp only
      split
      next => exact h.remove.reportExpiry hoff
      next =>
        have hcounted : (({ engine with shards := engine.shards.remove key } : Engine A).count
            .deletes).Holds kind key none := h.remove.congr rfl rfl
        exact hoff.gone .deleted (hoff.passing (.event (.delete key)) trivial hcounted)

/-- A read leaves what it finds, and takes out what is over. -/
theorem getWithToken (h : engine.Holds kind key entry) (now : Instant) :
    (engine.getWithToken hear now key).1.Holds kind key (engine.lookup now key) := by
  have hlooked : ({ engine with shards := engine.shards.get key } : Engine A).Holds kind key
      (engine.shards.find? key) :=
    ⟨h.kind, h.sound.get key, Shards.find?_get ..⟩
  rw [getWithToken_eq]
  dsimp only
  cases hfind : engine.shards.find? key with
  | none =>
      rw [lookup_of_find hfind]
      exact (hfind ▸ hlooked).congr rfl rfl
  | some found =>
      dsimp only
      split
      next hexpired =>
        rw [lookup_of_expired hfind hexpired]
        exact (hlooked.remove.reportExpiry hoff).congr rfl rfl
      next hlive =>
        rw [lookup_of_live hfind hlive]
        exact (hfind ▸ hlooked).congr rfl rfl

/-- A compare-and-swap replaces the entry that bears the expected token, and takes out
what is over. -/
theorem compareAndSwap (h : engine.Holds kind key entry) (now : Instant) (value : Value)
    (expected : Token) (ttl : Span) :
    (engine.compareAndSwap hear now key value expected ttl).1.Holds kind key
      ((engine.lookup now key).map fun found =>
        if found.token = expected then engine.fresh value (swapDeadline now ttl found)
        else found) := by
  rw [compareAndSwap_eq]
  cases hfind : engine.shards.find? key with
  | none =>
      rw [lookup_of_find hfind]
      exact ⟨h.kind, h.sound, hfind⟩
  | some found =>
      dsimp only
      by_cases hexpired : found.expired now = true
      · rw [if_pos hexpired, lookup_of_expired hfind hexpired]
        exact h.remove.reportExpiry hoff
      · rw [if_neg hexpired, lookup_of_live hfind hexpired, Option.map_some]
        by_cases htoken : found.token = expected
        · have hstores :=
            h.sound.stores_insert hfind (engine.fresh value (swapDeadline now ttl found))
          have hstored : ({ engine with
              nextToken := engine.freshToken + 1
              shards := engine.shards.insert key
                (engine.fresh value (swapDeadline now ttl found)) } : Engine A).Holds kind key
                (some (engine.fresh value (swapDeadline now ttl found))) :=
            ⟨h.kind, hstores.sound, (hstores.find?_eq key).trans (if_pos rfl)⟩
          rw [if_neg (not_not.mpr htoken), if_pos htoken]
          exact (hoff.passing (.event (.set key)) trivial
            (hstored.trackExpiry key _)).congr rfl rfl
        · rw [if_pos htoken, if_neg htoken]
          exact ⟨h.kind, h.sound, hfind⟩

end Operations

end Engine.Holds

/-! ## Listeners that keep off a key -/

/-- Reactions that look at the engine and store under other keys. -/
inductive Reaction.Avoids (key : String) : Reaction → Prop
  | finish : Avoids key .finish
  | fail : Avoids key .fail
  | write {remark : Remark} {next : Reaction} : Avoids key next → Avoids key (.write remark next)
  | set {other : String} {value : Value} {ttl : Span} {next : Bool → Reaction} : other ≠ key →
    (∀ stored, Avoids key (next stored)) → Avoids key (.set other value ttl next)
  | contains {other : String} {next : Bool → Reaction} :
    (∀ live, Avoids key (next live)) → Avoids key (.contains other next)
  | size {next : Nat → Reaction} : (∀ size, Avoids key (next size)) → Avoids key (.size next)

namespace Audience

/-- No listener changes the engine when it hears of an eviction, and none stores under
the key when it hears that the key is gone. -/
def Discreet (key : String) (audience : Audience) : Prop :=
  ∀ listener ∈ audience.listeners,
    (∀ log victim, (listener.react log victim .evicted).Quiet) ∧
      ∀ log cause, (listener.react log key cause).Avoids key

variable {key : String} {entry : Option Entry} {hear : Hearing Audience} {now : Instant}
  {engine : Engine Audience}

theorem Discreet.logged {audience : Audience} (h : audience.Discreet key) (id : Nat)
    (added : List Remark) : (audience.logged id added).Discreet key := by
  intro listener hmem
  obtain ⟨old, hold, hreact⟩ := react_of_mem_logged hmem
  rw [hreact]
  exact h old hold

theorem holds_logged (h : engine.Holds (Discreet key) key entry) (id : Nat)
    (added : List Remark) :
    ({ engine with audience := engine.audience.logged id added } :
      Engine Audience).Holds (Discreet key) key entry :=
  ⟨h.kind.logged id added, h.sound, h.find?_eq⟩

/-- A reaction that avoids a key does not bring it in. -/
theorem holds_run {reaction : Reaction} (hreaction : reaction.Avoids key)
    (hoff : KeepsOff (Discreet key) key hear) (id : Nat)
    (h : engine.Holds (Discreet key) key none) :
    (reaction.run hear now id engine).Holds (Discreet key) key none := by
  induction hreaction generalizing engine with
  | finish => exact h
  | fail => exact h
  | write hnext ih => exact ih (holds_logged h id _)
  | set hne hnext ih => exact ih _ (h.set_of_ne hoff hne now _ _)
  | contains hnext ih => exact ih _ h
  | size hnext ih => exact ih _ h

/-- A discreet listener answers an eviction by remarks alone, so the key is held as before. -/
theorem tell_evicted (h : engine.Holds (Discreet key) key entry) (victim : String) (id : Nat) :
    (tell hear now victim .evicted engine id).Holds (Discreet key) key entry := by
  unfold tell
  cases hget : engine.audience.listeners[id]? with
  | none => exact h
  | some listener =>
      obtain ⟨hquiet, -⟩ := h.kind listener (Array.mem_of_getElem? hget)
      obtain ⟨added, heq⟩ := (hquiet listener.log victim).run_eq id engine
      dsimp only
      rw [heq]
      exact holds_logged h id added

/-- A discreet listener that is told that the key is gone does not bring it back. -/
theorem tell_gone (hoff : KeepsOff (Discreet key) key hear)
    (h : engine.Holds (Discreet key) key none) (cause : RemovalCause) (id : Nat) :
    (tell hear now key cause engine id).Holds (Discreet key) key none := by
  unfold tell
  cases hget : engine.audience.listeners[id]? with
  | none => exact h
  | some listener =>
      obtain ⟨-, havoids⟩ := h.kind listener (Array.mem_of_getElem? hget)
      exact holds_run (havoids listener.log cause) hoff id h

/-- Discreet listeners keep off their key, however deeply their calls nest. -/
theorem keepsOff_discreet (key : String) (now : Instant) (depth : Nat) :
    KeepsOff (Discreet key) key (Audience.hear now depth) := by
  have hevent {engine : Engine Audience} {entry : Option Entry} (event : KeyEvent)
      (h : engine.Holds (Discreet key) key entry) :
      (publish engine event).Holds (Discreet key) key entry := ⟨h.kind, h.sound, h.find?_eq⟩
  induction depth with
  | zero =>
      constructor
      · rintro engine entry (event | ⟨victim, cause⟩) - h
        · exact hevent event h
        · exact h
      · exact fun _ h => h
  | succ depth ih =>
      constructor
      · rintro engine entry (event | ⟨victim, cause⟩) hpassing h
        · exact hevent event h
        · obtain rfl : cause = .evicted := hpassing
          exact List.foldlRecOn _ _ h fun engine h id _ => tell_evicted h victim id
      · exact fun cause h =>
          List.foldlRecOn _ _ h fun engine h id _ => tell_gone ih h cause id

/-- The listeners that come with the cache are discreet about every key. A successor
that is stored for a key is never the key itself. -/
theorem discreet_of_standard {audience : Audience}
    (h : ∀ listener ∈ audience.listeners, ∃ standard ∈
      [Listener.recording, Listener.probing, Listener.failing, Listener.reviving],
        listener.react = standard.react) (key : String) : audience.Discreet key := by
  intro listener hmem
  obtain ⟨standard, hstandard, hreact⟩ := h listener hmem
  rw [hreact]
  simp only [List.mem_cons, List.not_mem_nil, or_false] at hstandard
  rcases hstandard with rfl | rfl | rfl | rfl
  · exact ⟨fun _ _ => .write .finish, fun _ _ => .write .finish⟩
  · exact ⟨fun _ _ => .contains fun _ => .size fun _ => .write .finish,
      fun _ _ => .contains fun _ => .size fun _ => .write .finish⟩
  · exact ⟨fun _ _ => .write .fail, fun _ _ => .write .fail⟩
  · have hne : key ++ "~" ≠ key := by
      intro heq
      have hlength := congrArg String.length heq
      rw [String.length_append] at hlength
      exact absurd hlength (by simp)
    refine ⟨fun _ _ => .write ?_, fun _ cause => .write ?_⟩
    · rw [if_pos (Or.inl rfl)]
      exact .finish
    · split
      next => exact .finish
      next => exact .set hne fun _ => .finish

end Audience

end ReplicatedCache
