import ReplicatedCache.Cluster.Node
import ReplicatedCache.Proofs.Engine.LeastRecent
import ReplicatedCache.Proofs.Engine.Steps

/-! # Engines as nodes

What the calls to a node mean for an engine behind it whose audience only watches:
the answer, the entries afterwards, and the token that comes next.
-/

namespace ReplicatedCache

/-- A write is stored, and a key does not leave for it. -/
def PutOutcome.Spares (key : String) (outcome : PutOutcome) : Prop :=
  outcome.stored = true ∧ key ∉ outcome.evicted

/-- A write is stored, and nobody leaves for it. -/
def PutOutcome.Plain (outcome : PutOutcome) : Prop :=
  outcome.stored = true ∧ outcome.evicted = []

theorem PutOutcome.Plain.spares {outcome : PutOutcome} (h : outcome.Plain) (key : String) :
    outcome.Spares key :=
  ⟨h.1, h.2 ▸ List.not_mem_nil⟩

def Call.Writes (key : String) : {α : Type} → Call α → Prop
  | _, .set other _ _ | _, .compareAndSwap other _ _ _ => other = key
  | _, _ => False

/-- Sweeping does not touch the policy. -/
theorem Shards.IsLru.swept {shards : Shards} (h : shards.IsLru) (notes : List Pending) :
    (Engine.swept shards notes).IsLru := by
  induction notes generalizing shards with
  | nil => exact h
  | cons note notes ih => exact ih (h.removeAt note.segment note.key)

/-- Nobody only watches. -/
theorem watches_nobody (now : Instant) :
    Watches (fun _ : Unit => True) (fun _ => ([] : List Remark)) (fun _ => []) (Hears.hear now) :=
  ⟨fun _ _ => rfl, fun _ _ => trivial, fun _ _ => rfl⟩

namespace Engine

variable {A ρ : Type} [Hears A]

/-! ## Answers -/

section Answers

variable (engine : Engine A) (now : Instant) (key : String)

theorem perform_set_snd (value : Value) (ttl : Span) :
    (engine.perform now (.set key value ttl)).2 = (engine.putOutcome now key value ttl).stored := by
  change (engine.set (Hears.hear now) now key value ttl).2 = _
  rw [set_eq]
  dsimp only
  cases (engine.putOutcome now key value ttl).stored <;> rfl

theorem perform_delete_snd :
    (engine.perform now (.delete key)).2 = (engine.lookup now key).isSome := by
  change (engine.delete (Hears.hear now) now key).2 = _
  rw [delete_eq]
  dsimp only
  cases hfind : engine.shards.find? key with
  | none => rw [lookup_of_find hfind]; rfl
  | some entry =>
      dsimp only
      split
      next hexpired => rw [lookup_of_expired hfind hexpired]; rfl
      next hlive => rw [lookup_of_live hfind hlive]; rfl

theorem perform_getWithToken_snd :
    (engine.perform now (.getWithToken key)).2 =
      (engine.lookup now key).map fun entry => (entry.value, entry.token) := by
  change (engine.getWithToken (Hears.hear now) now key).2 = _
  rw [getWithToken_eq]
  dsimp only
  cases hfind : engine.shards.find? key with
  | none => rw [lookup_of_find hfind]; rfl
  | some entry =>
      dsimp only
      split
      next hexpired => rw [lookup_of_expired hfind hexpired]; rfl
      next hlive => rw [lookup_of_live hfind hlive]; rfl

theorem perform_get_snd :
    (engine.perform now (.get key)).2 = (engine.lookup now key).map Entry.value := by
  have hread : (engine.perform now (.get key)).2 =
      (engine.perform now (.getWithToken key)).2.map (·.1) := rfl
  rw [hread, perform_getWithToken_snd, Option.map_map]
  rfl

/-- Whether a key is live and bears a token. -/
def bears (token : Token) : Bool := (engine.lookup now key).any fun entry => entry.token == token

/-- A compare-and-swap is carried out if its key bears the expected token. -/
theorem perform_compareAndSwap_snd (value : Value) (expected : Token) (ttl : Span) :
    (engine.perform now (.compareAndSwap key value expected ttl)).2 =
      engine.bears now key expected := by
  change (engine.compareAndSwap (Hears.hear now) now key value expected ttl).2.isStored = _
  rw [compareAndSwap_eq, bears]
  cases hfind : engine.shards.find? key with
  | none => rw [lookup_of_find hfind]; rfl
  | some entry =>
      dsimp only
      split
      next hexpired => rw [lookup_of_expired hfind hexpired]; rfl
      next hlive =>
        rw [lookup_of_live hfind hlive]
        split
        next hne => simp [SwapAnswer.isStored, hne]
        next heq => simp [SwapAnswer.isStored, not_not.mp heq]

end Answers

/-! ## Entries and tokens -/

section Effects

variable (engine : Engine A) (now : Instant)

/-- What is asked of the segment that a call writes to. Only a set can be turned
down or make other keys leave. -/
def Fits (asked : PutOutcome → Prop) : {α : Type} → Call α → Prop
  | _, .set key value ttl => asked (engine.putOutcome now key value ttl)
  | _, _ => True

/-- The entry under a key after a call for which the key does not leave. -/
def entryAfter (other : String) : {α : Type} → Call α → Option Entry
  | _, .set key value ttl =>
    if other = key then some (engine.fresh value (deadlineAfter now ttl))
    else engine.shards.find? other
  | _, .get key | _, .getWithToken key =>
    if other = key then engine.lookup now key else engine.shards.find? other
  | _, .delete key => if other = key then none else engine.shards.find? other
  | _, .compareAndSwap key value expected ttl =>
    match engine.lookup now key with
    | none => if other = key then none else engine.shards.find? other
    | some found =>
      if other = key ∧ found.token = expected then
        some (engine.fresh value (swapDeadline now ttl found))
      else engine.shards.find? other
  | _, .clear => none

/-- The token that comes next after a call. -/
def tokenAfter : {α : Type} → Call α → Token
  | _, .set _ _ _ => engine.freshToken + 1
  | _, .compareAndSwap key _ expected _ =>
    if engine.bears now key expected then engine.freshToken + 1 else engine.nextToken
  | _, _ => engine.nextToken

end Effects

omit [Hears A] in
/-- Whatever can be looked up is resident. -/
theorem find?_of_lookup {engine : Engine A} {now : Instant} {key : String} {entry : Entry}
    (h : engine.lookup now key = some entry) : engine.shards.find? key = some entry :=
  (lookup_eq_some_iff.mp h).1

omit [Hears A] in
/-- A call that does not write a key leaves under it at most the entry that is there. -/
theorem entryAfter_of_not_writes {engine : Engine A} {now : Instant} {other : String}
    {entry : Entry} {α : Type} {call : Call α} (hspared : ¬ call.Writes other)
    (h : engine.entryAfter now other call = some entry) :
    engine.shards.find? other = some entry := by
  cases call with
  | set key value ttl =>
      rw [entryAfter, if_neg fun heq => hspared heq.symm] at h
      exact h
  | get key | getWithToken key =>
      rw [entryAfter] at h
      split at h
      next heq => exact heq ▸ find?_of_lookup h
      next => exact h
  | delete key =>
      rw [entryAfter] at h
      split at h
      next => exact nomatch h
      next => exact h
  | compareAndSwap key value expected ttl =>
      have hne : other ≠ key := fun heq => hspared heq.symm
      rw [entryAfter] at h
      split at h
      next => rwa [if_neg hne] at h
      next => rwa [if_neg fun hboth => hne hboth.1] at h
  | clear => exact nomatch h

def sweep (engine : Engine A) (now : Instant) : Engine A := (engine.reap (Hears.hear now) now).1

/-- An engine whose shards and queue are in order and whose audience is of a kind. -/
structure Settled (kind : A → Prop) (engine : Engine A) : Prop where
  kind : kind engine.audience
  sound : engine.Sound

variable {kind : A → Prop} {heard : A → List ρ} {record : Signal → List ρ} {engine : Engine A}

omit [Hears A] in
/-- Under the policy of the least recently used key, no write is turned down. -/
theorem putOutcome_stored (hlru : engine.shards.IsLru) (now : Instant) (key : String)
    (value : Value) (ttl : Span) : (engine.putOutcome now key value ttl).stored = true :=
  (hlru.put key _).2

omit [Hears A] in
/-- No key leaves for itself. -/
theorem Sound.spares_self (h : engine.Sound) {now : Instant} {key : String} {value : Value}
    {ttl : Span} (hstored : (engine.putOutcome now key value ttl).stored = true) :
    (engine.putOutcome now key value ttl).Spares key :=
  ⟨hstored, (h.shards.stores_put hstored).not_mem⟩

def performed (record : Signal → List ρ) (engine : Engine (List ρ)) (now : Instant) :
    {α : Type} → Call α → Engine (List ρ)
  | _, .set key value ttl => (engine.set (recording record) now key value ttl).1
  | _, .get key | _, .getWithToken key => (engine.getWithToken (recording record) now key).1
  | _, .delete key => (engine.delete (recording record) now key).1
  | _, .compareAndSwap key value expected ttl =>
    (engine.compareAndSwap (recording record) now key value expected ttl).1
  | _, .clear => engine.clear

/-- A call keeps an engine sound, whatever is recorded of its signals. -/
theorem Sound.performed {engine : Engine (List ρ)} (h : engine.Sound) (record : Signal → List ρ)
    (now : Instant) {α : Type} (call : Call α) : (engine.performed record now call).Sound := by
  cases call with
  | set key value ttl => exact h.set record now key value ttl
  | get key => exact h.getWithToken record now key
  | getWithToken key => exact h.getWithToken record now key
  | delete key => exact h.delete record now key
  | compareAndSwap key value expected ttl =>
      exact h.compareAndSwap record now key value expected ttl
  | clear => exact h.clear

/-- What only watches follows the calls to a node. -/
theorem Follows.perform {mirror : Engine (List ρ)} {α : Type}
    (hw : ∀ now, Watches kind heard record (Hears.hear now)) (h : Follows kind heard engine mirror)
    (now : Instant) (call : Call α) :
    Follows kind heard (engine.perform now call).1 (mirror.performed record now call) := by
  cases call with
  | set key value ttl => exact (h.set now key (hw now) value ttl).1
  | get key => exact (h.getWithToken now key (hw now)).1
  | getWithToken key => exact (h.getWithToken now key (hw now)).1
  | delete key => exact (h.delete now key (hw now)).1
  | compareAndSwap key value expected ttl =>
      exact (h.compareAndSwap now key (hw now) value expected ttl).1
  | clear => exact h.step rfl fun heq => heq ▸ rfl

namespace Settled

omit [Hears A] in
/-- A settled engine is followed by the transcript of what its audience has heard. -/
theorem follows (h : engine.Settled kind) (heard : A → List ρ) :
    Follows kind heard engine (engine.transcribed heard) := ⟨h.kind, rfl⟩

omit [Hears A] in
theorem mirror (h : engine.Settled kind) (heard : A → List ρ) :
    (engine.transcribed heard).Sound := h.sound.congr rfl rfl

omit [Hears A] in
/-- An engine is settled when a sound engine follows it. -/
theorem of_follows {mirror : Engine (List ρ)} (h : Follows kind heard engine mirror)
    (hsound : mirror.Sound) : engine.Settled kind :=
  ⟨h.kind, hsound.congr h.shards_eq.symm (congrArg Engine.expiries h.mirror_eq).symm⟩

variable (hw : ∀ now, Watches kind heard record (Hears.hear now)) (h : engine.Settled kind)
  (now : Instant) {α : Type} (call : Call α)

include hw h

theorem perform : (engine.perform now call).1.Settled kind :=
  of_follows ((h.follows heard).perform hw now call) ((h.mirror heard).performed record now call)

/-- The shards after a call are those of the transcribed engine: no listener takes part in
them. -/
theorem shards_perform : (engine.perform now call).1.shards =
    ((engine.transcribed heard).performed record now call).shards :=
  ((h.follows heard).perform hw now call).shards_eq.symm

/-- How far a call moves the next token is told by the call and by what it finds. -/
theorem nextToken_perform :
    (engine.perform now call).1.nextToken = engine.tokenAfter now call := by
  -- what operations do is known of engines with a transcript, which mint the same tokens
  have hmirrored := congrArg Engine.nextToken ((h.follows heard).perform hw now call).mirror_eq
  change _ = (engine.perform now call).1.nextToken at hmirrored
  rw [← hmirrored]
  cases call with
  | set key value ttl => exact nextToken_set record now key value ttl (engine.transcribed heard)
  | get key => exact nextToken_getWithToken record now key (engine.transcribed heard)
  | getWithToken key => exact nextToken_getWithToken record now key (engine.transcribed heard)
  | delete key => exact nextToken_delete record now key (engine.transcribed heard)
  | compareAndSwap key value expected ttl =>
      rw [tokenAfter, bears]
      change ((engine.transcribed heard).compareAndSwap (recording record) now key value expected
        ttl).1.nextToken = _
      change _ = if (((engine.transcribed heard).lookup now key).any _) = true then _ else _
      cases hlookup : (engine.transcribed heard).lookup now key with
      | none =>
          obtain ⟨-, stats, audience, heq⟩ :=
            compareAndSwap_of_none record now key value expected ttl hlookup
          rw [heq]
          rfl
      | some found =>
          by_cases htoken : found.token = expected
          · obtain ⟨-, stats, audience, heq⟩ :=
              compareAndSwap_of_eq record now key value expected ttl hlookup htoken
            rw [heq, Option.any_some, if_pos (beq_iff_eq.mpr htoken)]
            rfl
          · rw [compareAndSwap_of_ne record now key value expected ttl hlookup htoken,
              Option.any_some, if_neg (mt beq_iff_eq.mp htoken)]
            rfl
  | clear => rfl

/-- What is under a key after a call for which the key does not leave. -/
theorem find?_perform (other : String) (hfits : engine.Fits now (PutOutcome.Spares other) call) :
    (engine.perform now call).1.shards.find? other = engine.entryAfter now other call := by
  have hmirror := h.mirror heard
  rw [h.shards_perform hw]
  cases call with
  | set key value ttl =>
      obtain ⟨hstored, hstays⟩ := hfits
      have hstores := hmirror.set_stored record now key value ttl hstored
      refine (hstores.find?_eq other).trans ?_
      change (if other = key then _ else if other ∈ (engine.putOutcome now key value ttl).evicted
        then none else _) = _
      rw [if_neg hstays]
      rfl
  | get key => exact find?_getWithToken record now key other (engine.transcribed heard)
  | getWithToken key => exact find?_getWithToken record now key other (engine.transcribed heard)
  | delete key => exact find?_delete record now key other (engine.transcribed heard)
  | compareAndSwap key value expected ttl =>
      rw [entryAfter]
      change ((engine.transcribed heard).compareAndSwap (recording record) now key value expected
        ttl).1.shards.find? other = match (engine.transcribed heard).lookup now key with
          | none => _ | some found => _
      cases hlookup : (engine.transcribed heard).lookup now key with
      | none => exact find?_compareAndSwap_of_none record now key other value expected ttl hlookup
      | some found =>
          dsimp only
          by_cases htoken : found.token = expected
          · rw [find?_compareAndSwap_of_eq record now key other value expected ttl hmirror hlookup
              htoken]
            simp only [htoken, and_true]
            rfl
          · rw [compareAndSwap_of_ne record now key value expected ttl hlookup htoken,
              if_neg fun hboth => htoken hboth.2]
            rfl
  | clear => exact Shards.find?_clear _ other

/-- What is under a key after a call was there before or comes in by the call. -/
theorem find?_of_perform {other : String} {entry : Entry}
    (hfind : (engine.perform now call).1.shards.find? other = some entry) :
    engine.shards.find? other = some entry ∨ engine.entryAfter now other call = some entry := by
  cases call with
  | set key value ttl =>
      rw [h.shards_perform hw] at hfind
      change ((engine.transcribed heard).set (recording record) now key value ttl).1.shards.find?
        other = some entry at hfind
      cases hstored : ((engine.transcribed heard).putOutcome now key value ttl).stored with
      | false =>
          obtain ⟨-, -, hsame⟩ := (h.mirror heard).set_rejected record now key value ttl hstored
          exact Or.inl ((hsame other).symm.trans hfind)
      | true =>
          have hstores := (h.mirror heard).set_stored record now key value ttl hstored
          rw [hstores.find?_eq] at hfind
          rw [entryAfter]
          split at hfind
          next heq => exact Or.inr ((if_pos heq).trans hfind)
          next =>
            split at hfind
            next => exact nomatch hfind
            next => exact Or.inl hfind
  | get | getWithToken | delete | compareAndSwap | clear =>
      rw [h.find?_perform hw now _ other (by trivial)] at hfind
      exact Or.inr hfind

/-- A call that writes nothing under a key brings nothing under it. -/
theorem find?_of_perform_of_not_writes {other : String} {entry : Entry}
    (hspared : ¬ call.Writes other)
    (hfind : (engine.perform now call).1.shards.find? other = some entry) :
    engine.shards.find? other = some entry :=
  (h.find?_of_perform hw now call hfind).elim id (entryAfter_of_not_writes hspared)

/-- The policy of the least recently used key stays, and turns nothing down. -/
theorem isLru_perform (hlru : engine.shards.IsLru) :
    (engine.perform now call).1.shards.IsLru := by
  have hread (key : String) :
      ((engine.transcribed heard).getWithToken (recording record) now key).1.shards.IsLru := by
    obtain ⟨stats, audience, heq⟩ :=
      getWithToken_fst record now key (engine.transcribed heard)
    rw [heq]
    dsimp only
    split
    next => exact hlru.get key
    next => exact (hlru.get key).remove key
  rw [h.shards_perform hw]
  cases call with
  | set key value ttl =>
      have hshards := shards_set record now key value ttl (engine.transcribed heard)
      refine (congrArg Shards.IsLru hshards).mpr ?_
      exact (hlru.put key _).1
  | get key => exact hread key
  | getWithToken key => exact hread key
  | delete key =>
      obtain ⟨stats, audience, heq⟩ := delete_fst record now key (engine.transcribed heard)
      refine (congrArg (fun engine => engine.shards.IsLru) heq).mpr ?_
      exact hlru.remove key
  | compareAndSwap key value expected ttl =>
      change ((engine.transcribed heard).compareAndSwap (recording record) now key value expected
        ttl).1.shards.IsLru
      cases hlookup : (engine.transcribed heard).lookup now key with
      | none =>
          obtain ⟨-, stats, audience, heq⟩ :=
            compareAndSwap_of_none record now key value expected ttl hlookup
          rw [heq]
          exact hlru.remove key
      | some found =>
          by_cases htoken : found.token = expected
          · obtain ⟨-, stats, audience, heq⟩ :=
              compareAndSwap_of_eq record now key value expected ttl hlookup htoken
            rw [heq]
            exact hlru.insert key _
          · rw [compareAndSwap_of_ne record now key value expected ttl hlookup htoken]
            exact hlru
  | clear => exact hlru.clear

end Settled

/-! ## Sweeps -/

namespace Settled

variable (hw : ∀ now, Watches kind heard record (Hears.hear now)) (h : engine.Settled kind)
  (now : Instant)

include hw h

theorem sweep : (engine.sweep now).Settled kind :=
  of_follows ((h.follows heard).reap now (hw now)).1 ((h.mirror heard).reap record now)

/-- A sweep takes the notices' keys out of the shards and changes nothing else in them. -/
theorem shards_sweep :
    (engine.sweep now).shards = swept engine.shards (engine.notices now) := by
  have hmirrored := ((h.follows heard).reap now (hw now)).1.shards_eq
  rw [reap_recording] at hmirrored
  exact hmirrored.symm

/-- After a sweep a key is bound to what could be looked up before it. -/
theorem find?_sweep (key : String) :
    (engine.sweep now).shards.find? key = engine.lookup now key := by
  rw [h.shards_sweep hw]
  exact find?_swept h.sound now key

theorem nextToken_sweep : (engine.sweep now).nextToken = engine.nextToken := by
  have hmirrored := congrArg Engine.nextToken ((h.follows heard).reap now (hw now)).1.mirror_eq
  rw [reap_recording] at hmirrored
  exact hmirrored.symm

theorem isLru_sweep (hlru : engine.shards.IsLru) : (engine.sweep now).shards.IsLru := by
  rw [h.shards_sweep hw]
  exact hlru.swept _

end Settled

end Engine

end ReplicatedCache
