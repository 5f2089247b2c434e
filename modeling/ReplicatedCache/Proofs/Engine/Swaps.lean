import ReplicatedCache.Proofs.Engine.Tokens

/-! # No lost updates

A token that a call has given stands for one entry. A later compare-and-swap
that expects it succeeds if and only if nothing has replaced or removed this
entry since and it is not over, however the clock was moved in between.
-/

namespace ReplicatedCache.Engine

variable {A ρ : Type}

/-- A call has given a token for a key: by reading it, or by storing under it. -/
inductive Gives (key : String) (token : Token) : EngineCall → EngineAnswer → Prop
  | read {value : Value} :
    Gives key token (.getWithToken key) (.valueWithToken (some (value, token)))
  | stored {value : Value} {expected : Token} {ttl : Span} :
    Gives key token (.compareAndSwap key value expected ttl) (.swapped (.stored token))

/-- A compare-and-swap that comes after further calls stores if and only if none
of them disturbed the entry for which its token was given, and that entry is not
over. Otherwise it tells whether another entry is live, and leaves alone what is
live. -/
def SwapsExactly (hear : Instant → Hearing A) (given : Engine A)
    (between : List (Instant × EngineCall)) (now : Instant) (key : String) (value : Value)
    (token : Token) (ttl : Span) : Prop :=
  let reached := (given.run hear between).1
  let swapped := reached.compareAndSwap (hear now) now key value token ttl
  ∃ entry, given.shards.find? key = some entry ∧ entry.token = token ∧
    (swapped.2.isStored = true ↔
      ¬ given.DisturbedBy hear key between ∧ entry.expired now = false) ∧
    (swapped.2.isStored = false →
      swapped.2 = (if (reached.lookup now key).isSome then .conflict else .notFound) ∧
        ∀ other, swapped.1.lookup now other = reached.lookup now other)

section Transcript

variable (record : Signal → List ρ) {engine : Engine (List ρ)}

/-- The token that a call gives is that of the entry which its key then holds. -/
theorem find?_of_gives (h : engine.Sound) (now : Instant) {key : String} {token : Token}
    {call : EngineCall} {answer : EngineAnswer} (hgives : Gives key token call answer)
    (hanswer : (engine.apply (recording record) now call).2 = answer) :
    ∃ entry, (engine.apply (recording record) now call).1.shards.find? key = some entry ∧
      entry.token = token := by
  cases hgives with
  | read =>
      rw [apply_getWithToken, getWithToken_snd] at hanswer
      obtain ⟨entry, hlookup, heq⟩ :=
        Option.map_eq_some_iff.mp (EngineAnswer.valueWithToken.inj hanswer)
      refine ⟨entry, ?_, congrArg Prod.snd heq⟩
      rw [apply_getWithToken, find?_getWithToken, if_pos rfl, hlookup]
  | @stored value expected ttl =>
      rw [apply_compareAndSwap] at hanswer ⊢
      have hstored := EngineAnswer.swapped.inj hanswer
      cases hlookup : engine.lookup now key with
      | none =>
          exact nomatch hstored.symm.trans
            (compareAndSwap_of_none record now key value expected ttl hlookup).1
      | some found =>
          by_cases htoken : found.token = expected
          · rw [(compareAndSwap_of_eq record now key value expected ttl hlookup htoken).1]
              at hstored
            refine ⟨engine.fresh value (swapDeadline now ttl found), ?_,
              SwapAnswer.stored.inj hstored⟩
            rw [find?_compareAndSwap_of_eq record now key key value expected ttl h hlookup
              htoken, if_pos rfl]
          · rw [compareAndSwap_of_ne record now key value expected ttl hlookup htoken] at hstored
            exact nomatch hstored

/-- What a compare-and-swap does in terms of the live entry of its key. -/
theorem compareAndSwap_exact (engine : Engine (List ρ)) (now : Instant) (key : String)
    (value : Value)
    (expected : Token) (ttl : Span) :
    let swapped := engine.compareAndSwap (recording record) now key value expected ttl
    (swapped.2.isStored = true ↔ ∃ found, engine.lookup now key = some found ∧
        found.token = expected) ∧
      (swapped.2.isStored = false →
        swapped.2 = (if (engine.lookup now key).isSome then .conflict else .notFound) ∧
          ∀ other, swapped.1.lookup now other = engine.lookup now other) := by
  cases hlookup : engine.lookup now key with
  | none =>
      obtain ⟨hanswer, -⟩ := compareAndSwap_of_none record now key value expected ttl hlookup
      dsimp only
      rw [hanswer]
      refine ⟨by simp [SwapAnswer.isStored], fun _ => ⟨rfl, fun other => ?_⟩⟩
      rw [lookup, find?_compareAndSwap_of_none record now key other value expected ttl hlookup]
      split
      next heq => rw [heq, hlookup]; rfl
      next => rfl
  | some found =>
      by_cases htoken : found.token = expected
      · obtain ⟨hanswer, -⟩ :=
          compareAndSwap_of_eq record now key value expected ttl hlookup htoken
        dsimp only
        rw [hanswer]
        exact ⟨⟨fun _ => ⟨found, rfl, htoken⟩, fun _ => rfl⟩,
          fun hfailed => absurd hfailed.symm Bool.false_ne_true⟩
      · dsimp only
        rw [compareAndSwap_of_ne record now key value expected ttl hlookup htoken]
        refine ⟨⟨fun hstored => absurd hstored Bool.false_ne_true, ?_⟩,
          fun _ => ⟨rfl, fun _ => rfl⟩⟩
        rintro ⟨other, heq, hother⟩
        exact absurd (Option.some.inj heq ▸ hother) htoken

/-- An entry whose token is out cannot be mistaken for a later one. -/
theorem swapsExactly_of_find (h : engine.Sound) {key : String} {entry : Entry}
    (hfind : engine.shards.find? key = some entry)
    (hold : entry.token.toNat < engine.nextToken.toNat)
    {between : List (Instant × EngineCall)}
    (hroom : CanMint engine (engine.mintedBy (fun _ => recording record) between).length)
    (now : Instant) (value : Value) (ttl : Span) :
    SwapsExactly (fun _ => recording record) engine between now key value entry.token ttl := by
  have hevolves := evolves_run record h between hroom
  obtain ⟨hstored, hfailed⟩ := compareAndSwap_exact record
    (engine.run (fun _ => recording record) between).1 now key value entry.token ttl
  refine ⟨entry, hfind, rfl, hstored.trans ?_, hfailed⟩
  constructor
  · rintro ⟨found, hlookup, htoken⟩
    obtain ⟨hfound, hlive⟩ := lookup_eq_some_iff.mp hlookup
    have hundisturbed : ¬ engine.DisturbedBy (fun _ => recording record) key between := by
      intro hdisturbed
      have hle := (hevolves.mem_tokens_iff.mp (hevolves.fresh key found hdisturbed hfound)).1
      rw [htoken] at hle
      omega
    rw [hevolves.kept key hundisturbed, hfind] at hfound
    exact ⟨hundisturbed, Option.some.inj hfound ▸ hlive⟩
  · rintro ⟨hundisturbed, hlive⟩
    have hkept := (hevolves.kept key hundisturbed).trans hfind
    exact ⟨entry, lookup_eq_some_iff.mpr ⟨hkept, hlive⟩, rfl⟩

end Transcript

/-! ## From the beginning -/

namespace Evolves

variable {engine after : Engine A} {tokens : List Token} {disturbed : String → Prop}

/-- Whatever an empty engine comes to hold bears a new token. -/
theorem disturbed_of_find (h : Evolves engine after tokens disturbed)
    (hempty : ∀ key, engine.shards.find? key = none) {key : String} {entry : Entry}
    (hfind : after.shards.find? key = some entry) : disturbed key :=
  by_contra fun hnot => nomatch (hempty key).symm.trans ((h.kept key hnot).symm.trans hfind)

/-- An engine that was empty at first holds no two entries under one token. -/
theorem nodup_tokens (h : Evolves engine after tokens disturbed)
    (hempty : ∀ key, engine.shards.find? key = none) (hsound : after.Sound) :
    (after.shards.entries.map fun binding => binding.2.token).Nodup := by
  apply List.Nodup.map_on _ hsound.shards.entries_nodup
  rintro ⟨key, a⟩ ha ⟨other, b⟩ hb htoken
  rw [hsound.shards.mem_entries_iff] at ha hb
  have hkey := h.distinct key other a b (h.disturbed_of_find hempty ha)
    (h.disturbed_of_find hempty hb) ha hb htoken
  subst hkey
  rw [Option.some.inj (ha.symm.trans hb)]

/-- Tokens are minted in increasing order. -/
theorem pairwise_tokens (h : Evolves engine after tokens disturbed) : tokens.Pairwise (· < ·) := by
  have hsorted : (tokens.map UInt64.toNat).Pairwise (· < ·) :=
    h.tokens_eq ▸ List.pairwise_lt_range'
  exact (List.pairwise_map.mp hsorted).imp UInt64.lt_iff_toNat_lt.mpr

/-- A counter that has passed zero does not mint it. -/
theorem ne_zero_of_mem (h : Evolves engine after tokens disturbed)
    (hpos : 0 < engine.nextToken.toNat) {token : Token} (hmem : token ∈ tokens) : token ≠ 0 := by
  rintro rfl
  have hle := (h.mem_tokens_iff.mp hmem).1
  exact Nat.not_lt.mpr hle hpos

end Evolves

/-- A token that a call of a run has given is told from every later one. -/
theorem swapsExactly_of_gives (record : Signal → List ρ) {engine : Engine (List ρ)}
    (h : engine.Sound) (hempty : ∀ key, engine.shards.find? key = none)
    {before between : List (Instant × EngineCall)} {given : Instant} {giver : EngineCall}
    (hroom : CanMint engine
      (engine.mintedBy (fun _ => recording record) (before ++ (given, giver) :: between)).length)
    {key : String} {token : Token} {answer : EngineAnswer} (hgives : Gives key token giver answer)
    (hanswer : ((engine.run (fun _ => recording record) before).1.apply (recording record)
      given giver).2 = answer)
    (now : Instant) (value : Value) (ttl : Span) :
    SwapsExactly (fun _ => recording record)
      ((engine.run (fun _ => recording record) before).1.apply (recording record) given giver).1
      between now key value token ttl := by
  have hbefore := h.run record before
  obtain ⟨entry, hfind, rfl⟩ := find?_of_gives record hbefore given hgives hanswer
  -- the run up to the giving call, and the calls after it
  rw [List.append_cons, mintedBy_append, List.length_append] at hroom
  have hevolves := evolves_run record h (before ++ [(given, giver)])
    (hroom.mono (Nat.le_add_right _ _))
  have hbetween := hevolves.canMint hroom
  rw [run_append] at hevolves hbetween
  have hold := (hevolves.mem_tokens_iff.mp
    (hevolves.fresh key entry (hevolves.disturbed_of_find hempty hfind) hfind)).2
  exact swapsExactly_of_find record (hbefore.apply record given giver) hfind hold hbetween now
    value ttl

/-! ## Onlookers -/

namespace Follows

variable {kind : A → Prop} {heard : A → List ρ} {record : Signal → List ρ} {engine : Engine A}
  {mirror : Engine (List ρ)}

theorem restored_minted (h : Follows kind heard engine mirror) (now : Instant)
    (records : List (Option Record)) :
    minted.restored now mirror records = minted.restored now engine records := by
  induction records generalizing engine mirror with
  | nil => rfl
  | cons first rest ih =>
      have hminted : mirror.recordMinted now first = engine.recordMinted now first :=
        h.mirror_eq ▸ rfl
      cases first with
      | none => exact congrArg₂ _ hminted (ih h)
      | some change => exact congrArg₂ _ hminted (ih (h.replay now change))

theorem minted {hear : Hearing A} (hw : Watches kind heard record hear)
    (h : Follows kind heard engine mirror) (now : Instant) (call : EngineCall) :
    mirror.minted (recording record) now call = engine.minted hear now call := by
  cases call with
  | compareAndSwap key value expected ttl =>
      exact congrArg SwapAnswer.minted (h.compareAndSwap now key hw value expected ttl).2
  | restore records => exact h.restored_minted now records
  | _ => exact h.mirror_eq ▸ rfl

theorem mintedBy {hear : Instant → Hearing A} (hw : ∀ now, Watches kind heard record (hear now))
    (h : Follows kind heard engine mirror) (steps : List (Instant × EngineCall)) :
    mirror.mintedBy (fun _ => recording record) steps = engine.mintedBy hear steps := by
  induction steps generalizing engine mirror with
  | nil => rfl
  | cons step rest ih =>
      obtain ⟨now, call⟩ := step
      rw [mintedBy_cons, mintedBy_cons, h.minted (hw now), ih (h.apply now (hw now) call).1]

theorem restored_disturbs (h : Follows kind heard engine mirror) (now : Instant) (key : String)
    (records : List (Option Record)) :
    Disturbs.restored now key mirror records ↔ Disturbs.restored now key engine records := by
  induction records generalizing engine mirror with
  | nil => exact Iff.rfl
  | cons first rest ih =>
      have hfirst : mirror.RecordDisturbs now key first ↔ engine.RecordDisturbs now key first :=
        h.mirror_eq ▸ Iff.rfl
      cases first with
      | none => exact or_congr hfirst (ih h)
      | some change => exact or_congr hfirst (ih (h.replay now change))

theorem disturbs {hear : Hearing A} (hw : Watches kind heard record hear)
    (h : Follows kind heard engine mirror) (now : Instant) (key : String) (call : EngineCall) :
    mirror.Disturbs (recording record) now key call ↔ engine.Disturbs hear now key call := by
  cases call with
  | compareAndSwap other value expected ttl =>
      have hanswer := (h.compareAndSwap now other hw value expected ttl).2
      have hdue : mirror.Due now key ↔ engine.Due now key := h.mirror_eq ▸ Iff.rfl
      exact and_congr Iff.rfl (or_congr (by rw [hanswer]) hdue)
  | restore records => exact h.restored_disturbs now key records
  | _ => exact h.mirror_eq ▸ Iff.rfl

theorem disturbedBy {hear : Instant → Hearing A}
    (hw : ∀ now, Watches kind heard record (hear now)) (h : Follows kind heard engine mirror)
    (key : String) (steps : List (Instant × EngineCall)) :
    mirror.DisturbedBy (fun _ => recording record) key steps ↔
      engine.DisturbedBy hear key steps := by
  induction steps generalizing engine mirror with
  | nil => exact Iff.rfl
  | cons step rest ih =>
      obtain ⟨now, call⟩ := step
      exact or_congr (h.disturbs (hw now) now key call) (ih (h.apply now (hw now) call).1)

theorem lookup_eq (h : Follows kind heard engine mirror) (now : Instant) (key : String) :
    mirror.lookup now key = engine.lookup now key := by
  rw [h.mirror_eq]
  rfl

/-- What is exact about the swaps of a transcript is exact about those of the engine that it
follows. -/
theorem swapsExactly {hear : Instant → Hearing A}
    (hw : ∀ now, Watches kind heard record (hear now)) (h : Follows kind heard engine mirror)
    {between : List (Instant × EngineCall)} {now : Instant} {key : String} {value : Value}
    {token : Token} {ttl : Span}
    (hexact : SwapsExactly (fun _ => recording record) mirror between now key value token ttl) :
    SwapsExactly hear engine between now key value token ttl := by
  obtain ⟨hreached, -⟩ := h.run hw between
  obtain ⟨hswapped, hanswer⟩ := hreached.compareAndSwap now key (hw now) value token ttl
  obtain ⟨entry, hfind, htoken, hstored, hfailed⟩ := hexact
  rw [hanswer, h.disturbedBy hw] at hstored
  refine ⟨entry, h.shards_eq ▸ hfind, htoken, hstored, fun hfalse => ?_⟩
  obtain ⟨heq, hlive⟩ := hfailed (hanswer ▸ hfalse)
  rw [hanswer, hreached.lookup_eq] at heq
  refine ⟨heq, fun other => ?_⟩
  rw [← hswapped.lookup_eq, hlive, hreached.lookup_eq]

end Follows

/-- As long as fewer tokens are used up than the counter has values, tokens are
positive and increase, no two resident entries share one, and a compare-and-swap
that expects a token given earlier stores if and only if the entry for which it
was given has stayed and is not over. -/
theorem no_lost_update {kind : A → Prop} {heard : A → List ρ} {record : Signal → List ρ}
    {hear : Instant → Hearing A} (hw : ∀ now, Watches kind heard record (hear now))
    (config : EngineConfig) {audience : A} (haudience : kind audience)
    (steps : List (Instant × EngineCall))
    (hfew : ((create config audience).mintedBy hear steps).length < UInt64.size - 1) :
    let engine := create config audience
    (∀ token ∈ engine.mintedBy hear steps, token ≠ 0) ∧
      (engine.mintedBy hear steps).Pairwise (· < ·) ∧
      (∀ before after, steps = before ++ after →
        ((engine.run hear before).1.shards.entries.map fun binding => binding.2.token).Nodup) ∧
      ∀ before given giver between now key value token ttl after,
        steps = before ++ (given, giver) :: between ++
          (now, .compareAndSwap key value token ttl) :: after →
        let found := (engine.run hear before).1.apply (hear given) given giver
        Gives key token giver found.2 →
          SwapsExactly hear found.1 between now key value token ttl := by
  intro engine
  have hcreated : Follows kind heard engine (create config (heard audience)) :=
    ⟨haudience, rfl⟩
  have hsound := sound_create config (heard audience)
  have hempty : ∀ key, (create config (heard audience)).shards.find? key = none :=
    fun key => Shards.find?_create _ _ _ key
  have hroom : ∀ first second, steps = first ++ second →
      CanMint (create config (heard audience))
        ((create config (heard audience)).mintedBy (fun _ => recording record) first).length := by
    intro first second hsteps
    change (engine.mintedBy hear steps).length < UInt64.size - 1 at hfew
    rw [hsteps, mintedBy_append, List.length_append] at hfew
    rw [hcreated.mintedBy hw]
    refine ⟨Nat.zero_lt_one, ?_⟩
    change 1 + (engine.mintedBy hear first).length < UInt64.size
    omega
  have hwhole := evolves_run record hsound steps (hroom steps [] (List.append_nil _).symm)
  rw [hcreated.mintedBy hw] at hwhole
  refine ⟨?_, hwhole.pairwise_tokens, ?_, ?_⟩
  · exact fun token hmem => hwhole.ne_zero_of_mem Nat.zero_lt_one hmem
  · intro before after hsteps
    rw [← (hcreated.run hw before).1.shards_eq]
    exact (evolves_run record hsound before (hroom before after hsteps)).nodup_tokens hempty
      (hsound.run record before)
  · intro before given giver between now key value token ttl after hsteps found hgives
    obtain ⟨hfound, hanswer⟩ := (hcreated.run hw before).1.apply given (hw given) giver
    have hswapping := hroom (before ++ (given, giver) :: between)
      ((now, .compareAndSwap key value token ttl) :: after) (by simp [hsteps])
    exact hfound.swapsExactly hw (swapsExactly_of_gives record hsound hempty hswapping hgives
      hanswer now value ttl)

/-- Reading an entry that has just been restored gives its token. -/
theorem gives_of_restored (record : Signal → List ρ) {engine : Engine (List ρ)} (h : engine.Sound)
    (now later : Instant) (key : String) (value : Value) :
    let restored := (engine.run (fun _ => recording record) [(now, .replay (.set key value 0))]).1
    Gives key engine.freshToken (.getWithToken key)
      (restored.apply (recording record) later (.getWithToken key)).2 := by
  have hstores := h.replay_stores now key value 0 fun hover => absurd hover.1 (by decide)
  have hfind := (hstores.find?_eq key).trans (if_pos rfl)
  have hlive : ¬ (engine.fresh value 0).expired later = true := by simp [Entry.expired, fresh]
  change Gives key engine.freshToken (.getWithToken key)
    ((engine.replay now (.set key value 0)).apply (recording record) later (.getWithToken key)).2
  rw [apply_getWithToken, getWithToken_snd, lookup_of_live hfind hlive]
  exact .read

/-- A restored entry is read, and a compare-and-swap expects its token. -/
theorem no_lost_update_restored :
    let hear : Instant → Hearing (List Remark) := fun _ => recording Audience.remarks
    let engine := create ⟨4, 2, .lru⟩ ([] : List Remark)
    let token := engine.freshToken
    let steps : List (Instant × EngineCall) :=
      [(1, .replay (.set "a" "x".toUTF8 0)), (2, .getWithToken "a"), (1, .delete "b"),
        (3, .compareAndSwap "a" "y".toUTF8 token .zero)]
    let restored := (engine.run hear [(1, .replay (.set "a" "x".toUTF8 0))]).1
    let found := restored.apply (hear 2) 2 (.getWithToken "a")
    (engine.mintedBy hear steps).length < UInt64.size - 1 ∧
      Gives "a" token (.getWithToken "a") found.2 ∧
      SwapsExactly hear found.1 [(1, .delete "b")] 3 "a" "y".toUTF8 token .zero := by
  intro hear engine token steps restored found
  have hfew : (engine.mintedBy hear steps).length < UInt64.size - 1 :=
    Nat.lt_of_le_of_lt (length_mintedBy_le hear engine steps) (by decide : 2 < UInt64.size - 1)
  have hgives : Gives "a" token (.getWithToken "a") found.2 :=
    gives_of_restored Audience.remarks (sound_create ⟨4, 2, .lru⟩ []) 1 2 "a" "x".toUTF8
  have hwatches : ∀ now, Watches (fun _ => True) id Audience.remarks (hear now) :=
    fun _ => watches_recording Audience.remarks
  have hexact := (no_lost_update hwatches ⟨4, 2, .lru⟩ trivial steps hfew).2.2.2
  refine ⟨hfew, hgives, ?_⟩
  apply hexact [(1, .replay (.set "a" "x".toUTF8 0))] 2 (.getWithToken "a") [(1, .delete "b")] 3
    "a" "y".toUTF8 token .zero []
  · rfl
  · exact hgives

end ReplicatedCache.Engine
