import ReplicatedCache.Proofs.Engine.Confinement
import ReplicatedCache.Proofs.Engine.Mirroring

/-! # Segments are isolated

The segments of an engine share its token counter, its queue of pending expiries and the
size at which the queue is compacted. None of these lets a call on a key of one segment
be noticed in another one: if all calls on keys of the other segments are left out, the
answers about the keys of the segment stay the same, and so does what the segment holds
and in which order, but for tokens, which are renamed in order.
-/

namespace ReplicatedCache.Engine

variable {A ρ : Type}

/-! ## Calls elsewhere -/

/-- Replaying a change leaves every segment alone but the home of its key. -/
theorem sameAt_replay (engine : Engine A) (now : Instant) (change : Record) {i : Nat}
    (hi : engine.shards.home change.key ≠ i) :
    Shards.SameAt i engine.shards (engine.replay now change).shards := by
  cases change with
  | delete key => exact Shards.sameAt_remove hi
  | set key value deadline =>
      by_cases hover : 0 < deadline ∧ deadline ≤ now
      · rw [replay_set_of_over now key value deadline engine hover]
        exact Shards.sameAt_remove hi
      · obtain ⟨stats, heq⟩ := replay_set_of_live now key value deadline engine hover
        rw [heq, trackExpiry_eq]
        exact Shards.sameAt_putForce hi _

/-- A call on a key changes no segment but the home of the key. -/
theorem sameAt_apply (record : Signal → List ρ) (engine : Engine (List ρ)) (now : Instant)
    {call : EngineCall} {key : String} (hcall : call.key? = some key) {i : Nat}
    (hi : engine.shards.home key ≠ i) :
    Shards.SameAt i engine.shards (engine.apply (recording record) now call).1.shards := by
  have hlooked : Shards.SameAt i engine.shards
      (engine.getWithToken (recording record) now key).1.shards := by
    obtain ⟨stats, audience, heq⟩ := getWithToken_fst record now key engine
    rw [heq]
    have hgone : (engine.shards.get key).home key ≠ i := by rwa [Shards.home_get]
    dsimp only
    split
    next => exact Shards.sameAt_get hi
    next => exact (Shards.sameAt_get hi).trans (Shards.sameAt_remove hgone)
  cases call with
  | set =>
      obtain rfl := Option.some.inj hcall
      rw [apply_set, shards_set]
      exact Shards.sameAt_put hi _
  | get | getWithToken =>
      obtain rfl := Option.some.inj hcall
      exact hlooked
  | contains => exact Shards.SameAt.refl _
  | delete =>
      obtain rfl := Option.some.inj hcall
      obtain ⟨stats, audience, heq⟩ := delete_fst record now _ engine
      rw [apply_delete, heq]
      exact Shards.sameAt_remove hi
  | compareAndSwap key' value expected ttl =>
      obtain rfl := Option.some.inj hcall
      rw [apply_compareAndSwap]
      cases hlookup : engine.lookup now key' with
      | none =>
          obtain ⟨-, stats, audience, heq⟩ :=
            compareAndSwap_of_none record now key' value expected ttl hlookup
          rw [heq]
          exact Shards.sameAt_remove hi
      | some found =>
          by_cases htoken : found.token = expected
          · obtain ⟨-, stats, audience, heq⟩ :=
              compareAndSwap_of_eq record now key' value expected ttl hlookup htoken
            rw [heq]
            exact Shards.sameAt_insert hi _
          · rw [compareAndSwap_of_ne record now key' value expected ttl hlookup htoken]
            exact Shards.SameAt.refl _
  | replay change =>
      obtain rfl := Option.some.inj hcall
      exact sameAt_replay engine now change hi
  | clear | restore | reap => exact nomatch hcall

/-! ## The engine without the other segments -/

/-- An engine, and one to which the calls on keys of other segments were never made. The
segment has been given the first tokens of the roll so far. -/
structure Confines (config : EngineConfig) (i : Nat) (roll : TokenRoll) (soFar : List Token)
    (whole part : Engine A) : Prop where
  sound : whole.Sound
  part_sound : part.Sound
  mirrors : whole.shards.Mirrors config i (· ∈ roll.tokens) roll.rank part.shards
  nextToken_eq : part.nextToken.toNat = soFar.length + 1

/-- What both are and answer after a call on a key of the segment. -/
structure AgreesAt (config : EngineConfig) (i : Nat) (roll : TokenRoll) (soFar : List Token)
    (whole part : Engine A × EngineAnswer) : Prop where
  confines : Confines config i roll soFar whole.1 part.1
  answer_eq : part.2 = whole.2.renamed roll.rank
  shown : ∀ token ∈ whole.2.tokens, token ∈ roll.tokens

section Nothing

variable {config : EngineConfig} {i : Nat} {roll : TokenRoll} {soFar : List Token}

/-- The segment is given no token. -/
theorem Confines.of_nothing {whole part : Engine A} (h : Confines config i roll soFar whole part) :
    Confines config i roll (soFar ++ []) whole part := by
  rwa [List.append_nil]

theorem AgreesAt.of_nothing {whole part : Engine A × EngineAnswer}
    (h : AgreesAt config i roll soFar whole part) :
    AgreesAt config i roll (soFar ++ []) whole part :=
  ⟨h.confines.of_nothing, h.answer_eq, h.shown⟩

end Nothing

/-- In the beginning the part is the whole, and no token of the roll has been used. -/
theorem confines_create (config : EngineConfig) (audience : A) (i : Nat) (roll : TokenRoll) :
    Confines config i roll [] (create config audience) (create config audience) :=
  ⟨sound_create config audience, sound_create config audience,
    Shards.mirrors_create config i _ _ _ _, rfl⟩

namespace Confines

variable {config : EngineConfig} {i : Nat} {roll : TokenRoll} {soFar : List Token}

section Tokens

variable {whole part whole' part' : Engine A} (h : Confines config i roll soFar whole part)
  (hnext : soFar ++ [whole.freshToken] <+: roll.tokens)
include h

omit h in
theorem mem_of_next (hnext : soFar ++ [whole.freshToken] <+: roll.tokens) :
    whole.freshToken ∈ roll.tokens :=
  hnext.subset (List.mem_append_right _ (List.mem_singleton_self _))

/-- The counter of the part has not come round, so its next token is the fresh one. -/
theorem freshToken_eq : part.freshToken = part.nextToken := by
  have hnext := h.nextToken_eq
  rw [freshToken, if_neg]
  intro hzero
  rw [hzero] at hnext
  exact absurd hnext (Nat.succ_ne_zero _).symm

/-- A step in which the segment is given no token. -/
theorem step (hsound : whole'.Sound) (hpart : part'.Sound)
    (hmirrors : whole'.shards.Mirrors config i (· ∈ roll.tokens) roll.rank part'.shards)
    (htoken : part'.nextToken = part.nextToken) : Confines config i roll soFar whole' part' :=
  ⟨hsound, hpart, hmirrors, htoken ▸ h.nextToken_eq⟩

include hnext

/-- The two engines mint a token and its rank. -/
theorem rank_freshToken : roll.rank whole.freshToken = part.freshToken := by
  apply UInt64.toNat_inj.mp
  rw [TokenRoll.toNat_rank_of_next hnext, h.freshToken_eq, h.nextToken_eq]

/-- A fresh entry of the part is the whole's with its token replaced by the rank. -/
theorem fresh_eq (value : Value) (deadline : Instant) :
    part.fresh value deadline = (whole.fresh value deadline).renamed roll.rank := by
  rw [fresh, ← h.rank_freshToken hnext]
  rfl

/-- A step in which the segment is given the next token. -/
theorem stored (hsound : whole'.Sound) (hpart : part'.Sound)
    (hmirrors : whole'.shards.Mirrors config i (· ∈ roll.tokens) roll.rank part'.shards)
    (htoken : part'.nextToken = part.freshToken + 1) :
    Confines config i roll (soFar ++ [whole.freshToken]) whole' part' := by
  refine ⟨hsound, hpart, hmirrors, ?_⟩
  have hlength := hnext.length_le
  have hfew := roll.few
  rw [List.length_append, List.length_singleton] at hlength ⊢
  rw [htoken, h.freshToken_eq, UInt64.toNat_add, h.nextToken_eq]
  apply Nat.mod_eq_of_lt
  change soFar.length + 1 + 1 < UInt64.size
  omega

end Tokens

section Shown

variable {whole part : Engine A} (h : Confines config i roll soFar whole part) {key : String}
  (hkey : config.home key = i)
include h hkey

theorem find?_eq : part.shards.find? key =
    (whole.shards.find? key).map (Entry.renamed roll.rank) :=
  h.mirrors.find?_eq hkey

/-- Looking a key of the segment up in the part shows what the whole shows, the token ranked. -/
theorem lookup_eq (now : Instant) :
    part.lookup now key = (whole.lookup now key).map (Entry.renamed roll.rank) := by
  rw [lookup, lookup, h.find?_eq hkey, Option.filter_map]
  rfl

theorem mem_of_lookup {now : Instant} {entry : Entry}
    (hlookup : whole.lookup now key = some entry) : entry.token ∈ roll.tokens :=
  h.mirrors.of_kind hkey (lookup_eq_some_iff.mp hlookup).1

end Shown

/-! ## Calls on keys of the segment -/

section Calls

variable {whole part : Engine (List ρ)} (record : Signal → List ρ)
  (h : Confines config i roll soFar whole part) (now : Instant) {key : String}
  (hkey : config.home key = i)
include h hkey

/-- A `set` of a key of the segment goes alike in the whole and in the part. -/
theorem set (hnext : soFar ++ [whole.freshToken] <+: roll.tokens) (value : Value) (ttl : Span) :
    Confines config i roll (soFar ++ [whole.freshToken])
        (whole.set (recording record) now key value ttl).1
        (part.set (recording record) now key value ttl).1 ∧
      (part.set (recording record) now key value ttl).2 =
        (whole.set (recording record) now key value ttl).2 := by
  have hfresh : (whole.fresh value (deadlineAfter now ttl)).token ∈ roll.tokens :=
    mem_of_next hnext
  obtain ⟨hmirrors, houtcome⟩ := h.mirrors.put hkey hfresh
  rw [← h.fresh_eq hnext] at hmirrors houtcome
  rw [← shards_set record, ← shards_set record] at hmirrors
  constructor
  · exact h.stored hnext (h.sound.set record now key value ttl)
      (h.part_sound.set record now key value ttl) hmirrors
      (nextToken_set record now key value ttl part)
  · rw [set_snd, set_snd, putOutcome, putOutcome, houtcome]

/-- Both find the same, and take it out if it is over. -/
theorem getWithToken :
    Confines config i roll soFar (whole.getWithToken (recording record) now key).1
        (part.getWithToken (recording record) now key).1 ∧
      (part.getWithToken (recording record) now key).2 =
        (whole.getWithToken (recording record) now key).2.map
          fun shown => (shown.1, roll.rank shown.2) := by
  have hget := h.mirrors.get hkey
  constructor
  · refine h.step (h.sound.getWithToken record now key) (h.part_sound.getWithToken record now key)
      ?_ (nextToken_getWithToken record now key part)
    obtain ⟨_, _, heq⟩ := getWithToken_fst record now key whole
    obtain ⟨_, _, heq'⟩ := getWithToken_fst record now key part
    rw [heq, heq', h.find?_eq hkey, h.lookup_eq hkey]
    dsimp only
    cases hfind : whole.shards.find? key with
    | none =>
        rw [lookup_of_find hfind, if_pos rfl, if_pos rfl]
        exact hget
    | some entry =>
        by_cases hexpired : entry.expired now = true
        · rw [lookup_of_expired hfind hexpired, if_neg nofun, if_neg nofun]
          exact hget.remove hkey
        · rw [lookup_of_live hfind hexpired, if_pos rfl, if_pos rfl]
          exact hget
  · rw [getWithToken_snd, getWithToken_snd, h.lookup_eq hkey, Option.map_map, Option.map_map]
    rfl

/-- A delete of a key of the segment goes alike in the whole and in the part. -/
theorem delete :
    Confines config i roll soFar (whole.delete (recording record) now key).1
        (part.delete (recording record) now key).1 ∧
      (part.delete (recording record) now key).2 =
        (whole.delete (recording record) now key).2 := by
  constructor
  · refine h.step (h.sound.delete record now key) (h.part_sound.delete record now key) ?_
      (nextToken_delete record now key part)
    obtain ⟨_, _, heq⟩ := delete_fst record now key whole
    obtain ⟨_, _, heq'⟩ := delete_fst record now key part
    rw [heq, heq']
    exact h.mirrors.remove hkey
  · rw [delete_snd, delete_snd, h.lookup_eq hkey, Option.isSome_map]

/-- A compare-and-swap compares tokens, which the ranks tell apart as well. -/
theorem compareAndSwap {expected : Token} (hexpected : expected ∈ roll.tokens) (value : Value)
    (ttl : Span)
    (hnext : soFar ++ (whole.compareAndSwap (recording record) now key value expected ttl).2.minted
      <+: roll.tokens) :
    AgreesAt config i roll
      (soFar ++ (whole.compareAndSwap (recording record) now key value expected ttl).2.minted)
      (whole.apply (recording record) now (.compareAndSwap key value expected ttl))
      (part.apply (recording record) now (.compareAndSwap key value (roll.rank expected) ttl)) := by
  have hsound := h.sound.compareAndSwap record now key value expected ttl
  have hpart := h.part_sound.compareAndSwap record now key value (roll.rank expected) ttl
  have hsame := h.lookup_eq hkey now
  rw [apply_compareAndSwap, apply_compareAndSwap]
  -- the cases are those of the larger engine; what the other one finds is its mirror
  cases hlookup : whole.lookup now key with
  | none =>
      rw [hlookup] at hsame
      obtain ⟨hanswer, _, _, heq⟩ :=
        compareAndSwap_of_none record now key value expected ttl hlookup
      obtain ⟨hanswer', _, _, heq'⟩ :=
        compareAndSwap_of_none record now key value (roll.rank expected) ttl hsame
      rw [hanswer, hanswer']
      refine AgreesAt.of_nothing
        ⟨h.step hsound hpart ?_ (by rw [heq']), rfl, fun _ hmem => nomatch hmem⟩
      rw [heq, heq']
      exact h.mirrors.remove hkey
  | some found =>
      have hfound := h.mem_of_lookup hkey hlookup
      rw [hlookup] at hsame
      by_cases htoken : found.token = expected
      · have htoken' : (found.renamed roll.rank).token = roll.rank expected :=
          congrArg roll.rank htoken
        obtain ⟨hanswer, _, _, heq⟩ :=
          compareAndSwap_of_eq record now key value expected ttl hlookup htoken
        obtain ⟨hanswer', _, _, heq'⟩ :=
          compareAndSwap_of_eq record now key value (roll.rank expected) ttl hsame htoken'
        rw [hanswer] at hnext ⊢
        rw [hanswer']
        have hfresh := mem_of_next hnext
        have hdeadline : swapDeadline now ttl (found.renamed roll.rank) =
            swapDeadline now ttl found := rfl
        refine ⟨h.stored hnext hsound hpart ?_ (by rw [heq']), ?_, fun token hmem => ?_⟩
        · rw [heq, heq', hdeadline, h.fresh_eq hnext]
          exact h.mirrors.insert hkey hfresh
        · rw [← h.rank_freshToken hnext]
          rfl
        · rwa [List.mem_singleton.mp hmem]
      · have htoken' : (found.renamed roll.rank).token ≠ roll.rank expected :=
          mt (TokenRoll.keepsOrder_rank.eq_iff hfound hexpected).mp htoken
        rw [compareAndSwap_of_ne record now key value expected ttl hlookup htoken,
          compareAndSwap_of_ne record now key value (roll.rank expected) ttl hsame htoken']
        exact AgreesAt.of_nothing ⟨h, rfl, fun _ hmem => nomatch hmem⟩

end Calls

/-! ## Records, clearing and sweeping -/

section Records

variable {whole part : Engine A}

/-- What happens in other segments leaves the part confined as it is. -/
theorem elsewhere {whole' : Engine A} (h : Confines config i roll soFar whole part)
    (hsound : whole'.Sound) (hsame : Shards.SameAt i whole.shards whole'.shards) :
    Confines config i roll soFar whole' part :=
  ⟨hsound, h.part_sound, h.mirrors.elsewhere hsame, h.nextToken_eq⟩

/-- Replaying a record of the segment goes alike in the whole and in the part. -/
theorem replay (h : Confines config i roll soFar whole part) (now : Instant) {change : Record}
    (hkey : config.home change.key = i)
    (hnext : soFar ++ whole.recordMinted now (some change) <+: roll.tokens) :
    Confines config i roll (soFar ++ whole.recordMinted now (some change))
      (whole.replay now change) (part.replay now change) := by
  have hsound := h.sound.replay now change
  have hpart := h.part_sound.replay now change
  cases change with
  | delete key => exact (h.step hsound hpart (h.mirrors.remove hkey) rfl).of_nothing
  | set key value deadline =>
      by_cases hover : 0 < deadline ∧ deadline ≤ now
      · rw [replay_set_of_over now key value deadline _ hover] at hsound hpart ⊢
        rw [replay_set_of_over now key value deadline _ hover, recordMinted, if_pos hover]
        exact (h.step hsound hpart (h.mirrors.remove hkey) rfl).of_nothing
      · rw [recordMinted, if_neg hover] at hnext ⊢
        refine h.stored hnext hsound hpart ?_
          (nextToken_replay_set now key value deadline part hover)
        have hfresh : (whole.fresh value deadline).token ∈ roll.tokens := mem_of_next hnext
        have hmirrors := h.mirrors.putForce hkey hfresh
        rw [← h.fresh_eq hnext] at hmirrors
        obtain ⟨_, heq⟩ := replay_set_of_live now key value deadline whole hover
        obtain ⟨_, heq'⟩ := replay_set_of_live now key value deadline part hover
        rw [heq, heq', trackExpiry_eq, trackExpiry_eq]
        exact hmirrors

/-- Of a restored list, the other engine is given the records of the segment. -/
theorem restore (h : Confines config i roll soFar whole part) (now : Instant)
    (records : List (Option Record))
    (hnext : soFar ++ mintedAt.restored config i whole now records <+: roll.tokens) :
    Confines config i roll (soFar ++ mintedAt.restored config i whole now records)
      (whole.restore now records).1
      (part.restore now (records.filter (EngineCall.recordStays config i))).1 := by
  rw [restore_eq, restore_eq]
  dsimp only
  induction records generalizing whole part soFar with
  | nil => exact h.of_nothing
  | cons first rest ih =>
      rw [mintedAt.restored, ← List.append_assoc] at hnext ⊢
      rw [List.filter_cons]
      cases first with
      | none =>
          have hnothing : (if EngineCall.recordStays config i none then
              whole.recordMinted now none else []) = [] := rfl
          rw [hnothing, List.append_nil] at hnext ⊢
          exact ih h hnext
      | some change =>
          have hstays : EngineCall.recordStays config i (some change) = true ↔
              config.home change.key = i := EngineConfig.houses_iff
          by_cases hkey : config.home change.key = i
          · rw [if_pos (hstays.mpr hkey)] at hnext ⊢
            rw [if_pos (hstays.mpr hkey)]
            exact ih (h.replay now hkey ((List.prefix_append _ _).trans hnext)) hnext
          · have hhome : whole.shards.home change.key ≠ i := by rwa [h.mirrors.home_eq]
            rw [if_neg (mt hstays.mp hkey), List.append_nil] at hnext ⊢
            rw [if_neg (mt hstays.mp hkey)]
            have hafter := h.elsewhere (h.sound.replay now change)
              (sameAt_replay whole now change hhome)
            exact ih hafter hnext

theorem clear (h : Confines config i roll soFar whole part) :
    Confines config i roll soFar whole.clear part.clear :=
  h.step h.sound.clear h.part_sound.clear h.mirrors.clear rfl

end Records

section Runs

variable {whole part : Engine (List ρ)} (record : Signal → List ρ)

/-- A sweep of the whole takes from the segment what a sweep of the part takes. -/
theorem reap (h : Confines config i roll soFar whole part) (now : Instant) :
    Confines config i roll soFar (whole.reap (recording record) now).1
      (part.reap (recording record) now).1 := by
  have hsound := h.sound.reap record now
  have hpart := h.part_sound.reap record now
  rw [reap_recording] at hsound hpart ⊢
  rw [reap_recording]
  exact h.step hsound hpart (mirrors_swept h.sound h.part_sound h.mirrors now) rfl

/-- A call on a key of the segment. -/
theorem apply (h : Confines config i roll soFar whole part) (now : Instant) {call : EngineCall}
    {key : String} (hcall : call.key? = some key) (hkey : config.home key = i)
    (hexpected : ∀ token ∈ call.expected?, token ∈ roll.tokens)
    (hnext : soFar ++ whole.minted (recording record) now call <+: roll.tokens) :
    AgreesAt config i roll (soFar ++ whole.minted (recording record) now call)
      (whole.apply (recording record) now call)
      (part.apply (recording record) now (call.renamed roll.rank)) := by
  cases call with
  | set key value ttl =>
      obtain rfl := Option.some.inj hcall
      obtain ⟨hafter, hanswer⟩ := h.set record now hkey hnext value ttl
      refine ⟨hafter, ?_, fun _ hmem => nomatch hmem⟩
      change (part.apply (recording record) now (.set key value ttl)).2 = _
      rw [apply_set, apply_set, hanswer]
      rfl
  | get key =>
      obtain rfl := Option.some.inj hcall
      obtain ⟨hafter, hanswer⟩ := h.getWithToken record now hkey
      refine AgreesAt.of_nothing ⟨hafter, ?_, fun _ hmem => nomatch hmem⟩
      change (part.apply (recording record) now (.get key)).2 = _
      rw [apply_get, apply_get, hanswer, Option.map_map]
      rfl
  | getWithToken key =>
      obtain rfl := Option.some.inj hcall
      obtain ⟨hafter, hanswer⟩ := h.getWithToken record now hkey
      refine AgreesAt.of_nothing ⟨hafter, ?_, fun token hmem => ?_⟩
      · change (part.apply (recording record) now (.getWithToken key)).2 = _
        rw [apply_getWithToken, apply_getWithToken, hanswer]
        rfl
      · rw [apply_getWithToken, getWithToken_snd] at hmem
        cases hlookup : whole.lookup now key with
        | none =>
            rw [hlookup] at hmem
            exact nomatch hmem
        | some entry =>
            rw [hlookup] at hmem
            rw [List.mem_singleton.mp hmem]
            exact h.mem_of_lookup hkey hlookup
  | contains key =>
      obtain rfl := Option.some.inj hcall
      refine AgreesAt.of_nothing ⟨h, congrArg EngineAnswer.holds ?_, fun _ hmem => nomatch hmem⟩
      rw [contains_eq, contains_eq, h.lookup_eq hkey, Option.isSome_map]
  | delete key =>
      obtain rfl := Option.some.inj hcall
      obtain ⟨hafter, hanswer⟩ := h.delete record now hkey
      refine AgreesAt.of_nothing ⟨hafter, ?_, fun _ hmem => nomatch hmem⟩
      change (part.apply (recording record) now (.delete key)).2 = _
      rw [apply_delete, apply_delete, hanswer]
      rfl
  | compareAndSwap key value expected ttl =>
      obtain rfl := Option.some.inj hcall
      exact h.compareAndSwap record now hkey (hexpected expected rfl) value ttl hnext
  | replay change =>
      obtain rfl := Option.some.inj hcall
      exact ⟨h.replay now hkey hnext, rfl, fun _ hmem => nomatch hmem⟩
  | clear | restore | reap => exact nomatch hcall

/-- A call that is about no key at all is made to both engines. -/
theorem aside (h : Confines config i roll soFar whole part) (now : Instant) {call : EngineCall}
    (hcall : call.key? = none)
    (hnext : soFar ++ whole.mintedAt config i (recording record) now call <+: roll.tokens) :
    ∃ other, call.within config i = some other ∧ other.renamed roll.rank = other ∧
      other.isAt config i = false ∧
      Confines config i roll (soFar ++ whole.mintedAt config i (recording record) now call)
        (whole.apply (recording record) now call).1
        (part.apply (recording record) now other).1 := by
  cases call with
  | clear => exact ⟨.clear, rfl, rfl, rfl, h.clear.of_nothing⟩
  | reap => exact ⟨.reap, rfl, rfl, rfl, (h.reap record now).of_nothing⟩
  | restore records =>
      exact ⟨.restore (records.filter (EngineCall.recordStays config i)), rfl, rfl, rfl,
        h.restore now records hnext⟩
  | set | get | getWithToken | contains | delete | compareAndSwap | replay => exact nomatch hcall

/-- A run, and the same run without the calls on keys of other segments. -/
theorem run (h : Confines config i roll soFar whole part) {steps : List (Instant × EngineCall)}
    (hexpected : ∀ step ∈ steps, step.2.isAt config i = true →
      ∀ token ∈ step.2.expected?, token ∈ roll.tokens)
    (hnext : soFar ++ whole.mintedByAt config i (fun _ => recording record) steps <+: roll.tokens) :
    let apart := confined config i roll.rank steps
    let whole' := whole.run (fun _ => recording record) steps
    let part' := part.run (fun _ => recording record) apart
    Confines config i roll
        (soFar ++ whole.mintedByAt config i (fun _ => recording record) steps) whole'.1 part'.1 ∧
      answersAt config i apart part'.2 =
        (answersAt config i steps whole'.2).map (EngineAnswer.renamed roll.rank) ∧
      ∀ answer ∈ answersAt config i steps whole'.2, ∀ token ∈ answer.tokens,
        token ∈ roll.tokens := by
  induction steps generalizing whole part soFar with
  | nil => exact ⟨h.of_nothing, rfl, fun _ hmem => nomatch hmem⟩
  | cons step rest ih =>
      obtain ⟨now, call⟩ := step
      obtain ⟨hfirst, hrest⟩ := List.forall_mem_cons.mp hexpected
      rw [mintedByAt, ← List.append_assoc] at hnext ⊢
      have hbefore := (List.prefix_append _ _).trans hnext
      cases hcall : call.key? with
      | none =>
          obtain ⟨other, hwithin, hrenamed, hother, hafter⟩ :=
            h.aside record now hcall hbefore
          have hcall' : ¬ call.isAt config i = true := by
            rw [EngineCall.isAt, hcall]
            exact Bool.false_ne_true
          rw [confined_cons_of_some config i roll.rank now call rest hwithin, hrenamed]
          dsimp only
          rw [run_cons, run_cons, answersAt_cons_of_not_at _ _ _ _ _ _ _ hcall',
            answersAt_cons_of_not_at _ _ _ _ _ _ _ (ne_true_of_eq_false hother)]
          exact ih hafter hrest hnext
      | some key =>
          by_cases hat : call.isAt config i = true
          · have hkey := (EngineCall.isAt_iff hcall).mp hat
            have hwithin := (EngineCall.within_of_key hcall).trans (if_pos hat)
            have hat' : (call.renamed roll.rank).isAt config i = true := by
              rwa [EngineCall.isAt, EngineCall.key?_renamed]
            rw [mintedAt_of_key config i _ _ _ hcall, if_pos hat] at hbefore hnext ⊢
            have hagrees := h.apply record now hcall hkey (hfirst hat) hbefore
            obtain ⟨hlast, hanswers, hshown⟩ := ih hagrees.confines hrest hnext
            rw [confined_cons_of_some config i roll.rank now call rest hwithin]
            dsimp only
            rw [run_cons, run_cons, answersAt_cons_of_at _ _ _ _ _ _ _ hat,
              answersAt_cons_of_at _ _ _ _ _ _ _ hat']
            exact ⟨hlast, congrArg₂ List.cons hagrees.answer_eq hanswers,
              List.forall_mem_cons.mpr ⟨hagrees.shown, hshown⟩⟩
          · have hwithin := (EngineCall.within_of_key hcall).trans (if_neg hat)
            have hhome : whole.shards.home key ≠ i := by
              rw [h.mirrors.home_eq]
              exact mt (EngineCall.isAt_iff hcall).mpr hat
            rw [mintedAt_of_key config i _ _ _ hcall, if_neg hat, List.append_nil] at hnext ⊢
            rw [confined_cons_of_none config i roll.rank now call rest hwithin]
            dsimp only
            rw [run_cons, answersAt_cons_of_not_at _ _ _ _ _ _ _ hat]
            have hafter := h.elsewhere (h.sound.apply record now call)
              (sameAt_apply record whole now hcall hhome)
            exact ih hafter hrest hnext

end Runs

end Confines

/-! ## From the beginning -/

/-- The dump of one segment lists what is live among its entries. -/
theorem dumpAt_eq {engine : Engine A} {config : EngineConfig} {i : Nat}
    (hs : engine.shards.Sound) (hhome : ∀ key, engine.shards.home key = config.home key)
    (now : Instant) : engine.dumpAt config i now =
      (engine.shards.entriesAt i).filter fun binding => binding.2.live now := by
  have hhouses : (fun binding : String × Entry => config.houses i binding.1) =
      fun binding => decide (engine.shards.home binding.1 = i) := by
    funext binding
    rw [hhome]
    rfl
  rw [dumpAt, dump, List.filter_comm, hhouses, hs.filter_entries]

/-- Both engines show the same of the segment, in the same order. -/
theorem Confines.dumpAt_eq {config : EngineConfig} {i : Nat} {roll : TokenRoll}
    {soFar : List Token} {whole part : Engine A} (h : Confines config i roll soFar whole part)
    (now : Instant) :
    part.dumpAt config i now = (whole.dumpAt config i now).map (renamedBinding roll.rank) := by
  rw [Engine.dumpAt_eq h.sound.shards h.mirrors.home_eq,
    Engine.dumpAt_eq h.part_sound.shards h.mirrors.mirror_home_eq, h.mirrors.entriesAt_eq,
    List.filter_map]
  rfl

/-- Every token that a segment shows is on the roll. -/
theorem Confines.mem_of_dumpAt {config : EngineConfig} {i : Nat} {roll : TokenRoll}
    {soFar : List Token} {whole part : Engine A} (h : Confines config i roll soFar whole part)
    {now : Instant} {binding : String × Entry} (hmem : binding ∈ whole.dumpAt config i now) :
    binding.2.token ∈ roll.tokens := by
  obtain ⟨hdump, hhouses⟩ := List.mem_filter.mp hmem
  have hfind := h.sound.shards.mem_entries_iff.mp (List.mem_of_mem_filter hdump)
  exact h.mirrors.of_kind (EngineConfig.houses_iff.mp hhouses) hfind

section Beginning

variable (record : Signal → List ρ) {config : EngineConfig} {transcript : List ρ} {i : Nat}
  {roll : TokenRoll} {steps : List (Instant × EngineCall)}
  (hroll : (create config transcript).mintedByAt config i (fun _ => recording record) steps =
    roll.tokens)
include hroll

/-- Any first part of a run, and the same part without the other segments. -/
theorem confines_prefix {before : List (Instant × EngineCall)} (hbefore : before <+: steps)
    (hexpected : ∀ step ∈ before, step.2.isAt config i = true →
      ∀ token ∈ step.2.expected?, token ∈ roll.tokens) :
    let whole := (create config transcript).run (fun _ => recording record) before
    let part := (create config transcript).run (fun _ => recording record)
      (confined config i roll.rank before)
    ∃ soFar, Confines config i roll soFar whole.1 part.1 := by
  obtain ⟨after, rfl⟩ := hbefore
  have hnext : [] ++ (create config transcript).mintedByAt config i (fun _ => recording record)
      before <+: roll.tokens := by
    rw [← hroll, mintedByAt_append]
    exact List.prefix_append _ _
  exact ⟨_, ((confines_create config transcript i roll).run record hexpected hnext).1⟩

/-- A token that has been given for a key of the segment was minted for the segment. -/
theorem expected_mem (hgiven : (create config transcript).SwapsGiven (fun _ => recording record)
    steps) {before : List (Instant × EngineCall)} (hbefore : before <+: steps) :
    ∀ step ∈ before, step.2.isAt config i = true →
      ∀ token ∈ step.2.expected?, token ∈ roll.tokens := by
  induction before using List.reverseRecOn with
  | nil => exact fun _ hmem => nomatch hmem
  | append_singleton first last ih =>
      have hfirst := ih ((List.prefix_append _ _).trans hbefore)
      intro step hmem hat token htoken
      rcases List.mem_append.mp hmem with hold | hlast
      · exact hfirst step hold hat token htoken
      · obtain ⟨now, call⟩ := step
        rw [← List.mem_singleton.mp hlast] at hbefore
        cases call with
        | compareAndSwap key value expected ttl =>
            obtain rfl := Option.some.inj htoken
            obtain ⟨after, hafter⟩ := hbefore
            rw [List.append_assoc, List.singleton_append] at hafter
            obtain ⟨earlier, given, giver, between, rfl, hgives⟩ :=
              hgiven first now key value expected ttl after hafter.symm
            -- the run up to the giving call is shorter, so it is known already
            have hpart : earlier ++ [(given, giver)] <+: earlier ++ (given, giver) :: between :=
              ⟨between, (List.append_cons earlier _ between).symm⟩
            obtain ⟨soFar, hconfines⟩ := confines_prefix record hroll
              (hpart.trans ⟨_, hafter⟩) fun step hmem => hfirst step (hpart.subset hmem)
            have hsound := (sound_create config transcript).run record earlier
            obtain ⟨entry, hfind, rfl⟩ := find?_of_gives record hsound given hgives rfl
            have hkey := (EngineCall.isAt_iff rfl).mp hat
            rw [run_append] at hconfines
            exact hconfines.mirrors.of_kind hkey hfind
        | _ => exact nomatch htoken

end Beginning

namespace Follows

variable {kind : A → Prop} {heard : A → List ρ} {record : Signal → List ρ} {engine : Engine A}
  {mirror : Engine (List ρ)} {hear : Instant → Hearing A}

theorem swapsGiven (hw : ∀ now, Watches kind heard record (hear now))
    (h : Follows kind heard engine mirror) {steps : List (Instant × EngineCall)}
    (hgiven : engine.SwapsGiven hear steps) :
    mirror.SwapsGiven (fun _ => recording record) steps := by
  intro before now key value token ttl after hsteps
  obtain ⟨earlier, given, giver, between, hbefore, hgives⟩ :=
    hgiven before now key value token ttl after hsteps
  refine ⟨earlier, given, giver, between, hbefore, ?_⟩
  rwa [((h.run hw earlier).1.apply given (hw given) giver).2]

/-- A mirrored run shows the same dump of a segment, since audiences do not enter it. -/
theorem dumpAt_run (hw : ∀ now, Watches kind heard record (hear now))
    (h : Follows kind heard engine mirror) (config : EngineConfig) (i : Nat)
    (steps : List (Instant × EngineCall)) (now : Instant) :
    (mirror.run (fun _ => recording record) steps).1.dumpAt config i now =
      (engine.run hear steps).1.dumpAt config i now := by
  rw [dumpAt, dumpAt, dump, dump, (h.run hw steps).1.shards_eq]

end Follows

/-- The roll of the tokens that a run mints for a segment, if the counter does not wrap. -/
theorem exists_roll (record : Signal → List ρ) (config : EngineConfig) (transcript : List ρ)
    (i : Nat) (steps : List (Instant × EngineCall))
    (hfew : ((create config transcript).mintedBy (fun _ => recording record) steps).length <
      UInt64.size - 1) :
    ∃ roll : TokenRoll, (create config transcript).mintedByAt config i
      (fun _ => recording record) steps = roll.tokens := by
  have hroom : CanMint (create config transcript)
      ((create config transcript).mintedBy (fun _ => recording record) steps).length := by
    refine ⟨Nat.zero_lt_one, ?_⟩
    change 1 + _ < UInt64.size
    omega
  have hevolves := evolves_run record (sound_create config transcript) steps hroom
  have hsublist := mintedByAt_sublist config i (fun _ => recording record)
    (create config transcript) steps
  exact ⟨⟨_, hevolves.pairwise_tokens.sublist hsublist,
    Nat.lt_of_le_of_lt hsublist.length_le hfew⟩, rfl⟩

/-- Segments are isolated. If every compare-and-swap expects a token that was given for its
key, and the counter does not wrap, the calls on keys of other segments can be left out of
a run: with the tokens renamed in order, every call on a key of the segment has the same
answer, and at every moment the segment shows the same entries in the same order. -/
theorem segment_isolated {kind : A → Prop} {heard : A → List ρ} {record : Signal → List ρ}
    {hear : Instant → Hearing A} (hw : ∀ now, Watches kind heard record (hear now))
    (config : EngineConfig) {audience : A} (haudience : kind audience) (i : Nat)
    {steps : List (Instant × EngineCall)}
    (hfew : ((create config audience).mintedBy hear steps).length < UInt64.size - 1)
    (hgiven : (create config audience).SwapsGiven hear steps) :
    let engine := create config audience
    ∃ rename : Token → Token, KeepsOrder (engine.ShowsAt config i hear steps) rename ∧
      (let apart := confined config i rename steps
      answersAt config i apart (engine.run hear apart).2 =
        (answersAt config i steps (engine.run hear steps).2).map (EngineAnswer.renamed rename)) ∧
      ∀ before now, before <+: steps →
        (engine.run hear (confined config i rename before)).1.dumpAt config i now =
          ((engine.run hear before).1.dumpAt config i now).map (renamedBinding rename) := by
  intro engine
  have hcreated : Follows kind heard engine (create config (heard audience)) := ⟨haudience, rfl⟩
  rw [← hcreated.mintedBy hw] at hfew
  obtain ⟨roll, hroll⟩ := exists_roll record config (heard audience) i steps hfew
  have hexpected {before : List (Instant × EngineCall)} (hbefore : before <+: steps) :=
    expected_mem record hroll (hcreated.swapsGiven hw hgiven) hbefore
  obtain ⟨-, hanswers, hshown⟩ := (confines_create config (heard audience) i roll).run record
    (hexpected List.prefix_rfl) (hroll ▸ List.prefix_rfl)
  rw [(hcreated.run hw _).2, (hcreated.run hw _).2] at hanswers
  rw [(hcreated.run hw _).2] at hshown
  refine ⟨roll.rank, ?_, hanswers, fun before now hbefore => ?_⟩
  · have hroll : ∀ token, engine.ShowsAt config i hear steps token → token ∈ roll.tokens := by
      rintro token (⟨answer, hmem, htoken⟩ | ⟨before, now, hbefore, binding, hmem, rfl⟩)
      · exact hshown answer hmem token htoken
      · obtain ⟨soFar, hconfines⟩ := confines_prefix record hroll hbefore (hexpected hbefore)
        rw [← hcreated.dumpAt_run hw] at hmem
        exact hconfines.mem_of_dumpAt hmem
    exact fun a b ha hb => TokenRoll.keepsOrder_rank a b (hroll a ha) (hroll b hb)
  · obtain ⟨soFar, hconfines⟩ := confines_prefix record hroll hbefore (hexpected hbefore)
    have hdump := hconfines.dumpAt_eq now
    rwa [hcreated.dumpAt_run hw, hcreated.dumpAt_run hw] at hdump

/-- An entry is read and replaced while another key is written and a sweep takes place. -/
theorem segment_isolated_restored :
    let hear : Instant → Hearing (List Remark) := fun _ => recording Audience.remarks
    let config : EngineConfig := ⟨4, 2, .lfu⟩
    let engine := create config ([] : List Remark)
    let i := config.home "a"
    let steps : List (Instant × EngineCall) :=
      [(1, .replay (.set "a" "x".toUTF8 0)), (2, .getWithToken "a"),
        (1, .set "b" "z".toUTF8 (.ofMillis 1)),
        (3, .compareAndSwap "a" "y".toUTF8 engine.freshToken .zero), (2, .reap)]
    (engine.mintedBy hear steps).length < UInt64.size - 1 ∧ engine.SwapsGiven hear steps ∧
      ∃ rename : Token → Token, KeepsOrder (engine.ShowsAt config i hear steps) rename ∧
        (let apart := confined config i rename steps
        answersAt config i apart (engine.run hear apart).2 =
          (answersAt config i steps (engine.run hear steps).2).map (EngineAnswer.renamed rename)) ∧
        ∀ before now, before <+: steps →
          (engine.run hear (confined config i rename before)).1.dumpAt config i now =
            ((engine.run hear before).1.dumpAt config i now).map (renamedBinding rename) := by
  intro hear config engine i steps
  have hfew : (engine.mintedBy hear steps).length < UInt64.size - 1 :=
    Nat.lt_of_le_of_lt (length_mintedBy_le hear engine steps) (by decide : 3 < UInt64.size - 1)
  have hgiven : engine.SwapsGiven hear steps := by
    intro before now key value token ttl after hsteps
    rcases before with _ | ⟨first, _ | ⟨second, _ | ⟨third, _ | ⟨fourth, _ | ⟨fifth, rest⟩⟩⟩⟩⟩
    all_goals simp [steps] at hsteps
    obtain ⟨rfl, rfl, rfl, ⟨rfl, rfl, rfl, rfl, rfl⟩, rfl⟩ := hsteps
    refine ⟨[(1, .replay (.set "a" "x".toUTF8 0))], 2, .getWithToken "a", _, rfl, ?_⟩
    exact gives_of_restored Audience.remarks (sound_create config []) 1 2 "a" "x".toUTF8
  have hwatches : ∀ now, Watches (fun _ => True) id Audience.remarks (hear now) :=
    fun _ => watches_recording Audience.remarks
  exact ⟨hfew, hgiven, segment_isolated hwatches config trivial i hfew hgiven⟩

end ReplicatedCache.Engine
