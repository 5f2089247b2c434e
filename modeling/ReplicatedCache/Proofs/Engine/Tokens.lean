import ReplicatedCache.Proofs.Engine.QuietListeners
import ReplicatedCache.Proofs.Engine.Steps

/-! # Tokens

Every storing write takes the next token of the counter, and so does a write
that is turned down. As long as the counter does not wrap, a token that has left
a key never comes back, so that a compare-and-swap which finds its token finds
the entry that bore it when the token was given.
-/

namespace ReplicatedCache

/-- The token under which a compare-and-swap has stored, if it has. -/
def SwapAnswer.minted : SwapAnswer → List Token
  | .stored token => [token]
  | _ => []

theorem SwapAnswer.length_minted_le (answer : SwapAnswer) : answer.minted.length ≤ 1 := by
  cases answer with
  | stored token => exact Nat.le_refl 1
  | conflict => exact Nat.zero_le 1
  | notFound => exact Nat.zero_le 1

def EngineCall.writes : EngineCall → Nat
  | .set .. => 1
  | .compareAndSwap .. => 1
  | .replay _ => 1
  | .restore records => records.length
  | _ => 0

namespace Engine

variable {A ρ : Type}

/-! ## What calls mint -/

section Minted

variable (hear : Hearing A) (engine : Engine A) (now : Instant)

def recordMinted : Option Record → List Token
  | some (.set _ _ deadline) =>
    if 0 < deadline ∧ deadline ≤ now then [] else [engine.freshToken]
  | _ => []

/-- The tokens that a call uses up. A compare-and-swap uses one up only if it
stores; any other write does so in any case. -/
def minted : EngineCall → List Token
  | .set .. => [engine.freshToken]
  | .compareAndSwap key value expected ttl =>
    (engine.compareAndSwap hear now key value expected ttl).2.minted
  | .replay record => engine.recordMinted now (some record)
  | .restore records => restored engine records
  | _ => []
where
  restored (engine : Engine A) : List (Option Record) → List Token
    | [] => []
    | record :: rest =>
      engine.recordMinted now record ++ restored (engine.replayIfAny now record) rest

/-- The tokens that a run uses up, in order. -/
def mintedBy (hear : Instant → Hearing A) (engine : Engine A) :
    List (Instant × EngineCall) → List Token
  | [] => []
  | (now, call) :: rest =>
    engine.minted (hear now) now call ++ (engine.apply (hear now) now call).1.mintedBy hear rest

theorem mintedBy_cons (hear : Instant → Hearing A) (engine : Engine A) (now : Instant)
    (call : EngineCall) (rest : List (Instant × EngineCall)) :
    engine.mintedBy hear ((now, call) :: rest) =
      engine.minted (hear now) now call ++
        (engine.apply (hear now) now call).1.mintedBy hear rest := rfl

theorem mintedBy_append (hear : Instant → Hearing A) (engine : Engine A)
    (first second : List (Instant × EngineCall)) :
    engine.mintedBy hear (first ++ second) =
      engine.mintedBy hear first ++ (engine.run hear first).1.mintedBy hear second := by
  induction first generalizing engine with
  | nil => rfl
  | cons step rest ih =>
      obtain ⟨now, call⟩ := step
      rw [List.cons_append, mintedBy_cons, mintedBy_cons, ih, List.append_assoc]
      rfl

theorem length_recordMinted_le (engine : Engine A) (now : Instant) (record : Option Record) :
    (engine.recordMinted now record).length ≤ 1 := by
  unfold recordMinted
  split
  next => split <;> simp
  next => exact Nat.zero_le 1

/-- A call uses up at most one token for each write. -/
theorem length_minted_le (hear : Hearing A) (engine : Engine A) (now : Instant)
    (call : EngineCall) : (engine.minted hear now call).length ≤ call.writes := by
  cases call with
  | set => exact Nat.le_refl 1
  | compareAndSwap => exact SwapAnswer.length_minted_le _
  | replay record => exact length_recordMinted_le engine now _
  | restore records =>
      change (minted.restored now engine records).length ≤ records.length
      induction records generalizing engine with
      | nil => exact Nat.le_refl 0
      | cons first rest ih =>
          have hfirst := length_recordMinted_le engine now first
          have hrest := ih (engine.replayIfAny now first)
          unfold minted.restored
          rw [List.length_append, List.length_cons]
          omega
  | _ => exact Nat.zero_le _

/-- A run mints at most as many tokens as it makes writes. -/
theorem length_mintedBy_le (hear : Instant → Hearing A) (engine : Engine A)
    (steps : List (Instant × EngineCall)) :
    (engine.mintedBy hear steps).length ≤
      steps.foldr (fun step total => step.2.writes + total) 0 := by
  induction steps generalizing engine with
  | nil => exact Nat.le_refl 0
  | cons step rest ih =>
      obtain ⟨now, call⟩ := step
      have hfirst := length_minted_le (hear now) engine now call
      have hrest := ih (engine.apply (hear now) now call).1
      rw [mintedBy_cons, List.length_append, List.foldr_cons]
      exact Nat.add_le_add hfirst hrest

end Minted

/-! ## What calls disturb -/

section Disturbs

variable (hear : Hearing A) (engine : Engine A) (now : Instant) (key : String)

/-- The key holds an entry that is over. -/
def Due : Prop := ∃ entry, engine.shards.find? key = some entry ∧ entry.expired now = true

/-- A record replaces or removes what the key holds: it is about the key, or the
key leaves for it. -/
def RecordDisturbs : Option Record → Prop
  | some (.set other value deadline) =>
    other = key ∨ ¬ (0 < deadline ∧ deadline ≤ now) ∧
      key ∈ (engine.replayOutcome other value deadline).evicted
  | some (.delete other) => other = key
  | none => False

/-- A call replaces or removes what the key holds. -/
def Disturbs : EngineCall → Prop
  | .set other value ttl =>
    (engine.putOutcome now other value ttl).stored = true ∧
      (other = key ∨ key ∈ (engine.putOutcome now other value ttl).evicted)
  | .get other => other = key ∧ engine.Due now key
  | .getWithToken other => other = key ∧ engine.Due now key
  | .contains _ => False
  | .delete other => other = key
  | .compareAndSwap other value expected ttl =>
    other = key ∧ ((engine.compareAndSwap hear now other value expected ttl).2.isStored = true ∨
      engine.Due now key)
  | .clear => True
  | .replay record => engine.RecordDisturbs now key (some record)
  | .restore records => restored engine records
  | .reap => engine.Due now key
where
  restored (engine : Engine A) : List (Option Record) → Prop
    | [] => False
    | record :: rest =>
      engine.RecordDisturbs now key record ∨ restored (engine.replayIfAny now record) rest

/-- Some call of a run replaces or removes what the key holds. -/
def DisturbedBy (hear : Instant → Hearing A) (engine : Engine A) (key : String) :
    List (Instant × EngineCall) → Prop
  | [] => False
  | (now, call) :: rest =>
    engine.Disturbs (hear now) now key call ∨
      (engine.apply (hear now) now call).1.DisturbedBy hear key rest

end Disturbs

/-! ## Evolutions -/

/-- One engine becomes another while tokens are minted. Keys that are not
disturbed hold what they held before; the others hold nothing, or entries with
new tokens, no two of which are the same. -/
structure Evolves (engine after : Engine A) (tokens : List Token) (disturbed : String → Prop) :
    Prop where
  tokens_eq : tokens.map UInt64.toNat = List.range' engine.nextToken.toNat tokens.length
  nextToken_eq : after.nextToken.toNat = engine.nextToken.toNat + tokens.length
  kept : ∀ key, ¬ disturbed key → after.shards.find? key = engine.shards.find? key
  fresh : ∀ key entry, disturbed key → after.shards.find? key = some entry →
    entry.token ∈ tokens
  distinct : ∀ key other a b, disturbed key → disturbed other →
    after.shards.find? key = some a → after.shards.find? other = some b →
    a.token = b.token → key = other

/-- The counter can mint a number of tokens without wrapping. -/
structure CanMint (engine : Engine A) (count : Nat) : Prop where
  pos : 0 < engine.nextToken.toNat
  bound : engine.nextToken.toNat + count < UInt64.size

namespace Evolves

variable {engine next after : Engine A} {first second : List Token}
  {disturbed later : String → Prop}

/-- The minted tokens are those between the next one at the start and the next one at the
end. -/
theorem mem_tokens_iff {tokens : List Token} (h : Evolves engine after tokens disturbed)
    {token : Token} :
    token ∈ tokens ↔ engine.nextToken.toNat ≤ token.toNat ∧
      token.toNat < after.nextToken.toNat := by
  have hmem : token ∈ tokens ↔ token.toNat ∈ tokens.map UInt64.toNat := by
    rw [List.mem_map]
    exact ⟨fun hmem => ⟨token, hmem, rfl⟩, fun ⟨_, hmem, heq⟩ => UInt64.toNat_inj.mp heq ▸ hmem⟩
  rw [hmem, h.tokens_eq, List.mem_range'_1, h.nextToken_eq]

/-- An evolution that mints nothing. -/
theorem of_removal (hnext : after.nextToken = engine.nextToken)
    (hkept : ∀ key, ¬ disturbed key → after.shards.find? key = engine.shards.find? key)
    (hgone : ∀ key, disturbed key → after.shards.find? key = none) :
    Evolves engine after [] disturbed := by
  refine ⟨rfl, congrArg UInt64.toNat hnext, hkept, ?_, ?_⟩
  · exact fun key entry hdisturbed hfind => nomatch (hgone key hdisturbed).symm.trans hfind
  · exact fun key _ a _ hdisturbed _ hfind => nomatch (hgone key hdisturbed).symm.trans hfind

/-- An evolution that mints one token for one key. -/
theorem of_write (hroom : CanMint engine 1) (key : String)
    (hnext : after.nextToken = engine.freshToken + 1)
    (hkept : ∀ other, ¬ disturbed other → after.shards.find? other = engine.shards.find? other)
    (hwritten : ∀ other entry, disturbed other → after.shards.find? other = some entry →
      other = key ∧ entry.token = engine.freshToken) :
    Evolves engine after [engine.freshToken] disturbed := by
  have hpos := hroom.pos
  have hbound := hroom.bound
  have hfresh : engine.freshToken = engine.nextToken := by
    rw [freshToken, if_neg]
    intro hzero
    rw [hzero] at hpos
    exact absurd hpos (by decide)
  refine ⟨?_, ?_, hkept, ?_, ?_⟩
  · rw [hfresh]
    rfl
  · rw [hnext, hfresh, UInt64.toNat_add]
    exact Nat.mod_eq_of_lt hbound
  · intro other entry hdisturbed hfind
    rw [(hwritten other entry hdisturbed hfind).2]
    exact List.mem_singleton_self _
  · intro one two a b hone htwo ha hb _
    exact (hwritten one a hone ha).1.trans (hwritten two b htwo hb).1.symm

/-- A write that is stored disturbs its key and the keys that leave for it. -/
theorem of_stores (hroom : CanMint engine 1) {key : String} {entry : Entry}
    {evicted : List String} (hnext : after.nextToken = engine.freshToken + 1)
    (hstores : engine.shards.Stores key entry after.shards evicted)
    (htoken : entry.token = engine.freshToken) :
    Evolves engine after [engine.freshToken] fun other => key = other ∨ other ∈ evicted := by
  refine of_write hroom key hnext ?_ ?_
  · intro other hnot
    obtain ⟨hne, hstays⟩ := not_or.mp hnot
    rw [hstores.find?_eq, if_neg (Ne.symm hne), if_neg hstays]
  · intro other found hdisturbed hfind
    rw [hstores.find?_eq] at hfind
    split at hfind
    next heq => exact ⟨heq, Option.some.inj hfind ▸ htoken⟩
    next hne =>
      rw [if_pos (hdisturbed.resolve_left (Ne.symm hne))] at hfind
      exact absurd hfind nofun

theorem refl (engine : Engine A) : Evolves engine engine [] fun _ => False :=
  of_removal rfl (fun _ _ => rfl) nofun

/-- One evolution after another. -/
theorem trans (h : Evolves engine next first disturbed) (h' : Evolves next after second later) :
    Evolves engine after (first ++ second) fun key => disturbed key ∨ later key := by
  have hdisjoint : ∀ token, token ∈ first → token ∉ second := by
    intro token hfirst hsecond
    have hlt := (h.mem_tokens_iff.mp hfirst).2
    have hle := (h'.mem_tokens_iff.mp hsecond).1
    omega
  -- what a later step leaves alone was there after the earlier one
  have hback : ∀ key entry, ¬ later key → after.shards.find? key = some entry →
      next.shards.find? key = some entry :=
    fun key entry hlater hfind => (h'.kept key hlater).symm.trans hfind
  have horigin : ∀ key entry, disturbed key ∨ later key →
      after.shards.find? key = some entry →
      (¬ later key ∧ disturbed key ∧ entry.token ∈ first) ∨
        (later key ∧ entry.token ∈ second) := by
    intro key entry hor hfind
    by_cases hlater : later key
    · exact Or.inr ⟨hlater, h'.fresh key entry hlater hfind⟩
    · have hdisturbed := hor.resolve_right hlater
      exact Or.inl ⟨hlater, hdisturbed, h.fresh key entry hdisturbed (hback key entry hlater hfind)⟩
  refine ⟨?_, ?_, ?_, ?_, ?_⟩
  · rw [List.map_append, h.tokens_eq, h'.tokens_eq, h.nextToken_eq, List.length_append,
      List.range'_append_1]
  · rw [h'.nextToken_eq, h.nextToken_eq, List.length_append]
    omega
  · intro key hnot
    rw [not_or] at hnot
    exact (h'.kept key hnot.2).trans (h.kept key hnot.1)
  · intro key entry hor hfind
    rcases horigin key entry hor hfind with ⟨-, -, hmem⟩ | ⟨-, hmem⟩
    · exact List.mem_append_left _ hmem
    · exact List.mem_append_right _ hmem
  · intro key other a b hkey hother ha hb htoken
    rcases horigin key a hkey ha with ⟨hnot, hdisturbed, hmem⟩ | ⟨hlater, hmem⟩
    · rcases horigin other b hother hb with ⟨hnot', hdisturbed', -⟩ | ⟨-, hmem'⟩
      · exact h.distinct key other a b hdisturbed hdisturbed' (hback key a hnot ha)
          (hback other b hnot' hb) htoken
      · exact absurd (htoken ▸ hmem') (hdisjoint _ hmem)
    · rcases horigin other b hother hb with ⟨-, -, hmem'⟩ | ⟨hlater', -⟩
      · exact absurd hmem (hdisjoint _ (htoken ▸ hmem'))
      · exact h'.distinct key other a b hlater hlater' ha hb htoken

theorem congr_disturbed {tokens : List Token} (h : Evolves engine after tokens disturbed)
    (heq : ∀ key, later key ↔ disturbed key) : Evolves engine after tokens later := by
  obtain rfl : later = disturbed := funext fun key => propext (heq key)
  exact h

/-- An engine that had room for these tokens and some more has room for the others
afterwards. -/
theorem canMint {tokens : List Token} {count : Nat} (h : Evolves engine after tokens disturbed)
    (hroom : CanMint engine (tokens.length + count)) : CanMint after count := by
  have hpos := hroom.pos
  have hbound := hroom.bound
  constructor
  · rw [h.nextToken_eq]
    omega
  · rw [h.nextToken_eq]
    omega

end Evolves

theorem CanMint.mono {engine : Engine A} {count fewer : Nat} (h : CanMint engine count)
    (hle : fewer ≤ count) : CanMint engine fewer :=
  ⟨h.pos, Nat.lt_of_le_of_lt (Nat.add_le_add_left hle _) h.bound⟩

/-! ## Every call is an evolution -/

section Replay

variable {engine : Engine A} (now : Instant)

theorem evolves_replay (h : engine.Sound) (record : Record)
    (hroom : CanMint engine (engine.recordMinted now (some record)).length) :
    Evolves engine (engine.replay now record) (engine.recordMinted now (some record))
      fun key => engine.RecordDisturbs now key (some record) := by
  cases record with
  | delete other =>
      refine Evolves.of_removal rfl ?_ ?_
      · intro key hne
        exact (Shards.find?_remove _ _ _).trans (if_neg (Ne.symm hne))
      · intro key heq
        exact (Shards.find?_remove _ _ _).trans (if_pos (Eq.symm heq))
  | set other value deadline =>
      by_cases hover : 0 < deadline ∧ deadline ≤ now
      · have hminted : engine.recordMinted now (some (.set other value deadline)) = [] :=
          if_pos hover
        rw [hminted, replay_set_of_over now other value deadline engine hover]
        refine Evolves.of_removal rfl ?_ ?_
        · intro key hnot
          have hne : other ≠ key := fun heq => hnot (Or.inl heq)
          exact (Shards.find?_remove _ _ _).trans (if_neg (Ne.symm hne))
        · rintro key (heq | ⟨hlive, -⟩)
          · exact (Shards.find?_remove _ _ _).trans (if_pos (Eq.symm heq))
          · exact absurd hover hlive
      · have hminted : engine.recordMinted now (some (.set other value deadline)) =
            [engine.freshToken] := if_neg hover
        have hstores := h.replay_stores now other value deadline hover
        have hnext := nextToken_replay_set now other value deadline engine hover
        rw [hminted] at hroom ⊢
        exact (Evolves.of_stores hroom hnext hstores rfl).congr_disturbed fun key =>
          or_congr_right (and_iff_right hover)

theorem evolves_replayIfAny (h : engine.Sound) (record : Option Record)
    (hroom : CanMint engine (engine.recordMinted now record).length) :
    Evolves engine (engine.replayIfAny now record) (engine.recordMinted now record)
      fun key => engine.RecordDisturbs now key record := by
  cases record with
  | none => exact Evolves.refl engine
  | some change => exact evolves_replay now h change hroom

theorem Sound.replayIfAny (h : engine.Sound) (record : Option Record) :
    (engine.replayIfAny now record).Sound := by
  cases record with
  | none => exact h
  | some change => exact h.replay now change

theorem evolves_restore (h : engine.Sound) (records : List (Option Record))
    (hroom : CanMint engine (minted.restored now engine records).length) :
    Evolves engine (engine.restore now records).1 (minted.restored now engine records)
      fun key => Disturbs.restored now key engine records := by
  rw [restore_eq]
  dsimp only
  induction records generalizing engine with
  | nil => exact Evolves.refl engine
  | cons first rest ih =>
      have hlength : (minted.restored now engine (first :: rest)).length =
          (engine.recordMinted now first).length +
            (minted.restored now (engine.replayIfAny now first) rest).length :=
        List.length_append
      rw [hlength] at hroom
      have hfirst := evolves_replayIfAny now h first (hroom.mono (Nat.le_add_right _ _))
      exact hfirst.trans (ih (h.replayIfAny now first) (hfirst.canMint hroom))

end Replay

section Calls

variable (record : Signal → List ρ) {engine : Engine (List ρ)} (now : Instant) (other : String)

theorem evolves_set (h : engine.Sound) (value : Value) (ttl : Span) (hroom : CanMint engine 1) :
    Evolves engine (engine.set (recording record) now other value ttl).1 [engine.freshToken]
      fun key => engine.Disturbs (recording record) now key (.set other value ttl) := by
  have hnext := nextToken_set record now other value ttl engine
  cases hstored : (engine.putOutcome now other value ttl).stored with
  | true =>
      have hstores := h.set_stored record now other value ttl hstored
      exact (Evolves.of_stores hroom hnext hstores rfl).congr_disturbed fun key =>
        and_iff_right hstored
  | false =>
      refine Evolves.of_write hroom other hnext ?_ ?_
      · exact fun key _ => (h.set_rejected record now other value ttl hstored).2.2 key
      · rintro key entry ⟨hturned, -⟩
        exact absurd (hturned.symm.trans hstored) (by decide)

theorem lookup_of_due {engine : Engine A} {key : String} (h : engine.Due now key) :
    engine.lookup now key = none := by
  obtain ⟨entry, hfind, hexpired⟩ := h
  exact lookup_of_expired hfind hexpired

theorem lookup_of_not_due {engine : Engine A} {key : String} (h : ¬ engine.Due now key) :
    engine.lookup now key = engine.shards.find? key := by
  cases hfind : engine.shards.find? key with
  | none => exact lookup_of_find hfind
  | some entry => exact lookup_of_live hfind fun hexpired => h ⟨entry, hfind, hexpired⟩

/-- Reading takes out what is over under its key. -/
theorem evolves_getWithToken (engine : Engine (List ρ)) :
    Evolves engine (engine.getWithToken (recording record) now other).1 []
      fun key => other = key ∧ engine.Due now key := by
  refine Evolves.of_removal (nextToken_getWithToken record now other engine) ?_ ?_
  · intro key hnot
    rw [find?_getWithToken]
    split
    next heq =>
      rw [← heq]
      exact lookup_of_not_due now fun hdue => hnot ⟨heq.symm, heq ▸ hdue⟩
    next => rfl
  · rintro key ⟨rfl, hdue⟩
    rw [find?_getWithToken, if_pos rfl, lookup_of_due now hdue]

theorem evolves_delete (engine : Engine (List ρ)) :
    Evolves engine (engine.delete (recording record) now other).1 [] fun key => other = key := by
  refine Evolves.of_removal (nextToken_delete record now other engine) ?_ ?_
  · intro key hne
    rw [find?_delete, if_neg (Ne.symm hne)]
  · rintro key rfl
    rw [find?_delete, if_pos rfl]

/-- A sweep mints nothing and disturbs the keys that are over. -/
theorem evolves_reap (h : engine.Sound) :
    Evolves engine (engine.reap (recording record) now).1 [] fun key => engine.Due now key := by
  rw [reap_recording]
  refine Evolves.of_removal rfl ?_ ?_
  · intro key hnot
    exact (find?_swept h now key).trans (lookup_of_not_due now hnot)
  · intro key hdue
    exact (find?_swept h now key).trans (lookup_of_due now hdue)

/-- Clearing mints nothing and disturbs every key. -/
theorem evolves_clear (engine : Engine A) : Evolves engine engine.clear [] fun _ => True :=
  Evolves.of_removal rfl (fun _ hnot => absurd trivial hnot) fun key _ => Shards.find?_clear _ key

theorem evolves_compareAndSwap (h : engine.Sound) (value : Value) (expected : Token) (ttl : Span)
    (hroom : CanMint engine
      (engine.compareAndSwap (recording record) now other value expected ttl).2.minted.length) :
    Evolves engine (engine.compareAndSwap (recording record) now other value expected ttl).1
      (engine.compareAndSwap (recording record) now other value expected ttl).2.minted
      fun key => other = key ∧
        ((engine.compareAndSwap (recording record) now other value expected ttl).2.isStored = true ∨
          engine.Due now key) := by
  cases hlookup : engine.lookup now other with
  | none =>
      obtain ⟨hanswer, stats, audience, heq⟩ :=
        compareAndSwap_of_none record now other value expected ttl hlookup
      have hfind := fun key =>
        find?_compareAndSwap_of_none record now other key value expected ttl hlookup
      rw [hanswer]
      refine Evolves.of_removal (by rw [heq]) ?_ ?_
      · intro key hnot
        rw [hfind]
        split
        next heq =>
          rw [← hlookup, heq]
          exact lookup_of_not_due now fun hdue => hnot ⟨heq.symm, Or.inr (heq ▸ hdue)⟩
        next => rfl
      · rintro key ⟨rfl, -⟩
        rw [hfind, if_pos rfl]
  | some found =>
      by_cases htoken : found.token = expected
      · obtain ⟨hanswer, stats, audience, heq⟩ :=
          compareAndSwap_of_eq record now other value expected ttl hlookup htoken
        have hfind := fun key =>
          find?_compareAndSwap_of_eq record now other key value expected ttl h hlookup htoken
        rw [hanswer] at hroom ⊢
        refine Evolves.of_write hroom other (by rw [heq]) ?_ ?_
        · intro key hnot
          rw [hfind, if_neg]
          exact fun heq => hnot ⟨heq.symm, Or.inl rfl⟩
        · rintro key entry ⟨rfl, -⟩ hentry
          rw [hfind, if_pos rfl] at hentry
          exact ⟨rfl, Option.some.inj hentry ▸ rfl⟩
      · rw [compareAndSwap_of_ne record now other value expected ttl hlookup htoken]
        refine (Evolves.refl engine).congr_disturbed fun key => ?_
        rw [iff_false]
        rintro ⟨rfl, hstored | hdue⟩
        · exact absurd hstored Bool.false_ne_true
        · exact nomatch (lookup_of_due now hdue).symm.trans hlookup

/-- Every call is an evolution: it mints the next tokens, and a key that it does not disturb
keeps its entry. -/
theorem evolves_apply (h : engine.Sound) (call : EngineCall)
    (hroom : CanMint engine (engine.minted (recording record) now call).length) :
    Evolves engine (engine.apply (recording record) now call).1
      (engine.minted (recording record) now call)
      fun key => engine.Disturbs (recording record) now key call := by
  cases call with
  | set key value ttl => exact evolves_set record now key h value ttl hroom
  | get key => exact evolves_getWithToken record now key engine
  | getWithToken key => exact evolves_getWithToken record now key engine
  | contains key => exact Evolves.refl engine
  | delete key => exact evolves_delete record now key engine
  | compareAndSwap key value expected ttl =>
      exact evolves_compareAndSwap record now key h value expected ttl hroom
  | clear => exact evolves_clear engine
  | replay change => exact evolves_replay now h change hroom
  | restore records => exact evolves_restore now h records hroom
  | reap => exact evolves_reap record now h

/-- A run is an evolution in which exactly those keys are disturbed that some
call disturbs. -/
theorem evolves_run (h : engine.Sound) (steps : List (Instant × EngineCall))
    (hroom : CanMint engine (engine.mintedBy (fun _ => recording record) steps).length) :
    Evolves engine (engine.run (fun _ => recording record) steps).1
      (engine.mintedBy (fun _ => recording record) steps)
      fun key => engine.DisturbedBy (fun _ => recording record) key steps := by
  induction steps generalizing engine with
  | nil => exact Evolves.refl engine
  | cons step rest ih =>
      obtain ⟨now, call⟩ := step
      rw [mintedBy_cons, List.length_append] at hroom
      have hfirst := evolves_apply record now h call (hroom.mono (Nat.le_add_right _ _))
      exact hfirst.trans (ih (h.apply record now call) (hfirst.canMint hroom))

end Calls

end Engine

end ReplicatedCache
