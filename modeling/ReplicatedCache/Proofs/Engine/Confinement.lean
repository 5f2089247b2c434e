import ReplicatedCache.Proofs.Engine.Restoring
import ReplicatedCache.Proofs.Engine.Swaps
import ReplicatedCache.Proofs.Segment.Mirroring

/-! # Runs confined to a segment

What is left of a run when the calls on the keys of all other segments are dropped. The
calls that are about no key at all stay, and so do the times of all calls. Fewer tokens
are minted then, so that the tokens which the remaining calls expect have to be renamed:
each token minted for the segment becomes its rank among them.
-/

namespace ReplicatedCache

/-! ## Calls -/

def EngineConfig.houses (config : EngineConfig) (i : Nat) (key : String) : Bool :=
  decide (config.home key = i)

theorem EngineConfig.houses_iff {config : EngineConfig} {i : Nat} {key : String} :
    config.houses i key = true ↔ config.home key = i := decide_eq_true_iff

namespace EngineCall

/-- The key that a call is about, if it is about a single one. -/
def key? : EngineCall → Option String
  | .set key _ _ => some key
  | .get key => some key
  | .getWithToken key => some key
  | .contains key => some key
  | .delete key => some key
  | .compareAndSwap key _ _ _ => some key
  | .replay record => some record.key
  | .clear => none
  | .restore _ => none
  | .reap => none

def isAt (config : EngineConfig) (i : Nat) (call : EngineCall) : Bool :=
  call.key?.any (config.houses i)

/-- A record, if it can be decoded, is about a key of a segment. -/
def recordStays (config : EngineConfig) (i : Nat) (record : Option Record) : Bool :=
  record.all fun change => config.houses i change.key

/-- The part of a call that stays when the other segments are left out. A restored list
keeps the records of the keys of the segment. -/
def within (config : EngineConfig) (i : Nat) : EngineCall → Option EngineCall
  | .clear => some .clear
  | .reap => some .reap
  | .restore records => some (.restore (records.filter (recordStays config i)))
  | call => if call.isAt config i then some call else none

/-- The token that a call expects. -/
def expected? : EngineCall → Option Token
  | .compareAndSwap _ _ expected _ => some expected
  | _ => none

def renamed (rename : Token → Token) : EngineCall → EngineCall
  | .compareAndSwap key value expected ttl => .compareAndSwap key value (rename expected) ttl
  | call => call

variable {config : EngineConfig} {i : Nat} {call : EngineCall} {key : String}

theorem isAt_iff (h : call.key? = some key) :
    call.isAt config i = true ↔ config.home key = i := by
  rw [isAt, h, Option.any_some, EngineConfig.houses_iff]

/-- A call about a key is kept in the part of the key's segment and dropped from the others. -/
theorem within_of_key (h : call.key? = some key) :
    call.within config i = if call.isAt config i then some call else none := by
  cases call with
  | clear | reap | restore => exact nomatch h
  | set | get | getWithToken | contains | delete | compareAndSwap | replay => rfl

/-- Renaming the tokens of a call does not change which key it is about. -/
@[simp] theorem key?_renamed (rename : Token → Token) (call : EngineCall) :
    (call.renamed rename).key? = call.key? := by
  cases call <;> rfl

end EngineCall

namespace EngineAnswer

def tokens : EngineAnswer → List Token
  | .valueWithToken (some (_, token)) => [token]
  | .swapped answer => answer.minted
  | _ => []

def renamed (rename : Token → Token) : EngineAnswer → EngineAnswer
  | .valueWithToken found => .valueWithToken (found.map fun shown => (shown.1, rename shown.2))
  | .swapped (.stored token) => .swapped (.stored (rename token))
  | answer => answer

end EngineAnswer

/-! ## Runs -/

/-- A run without the calls on keys of other segments than one. -/
def confined (config : EngineConfig) (i : Nat) (rename : Token → Token)
    (steps : List (Instant × EngineCall)) : List (Instant × EngineCall) :=
  steps.filterMap fun step =>
    (step.2.within config i).map fun part => (step.1, part.renamed rename)

def answersAt (config : EngineConfig) (i : Nat) (steps : List (Instant × EngineCall))
    (answers : List EngineAnswer) : List EngineAnswer :=
  ((steps.zip answers).filter fun given => given.1.2.isAt config i).map (·.2)

section Lists

variable (config : EngineConfig) (i : Nat) (rename : Token → Token) (now : Instant)
  (call : EngineCall) (steps : List (Instant × EngineCall))

/-- A step that concerns the segment stays in the confined run, with its tokens renamed. -/
theorem confined_cons_of_some {part : EngineCall} (h : call.within config i = some part) :
    confined config i rename ((now, call) :: steps) =
      (now, part.renamed rename) :: confined config i rename steps := by
  have hhead : (call.within config i).map (fun part => (now, part.renamed rename)) =
      some (now, part.renamed rename) := h ▸ rfl
  exact List.filterMap_cons_some hhead

/-- A step that does not concern the segment is left out. -/
theorem confined_cons_of_none (h : call.within config i = none) :
    confined config i rename ((now, call) :: steps) = confined config i rename steps := by
  have hhead : (call.within config i).map (fun part => (now, part.renamed rename)) = none :=
    h ▸ rfl
  exact List.filterMap_cons_none hhead

theorem answersAt_cons_of_at (answer : EngineAnswer) (answers : List EngineAnswer)
    (h : call.isAt config i = true) :
    answersAt config i ((now, call) :: steps) (answer :: answers) =
      answer :: answersAt config i steps answers := by
  rw [answersAt, List.zip_cons_cons, List.filter_cons, if_pos h]
  rfl

theorem answersAt_cons_of_not_at (answer : EngineAnswer) (answers : List EngineAnswer)
    (h : ¬ call.isAt config i = true) :
    answersAt config i ((now, call) :: steps) (answer :: answers) =
      answersAt config i steps answers := by
  rw [answersAt, List.zip_cons_cons, List.filter_cons, if_neg h]
  rfl

end Lists

namespace Engine

variable {A : Type}

/-- The live entries of a segment, eldest first. -/
def dumpAt (config : EngineConfig) (i : Nat) (engine : Engine A) (now : Instant) :
    List (String × Entry) :=
  (engine.dump now).filter fun binding => config.houses i binding.1

/-- Every compare-and-swap of a run expects a token that an earlier call has given for its
key. -/
def SwapsGiven (hear : Instant → Hearing A) (engine : Engine A)
    (steps : List (Instant × EngineCall)) : Prop :=
  ∀ before now key value token ttl after,
    steps = before ++ (now, .compareAndSwap key value token ttl) :: after →
      ∃ earlier given giver between, before = earlier ++ (given, giver) :: between ∧
        Gives key token giver
          ((engine.run hear earlier).1.apply (hear given) given giver).2

/-- A run shows a token for a segment: in the answer of a call on one of its keys, or in what
the segment holds at some moment. -/
def ShowsAt (config : EngineConfig) (i : Nat) (hear : Instant → Hearing A) (engine : Engine A)
    (steps : List (Instant × EngineCall)) (token : Token) : Prop :=
  (∃ answer ∈ answersAt config i steps (engine.run hear steps).2, token ∈ answer.tokens) ∨
    ∃ before now, before <+: steps ∧
      ∃ binding ∈ (engine.run hear before).1.dumpAt config i now, binding.2.token = token

section Minted

variable (config : EngineConfig) (i : Nat)

/-- The tokens that a call uses up for keys of a segment. -/
def mintedAt (hear : Hearing A) (engine : Engine A) (now : Instant) : EngineCall → List Token
  | .restore records => restored engine now records
  | call => if call.isAt config i then engine.minted hear now call else []
where
  restored (engine : Engine A) (now : Instant) : List (Option Record) → List Token
    | [] => []
    | record :: rest =>
      (if EngineCall.recordStays config i record then engine.recordMinted now record else []) ++
        restored (engine.replayIfAny now record) now rest

/-- The tokens that a run uses up for keys of a segment, in order. -/
def mintedByAt (hear : Instant → Hearing A) (engine : Engine A) :
    List (Instant × EngineCall) → List Token
  | [] => []
  | (now, call) :: rest =>
    engine.mintedAt config i (hear now) now call ++
      (engine.apply (hear now) now call).1.mintedByAt hear rest

/-- A call about a key mints tokens at its home segment or nowhere. -/
theorem mintedAt_of_key (hear : Hearing A) (engine : Engine A) (now : Instant)
    {call : EngineCall} {key : String} (h : call.key? = some key) :
    engine.mintedAt config i hear now call =
      if call.isAt config i then engine.minted hear now call else [] := by
  cases call with
  | clear | reap | restore => exact nomatch h
  | set | get | getWithToken | contains | delete | compareAndSwap | replay => rfl

/-- The tokens minted in a segment along two stretches are those of the first and then of the
second. -/
theorem mintedByAt_append (hear : Instant → Hearing A) (engine : Engine A)
    (first second : List (Instant × EngineCall)) :
    engine.mintedByAt config i hear (first ++ second) =
      engine.mintedByAt config i hear first ++
        (engine.run hear first).1.mintedByAt config i hear second := by
  induction first generalizing engine with
  | nil => rfl
  | cons step rest ih =>
      obtain ⟨now, call⟩ := step
      rw [List.cons_append, mintedByAt, mintedByAt, ih, List.append_assoc]
      rfl

theorem restored_sublist (engine : Engine A) (now : Instant) (records : List (Option Record)) :
    (mintedAt.restored config i engine now records).Sublist
      (minted.restored now engine records) := by
  induction records generalizing engine with
  | nil => exact List.Sublist.slnil
  | cons record rest ih =>
      refine List.Sublist.append ?_ (ih _)
      split
      next => exact List.Sublist.refl _
      next => exact List.nil_sublist _

/-- What is minted in one segment is part of what is minted, in the same order. -/
theorem mintedAt_sublist (hear : Hearing A) (engine : Engine A) (now : Instant)
    (call : EngineCall) :
    (engine.mintedAt config i hear now call).Sublist (engine.minted hear now call) := by
  unfold mintedAt
  split
  next records => exact restored_sublist config i engine now records
  next =>
    split
    next => exact List.Sublist.refl _
    next => exact List.nil_sublist _

/-- A segment is given tokens in the order in which the engine mints them. -/
theorem mintedByAt_sublist (hear : Instant → Hearing A) (engine : Engine A)
    (steps : List (Instant × EngineCall)) :
    (engine.mintedByAt config i hear steps).Sublist (engine.mintedBy hear steps) := by
  induction steps generalizing engine with
  | nil => exact List.Sublist.slnil
  | cons step rest ih =>
      obtain ⟨now, call⟩ := step
      exact (mintedAt_sublist config i (hear now) engine now call).append (ih _)

end Minted

end Engine

/-! ## Ranks -/

/-- Tokens in increasing order, fewer than the counter has values. -/
structure TokenRoll where
  tokens : List Token
  increasing : tokens.Pairwise (· < ·)
  few : tokens.length < UInt64.size - 1

/-- A renaming keeps the order of the tokens of a kind. -/
def KeepsOrder (kind : Token → Prop) (rename : Token → Token) : Prop :=
  ∀ a b, kind a → kind b → (rename a < rename b ↔ a < b)

/-- A renaming that keeps the order of tokens keeps them apart. -/
theorem KeepsOrder.eq_iff {kind : Token → Prop} {rename : Token → Token}
    (h : KeepsOrder kind rename) {a b : Token} (ha : kind a) (hb : kind b) :
    rename a = rename b ↔ a = b := by
  refine ⟨fun heq => ?_, congrArg rename⟩
  have hlt := mt (h a b ha hb).mpr (heq ▸ UInt64.lt_irrefl _)
  have hgt := mt (h b a hb ha).mpr (heq ▸ UInt64.lt_irrefl _)
  exact UInt64.le_antisymm (UInt64.not_lt.mp hgt) (UInt64.not_lt.mp hlt)

namespace TokenRoll

variable (roll : TokenRoll)

/-- The place of a token on the roll, from one on. -/
def rank (token : Token) : Token := UInt64.ofNat (roll.tokens.idxOf token + 1)

variable {roll} {token : Token} {soFar : List Token}

theorem nodup_tokens : roll.tokens.Nodup := roll.increasing.imp UInt64.ne_of_lt

/-- The rank of a token is its place in the roll, counted from one, so that no rank is zero. -/
theorem toNat_rank (h : token ∈ roll.tokens) :
    (roll.rank token).toNat = roll.tokens.idxOf token + 1 := by
  have hlt := List.idxOf_lt_length_iff.mpr h
  have hfew := roll.few
  apply UInt64.toNat_ofNat_of_lt'
  omega

/-- The token that comes after some others has the place after theirs. -/
theorem toNat_rank_of_next (h : soFar ++ [token] <+: roll.tokens) :
    (roll.rank token).toNat = soFar.length + 1 := by
  obtain ⟨rest, heq⟩ := h
  have hnodup := roll.nodup_tokens
  have hmem : token ∈ roll.tokens := by simp [← heq]
  have hnew : token ∉ soFar := by
    rw [← heq, List.append_assoc, List.nodup_append] at hnodup
    exact fun hold => hnodup.2.2 token hold token (by simp) rfl
  rw [toNat_rank hmem, ← heq, List.append_assoc, List.idxOf_append_of_notMem hnew,
    List.singleton_append, List.idxOf_cons_self, Nat.add_zero]

/-- Replacing tokens by their ranks keeps their order. -/
theorem keepsOrder_rank : KeepsOrder (· ∈ roll.tokens) roll.rank := by
  have hmono : ∀ a b, a ∈ roll.tokens → b ∈ roll.tokens →
      roll.tokens.idxOf a < roll.tokens.idxOf b → a < b := by
    intro a b ha hb hlt
    have hrel := List.pairwise_iff_getElem.mp roll.increasing _ _
      (List.idxOf_lt_length_iff.mpr ha) (List.idxOf_lt_length_iff.mpr hb) hlt
    rwa [List.getElem_idxOf, List.getElem_idxOf] at hrel
  intro a b ha hb
  rw [UInt64.lt_iff_toNat_lt, toNat_rank ha, toNat_rank hb, Nat.add_lt_add_iff_right]
  refine ⟨hmono a b ha hb, fun hlt => ?_⟩
  -- the places of two tokens that differ lie in one order or the other
  rcases Nat.lt_trichotomy (roll.tokens.idxOf a) (roll.tokens.idxOf b) with hab | heq | hba
  · exact hab
  · rw [List.idxOf_inj ha] at heq
    exact absurd (heq ▸ hlt) (UInt64.lt_irrefl _)
  · exact absurd (hmono b a hb ha hba) (UInt64.lt_asymm hlt)

end TokenRoll

end ReplicatedCache
