import Mathlib.Data.List.Forall2
import ReplicatedCache.Settings.Arguments

/-! # Flags in arguments

Arguments are looked through twice: once for the file to start from, which stands behind
the first `--config` wherever that is, and once from left to right for the flags with
their values. Both find the same flags, unless `--config` is a value itself.

What flags do to settings depends on each of them only as far as one field goes: on the
values of the flags for it, of which the last one stays, or all of them in the case of
the peers.
-/

namespace ReplicatedCache.Settings

/-! ## The flags from left to right -/

/-- A flag among the arguments, with the argument behind it, if there is one. -/
structure FlagUse where
  flag : Flag
  value : Option String
deriving DecidableEq

/-- The flags in arguments from left to right. A flag takes the argument behind it along,
and what is no flag is skipped alone. -/
def flagUses : List String → List FlagUse
  | [] => []
  | [argument] => ((Flag.ofText? argument).map fun flag => ⟨flag, none⟩).toList
  | argument :: value :: rest =>
    match Flag.ofText? argument with
    | none => flagUses (value :: rest)
    | some flag => ⟨flag, some value⟩ :: flagUses rest

/-- The values of a flag, in order. -/
def said (flag : Flag) (uses : List FlagUse) : List String :=
  uses.filterMap fun use => if use.flag = flag then use.value else none

theorem said_append (flag : Flag) (first second : List FlagUse) :
    said flag (first ++ second) = said flag first ++ said flag second := List.filterMap_append

theorem Flag.ofText?_eq_some_iff {argument : String} {flag : Flag} :
    Flag.ofText? argument = some flag ↔ argument = flag.text := by
  constructor
  · intro h
    have hfound := List.find?_some h
    exact (beq_iff_eq.mp hfound).symm
  · rintro rfl
    cases flag <;> rfl

/-! ## The first file -/

theorem configPath?_cons {argument : String} {rest : List String}
    (hne : argument ≠ Flag.config.text) :
    configPath? (argument :: rest) = configPath? rest := by
  have hdrop : (argument :: rest).dropWhile (fun x => decide (x ≠ Flag.config.text)) =
      rest.dropWhile fun x => decide (x ≠ Flag.config.text) :=
    List.dropWhile_cons_of_pos (decide_eq_true hne)
  unfold configPath?
  rw [hdrop]

/-- The first `--config` of the arguments is the first one that is used as a flag. -/
theorem configPath?_eq {arguments : List String}
    (h : ∀ use ∈ flagUses arguments, use.flag ≠ .config → use.value ≠ some Flag.config.text) :
    configPath? arguments =
      match (flagUses arguments).find? fun use => decide (use.flag = .config) with
      | none => .ok none
      | some ⟨_, none⟩ => .error (.missingValue Flag.config.text)
      | some ⟨_, some path⟩ => .ok (some path) := by
  have hnot {argument : String} {flag : Option Flag} (hflag : Flag.ofText? argument = flag)
      (hne : flag ≠ some .config) : argument ≠ Flag.config.text := fun heq =>
    hne (hflag.symm.trans (Flag.ofText?_eq_some_iff.mpr heq))
  induction arguments using flagUses.induct with
  | case1 => rfl
  | case2 argument =>
      rw [flagUses]
      cases hflag : Flag.ofText? argument with
      | none => rw [configPath?_cons (hnot hflag nofun)]; rfl
      | some flag =>
          by_cases hconfig : flag = .config
          · subst hconfig
            rw [Flag.ofText?_eq_some_iff.mp hflag]
            rfl
          · have hne := hnot hflag fun heq => hconfig (Option.some.inj heq)
            rw [configPath?_cons hne, Option.map_some, Option.toList_some,
              List.find?_cons_of_neg (by simpa using hconfig)]
            rfl
  | case3 argument value rest hflag ih =>
      simp only [flagUses, hflag] at h ⊢
      rw [configPath?_cons (hnot hflag nofun), ih h]
  | case4 argument value rest flag hflag ih =>
      simp only [flagUses, hflag] at h ⊢
      obtain ⟨hvalue, hrest⟩ := List.forall_mem_cons.mp h
      by_cases hconfig : flag = .config
      · subst hconfig
        rw [Flag.ofText?_eq_some_iff.mp hflag]
        rfl
      · have hne := hnot hflag fun heq => hconfig (Option.some.inj heq)
        -- the value is passed over by the scan, and it is not the one that is looked for
        have hother : value ≠ Flag.config.text := fun heq => hvalue hconfig (congrArg some heq)
        rw [configPath?_cons hne, configPath?_cons hother, ih hrest,
          List.find?_cons_of_neg (by simpa using hconfig)]

/-! ## What flags do -/

/-- What is left of a field: the last thing that was said of it, or else what it was. -/
def Decided {α : Type} (read : String → Except Refusal α) (said : List String)
    (before after : α) : Prop :=
  match said.getLast? with
  | none => after = before
  | some text => read text = .ok after

theorem Decided.append {α : Type} {read : String → Except Refusal α} {first second : List String}
    {before middle after : α} (h : Decided read first before middle)
    (h' : Decided read second middle after) : Decided read (first ++ second) before after := by
  unfold Decided at *
  rw [List.getLast?_append]
  cases hlast : second.getLast? with
  | none =>
      rw [hlast] at h'
      obtain rfl := h'
      exact h
  | some text =>
      rw [hlast] at h'
      exact h'

theorem Decided.unique {α : Type} {read : String → Except Refusal α} {said : List String}
    {before after after' : α} (h : Decided read said before after)
    (h' : Decided read said before after') : after = after' := by
  unfold Decided at h h'
  cases hlast : said.getLast? with
  | none =>
      rw [hlast] at h h'
      exact h.trans h'.symm
  | some text =>
      rw [hlast] at h h'
      exact Except.ok.inj (h.symm.trans h')

/-- What settings become when flags are applied to them from left to right. -/
structure Overrides (uses : List FlagUse) (before after : Settings) : Prop where
  nodeId : Decided (fun text => .ok (some text)) (said .nodeId uses) before.nodeId after.nodeId
  bind : Decided parseAddress (said .bind uses) before.bind after.bind
  replicationFactor : Decided parseNumber (said .replicationFactor uses)
    before.replicationFactor after.replicationFactor
  capacity : Decided parseNumber (said .capacity uses) before.store.capacity after.store.capacity
  segments : Decided parseNumber (said .segments uses) before.store.segments after.store.segments
  eviction : Decided parseEviction (said .eviction uses) before.store.eviction after.store.eviction
  peers : ∃ added, after.peers = before.peers ++ added ∧
    List.Forall₂ (fun text peer => Peer.parse text = .ok peer) (said .peer uses) added
  /-- There are no flags for the other fields. -/
  virtualNodes : after.virtualNodes = before.virtualNodes
  connectMillis : after.connectMillis = before.connectMillis
  requestMillis : after.requestMillis = before.requestMillis
  handoffMillis : after.handoffMillis = before.handoffMillis
  reaperMillis : after.store.reaperMillis = before.store.reaperMillis

namespace Overrides

variable {before middle after after' : Settings} {uses first second : List FlagUse}

theorem nil (settings : Settings) : Overrides [] settings settings := by
  constructor <;> simp [Decided, said]

theorem append (h : Overrides first before middle) (h' : Overrides second middle after) :
    Overrides (first ++ second) before after := by
  obtain ⟨added, hpeers, hadded⟩ := h.peers
  obtain ⟨added', hpeers', hadded'⟩ := h'.peers
  constructor
  case nodeId => exact said_append .nodeId first second ▸ h.nodeId.append h'.nodeId
  case bind => exact said_append .bind first second ▸ h.bind.append h'.bind
  case replicationFactor =>
    exact said_append .replicationFactor first second ▸
      h.replicationFactor.append h'.replicationFactor
  case capacity => exact said_append .capacity first second ▸ h.capacity.append h'.capacity
  case segments => exact said_append .segments first second ▸ h.segments.append h'.segments
  case eviction => exact said_append .eviction first second ▸ h.eviction.append h'.eviction
  case peers =>
    refine ⟨added ++ added', ?_, ?_⟩
    · rw [hpeers', hpeers, List.append_assoc]
    · exact said_append .peer first second ▸ List.rel_append hadded hadded'
  case virtualNodes => exact h'.virtualNodes.trans h.virtualNodes
  case connectMillis => exact h'.connectMillis.trans h.connectMillis
  case requestMillis => exact h'.requestMillis.trans h.requestMillis
  case handoffMillis => exact h'.handoffMillis.trans h.handoffMillis
  case reaperMillis => exact h'.reaperMillis.trans h.reaperMillis

theorem unique (h : Overrides uses before after) (h' : Overrides uses before after') :
    after = after' := by
  have hpeers : after.peers = after'.peers := by
    obtain ⟨added, hpeers, hadded⟩ := h.peers
    obtain ⟨added', hpeers', hadded'⟩ := h'.peers
    have hread : Relator.RightUnique fun text peer => Peer.parse text = .ok peer :=
      fun _ _ _ hone hother => Except.ok.inj (hone.symm.trans hother)
    rw [hpeers, hpeers', hread.forall₂ hadded hadded']
  have hstore : after.store = after'.store := by
    have hcapacity := h.capacity.unique h'.capacity
    have hsegments := h.segments.unique h'.segments
    have heviction := h.eviction.unique h'.eviction
    have hreaper := h.reaperMillis.trans h'.reaperMillis.symm
    cases hone : after.store
    cases hother : after'.store
    simp_all
  have hnodeId := h.nodeId.unique h'.nodeId
  have hbind := h.bind.unique h'.bind
  have hfactor := h.replicationFactor.unique h'.replicationFactor
  have hvirtual := h.virtualNodes.trans h'.virtualNodes.symm
  have hconnect := h.connectMillis.trans h'.connectMillis.symm
  have hrequest := h.requestMillis.trans h'.requestMillis.symm
  have hhandoff := h.handoffMillis.trans h'.handoffMillis.symm
  cases after
  cases after'
  congr

end Overrides

namespace FlagUse

def failure? {α : Type} : Except Refusal α → Option Refusal
  | .ok _ => none
  | .error refusal => some refusal

/-- Why a flag is refused: its value is missing or cannot be read. The files are read
separately. -/
def refusal? : FlagUse → Option Refusal
  | ⟨.config, _⟩ => none
  | ⟨flag, none⟩ => some (.missingValue flag.text)
  | ⟨.nodeId, some _⟩ => none
  | ⟨.bind, some value⟩ => failure? (parseAddress value)
  | ⟨.peer, some value⟩ => failure? (Peer.parse value)
  | ⟨.replicationFactor, some value⟩ => failure? (parseNumber value)
  | ⟨.capacity, some value⟩ => failure? (parseNumber value)
  | ⟨.segments, some value⟩ => failure? (parseNumber value)
  | ⟨.eviction, some value⟩ => failure? (parseEviction value)

def apply (settings : Settings) : FlagUse → Except Refusal Settings
  | ⟨.config, none⟩ => .ok settings
  | ⟨flag, none⟩ => .error (.missingValue flag.text)
  | ⟨flag, some value⟩ => flag.apply value settings

theorem apply_some (settings : Settings) (flag : Flag) (value : String) :
    apply settings ⟨flag, some value⟩ = flag.apply value settings := by
  cases flag <;> rfl

/-- What a flag does on its own: it is refused whatever the settings are, or it says what
becomes of its field. -/
def Acts (use : FlagUse) (settings : Settings) : Prop :=
  match use.refusal? with
  | some refusal => use.apply settings = .error refusal
  | none => ∃ after, use.apply settings = .ok after ∧ Overrides [use] settings after

/-- A flag whose value is read and placed in its field. -/
theorem acts_of_read {use : FlagUse} {settings : Settings} {α : Type} {read : Except Refusal α}
    (place : α → Settings) (hrefusal : use.refusal? = failure? read)
    (happly : use.apply settings = read >>= fun value => pure (place value))
    (hplaced : ∀ value, read = .ok value → Overrides [use] settings (place value)) :
    use.Acts settings := by
  unfold Acts
  rw [hrefusal, happly]
  cases read with
  | error refusal => rfl
  | ok value => exact ⟨place value, rfl, hplaced value rfl⟩

theorem acts (use : FlagUse) (settings : Settings) : use.Acts settings := by
  obtain ⟨flag, _ | value⟩ := use
  · cases flag with
    | config => exact ⟨settings, rfl, by constructor <;> simp [Decided, said]⟩
    | _ => rfl
  · cases flag with
    | config => exact ⟨settings, rfl, by constructor <;> simp [Decided, said]⟩
    | nodeId => exact ⟨_, rfl, by constructor <;> simp [Decided, said]⟩
    | bind =>
        refine acts_of_read (fun bind => { settings with bind }) rfl rfl fun _ hread => ?_
        constructor <;> simp [Decided, said, hread]
    | peer =>
        refine acts_of_read (fun peer => { settings with peers := settings.peers ++ [peer] })
          rfl rfl fun _ hread => ?_
        constructor <;> simp [Decided, said, hread]
    | replicationFactor =>
        refine acts_of_read (fun replicationFactor => { settings with replicationFactor })
          rfl rfl fun _ hread => ?_
        constructor <;> simp [Decided, said, hread]
    | capacity =>
        refine acts_of_read (fun capacity => { settings with store.capacity := capacity })
          rfl rfl fun _ hread => ?_
        constructor <;> simp [Decided, said, hread]
    | segments =>
        refine acts_of_read (fun segments => { settings with store.segments := segments })
          rfl rfl fun _ hread => ?_
        constructor <;> simp [Decided, said, hread]
    | eviction =>
        refine acts_of_read (fun eviction => { settings with store.eviction := eviction })
          rfl rfl fun _ hread => ?_
        constructor <;> simp [Decided, said, hread]

end FlagUse

/-- The scan applies the flags that are found from left to right. -/
theorem applyFlags_eq (settings : Settings) (arguments : List String) :
    applyFlags settings arguments = (flagUses arguments).foldlM FlagUse.apply settings := by
  induction arguments using flagUses.induct generalizing settings with
  | case1 => rfl
  | case2 argument =>
      rw [applyFlags, flagUses]
      cases hflag : Flag.ofText? argument with
      | none => rfl
      | some flag => cases flag <;> rfl
  | case3 argument value rest hflag ih =>
      rw [applyFlags, flagUses, hflag]
      exact ih settings
  | case4 argument value rest flag hflag ih =>
      rw [applyFlags, flagUses, hflag]
      dsimp only
      rw [List.foldlM_cons, FlagUse.apply_some]
      exact bind_congr ih

/-- The leftmost flag that is refused decides. If there is none, all of them have their
say. -/
theorem foldlM_apply (settings : Settings) (uses : List FlagUse) :
    match uses.findSome? FlagUse.refusal? with
    | some refusal => uses.foldlM FlagUse.apply settings = .error refusal
    | none => ∃ after, uses.foldlM FlagUse.apply settings = .ok after ∧
        Overrides uses settings after := by
  induction uses generalizing settings with
  | nil => exact ⟨settings, rfl, .nil settings⟩
  | cons use uses ih =>
      have hacts := use.acts settings
      unfold FlagUse.Acts at hacts
      rw [List.findSome?_cons, List.foldlM_cons]
      cases hrefusal : use.refusal? with
      | some refusal =>
          rw [hrefusal] at hacts
          rw [hacts]
          rfl
      | none =>
          rw [hrefusal] at hacts
          obtain ⟨middle, hmiddle, hfirst⟩ := hacts
          have hrest := ih middle
          rw [hmiddle]
          dsimp only
          cases hlater : uses.findSome? FlagUse.refusal? with
          | some refusal =>
              rw [hlater] at hrest
              exact hrest
          | none =>
              rw [hlater] at hrest
              obtain ⟨after, hafter, hoverrides⟩ := hrest
              exact ⟨after, hafter, hfirst.append hoverrides⟩

end ReplicatedCache.Settings
