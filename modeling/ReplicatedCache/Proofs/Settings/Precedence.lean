import ReplicatedCache.Proofs.Settings.Flags

/-! # Which argument decides

The file of the first `--config` is read before anything else, and without one the
defaults stand for it. The flags then override it from left to right, so that the last
word on a field stays. What cannot be read is told in this order: the file, the leftmost
flag, and last the settings as a whole.
-/

namespace ReplicatedCache.Settings

open Document

/-! ## What a file says -/

/-- Settings as fields of a document have them, those for the engine apart. What no field
says is as by default. -/
structure Stated (fields store : List (String × Document)) (settings : Settings) : Prop where
  nodeId : field? fields "node_id" (fun item => item.text?.map some) none = some settings.nodeId
  bind : field? fields "bind" address? (.v4 ⟨127, 0, 0, 1⟩ 11311) = some settings.bind
  peers : field? fields "peers" (listOf? Peer.ofDocument?) [] = some settings.peers
  replicationFactor :
    field? fields "replication_factor" natural? 3 = some settings.replicationFactor
  virtualNodes : field? fields "virtual_nodes" natural? 64 = some settings.virtualNodes
  connectMillis : field? fields "connect_timeout_ms" natural? 500 = some settings.connectMillis
  requestMillis : field? fields "request_timeout_ms" natural? 1000 = some settings.requestMillis
  handoffMillis : field? fields "handoff_interval_ms" natural? 5000 = some settings.handoffMillis
  capacity : field? store "capacity" natural? 100000 = some settings.store.capacity
  segments : field? store "segments" natural? 16 = some settings.store.segments
  eviction : field? store "eviction" eviction? .lru = some settings.store.eviction
  reaperMillis : field? store "reaper_interval_ms" natural? 100 = some settings.store.reaperMillis

/-- The fields of a document, and those of the engine in it. -/
structure HasFields (document : Document) (fields store : List (String × Document)) : Prop where
  fields_eq : document.fieldsOf? ["node_id", "bind", "peers", "replication_factor",
    "virtual_nodes", "connect_timeout_ms", "request_timeout_ms", "handoff_interval_ms",
    "engine"] = some fields
  store_eq : field? fields "engine"
    (fieldsOf? ["capacity", "segments", "eviction", "reaper_interval_ms"]) [] = some store

/-- The fields of the engine, also where a document leaves them out. -/
theorem exists_store {fields : List (String × Document)} {read : Store}
    (h : field? fields "engine" Store.ofDocument? {} = some read) :
    ∃ store, field? fields "engine"
        (fieldsOf? ["capacity", "segments", "eviction", "reaper_interval_ms"]) [] = some store ∧
      field? store "capacity" natural? 100000 = some read.capacity ∧
      field? store "segments" natural? 16 = some read.segments ∧
      field? store "eviction" eviction? .lru = some read.eviction ∧
      field? store "reaper_interval_ms" natural? 100 = some read.reaperMillis := by
  unfold field? at h ⊢
  cases hengine : fields.lookup "engine" with
  | none =>
      rw [hengine] at h
      obtain rfl := Option.some.inj h
      exact ⟨[], rfl, rfl, rfl, rfl, rfl⟩
  | some document =>
      rw [hengine] at h
      simp only [Store.ofDocument?, Option.bind_eq_bind, Option.bind_eq_some_iff, Option.pure_def,
        Option.some.injEq] at h
      obtain ⟨store, hstore, _, hcapacity, _, hsegments, _, heviction, _, hreaper, rfl⟩ := h
      exact ⟨store, hstore, hcapacity, hsegments, heviction, hreaper⟩

theorem stated_of_ofDocument? {document : Document} {settings : Settings}
    (h : ofDocument? document = some settings) :
    ∃ fields store, HasFields document fields store ∧ Stated fields store settings := by
  simp only [ofDocument?, Option.bind_eq_bind, Option.bind_eq_some_iff, Option.pure_def,
    Option.some.injEq] at h
  obtain ⟨fields, hfields, _, hnodeId, _, hbind, _, hpeers, _, hfactor, _, hvirtual, _, hconnect,
    _, hrequest, _, hhandoff, _, hengine, rfl⟩ := h
  obtain ⟨store, hstore, hcapacity, hsegments, heviction, hreaper⟩ := exists_store hengine
  exact ⟨fields, store, ⟨hfields, hstore⟩, hnodeId, hbind, hpeers, hfactor, hvirtual, hconnect,
    hrequest, hhandoff, hcapacity, hsegments, heviction, hreaper⟩

/-- The content of a file is the text of a document with some fields. -/
def FileSays (files : String → Option ByteArray) (path : String)
    (fields store : List (String × Document)) : Prop :=
  ∃ content text document, files path = some content ∧
    String.fromUTF8? content = some text ∧ Document.parse? text = some document ∧
    HasFields document fields store

theorem fileSays_of_ofFile {files : String → Option ByteArray} {path : String}
    {settings : Settings} (h : ofFile files path = .ok settings) :
    ∃ fields store, FileSays files path fields store ∧ Stated fields store settings := by
  unfold ofFile at h
  cases hcontent : (files path).bind String.fromUTF8? with
  | none =>
      rw [hcontent] at h
      cases h
  | some text =>
      rw [hcontent] at h
      dsimp only at h
      cases hread : ofText? text with
      | none =>
          rw [hread] at h
          cases h
      | some found =>
          rw [hread] at h
          obtain rfl := Except.ok.inj h
          obtain ⟨content, hfile, htext⟩ := Option.bind_eq_some_iff.mp hcontent
          obtain ⟨document, hdocument, hfound⟩ := Option.bind_eq_some_iff.mp hread
          obtain ⟨fields, store, hfields, hstated⟩ := stated_of_ofDocument? hfound
          exact ⟨fields, store, ⟨content, text, document, hfile, htext, hdocument, hfields⟩,
            hstated⟩

/-! ## What can be used -/

/-- Settings with which a node can work. -/
structure Usable (settings : Settings) : Prop where
  replicationFactor_pos : 0 < settings.replicationFactor
  virtualNodes_pos : 0 < settings.virtualNodes
  capacity_pos : 0 < settings.store.capacity
  segments_pos : 0 < settings.store.segments
  not_own_peer : ∀ peer ∈ settings.peers, settings.nodeId ≠ some peer.id

/-- Settings are refused unless they can be used, and never changed. -/
theorem validate_cases (settings : Settings) :
    (settings.validate = .ok settings ∧ Usable settings) ∨
      ∃ reason, settings.validate = .error reason ∧ ¬ Usable settings := by
  unfold validate
  split
  next hzero => exact Or.inr ⟨_, rfl, fun h => Nat.ne_of_gt h.replicationFactor_pos hzero⟩
  next hfactor =>
    split
    next hzero => exact Or.inr ⟨_, rfl, fun h => Nat.ne_of_gt h.virtualNodes_pos hzero⟩
    next hvirtual =>
      split
      next hzero =>
        refine Or.inr ⟨_, rfl, fun h => ?_⟩
        exact hzero.elim (Nat.ne_of_gt h.segments_pos) (Nat.ne_of_gt h.capacity_pos)
      next hstore =>
        obtain ⟨hsegments, hcapacity⟩ := not_or.mp hstore
        have husable (hown : ∀ peer ∈ settings.peers, settings.nodeId ≠ some peer.id) :
            Usable settings := ⟨Nat.pos_of_ne_zero hfactor, Nat.pos_of_ne_zero hvirtual,
          Nat.pos_of_ne_zero hcapacity, Nat.pos_of_ne_zero hsegments, hown⟩
        split
        next hid => exact Or.inl ⟨rfl, husable fun _ _ => hid ▸ nofun⟩
        next id hid =>
          split
          next hpeer =>
            obtain ⟨peer, hmem, hsame⟩ := List.any_eq_true.mp hpeer
            refine Or.inr ⟨_, rfl, fun h => h.not_own_peer peer hmem ?_⟩
            rw [hid, beq_iff_eq.mp hsame]
          next hnone =>
            refine Or.inl ⟨rfl, husable fun peer hmem hsame => hnone ?_⟩
            rw [hid] at hsame
            exact List.any_eq_true.mpr ⟨peer, hmem, beq_iff_eq.mpr (Option.some.inj hsame).symm⟩

/-! ## The whole -/

/-- The file that the first `--config` names, if there is one and if it names one. -/
def firstFile? (uses : List FlagUse) : Option (Option String) :=
  (uses.find? fun use => decide (use.flag = .config)).map (·.value)

section Reading

variable (files : String → Option ByteArray) (drawn : Option String) (uses : List FlagUse)

/-- What the flags are applied to: the settings that the first file says, or the default
ones if no file is named. -/
inductive Starts : Except Refusal Settings → Prop
  | defaults (hnone : firstFile? uses = none) : Starts (.ok {})
  | dangling (hdangling : firstFile? uses = some none) :
      Starts (.error (.missingValue Flag.config.text))
  | refused {path : String} {refusal : Refusal} (hfirst : firstFile? uses = some (some path))
      (hfile : ofFile files path = .error refusal) : Starts (.error refusal)
  | said {path : String} {start : Settings} {fields store : List (String × Document)}
      (hfirst : firstFile? uses = some (some path)) (hfile : ofFile files path = .ok start)
      (hnamed : FileSays files path fields store) (hstated : Stated fields store start) :
      Starts (.ok start)

/-- What comes of arguments in which flags are used. A refusal of the file wins over one
of a flag, of which the leftmost wins, and these over one of the settings as a whole. -/
inductive Reads : Except Refusal Settings → Prop
  | fileRefused {refusal : Refusal} (hstart : Starts files uses (.error refusal)) :
      Reads (.error refusal)
  | flagRefused {start : Settings} {refusal : Refusal} (hstart : Starts files uses (.ok start))
      (hflag : uses.findSome? FlagUse.refusal? = some refusal) : Reads (.error refusal)
  | unusable {start settings : Settings} {reason : Unusable}
      (hstart : Starts files uses (.ok start)) (hflags : uses.findSome? FlagUse.refusal? = none)
      (hoverrides : Overrides uses (start.named drawn) settings) (hunusable : ¬ Usable settings)
      (hreason : settings.validate = .error reason) : Reads (.error (.unusable reason))
  | settled {start settings : Settings} (hstart : Starts files uses (.ok start))
      (hflags : uses.findSome? FlagUse.refusal? = none)
      (hoverrides : Overrides uses (start.named drawn) settings) (husable : Usable settings) :
      Reads (.ok settings)

variable {files drawn uses}

theorem Starts.unique {one two : Except Refusal Settings} (h : Starts files uses one)
    (h' : Starts files uses two) : one = two := by
  cases h <;> cases h' <;> simp_all

theorem Reads.unique {one two : Except Refusal Settings} (h : Reads files drawn uses one)
    (h' : Reads files drawn uses two) : one = two := by
  cases h with
  | fileRefused hstart =>
      cases h' with
      | fileRefused hstart' => exact hstart.unique hstart'
      | _ hstart' => cases hstart.unique hstart'
  | flagRefused hstart hflag =>
      cases h' with
      | fileRefused hstart' => cases hstart.unique hstart'
      | flagRefused hstart' hflag' =>
          cases hflag.symm.trans hflag'
          rfl
      | _ hstart' hflags' => cases hflag.symm.trans hflags'
  | unusable hstart hflags hoverrides hunusable hreason =>
      cases h' with
      | fileRefused hstart' => cases hstart.unique hstart'
      | flagRefused _ hflag' => cases hflags.symm.trans hflag'
      | unusable hstart' _ hoverrides' _ hreason' =>
          cases hstart.unique hstart'
          obtain rfl := hoverrides.unique hoverrides'
          cases hreason.symm.trans hreason'
          rfl
      | settled hstart' _ hoverrides' husable' =>
          cases hstart.unique hstart'
          obtain rfl := hoverrides.unique hoverrides'
          exact absurd husable' hunusable
  | settled hstart hflags hoverrides husable =>
      cases h' with
      | fileRefused hstart' => cases hstart.unique hstart'
      | flagRefused _ hflag' => cases hflags.symm.trans hflag'
      | unusable hstart' _ hoverrides' hunusable' _ =>
          cases hstart.unique hstart'
          obtain rfl := hoverrides.unique hoverrides'
          exact absurd husable hunusable'
      | settled hstart' _ hoverrides' _ =>
          cases hstart.unique hstart'
          rw [hoverrides.unique hoverrides']

variable (drawn uses)

/-- The settings after the flags, if they can be used. -/
def finish (start : Settings) : Except Refusal Settings := do
  let settings ← uses.foldlM FlagUse.apply (start.named drawn)
  settings.validate.mapError .unusable

variable {drawn uses}

theorem reads_finish {start : Settings} (hstart : Starts files uses (.ok start)) :
    Reads files drawn uses (finish drawn uses start) := by
  have hflags := foldlM_apply (start.named drawn) uses
  unfold finish
  cases hrefusal : uses.findSome? FlagUse.refusal? with
  | some refusal =>
      rw [hrefusal] at hflags
      rw [hflags]
      exact .flagRefused hstart hrefusal
  | none =>
      rw [hrefusal] at hflags
      obtain ⟨settings, hsettings, hoverrides⟩ := hflags
      rw [hsettings]
      rcases validate_cases settings with ⟨hvalid, husable⟩ | ⟨reason, hinvalid, hunusable⟩
      · change Reads files drawn uses (settings.validate.mapError .unusable)
        rw [hvalid]
        exact .settled hstart hrefusal hoverrides husable
      · change Reads files drawn uses (settings.validate.mapError .unusable)
        rw [hinvalid]
        exact .unusable hstart hrefusal hoverrides hunusable hinvalid

/-- The settings to start from, by the file that is named. -/
def startFrom (files : String → Option ByteArray) (path : Option String) :
    Except Refusal Settings :=
  match path with
  | none => .ok {}
  | some path => ofFile files path

theorem ofArguments_eq (files : String → Option ByteArray) (arguments : List String)
    (drawn : Option String) :
    ofArguments files arguments drawn =
      configPath? arguments >>= startFrom files >>= finish drawn (flagUses (arguments.drop 1)) := by
  unfold ofArguments
  simp only [applyFlags_eq]
  cases configPath? arguments with
  | error refusal => rfl
  | ok path => cases path <;> rfl

/-- The first file is looked for among all arguments, and found among the flags. -/
theorem starts (files : String → Option ByteArray) {arguments : List String}
    (hprogram : arguments.head? ≠ some Flag.config.text)
    (hvalues : ∀ use ∈ flagUses (arguments.drop 1),
      use.flag ≠ .config → use.value ≠ some Flag.config.text) :
    Starts files (flagUses (arguments.drop 1)) (configPath? arguments >>= startFrom files) := by
  have hpath : configPath? arguments = configPath? (arguments.drop 1) := by
    cases arguments with
    | nil => rfl
    | cons program rest => exact configPath?_cons fun heq => hprogram (congrArg some heq)
  rw [hpath, configPath?_eq hvalues]
  cases hfind : (flagUses (arguments.drop 1)).find? fun use => decide (use.flag = .config) with
  | none => exact .defaults (congrArg (Option.map _) hfind)
  | some use =>
      have hfirst := congrArg (Option.map FlagUse.value) hfind
      obtain ⟨flag, _ | path⟩ := use
      · exact .dangling hfirst
      · change Starts files _ (ofFile files path)
        cases hfile : ofFile files path with
        | error refusal => exact .refused hfirst hfile
        | ok start =>
            obtain ⟨fields, store, hnamed, hstated⟩ := fileSays_of_ofFile hfile
            exact .said hfirst hfile hnamed hstated

/-- What comes of arguments can be read off the flags in them, whatever they are and
whatever the files hold, unless `--config` is the name of the program or the value of
another flag. -/
theorem ofArguments_eq_iff (files : String → Option ByteArray) {arguments : List String}
    (hprogram : arguments.head? ≠ some Flag.config.text)
    (hvalues : ∀ use ∈ flagUses (arguments.drop 1),
      use.flag ≠ .config → use.value ≠ some Flag.config.text)
    (drawn : Option String) (result : Except Refusal Settings) :
    ofArguments files arguments drawn = result ↔
      Reads files drawn (flagUses (arguments.drop 1)) result := by
  have hreads : Reads files drawn (flagUses (arguments.drop 1))
      (ofArguments files arguments drawn) := by
    have hstart := starts files hprogram hvalues
    rw [ofArguments_eq]
    cases houtcome : configPath? arguments >>= startFrom files with
    | error refusal => exact .fileRefused (houtcome ▸ hstart)
    | ok start => exact reads_finish (houtcome ▸ hstart)
  exact ⟨fun h => h ▸ hreads, hreads.unique⟩

end Reading

/-- A file is named behind a flag that comes back later, another file is passed over, and
so is what nobody knows. -/
theorem ofArguments_eq_iff_mixed :
    let files := fun path => if path = "a.json" then some "[\"a\"]".toUTF8 else none
    let arguments := ["cache-node", "--rf", "2", "-v", "--config", "a.json", "--peer",
      "b=127.0.0.1:7001", "--rf", "1", "--config", "b.json", "--capacity", "10"]
    let uses := flagUses (arguments.drop 1)
    let settings : Settings :=
      { nodeId := some "a", peers := [⟨"b", .v4 ⟨127, 0, 0, 1⟩ 7001⟩], replicationFactor := 1,
        store := { capacity := 10 } }
    arguments.head? ≠ some Flag.config.text ∧
      (∀ use ∈ uses, use.flag ≠ .config → use.value ≠ some Flag.config.text) ∧
      Reads files (some "drawn") uses (.ok settings) := by
  intro files arguments uses settings
  have hprogram : arguments.head? ≠ some Flag.config.text := by decide
  have hvalues : ∀ use ∈ uses, use.flag ≠ .config → use.value ≠ some Flag.config.text := by decide
  exact ⟨hprogram, hvalues,
    (ofArguments_eq_iff files hprogram hvalues (some "drawn") (.ok settings)).mp rfl⟩

/-- A value that cannot be read is told before one that is missing. -/
example : ofArguments (fun _ => none) ["cache-node", "--rf", "two", "--segments"] =
    .error (.badNumber .invalidDigit) := rfl

end ReplicatedCache.Settings
