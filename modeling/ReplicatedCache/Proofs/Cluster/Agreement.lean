import ReplicatedCache.Proofs.Cluster.FreshTokens

/-! # Replicas that miss nothing

If every node is a replica of every key, all nodes answer and no set is turned
down or makes a key leave, all engines carry out the same writes. Reads and sweeps
reach single engines, so that what is over lingers here and is gone there; what is
live, and the token that comes next, is the same everywhere after every step.
-/

namespace ReplicatedCache

variable {A ρ : Type}

namespace Engine

variable {engine other : Engine A} {now : Instant} {key : String} {entry : Entry}

/-- A dump lists exactly what can be looked up at its time. -/
theorem mem_dump_iff (h : engine.Sound) :
    (key, entry) ∈ engine.dump now ↔ engine.lookup now key = some entry := by
  rw [dump, List.mem_filter, h.shards.mem_entries_iff, lookup, Option.filter_eq_some_iff]

theorem nodup_dump (h : engine.Sound) (now : Instant) : (engine.dump now).Nodup :=
  h.shards.entries_nodup.filter _

/-- Engines that show the same entries dump them, each in its own order. -/
theorem dump_perm (h : engine.Sound) (h' : other.Sound)
    (hsame : ∀ key, other.lookup now key = engine.lookup now key) :
    (other.dump now).Perm (engine.dump now) := by
  refine (List.perm_ext_iff_of_nodup (nodup_dump h' now) (nodup_dump h now)).mpr ?_
  rintro ⟨key, entry⟩
  rw [mem_dump_iff h', mem_dump_iff h, hsame]

theorem lookup_create (config : EngineConfig) (audience : A) (now : Instant) (key : String) :
    (create config audience).lookup now key = none :=
  lookup_of_find (Shards.find?_create _ _ _ key)

/-- New engines are alike, whoever listens to them. -/
theorem alike_create (config : EngineConfig) (first second : A) (now : Instant) :
    Alike now (create config first) (create config second) :=
  ⟨rfl, fun {later} key _ => (lookup_create config second later key).trans
    (lookup_create config first later key).symm⟩

end Engine

variable [Hears A] {kind : A → Prop} {heard : A → List ρ} {record : Signal → List ρ}

namespace Cluster

variable {cluster : Cluster (Engine A)} {start now : Instant}

/-- Steps that hand no hints over disturb nobody. -/
theorem undisturbed_of_timely {steps : List (ClusterStep (Engine A))}
    (hsteps : ClusterStep.Timely ClusterStep.At start steps now)
    (hnever : ∀ step ∈ steps, ∀ id, ¬ step.HandsOverTo id) (cluster : Cluster (Engine A)) :
    Undisturbed start cluster steps now := by
  induction steps generalizing cluster start with
  | nil => exact hsteps
  | cons step steps ih =>
      obtain ⟨time, hle, hstep, hrest⟩ := hsteps
      refine ⟨time, hle, hstep, fun id hhands => ?_, ?_⟩
      · exact absurd hhands (hnever step List.mem_cons_self id)
      · exact ih hrest (fun step hmem => hnever step (List.mem_cons_of_mem _ hmem)) _

omit [Hears A] in
/-- New engines of one configuration are in step. -/
theorem InStep.of_created {config : EngineConfig}
    (h : ∀ id ∈ cluster.ring.nodes, ∃ audience, kind audience ∧
      cluster.nodes[id]? = some (Engine.create config audience)) :
    cluster.InStep kind now := by
  constructor
  · intro id hid
    obtain ⟨audience, hkind, hnode⟩ := h id hid
    exact ⟨_, hnode, hkind, Engine.sound_create config audience⟩
  · intro id hid other hother engine twin hengine htwin
    obtain ⟨first, -, hfirst⟩ := h id hid
    obtain ⟨second, -, hsecond⟩ := h other hother
    obtain rfl := Option.some.inj (hfirst.symm.trans hengine)
    obtain rfl := Option.some.inj (hsecond.symm.trans htwin)
    exact Engine.alike_create config first second now

/-- If every node is a replica of every key, all engines are new and of the same
configuration, all of them answer, no hints are handed over, and every set is stored
without making a key leave, then after every run all engines hold the same live
entries, with their values, deadlines and tokens, and mint the same token next. -/
theorem replicas_agree (hw : ∀ now, Watches kind heard record (Hears.hear now))
    (hcovers : cluster.ring.nodes.length ≤ cluster.replicationFactor) (config : EngineConfig)
    (hnew : ∀ id ∈ cluster.ring.nodes, ∃ audience, kind audience ∧
      cluster.nodes[id]? = some (Engine.create config audience))
    {steps : List (ClusterStep (Engine A))}
    (hsteps : ClusterStep.Timely ClusterStep.At start steps now)
    (hnever : ∀ step ∈ steps, ∀ id, ¬ step.HandsOverTo id)
    (hfits : cluster.RunFits PutOutcome.Plain steps) :
    ∀ id ∈ cluster.ring.nodes, ∀ other ∈ cluster.ring.nodes, ∃ engine twin,
      (cluster.run steps).nodes[id]? = some engine ∧
      (cluster.run steps).nodes[other]? = some twin ∧
      twin.nextToken = engine.nextToken ∧
      ∀ later, now ≤ later →
        (∀ key, twin.lookup later key = engine.lookup later key) ∧
        (twin.dump later).Perm (engine.dump later) := by
  -- What is alike at an instant is alike at every later one, whichever replica was swept.
  have hlockstep : cluster.Lockstep kind steps now :=
    ⟨hcovers, ⟨start, .of_created hnew, undisturbed_of_timely hsteps hnever cluster⟩, hfits⟩
  have hinstep := hlockstep.inStep hw
  have hring : (cluster.run steps).ring = cluster.ring :=
    congrArg Prod.fst (layout_run cluster steps)
  intro id hid other hother
  rw [← hring] at hid hother
  obtain ⟨engine, hengine, hsettled⟩ := hinstep.settled id hid
  obtain ⟨twin, htwin, hsettled'⟩ := hinstep.settled other hother
  have halike := hinstep.alike id hid other hother engine twin hengine htwin
  refine ⟨engine, twin, hengine, htwin, halike.nextToken_eq, fun later hle => ?_⟩
  have hsame (key : String) : twin.lookup later key = engine.lookup later key :=
    halike.lookup_eq key hle
  exact ⟨hsame, Engine.dump_perm hsettled.sound hsettled'.sound hsame⟩

/-- A value is set for ten milliseconds. When it is over it is read at its leader,
swept out at one follower and left at the other, and its key is deleted. -/
theorem replicas_agree_about_expired :
    let steps := [.write 0 (.set "k" "v".toUTF8 (.ofMillis 10)), .getWithToken 10 "k",
      .shift "c" fun engine => engine.sweep 10, .write 20 (.delete "k")]
    ∃ engine twin, ((trio 2).run steps).nodes["b"]? = some engine ∧
      ((trio 2).run steps).nodes["a"]? = some twin ∧ twin.nextToken = engine.nextToken ∧
      ∀ key, twin.lookup 20 key = engine.lookup 20 key := by
  intro steps
  obtain ⟨hcovers, -⟩ := inStep_trio 0
  have hreplica {id : String} (hid : id ∈ ["b", "c", "a"]) : id ∈ (trio 2).ring.nodes := by
    rw [← replicas_trio_k] at hid
    exact Ring.mem_nodes_of_mem_replicas hid
  have hnode (id : String) (hid : id ∈ (trio 2).ring.nodes) :
      (trio 2).nodes[id]? = some unheard := by
    rw [← node_account, account_trio_of_replica ((Ring.mem_replicas_iff _ "k" id hcovers).mpr hid)]
  have hset : (trio 2).StepFits PutOutcome.Plain
      (.write 0 (.set "k" "v".toUTF8 (.ofMillis 10))) := by
    apply fits_set
    intro id hid engine hengine
    obtain rfl := Option.some.inj
      ((hnode id (Ring.mem_nodes_of_mem_replicas hid)).symm.trans hengine)
    exact ⟨settled_unheard.sound, hasRoom_unheard "k"⟩
  have hfits : (trio 2).RunFits PutOutcome.Plain steps :=
    ⟨hset, trivial, trivial, fun _ _ _ _ => trivial, trivial⟩
  have hsteps : ClusterStep.Timely ClusterStep.At 0 steps 20 :=
    ⟨0, by decide, rfl, 10, by decide, rfl, 10, by decide, rfl, 20, by decide, rfl,
      Int64.le_refl 20⟩
  have hnever : ∀ step ∈ steps, ∀ id, ¬ step.HandsOverTo id := by
    simp [steps, ClusterStep.HandsOverTo]
  obtain ⟨engine, twin, hengine, htwin, htoken, hsame⟩ :=
    replicas_agree watches_nobody hcovers ⟨1000, 4, .lru⟩
      (fun id hid => ⟨(), trivial, hnode id hid⟩) hsteps hnever hfits
      "b" (hreplica (by decide)) "a" (hreplica (by decide))
  exact ⟨engine, twin, hengine, htwin, htoken, (hsame 20 (by decide)).1⟩

end Cluster

end ReplicatedCache
