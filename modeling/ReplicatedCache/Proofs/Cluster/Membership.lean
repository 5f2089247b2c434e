import Mathlib.Data.Finset.Sort
import Mathlib.Data.String.Basic
import ReplicatedCache.Proofs.Cluster.Ring

/-! # A ring and its members

Nodes join a ring and leave it in any order, and as often as they like. A member is a
node that has joined and has not left since. As long as the positions of the nodes that
join do not collide, every member owns all of its positions and nobody else owns any.
The ring then depends on its members only: what happened on the way to them, and in
which order, leaves no trace.
-/

namespace ReplicatedCache

/-- What happens to a ring: a node joins it or leaves it. -/
inductive RingStep
  | add (id : String)
  | remove (id : String)

namespace RingStep

def change (members : Finset String) : RingStep → Finset String
  | .add id => insert id members
  | .remove id => members.erase id

def members (steps : List RingStep) : Finset String := steps.foldl change ∅

/-- The nodes that join, each as often as it does. -/
def joined (steps : List RingStep) : List String :=
  steps.filterMap fun
    | .add id => some id
    | .remove _ => none

@[simp]
theorem joined_add (id : String) (steps : List RingStep) :
    joined (.add id :: steps) = id :: joined steps := rfl

@[simp]
theorem joined_remove (id : String) (steps : List RingStep) :
    joined (.remove id :: steps) = joined steps := rfl

/-- The texts by which positions are given to the nodes that join. -/
def labels (virtualNodes : Nat) (steps : List RingStep) : List String :=
  (joined steps).flatMap fun id => (List.range virtualNodes).map (Ring.label id)

/-- No two of these texts have the same position. -/
def Separated (virtualNodes : Nat) (steps : List RingStep) : Prop :=
  ∀ text ∈ labels virtualNodes steps, ∀ other ∈ labels virtualNodes steps,
    Hash.text text = Hash.text other → text = other

theorem label_mem_labels {virtualNodes i : Nat} {steps : List RingStep} {id : String}
    (hid : id ∈ joined steps) (hi : i < virtualNodes) :
    Ring.label id i ∈ labels virtualNodes steps :=
  List.mem_flatMap.mpr ⟨id, hid, List.mem_map_of_mem (List.mem_range.mpr hi)⟩

end RingStep

namespace Ring

/-! ## Labels -/

/-- Where an item occurs last, a list splits in one way only. -/
theorem eq_of_append_cons_eq {α : Type} {item : α} {before after front rest : List α}
    (hafter : item ∉ after) (hrest : item ∉ rest)
    (h : before ++ item :: after = front ++ item :: rest) : before = front ∧ after = rest := by
  rcases List.append_eq_append_iff.mp h with ⟨middle, hfront, hsplit⟩ | ⟨middle, hbefore, hsplit⟩
  · cases middle with
    | nil => exact ⟨by simpa using hfront.symm, (List.cons.inj hsplit).2⟩
    | cons first middle =>
        have hlater : after = middle ++ item :: rest := (List.cons.inj hsplit).2
        exact absurd (hlater ▸ List.mem_append_right _ List.mem_cons_self) hafter
  · cases middle with
    | nil => exact ⟨by simpa using hbefore, (List.cons.inj hsplit).2.symm⟩
    | cons first middle =>
        have hlater : rest = middle ++ item :: after := (List.cons.inj hsplit).2
        exact absurd (hlater ▸ List.mem_append_right _ List.mem_cons_self) hrest

/-- A label tells its node and its number, whatever the id looks like: the number is
what follows the last number sign. -/
theorem label_injective {id other : String} {i j : Nat} (h : label id i = label other j) :
    id = other ∧ i = j := by
  have hdigits (n : Nat) : '#' ∉ Nat.toDigits 10 n :=
    fun hmem => absurd (Nat.isDigit_of_mem_toDigits (by decide) (by decide) hmem) (by decide)
  have hchars : id.toList ++ '#' :: Nat.toDigits 10 i =
      other.toList ++ '#' :: Nat.toDigits 10 j := by
    simpa [label, String.toList_append, Nat.toString_eq_repr, Nat.toList_repr] using
      congrArg String.toList h
  obtain ⟨hid, hnumber⟩ := eq_of_append_cons_eq (hdigits i) (hdigits j) hchars
  refine ⟨String.toList_inj.mp hid, ?_⟩
  simpa using congrArg (Nat.ofDigitChars 10 · 0) hnumber

/-! ## Owners -/

def apply (ring : Ring) : RingStep → Ring
  | .add id => ring.add id
  | .remove id => ring.remove id

def run (ring : Ring) (steps : List RingStep) : Ring := steps.foldl apply ring

theorem virtualNodes_apply (ring : Ring) (step : RingStep) :
    (ring.apply step).virtualNodes = ring.virtualNodes := by
  cases step <;> rfl

/-- The number of positions per node is fixed when the ring is made. -/
theorem virtualNodes_run (ring : Ring) (steps : List RingStep) :
    (ring.run steps).virtualNodes = ring.virtualNodes := by
  induction steps generalizing ring with
  | nil => rfl
  | cons step steps ih => exact (ih _).trans (ring.virtualNodes_apply step)

theorem placesOf_of_virtualNodes {ring other : Ring}
    (h : other.virtualNodes = ring.virtualNodes) (id : String) :
    other.placesOf id = ring.placesOf id := by
  rw [placesOf, placesOf, h]

/-- The places of a node are those of its labels. -/
theorem mem_placesOf_iff {ring : Ring} {id : String} {p : UInt64} :
    p ∈ ring.placesOf id ↔ ∃ i < ring.virtualNodes, place id i = p := by
  simp [placesOf]

/-- A node that joins owns all of its positions. -/
theorem getElem?_add (ring : Ring) (id : String) (p : UInt64) :
    (ring.add id).owners[p]? = if p ∈ ring.placesOf id then some id else ring.owners[p]? := by
  have hplaces (places : List UInt64) (owners : Std.ExtTreeMap UInt64 String compare) :
      (places.foldl (fun owners p => owners.insert p id) owners)[p]? =
        if p ∈ places then some id else owners[p]? := by
    induction places generalizing owners with
    | nil => simp
    | cons first places ih =>
        rw [List.foldl_cons, ih, Std.ExtTreeMap.getElem?_insert]
        by_cases heq : p = first
        · simp [heq]
        · simp [heq, Ne.symm heq]
  exact hplaces _ _

/-- Releasing a place frees it only if the node still owns it: a later owner is not driven
out. -/
theorem getElem?_release (id : String) (owners : Std.ExtTreeMap UInt64 String compare)
    (place p : UInt64) :
    (release id owners place)[p]? =
      if p = place ∧ owners[p]? = some id then none else owners[p]? := by
  rw [release]
  by_cases howner : owners[place]? = some id
  · rw [if_pos howner, Std.ExtTreeMap.getElem?_erase]
    by_cases heq : p = place
    · simp [heq, howner]
    · simp [heq, Ne.symm heq]
  · rw [if_neg howner, if_neg]
    rintro ⟨rfl, howned⟩
    exact howner howned

/-- A node that leaves frees those of its positions that it owns. -/
theorem getElem?_remove (ring : Ring) (id : String) (p : UInt64) :
    (ring.remove id).owners[p]? =
      if p ∈ ring.placesOf id ∧ ring.owners[p]? = some id then none else ring.owners[p]? := by
  have hplaces (places : List UInt64) (owners : Std.ExtTreeMap UInt64 String compare) :
      (places.foldl (release id) owners)[p]? =
        if p ∈ places ∧ owners[p]? = some id then none else owners[p]? := by
    induction places generalizing owners with
    | nil => simp
    | cons first places ih =>
        rw [List.foldl_cons, ih, getElem?_release]
        by_cases heq : p = first
        · subst heq
          by_cases howned : owners[p]? = some id <;> simp [howned]
        · simp [heq]
  exact hplaces _ _

/-! ## Members own their positions -/

/-- The members own all of their positions, and nobody else owns any. -/
def OwnedBy (ring : Ring) (members : Finset String) : Prop :=
  ∀ p id, ring.owners[p]? = some id ↔ id ∈ members ∧ p ∈ ring.placesOf id

/-- No two of some nodes have a position in common. -/
def Apart (ring : Ring) (ids : List String) : Prop :=
  ∀ id ∈ ids, ∀ other ∈ ids, ∀ p ∈ ring.placesOf id, p ∈ ring.placesOf other → id = other

variable {ring : Ring} {members : Finset String} {id : String}

/-- When a node joins whose places are nobody else's, the ring belongs to the members and to
it. -/
theorem OwnedBy.add (h : ring.OwnedBy members)
    (hfree : ∀ other ∈ members, ∀ p ∈ ring.placesOf id, p ∈ ring.placesOf other → id = other) :
    (ring.add id).OwnedBy (insert id members) := by
  intro p other
  change _ ↔ other ∈ insert id members ∧ p ∈ ring.placesOf other
  rw [getElem?_add, Finset.mem_insert]
  split
  next hplace =>
    constructor
    · rintro ⟨⟩
      exact ⟨Or.inl rfl, hplace⟩
    · rintro ⟨rfl | hmember, hother⟩
      · rfl
      · rw [hfree other hmember p hplace hother]
  next hplace =>
    rw [h p other]
    refine and_congr_left fun hother => (or_iff_right ?_).symm
    rintro rfl
    exact hplace hother

/-- When a node leaves, the ring belongs to the others. -/
theorem OwnedBy.remove (h : ring.OwnedBy members) (id : String) :
    (ring.remove id).OwnedBy (members.erase id) := by
  intro p other
  change _ ↔ other ∈ members.erase id ∧ p ∈ ring.placesOf other
  rw [getElem?_remove, Finset.mem_erase, and_assoc, ← h p other]
  split
  next hfreed =>
    simp only [reduceCtorEq, false_iff, hfreed.2, Option.some.injEq, not_and]
    exact fun hne heq => hne heq.symm
  next hkept =>
    refine (and_iff_right_of_imp fun howned => ?_).symm
    rintro rfl
    exact hkept ⟨((h p other).mp howned).2, howned⟩

/-- If all the nodes that ever join have places apart, the ring belongs to its members at every
moment of its history. -/
theorem OwnedBy.run {known : List String} (h : ring.OwnedBy members) (hapart : ring.Apart known)
    (hmembers : ∀ id ∈ members, id ∈ known) {steps : List RingStep}
    (hjoined : ∀ id ∈ RingStep.joined steps, id ∈ known) :
    (ring.run steps).OwnedBy (steps.foldl RingStep.change members) := by
  induction steps generalizing ring members with
  | nil => exact h
  | cons step steps ih =>
      have hplaces := placesOf_of_virtualNodes (ring.virtualNodes_apply step)
      have hstill : (ring.apply step).Apart known := by
        intro id hid other hother p
        rw [hplaces, hplaces]
        exact hapart id hid other hother p
      cases step with
      | add id =>
          rw [RingStep.joined_add] at hjoined
          have hid : id ∈ known := hjoined id List.mem_cons_self
          refine ih (h.add fun other hother => hapart id hid other (hmembers other hother)) hstill
            ?_ ?_
          · intro other hother
            rcases Finset.mem_insert.mp hother with rfl | hmember
            · exact hid
            · exact hmembers other hmember
          · exact fun other hother => hjoined other (List.mem_cons_of_mem id hother)
      | remove id =>
          rw [RingStep.joined_remove] at hjoined
          refine ih (h.remove id) hstill ?_ hjoined
          exact fun other hother => hmembers other (Finset.mem_of_mem_erase hother)

/-- Labels that hash apart give the nodes places apart. -/
theorem apart_of_separated {virtualNodes : Nat} {steps : List RingStep}
    (h : RingStep.Separated (max 1 virtualNodes) steps) :
    (ofVirtualNodes virtualNodes).Apart (RingStep.joined steps) := by
  intro id hid other hother p hp hp'
  obtain ⟨i, hi, rfl⟩ := mem_placesOf_iff.mp hp
  obtain ⟨j, hj, hcollide⟩ := mem_placesOf_iff.mp hp'
  have hsame := h (label id i) (RingStep.label_mem_labels hid hi) (label other j)
    (RingStep.label_mem_labels hother hj) hcollide.symm
  exact (label_injective hsame).1

/-- Whatever happened, the members own their positions. -/
theorem ownedBy_members {virtualNodes : Nat} {steps : List RingStep}
    (h : RingStep.Separated (max 1 virtualNodes) steps) :
    ((ofVirtualNodes virtualNodes).run steps).OwnedBy (RingStep.members steps) := by
  have hempty : (ofVirtualNodes virtualNodes).OwnedBy ∅ := by
    intro p id
    simp [ofVirtualNodes]
  exact hempty.run (apart_of_separated h) (by simp) fun _ hid => hid

/-! ## What a ring tells of its members -/

/-- The ring names its members, and nobody else. -/
structure Reports (ring : Ring) (members : Finset String) : Prop where
  nodes_eq : ring.nodes = members.sort (· ≤ ·)
  nodeCount_eq : ring.nodeCount = members.card
  contains_eq : ∀ id, ring.contains id = decide (id ∈ members)

theorem mem_ownerList_iff : id ∈ ring.ownerList ↔ ∃ p : UInt64, ring.owners[p]? = some id := by
  simp [ownerList, Std.ExtTreeMap.mem_toList_iff_getElem?_eq_some]

theorem mem_nodes_iff : id ∈ ring.nodes ↔ id ∈ ring.ownerList := by
  rw [nodes, List.mem_mergeSort, List.mem_eraseDups]

theorem pairwise_nodes (ring : Ring) : ring.nodes.Pairwise (· ≤ ·) := by
  refine (List.pairwise_mergeSort ?_ ?_ _).imp of_decide_eq_true
  · intro a b c hab hbc
    exact decide_eq_true (String.le_trans (of_decide_eq_true hab) (of_decide_eq_true hbc))
  · intro a b
    simpa using String.le_total a b

/-- A ring that belongs to its members reports them, sorted and each once. -/
theorem OwnedBy.reports (h : ring.OwnedBy members) (hpos : 0 < ring.virtualNodes) :
    ring.Reports members := by
  have howner (id : String) : id ∈ ring.ownerList ↔ id ∈ members := by
    rw [mem_ownerList_iff]
    constructor
    · rintro ⟨p, howned⟩
      exact ((h p id).mp howned).1
    · exact fun hmember => ⟨place id 0, (h _ id).mpr ⟨hmember, mem_placesOf_iff.mpr ⟨0, hpos, rfl⟩⟩⟩
  have hperm : ring.nodes.Perm (members.sort (· ≤ ·)) := by
    refine (List.perm_ext_iff_of_nodup ring.nodup_nodes (members.sort_nodup _)).mpr fun id => ?_
    rw [mem_nodes_iff, howner, Finset.mem_sort]
  have hnodes : ring.nodes = members.sort (· ≤ ·) :=
    hperm.eq_of_pairwise (fun _ _ _ _ => String.le_antisymm) ring.pairwise_nodes
      (members.pairwise_sort _)
  constructor
  · exact hnodes
  · rw [nodeCount, hnodes, Finset.length_sort]
  · intro id
    rw [contains, Bool.eq_iff_iff, List.contains_iff_mem, decide_eq_true_iff, howner]

/-- Rings with the same members are the same, however they came about, if no two labels
of the nodes that joined have the same position. They place every key alike and name
exactly their members. No two labels are ever the same text. -/
theorem run_eq_of_members_eq (virtualNodes : Nat) {first second : List RingStep}
    (hfirst : RingStep.Separated (max 1 virtualNodes) first)
    (hsecond : RingStep.Separated (max 1 virtualNodes) second)
    (hsame : RingStep.members first = RingStep.members second) :
    let ring := (ofVirtualNodes virtualNodes).run first
    let other := (ofVirtualNodes virtualNodes).run second
    (∀ key count, ring.replicas key count = other.replicas key count) ∧
      ring.Reports (RingStep.members first) ∧ other.Reports (RingStep.members second) ∧
      ∀ id i other j, label id i = label other j → id = other ∧ i = j := by
  intro ring other
  have howned : ring.OwnedBy (RingStep.members first) := ownedBy_members hfirst
  have howned' : other.OwnedBy (RingStep.members second) := ownedBy_members hsecond
  have hring : ring.virtualNodes = max 1 virtualNodes := virtualNodes_run _ first
  have hother : other.virtualNodes = max 1 virtualNodes := virtualNodes_run _ second
  have howners : ring.owners = other.owners := by
    refine Std.ExtTreeMap.ext_getElem? fun p => Option.ext fun id => ?_
    rw [howned p id, howned' p id, hsame, placesOf_of_virtualNodes (hring.trans hother.symm)]
  refine ⟨fun key count => ?_, howned.reports ?_, howned'.reports ?_, ?_⟩
  · rw [replicas, replicas, walk, walk, howners]
  · omega
  · omega
  · exact fun id i other j => label_injective

/-- A node that leaves and comes back, and a guest that comes and goes, leave no trace. -/
theorem run_eq_of_members_eq_guests :
    let first : List RingStep := [.add "a", .add "b", .remove "a", .add "b", .add "a"]
    let second : List RingStep := [.add "b#0", .add "b", .remove "b#0", .add "a"]
    RingStep.Separated (max 1 2) first ∧ RingStep.Separated (max 1 2) second ∧
      RingStep.members first = RingStep.members second ∧
      ∀ key count, ((ofVirtualNodes 2).run first).replicas key count =
        ((ofVirtualNodes 2).run second).replicas key count := by
  intro first second
  have hfirst : RingStep.Separated (max 1 2) first := by
    unfold RingStep.Separated
    decide +kernel
  have hsecond : RingStep.Separated (max 1 2) second := by
    unfold RingStep.Separated
    decide +kernel
  have hmembers : RingStep.members first = RingStep.members second := by decide
  exact ⟨hfirst, hsecond, hmembers, (run_eq_of_members_eq 2 hfirst hsecond hmembers).1⟩

end Ring

end ReplicatedCache
