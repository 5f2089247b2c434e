import ReplicatedCache.Proofs.Segment.Storing

/-! # Segments that differ in their tokens

A segment mirrors another one when it holds the same keys in the same order, with the
same values and deadlines under renamed tokens, and asks a policy in the same state.
No operation of a segment looks at a token, so whatever is done to both of them keeps
them so, and both give the same answer.
-/

namespace ReplicatedCache

def Entry.renamed (rename : Token → Token) (entry : Entry) : Entry :=
  { entry with token := rename entry.token }

@[simp] theorem Entry.expired_renamed (rename : Token → Token) (entry : Entry) (now : Instant) :
    (entry.renamed rename).expired now = entry.expired now := rfl

/-- A key and its entry with the token renamed. -/
def renamedBinding (rename : Token → Token) (binding : String × Entry) : String × Entry :=
  (binding.1, binding.2.renamed rename)

namespace Segment

/-- A segment, and one that holds the same under renamed tokens. The tokens that are
renamed are all of a kind. -/
structure Mirrors (kind : Token → Prop) (rename : Token → Token)
    (segment mirror : Segment StandardPolicy) : Prop where
  capacity_eq : mirror.capacity = segment.capacity
  policy_eq : mirror.policy = segment.policy
  toList_eq : mirror.toList = segment.toList.map (renamedBinding rename)
  of_kind : ∀ binding ∈ segment.toList, kind binding.2.token

namespace Mirrors

variable {kind : Token → Prop} {rename : Token → Token} {segment mirror : Segment StandardPolicy}
  (h : Mirrors kind rename segment mirror)
include h

/-! ## What is seen of both -/

theorem size_eq : mirror.size = segment.size := by
  rw [size_eq_length, h.toList_eq, List.length_map, size_eq_length]

theorem keys_eq : mirror.keys = segment.keys := by
  rw [Segment.keys_eq, h.toList_eq, List.map_map, Segment.keys_eq]
  rfl

theorem peek_eq (key : String) :
    mirror.peek key = (segment.peek key).map (Entry.renamed rename) := by
  cases hpeek : segment.peek key with
  | none =>
      rw [peek_eq_none_iff, ← h.keys_eq] at hpeek
      exact peek_eq_none_iff.mpr hpeek
  | some entry =>
      apply peek_eq_some_iff.mpr
      rw [h.toList_eq]
      exact List.mem_map_of_mem (peek_eq_some_iff.mp hpeek)

theorem eldest?_eq : mirror.residents.eldest? = segment.residents.eldest? := by
  rw [RecencyMap.eldest?_eq, RecencyMap.eldest?_eq]
  exact congrArg List.head? h.keys_eq

theorem contains_eq (key : String) :
    mirror.residents.contains key = segment.residents.contains key := by
  rw [Bool.eq_iff_iff, contains_residents_iff, contains_residents_iff, h.keys_eq]

theorem occupancy_eq (key : String) : mirror.occupancy key = segment.occupancy key := by
  rw [occupancy, occupancy, h.size_eq, h.contains_eq, h.eldest?_eq]

/-! ## Operations on both -/

theorem filter_ne (key : String) :
    mirror.toList.filter (fun binding => decide (binding.1 ≠ key)) =
      (segment.toList.filter fun binding => decide (binding.1 ≠ key)).map
        (renamedBinding rename) := by
  rw [h.toList_eq, List.filter_map]
  rfl

theorem remove (key : String) :
    Mirrors kind rename (segment.remove key).1 (mirror.remove key).1 := by
  refine ⟨?_, ?_, ?_, ?_⟩
  · rw [capacity_remove, capacity_remove, h.capacity_eq]
  · rw [policy_remove, policy_remove, h.policy_eq]
  · rw [toList_remove, toList_remove, h.filter_ne]
  · intro binding hmem
    rw [toList_remove] at hmem
    exact h.of_kind binding (List.mem_of_mem_filter hmem)

theorem place {entry : Entry} (hentry : kind entry.token) (key : String) :
    Mirrors kind rename (segment.place key entry) (mirror.place key (entry.renamed rename)) := by
  refine ⟨h.capacity_eq, h.policy_eq, ?_, ?_⟩
  · rw [toList_place, toList_place, h.filter_ne, List.map_append]
    rfl
  · intro binding hmem
    rw [toList_place, List.mem_append, List.mem_singleton] at hmem
    rcases hmem with hold | rfl
    · exact h.of_kind binding (List.mem_of_mem_filter hold)
    · exact hentry

theorem insert {entry : Entry} (hentry : kind entry.token) (key : String) :
    Mirrors kind rename (segment.insert key entry) (mirror.insert key (entry.renamed rename)) := by
  have hplace := h.place hentry key
  refine ⟨hplace.capacity_eq, ?_, hplace.toList_eq, hplace.of_kind⟩
  change StandardPolicy.recordAccess mirror.policy key =
    StandardPolicy.recordAccess segment.policy key
  rw [h.policy_eq]

theorem get (key : String) : Mirrors kind rename (segment.get key).1 (mirror.get key).1 := by
  rw [get_fst, get_fst, h.peek_eq]
  cases hpeek : segment.peek key with
  | none => exact h
  | some entry => exact h.insert (h.of_kind _ (peek_eq_some_iff.mp hpeek)) key

/-- Both shed the same keys. -/
theorem shed (count : Nat) :
    Mirrors kind rename (segment.shed count).1 (mirror.shed count).1 ∧
      (mirror.shed count).2 = (segment.shed count).2 := by
  obtain ⟨hlist, hkeys⟩ := toList_shed segment count
  obtain ⟨hlist', hkeys'⟩ := toList_shed mirror count
  refine ⟨⟨?_, ?_, ?_, ?_⟩, ?_⟩
  · rw [capacity_shed, capacity_shed, h.capacity_eq]
  · rw [policy_shed, policy_shed, h.policy_eq]
  · rw [hlist', hlist, h.toList_eq, List.map_drop]
  · intro binding hmem
    rw [hlist] at hmem
    exact h.of_kind binding (List.mem_of_mem_drop hmem)
  · rw [hkeys', hkeys, h.keys_eq]

theorem shrink : Mirrors kind rename segment.shrink.1 mirror.shrink.1 ∧
    mirror.shrink.2 = segment.shrink.2 := by
  unfold Segment.shrink
  rw [h.size_eq, h.capacity_eq]
  exact h.shed _

/-- The policies have seen the same, so they say the same. -/
theorem askAdmission (key : String) :
    Mirrors kind rename (segment.askAdmission key).1 (mirror.askAdmission key).1 ∧
      (mirror.askAdmission key).2 = (segment.askAdmission key).2 := by
  have hpolicy : StandardPolicy.admission mirror.policy key (mirror.occupancy key)
      mirror.capacity =
        StandardPolicy.admission segment.policy key (segment.occupancy key) segment.capacity := by
    rw [h.policy_eq, h.occupancy_eq, h.capacity_eq]
  obtain ⟨hsame, hanswer⟩ := Prod.ext_iff.mp hpolicy
  exact ⟨⟨h.capacity_eq, hsame, h.toList_eq, h.of_kind⟩, hanswer⟩

theorem put {entry : Entry} (hentry : kind entry.token) (key : String) :
    Mirrors kind rename (segment.put key entry).1 (mirror.put key (entry.renamed rename)).1 ∧
      (mirror.put key (entry.renamed rename)).2 = (segment.put key entry).2 := by
  obtain ⟨hmirrors, hsame⟩ := h.askAdmission key
  rcases hask : segment.askAdmission key with ⟨asked, answer⟩
  rcases hask' : mirror.askAdmission key with ⟨asked', answer'⟩
  rw [hask, hask'] at hmirrors hsame
  dsimp only at hmirrors hsame
  subst hsame
  cases answer' with
  | accept =>
      obtain ⟨hafter, hvictims⟩ := (hmirrors.insert hentry key).shrink
      rw [put_of_accept hask, put_of_accept hask', hvictims]
      exact ⟨hafter, rfl⟩
  | evict victim =>
      have hremoved : (asked'.remove victim).2.isSome = (asked.remove victim).2.isSome := by
        rw [remove_snd, remove_snd, hmirrors.peek_eq, Option.isSome_map]
      obtain ⟨hafter, hvictims⟩ := ((hmirrors.remove victim).place hentry key).shrink
      rw [put_of_evict hask, put_of_evict hask', hvictims, hremoved]
      exact ⟨hafter, rfl⟩
  | reject =>
      rw [put_of_reject hask, put_of_reject hask']
      exact ⟨hmirrors, rfl⟩

theorem makeRoom (key : String) :
    Mirrors kind rename (segment.makeRoom key).1 (mirror.makeRoom key).1 ∧
      (mirror.makeRoom key).2 = (segment.makeRoom key).2 := by
  unfold Segment.makeRoom
  rw [h.contains_eq, h.capacity_eq, h.size_eq]
  split
  next => exact h.shed 1
  next => exact ⟨h, rfl⟩

theorem putForce {entry : Entry} (hentry : kind entry.token) (key : String) :
    Mirrors kind rename (segment.putForce key entry).1
        (mirror.putForce key (entry.renamed rename)).1 ∧
      (mirror.putForce key (entry.renamed rename)).2 = (segment.putForce key entry).2 := by
  obtain ⟨hroom, hearly⟩ := h.makeRoom key
  obtain ⟨hafter, hlate⟩ := (hroom.insert hentry key).shrink
  rw [putForce_eq, putForce_eq, hearly, hlate]
  exact ⟨hafter, rfl⟩

theorem clear : Mirrors kind rename segment.clear.1 mirror.clear.1 := by
  refine ⟨h.capacity_eq, ?_, rfl, fun binding hmem => absurd hmem List.not_mem_nil⟩
  rw [policy_clear, policy_clear, h.policy_eq]

end Mirrors

end Segment

end ReplicatedCache
