import ReplicatedCache.Proofs.Recency.Line
import ReplicatedCache.Proofs.Segment.Roster
import ReplicatedCache.Proofs.Segment.Storing

/-! # Segments do what rosters do

Whatever is asked of a segment, and whatever its policy answers, the segment answers as
a roster does, keeps the same entries in the same order, and tells its policy the same.
All that the arena adds is a line of links, which leads through the keys of the roster.
-/

namespace ReplicatedCache

variable {π : Type}

namespace Segment

/-! ## One operation -/

/-- A segment holds the entries of a roster, and its policy has heard some calls. -/
structure Tracks (segment : Segment (Traced π)) (roster : Roster)
    (heard : List PolicyCall) : Prop where
  capacity_eq : segment.capacity = roster.capacity
  toList_eq : segment.toList = roster.entries
  calls_eq : segment.policy.calls = heard

namespace Tracks

variable {segment : Segment (Traced π)} {roster : Roster} {heard : List PolicyCall}

theorem keys_eq (h : segment.Tracks roster heard) : segment.keys = roster.keys := by
  rw [Segment.keys_eq, h.toList_eq, Roster.keys]

theorem size_eq (h : segment.Tracks roster heard) : segment.size = roster.entries.length := by
  rw [size_eq_length, h.toList_eq]

theorem peek_eq (h : segment.Tracks roster heard) (key : String) :
    segment.peek key = roster.find? key := by
  rw [Roster.find?]
  cases hfind : roster.entries.find? fun binding => decide (binding.1 = key) with
  | none =>
      rw [Option.map_none, peek_eq_none_iff, h.keys_eq, Roster.keys, List.mem_map]
      rintro ⟨binding, hmem, rfl⟩
      simpa using List.find?_eq_none.mp hfind binding hmem
  | some binding =>
      have hkey : binding.1 = key := by simpa using List.find?_some hfind
      rw [Option.map_some, peek_eq_some_iff, h.toList_eq, ← hkey]
      exact List.mem_of_find?_eq_some hfind

theorem eldest?_eq (h : segment.Tracks roster heard) :
    segment.residents.eldest? = roster.keys.head? := by
  rw [← h.keys_eq]
  exact segment.residents.eldest?_eq

theorem contains_eq (h : segment.Tracks roster heard) (key : String) :
    segment.residents.contains key = decide (key ∈ roster.keys) := by
  rw [Bool.eq_iff_iff, decide_eq_true_iff, contains_residents_iff, h.keys_eq]

theorem occupancy_eq (h : segment.Tracks roster heard) (key : String) :
    segment.occupancy key = roster.occupancy key := by
  rw [occupancy, h.size_eq, h.contains_eq, h.eldest?_eq, Roster.occupancy]

theorem place (h : segment.Tracks roster heard) (key : String) (entry : Entry) :
    (segment.place key entry).Tracks (roster.renew key entry) heard := by
  refine ⟨h.capacity_eq, ?_, h.calls_eq⟩
  rw [toList_place, h.toList_eq]
  rfl

variable [EvictionPolicy π]

theorem recordAccess (h : segment.Tracks roster heard) (key : String) :
    (segment.recordAccess key).Tracks roster (heard ++ [.access key]) :=
  ⟨h.capacity_eq, h.toList_eq, congrArg (fun calls => calls ++ [PolicyCall.access key]) h.calls_eq⟩

theorem insert (h : segment.Tracks roster heard) (key : String) (entry : Entry) :
    (segment.insert key entry).Tracks (roster.renew key entry) (heard ++ [.access key]) :=
  (h.place key entry).recordAccess key

theorem remove (h : segment.Tracks roster heard) (key : String) :
    (segment.remove key).1.Tracks (roster.erase key)
      (heard ++ (roster.held key).map .removal) := by
  refine ⟨by rw [capacity_remove, h.capacity_eq]; rfl, by rw [toList_remove, h.toList_eq]; rfl, ?_⟩
  rw [Roster.held, ← h.keys_eq, ← h.calls_eq]
  cases hpeek : segment.peek key with
  | none =>
      rw [remove_of_absent hpeek, if_neg (peek_eq_none_iff.mp hpeek)]
      exact (List.append_nil _).symm
  | some entry =>
      rw [if_pos (mem_keys_of_peek hpeek)]
      obtain ⟨capacity, residents, policy⟩ := segment
      have hfind : residents.find? key = some entry := hpeek
      unfold Segment.remove
      dsimp only
      rw [hfind]
      rfl

/-- The eldest keys leave one by one. -/
theorem shed (h : segment.Tracks roster heard) (count : Nat) :
    (segment.shed count).1.Tracks (roster.drop count)
        (heard ++ (roster.keys.take count).map .removal) ∧
      (segment.shed count).2 = roster.keys.take count := by
  induction count generalizing segment roster heard with
  | zero => exact ⟨⟨h.capacity_eq, h.toList_eq, h.calls_eq.trans (List.append_nil heard).symm⟩, rfl⟩
  | succ count ih =>
      have heldest := h.eldest?_eq
      unfold Segment.shed
      cases hkeys : roster.keys with
      | nil =>
          rw [hkeys] at heldest
          rw [heldest]
          rw [Roster.drop_of_keys_nil hkeys]
          exact ⟨⟨h.capacity_eq, h.toList_eq, h.calls_eq.trans (List.append_nil heard).symm⟩, rfl⟩
      | cons eldest younger =>
          rw [hkeys] at heldest
          rw [heldest]
          have hheld : roster.held eldest = [eldest] := by
            rw [Roster.held, hkeys, if_pos List.mem_cons_self]
          have hremoved := h.remove eldest
          rw [hheld, Roster.erase_eldest hkeys] at hremoved
          obtain ⟨hshed, hleft⟩ := ih hremoved
          rw [Roster.drop_drop, Nat.add_comm 1 count, Roster.keys_drop, hkeys,
            List.append_assoc] at hshed
          rw [Roster.keys_drop, hkeys] at hleft
          exact ⟨hshed, congrArg (eldest :: ·) hleft⟩

/-- Asking the policy changes nothing but the policy. -/
theorem askAdmission (h : segment.Tracks roster heard) (key : String) :
    (segment.askAdmission key).1.Tracks roster (heard ++
      [.admission key (roster.occupancy key) roster.capacity (segment.askAdmission key).2]) := by
  refine ⟨h.capacity_eq, h.toList_eq, ?_⟩
  rw [← h.occupancy_eq, ← h.capacity_eq, ← h.calls_eq]
  rfl

end Tracks

/-! ## One call -/

def apply [EvictionPolicy π] (segment : Segment π) : SegmentCall → Segment π × SegmentAnswer
  | .put key entry => ((segment.put key entry).1, .put (segment.put key entry).2)
  | .putForce key entry => ((segment.putForce key entry).1, .put (segment.putForce key entry).2)
  | .get key => ((segment.get key).1, .entry (segment.get key).2)
  | .peek key => (segment, .entry (segment.peek key))
  | .deadlineOf key => (segment, .deadline (segment.deadlineOf key))
  | .remove key => ((segment.remove key).1, .entry (segment.remove key).2)
  | .removeIfDue key deadline =>
    ((segment.removeIfDue key deadline).1, .flag (segment.removeIfDue key deadline).2)
  | .compareAndSwap key decision =>
    ((segment.compareAndSwap key decision).1, .swap (segment.compareAndSwap key decision).2)
  | .toList => (segment, .entries segment.toList)
  | .size => (segment, .count segment.size)
  | .clear => (segment.clear.1, .count segment.clear.2)

/-- What a segment did with a call is what a roster does in a turn. -/
structure Takes (outcome : Segment (Traced π) × SegmentAnswer) (turn : Roster.Turn)
    (heard : List PolicyCall) : Prop where
  answer_eq : outcome.2 = turn.answer
  tracks : outcome.1.Tracks turn.after (heard ++ turn.told)

namespace Tracks

variable {segment : Segment (Traced π)} {roster : Roster} {heard : List PolicyCall}

/-- A call that changes nothing and tells nothing. -/
theorem unchanged (h : segment.Tracks roster heard) {answer answer' : SegmentAnswer}
    (hanswer : answer = answer') : Takes (segment, answer) ⟨roster, answer', []⟩ heard :=
  ⟨hanswer, h.capacity_eq, h.toList_eq, h.calls_eq.trans (List.append_nil heard).symm⟩

variable [EvictionPolicy π]

/-- Once a key has been placed, the surplus is let go. -/
theorem shrink {key : String} {entry : Entry} {told : List PolicyCall}
    (h : segment.Tracks (roster.renew key entry) (heard ++ told)) (left : List String) :
    Takes (segment.shrink.1, .put { stored := true, evicted := left ++ segment.shrink.2 })
      (roster.enter key entry left told) heard := by
  have hcount : segment.size - segment.capacity = (roster.renew key entry).surplus := by
    rw [h.size_eq, h.capacity_eq, Roster.surplus]
  obtain ⟨hshed, hleft⟩ := h.shed (roster.renew key entry).surplus
  rw [Segment.shrink, hcount, hleft]
  rw [List.append_assoc] at hshed
  exact ⟨rfl, hshed⟩

/-- The victim that the policy names leaves, if it is there. -/
theorem named_eq (h : segment.Tracks roster heard) (victim : String) :
    (if (segment.remove victim).2.isSome then [victim] else []) = roster.held victim := by
  rw [remove_snd, Roster.held, ← h.keys_eq]
  cases hpeek : segment.peek victim with
  | none => rw [if_neg (peek_eq_none_iff.mp hpeek), Option.isSome_none, if_neg Bool.false_ne_true]
  | some entry => rw [if_pos (mem_keys_of_peek hpeek), Option.isSome_some, if_pos rfl]

/-- A candidate enters, or enters for another key, or is rejected, as the policy says. -/
theorem put (h : segment.Tracks roster heard) (key : String) (entry : Entry) :
    Takes (segment.apply (.put key entry))
      (roster.apply (segment.askAdmission key).2 (.put key entry)) heard := by
  obtain ⟨asked, answer, hask⟩ :
      ∃ asked answer, segment.askAdmission key = (asked, answer) := ⟨_, _, rfl⟩
  have hasked := h.askAdmission key
  rw [hask] at hasked
  rw [hask, Segment.apply]
  cases answer with
  | reject =>
      rw [put_of_reject hask]
      exact ⟨rfl, hasked⟩
  | accept =>
      have hinserted := hasked.insert key entry
      rw [List.append_assoc] at hinserted
      rw [put_of_accept hask]
      exact hinserted.shrink []
  | evict victim =>
      have hplaced := (hasked.remove victim).place key entry
      rw [List.append_assoc] at hplaced
      rw [put_of_evict hask, hasked.named_eq]
      exact hplaced.shrink (roster.held victim)

/-- The eldest key makes room for one that is absent from a full segment. -/
theorem makeRoom (h : segment.Tracks roster heard) (key : String) :
    let room := if key ∉ roster.keys ∧ roster.capacity ≤ roster.entries.length then 1 else 0
    (segment.makeRoom key).1.Tracks (roster.drop room)
        (heard ++ (roster.keys.take room).map .removal) ∧
      (segment.makeRoom key).2 = roster.keys.take room := by
  intro room
  have hfull : (!segment.residents.contains key && decide (segment.capacity ≤ segment.size)) =
      decide (key ∉ roster.keys ∧ roster.capacity ≤ roster.entries.length) := by
    rw [h.contains_eq, h.capacity_eq, h.size_eq, Bool.decide_and, decide_not]
  have hshed : segment.makeRoom key = segment.shed room := by
    unfold Segment.makeRoom
    rw [hfull]
    by_cases hneeded : key ∉ roster.keys ∧ roster.capacity ≤ roster.entries.length
    · rw [if_pos (decide_eq_true hneeded), show room = 1 from if_pos hneeded]
    · rw [if_neg (by simpa using hneeded), show room = 0 from if_neg hneeded]
      rfl
  rw [hshed]
  exact h.shed room

theorem putForce (h : segment.Tracks roster heard) (key : String) (entry : Entry)
    (asked : Admission) :
    Takes (segment.apply (.putForce key entry)) (roster.apply asked (.putForce key entry))
      heard := by
  obtain ⟨hroom, hearly⟩ := h.makeRoom key
  have hinserted := hroom.insert key entry
  rw [List.append_assoc] at hinserted
  rw [Segment.apply, putForce_eq, hearly]
  exact hinserted.shrink _

theorem get (h : segment.Tracks roster heard) (key : String) (asked : Admission) :
    Takes (segment.apply (.get key)) (roster.apply asked (.get key)) heard := by
  rw [Segment.apply, Roster.apply, get_snd, get_fst, h.peek_eq]
  cases roster.find? key with
  | none => exact h.unchanged rfl
  | some entry => exact ⟨rfl, h.insert key entry⟩

theorem removeIfDue (h : segment.Tracks roster heard) (key : String) (deadline : Instant)
    (asked : Admission) :
    Takes (segment.apply (.removeIfDue key deadline))
      (roster.apply asked (.removeIfDue key deadline)) heard := by
  rw [Segment.apply, Roster.apply, removeIfDue_snd, removeIfDue_fst, deadlineOf, h.peek_eq]
  split
  next hdue => exact ⟨congrArg _ (decide_eq_true hdue), h.remove key⟩
  next hdue => exact h.unchanged (congrArg _ (decide_eq_false hdue))

theorem compareAndSwap (h : segment.Tracks roster heard) (key : String)
    (decision : Option Entry → SwapDecision) (asked : Admission) :
    Takes (segment.apply (.compareAndSwap key decision))
      (roster.apply asked (.compareAndSwap key decision)) heard := by
  rw [Segment.apply, Roster.apply, compareAndSwap_eq, h.peek_eq]
  cases decision (roster.find? key) with
  | store entry => exact ⟨rfl, h.insert key entry⟩
  | expired => exact ⟨rfl, h.remove key⟩
  | fail => exact h.unchanged rfl

/-- Every key is told when all leave. -/
theorem clear (h : segment.Tracks roster heard) (asked : Admission) :
    Takes (segment.apply .clear) (roster.apply asked .clear) heard := by
  have htold (keys : List String) (policy : Traced π) :
      (keys.foldl EvictionPolicy.recordRemoval policy).calls =
        policy.calls ++ keys.map .removal := by
    induction keys generalizing policy with
    | nil => exact (List.append_nil _).symm
    | cons key keys ih => exact (ih _).trans (List.append_assoc _ _ _)
  refine ⟨congrArg _ h.size_eq, h.capacity_eq, rfl, ?_⟩
  rw [Roster.apply, ← h.keys_eq, ← h.calls_eq]
  exact htold _ _

/-- Whatever the call, there is an answer of the policy with which a roster does what the
segment did. -/
theorem apply (h : segment.Tracks roster heard) (call : SegmentCall) :
    ∃ asked, Takes (segment.apply call) (roster.apply asked call) heard := by
  cases call with
  | put key entry => exact ⟨_, h.put key entry⟩
  | putForce key entry => exact ⟨.accept, h.putForce key entry _⟩
  | get key => exact ⟨.accept, h.get key _⟩
  | peek key => exact ⟨.accept, h.unchanged (congrArg _ (h.peek_eq key))⟩
  | deadlineOf key => 
      refine ⟨.accept, h.unchanged ?_⟩
      rw [deadlineOf, h.peek_eq]
  | remove key => 
      refine ⟨.accept, ?_, h.remove key⟩
      exact congrArg _ ((segment.remove_snd key).trans (h.peek_eq key))
  | removeIfDue key deadline => exact ⟨.accept, h.removeIfDue key deadline _⟩
  | compareAndSwap key decision => exact ⟨.accept, h.compareAndSwap key decision _⟩
  | toList => exact ⟨.accept, h.unchanged (congrArg _ h.toList_eq)⟩
  | size => exact ⟨.accept, h.unchanged (congrArg _ h.size_eq)⟩
  | clear => exact ⟨.accept, h.clear _⟩

end Tracks

variable [EvictionPolicy π]

/-! ## Tracing -/

/-- The same segment without the record of its policy. -/
def untraced (segment : Segment (Traced π)) : Segment π :=
  ⟨segment.capacity, segment.residents, segment.policy.policy⟩

section Untraced

variable (segment : Segment (Traced π)) (key : String) (entry : Entry)

omit [EvictionPolicy π] in
theorem place_untraced :
    segment.untraced.place key entry = (segment.place key entry).untraced := rfl

theorem insert_untraced :
    segment.untraced.insert key entry = (segment.insert key entry).untraced := rfl

theorem remove_untraced :
    segment.untraced.remove key = Prod.map untraced id (segment.remove key) := by
  obtain ⟨capacity, residents, policy⟩ := segment
  unfold untraced remove
  dsimp only
  cases residents.find? key <;> rfl

theorem shed_untraced (count : Nat) :
    segment.untraced.shed count = Prod.map untraced id (segment.shed count) := by
  induction count generalizing segment with
  | zero => rfl
  | succ count ih =>
      unfold shed
      rw [show segment.untraced.residents = segment.residents from rfl]
      cases segment.residents.eldest? with
      | none => rfl
      | some victim =>
          dsimp only
          rw [remove_untraced, Prod.map_fst, ih]
          rfl

theorem shrink_untraced : segment.untraced.shrink = Prod.map untraced id segment.shrink :=
  segment.shed_untraced _

theorem put_untraced :
    segment.untraced.put key entry = Prod.map untraced id (segment.put key entry) := by
  obtain ⟨asked, answer, hask⟩ :
      ∃ asked answer, segment.askAdmission key = (asked, answer) := ⟨_, _, rfl⟩
  have hask' : segment.untraced.askAdmission key = (asked.untraced, answer) :=
    congrArg (Prod.map untraced id) hask
  cases answer with
  | reject =>
      rw [put_of_reject hask, put_of_reject hask']
      rfl
  | accept =>
      rw [put_of_accept hask, put_of_accept hask', insert_untraced, shrink_untraced]
      rfl
  | evict victim =>
      rw [put_of_evict hask, put_of_evict hask', remove_untraced, Prod.map_fst, place_untraced,
        shrink_untraced]
      rfl

theorem putForce_untraced :
    segment.untraced.putForce key entry = Prod.map untraced id (segment.putForce key entry) := by
  have hroom : segment.untraced.makeRoom key = Prod.map untraced id (segment.makeRoom key) := by
    unfold makeRoom
    rw [shed_untraced, apply_ite (Prod.map untraced id)]
    rfl
  rw [putForce_eq, putForce_eq, hroom, Prod.map_fst, insert_untraced, shrink_untraced]
  rfl

theorem get_untraced : segment.untraced.get key = Prod.map untraced id (segment.get key) := by
  obtain ⟨capacity, residents, policy⟩ := segment
  unfold untraced get
  dsimp only
  cases residents.find? key <;> rfl

theorem clear_untraced : segment.untraced.clear = Prod.map untraced id segment.clear := by
  have hpolicy (keys : List String) (policy : Traced π) :
      (keys.foldl EvictionPolicy.recordRemoval policy).policy =
        keys.foldl EvictionPolicy.recordRemoval policy.policy := by
    induction keys generalizing policy with
    | nil => rfl
    | cons key keys ih => exact ih (EvictionPolicy.recordRemoval policy key)
  exact Prod.ext (congrArg (Segment.mk segment.capacity .empty)
    (hpolicy segment.keys segment.policy).symm) rfl

/-- A record of what the policy hears changes nothing that is seen from outside. -/
theorem apply_untraced (call : SegmentCall) :
    segment.untraced.apply call = Prod.map untraced id (segment.apply call) := by
  have hpeek (key : String) : segment.untraced.peek key = segment.peek key := rfl
  have hdeadline (key : String) : segment.untraced.deadlineOf key = segment.deadlineOf key := rfl
  cases call with
  | put key entry => rw [apply, put_untraced]; rfl
  | putForce key entry => rw [apply, putForce_untraced]; rfl
  | get key => rw [apply, get_untraced]; rfl
  | remove key => rw [apply, remove_untraced]; rfl
  | removeIfDue key deadline =>
      rw [apply, apply, removeIfDue_fst, removeIfDue_fst, removeIfDue_snd, removeIfDue_snd,
        remove_untraced, hdeadline]
      split <;> rfl
  | compareAndSwap key decision =>
      rw [apply, apply, compareAndSwap_eq, compareAndSwap_eq, hpeek, remove_untraced]
      cases decision (segment.peek key) <;> rfl
  | clear => rw [apply, clear_untraced]; rfl
  | _ => rfl

end Untraced

/-! ## Runs -/

def run (segment : Segment π) : List SegmentCall → Segment π × List SegmentAnswer
  | [] => (segment, [])
  | call :: calls =>
    let outcome := segment.apply call
    let rest := outcome.1.run calls
    (rest.1, outcome.2 :: rest.2)

/-- What is said during such a run, as a traced policy hears it. -/
def exchanges (segment : Segment (Traced π)) : List SegmentCall → List Exchange
  | [] => []
  | call :: calls =>
    let outcome := segment.apply call
    ⟨call, outcome.2, outcome.1.policy.calls.drop segment.policy.calls.length⟩ ::
      outcome.1.exchanges calls

/-- There are answers of the policy with which a roster says what a segment says, call by
call, and ends with the same entries. -/
theorem Tracks.run {segment : Segment (Traced π)} {roster : Roster} {heard : List PolicyCall}
    (h : segment.Tracks roster heard) (calls : List SegmentCall) :
    ∃ asked : List Admission, asked.length = calls.length ∧
      segment.exchanges calls = roster.exchanges (calls.zip asked) ∧
      ∃ heard, (segment.run calls).1.Tracks (roster.run (calls.zip asked)) heard := by
  induction calls generalizing segment roster heard with
  | nil => exact ⟨[], rfl, rfl, heard, h⟩
  | cons call calls ih =>
      obtain ⟨asked, hanswer, htracks⟩ := h.apply call
      obtain ⟨later, hlength, hexchanges, hfinal⟩ := ih htracks
      refine ⟨asked :: later, congrArg (· + 1) hlength, ?_, hfinal⟩
      have htold : (segment.apply call).1.policy.calls.drop segment.policy.calls.length =
          (roster.apply asked call).told := by
        rw [htracks.calls_eq, h.calls_eq, List.drop_left]
      rw [exchanges, htold, hanswer, hexchanges]
      rfl

theorem run_untraced (segment : Segment (Traced π)) (calls : List SegmentCall) :
    segment.untraced.run calls =
      ((segment.run calls).1.untraced, (segment.exchanges calls).map (·.answer)) := by
  induction calls generalizing segment with
  | nil => rfl
  | cons call calls ih =>
      rw [run, apply_untraced, Prod.map_fst, ih]
      rfl

end Segment

/-! ## Following the links -/

namespace Recency

/-- From a place on, the links lead through some values and come to an end. -/
inductive Walks {α : Type} (links : Array (Link α)) : Option Nat → List α → Prop
  | stop : Walks links none []
  | go {i : Nat} {link : Link α} {rest : List α} :
      links[i]? = some link → Walks links link.next rest → Walks links (some i) (link.value :: rest)

/-- The links lead from the head through the values in line. -/
theorem Arena.Threads.walks {α : Type} {arena : Arena α} {order : List Nat}
    (h : arena.Threads order) :
    Walks arena.links arena.head (order.filterMap arena.value?) := by
  have hlink (i : Nat) (hi : i ∈ order) : ∃ link, arena.links[i]? = some link :=
    ⟨_, (h.link i hi).choose_spec⟩
  have hleads := h.leads
  clear h
  generalize arena.head = start at hleads ⊢
  induction hleads with
  | stop => exact .stop
  | @go i rest _ ih =>
      obtain ⟨link, hhere⟩ := hlink i List.mem_cons_self
      have hvalue : arena.value? i = some link.value := by rw [Arena.value?, hhere, Option.map_some]
      have hnext : arena.next? i = link.next := by rw [Arena.next?, hhere, Option.bind_some]
      rw [List.filterMap_cons_some hvalue]
      exact .go hhere (hnext ▸ ih fun j hj => hlink j (List.mem_cons_of_mem _ hj))

end Recency

theorem RecencyMap.walks {α : Type} (map : RecencyMap α) :
    Recency.Walks map.arena.links map.arena.head map.toList := by
  obtain ⟨order, h⟩ := map.indexed
  rw [toList_eq h]
  exact h.sound.threads.walks

/-! ## Segments and rosters -/

/-- Whatever is asked of a segment, and whatever its policy answers to candidates, a
roster that is given the same answers of the policy says the same call by call: it
answers the same and tells the policy the same, with what the policy sees of a
candidate. A segment that is emptied tells its keys in any order. Both end with the same
entries in the same order, the index of the segment holds the keys of the roster, and
the links of its arena lead through all of them once. -/
theorem exists_exchanges_matches_roster [EvictionPolicy π] (policy : π) (capacity : Nat)
    (calls : List SegmentCall) :
    ∃ asked : List Admission, asked.length = calls.length ∧
      let (segment, answers) := (Segment.ofCapacity capacity policy).run calls
      let exchanges := (Segment.ofCapacity capacity (Traced.mk policy [])).exchanges calls
      let roster := (Roster.ofCapacity capacity).run (calls.zip asked)
      List.Forall₂ Exchange.Matches exchanges
          ((Roster.ofCapacity capacity).exchanges (calls.zip asked)) ∧
        answers = exchanges.map (·.answer) ∧
        segment.toList = roster.entries ∧
        Recency.Walks segment.residents.arena.links segment.residents.arena.head roster.entries ∧
        (∀ key, key ∈ segment.residents.index ↔ key ∈ roster.keys) ∧
        roster.keys.Nodup := by
  have hstart : (Segment.ofCapacity capacity (Traced.mk policy [])).Tracks
      (Roster.ofCapacity capacity) [] := ⟨rfl, rfl, rfl⟩
  obtain ⟨asked, hlength, hexchanges, heard, hfinal⟩ := hstart.run calls
  have hrun : (Segment.ofCapacity capacity policy).run calls = _ :=
    Segment.run_untraced (Segment.ofCapacity capacity (Traced.mk policy [])) calls
  refine ⟨asked, hlength, ?_⟩
  rw [hrun]
  refine ⟨?_, rfl, hfinal.toList_eq, ?_, fun key => ?_, Roster.distinct _⟩
  · rw [hexchanges]
    exact List.forall₂_same.mpr fun exchange _ => .refl exchange
  · rw [← hfinal.toList_eq]
    exact RecencyMap.walks _
  · rw [← hfinal.keys_eq, ← Segment.contains_residents_iff]
    rfl

end ReplicatedCache
