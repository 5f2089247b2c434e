import ReplicatedCache.Recency.Arena

/-! # The line through an arena

Whoever uses an arena holds places that it handed out and gives each back at most once.
A `Course` keeps the books beside the arena: which places are held, and how many were
held at once. However the arena is used, the links lead through the held places from
both ends, the others wait to be reused, and there are never more links than were
needed at one time.
-/

namespace ReplicatedCache.Recency

variable {α : Type}

/-! ## Links within bounds -/

/-- A link that names no place from `bound` on. -/
def Link.Below (link : Link α) (bound : Nat) : Prop :=
  ∀ i, link.prev = some i ∨ link.next = some i → i < bound

/-- Links that all stay below a bound, those at places to be reused among them. -/
def LinksBelow (links : Array (Link α)) (bound : Nat) : Prop :=
  ∀ (i : Nat) (link : Link α), links[i]? = some link → link.Below bound

namespace LinksBelow

variable {links : Array (Link α)} {bound : Nat}

theorem mono (h : LinksBelow links bound) {larger : Nat} (hle : bound ≤ larger) :
    LinksBelow links larger :=
  fun i link hlink j hj => Nat.lt_of_lt_of_le (h i link hlink j hj) hle

theorem modifyLink (h : LinksBelow links bound) (place : Option Nat) {f : Link α → Link α}
    (hf : ∀ link, link.Below bound → (f link).Below bound) :
    LinksBelow (Arena.modifyLink links place f) bound := by
  intro i link hlink
  rw [Arena.getElem?_modifyLink] at hlink
  split at hlink
  · obtain ⟨old, hold, rfl⟩ := Option.map_eq_some_iff.mp hlink
    exact hf old (h i old hold)
  · exact h i link hlink

theorem push (h : LinksBelow links bound) (value : α) :
    LinksBelow (links.push ⟨value, none, none⟩) bound := by
  intro i link hlink
  rw [Array.getElem?_push] at hlink
  split at hlink
  · obtain rfl := Option.some.inj hlink
    simp [Link.Below]
  · exact h i link hlink

theorem attach {arena : Arena α} (h : LinksBelow arena.links bound) {i : Nat} (hi : i < bound)
    (htail : ∀ j, arena.tail = some j → j < bound) : LinksBelow (arena.attach i).links bound := by
  refine modifyLink (modifyLink h (some i) fun link _ j hj => ?_) arena.tail
    fun link hlink j hj => ?_
  · exact htail j (hj.resolve_right nofun)
  · rcases hj with hprev | hnext
    · exact hlink j (.inl hprev)
    · exact Option.some.inj hnext ▸ hi

/-- Unlinking keeps the links below the bound: those of the freed place are reset. -/
theorem detach {arena : Arena α} (h : LinksBelow arena.links bound) (i : Nat) :
    LinksBelow (arena.detach i).links bound := by
  simp only [Arena.detach]
  split
  next => exact h
  next gone hgone =>
    -- each neighbour takes over what the link that goes named on its side
    have hbelow := h i gone hgone
    refine modifyLink (modifyLink (modifyLink h gone.prev fun link hlink j hj => ?_) gone.next
      fun link hlink j hj => ?_) (some i) fun link _ j hj => ?_
    · exact hj.elim (fun hprev => hlink j (.inl hprev)) (fun hnext => hbelow j (.inr hnext))
    · exact hj.elim (fun hprev => hbelow j (.inl hprev)) (fun hnext => hlink j (.inr hnext))
    · simp at hj

end LinksBelow

namespace Arena

variable {arena : Arena α} {order : List Nat}

/-- A value takes a place that waits to be reused, or a new one when there is none. -/
theorem links_size_pushBack (arena : Arena α) (value : α) :
    (arena.pushBack value).1.links.size =
      if arena.free = [] then arena.links.size + 1 else arena.links.size := by
  obtain ⟨links, _ | ⟨i, free⟩, head, tail, size⟩ := arena <;> simp [pushBack]

theorem Threads.head_lt (h : arena.Threads order) {i : Nat} (hhead : arena.head = some i) :
    i < arena.links.size :=
  lt_of_mem h (List.mem_of_head? (h.head ▸ hhead))

theorem Threads.tail_lt (h : arena.Threads order) {i : Nat} (htail : arena.tail = some i) :
    i < arena.links.size :=
  lt_of_mem h (List.mem_of_getLast? (h.tail ▸ htail))

theorem Sound.mem_or_free_iff (h : arena.Sound order) {i : Nat} :
    i ∈ order ∨ i ∈ arena.free ↔ i < arena.links.size := by
  rw [← List.mem_append, h.places_perm.mem_iff, List.mem_range]

theorem linksBelow_pushBack (h : arena.Sound order)
    (hbelow : LinksBelow arena.links arena.links.size) (value : α) :
    LinksBelow (arena.pushBack value).1.links (arena.pushBack value).1.links.size := by
  have htail (j : Nat) (hj : arena.tail = some j) : j < arena.links.size := h.threads.tail_lt hj
  have hfree (j : Nat) (hj : j ∈ arena.free) : j < arena.links.size :=
    h.mem_or_free_iff.mp (.inr hj)
  rw [links_size_pushBack]
  obtain ⟨links, _ | ⟨i, free⟩, head, tail, size⟩ := arena
  · rw [if_pos rfl]
    exact ((hbelow.mono (Nat.le_succ _)).push value).attach (Nat.lt_succ_self _)
      fun j hj => Nat.lt_succ_of_lt (htail j hj)
  · rw [if_neg (by simp)]
    refine LinksBelow.attach (hbelow.modifyLink (some i) fun link _ j hj => ?_) (hfree i (by simp))
      htail
    simp at hj

/-- Moving the newest value to the newest end leaves the arena as it is. -/
theorem moveToBack_newest (h : arena.Sound order) {i : Nat} (htail : arena.tail = some i) :
    arena.moveToBack i = arena := by
  have hlast : order.getLast? = some i := h.threads.tail ▸ htail
  have hi : i ∈ order := List.mem_of_getLast? hlast
  have hpos : 0 < arena.size := h.size_eq ▸ List.length_pos_of_mem hi
  have hend : after order i = none := (after_eq_none_iff h.threads.nodup hi).mpr hlast
  have hfirst (hnone : before order i = none) : arena.head = some i :=
    h.threads.head.trans ((before_eq_none_iff h.threads.nodup hi).mp hnone)
  have hneighbour (j : Nat) (hj : before order i = some j) :
      j ≠ i ∧ ∃ own, arena.links[j]? = some ⟨own, before order j, some i⟩ := by
    have hafter := (after_eq_some_iff_before h.threads.nodup).mpr hj
    obtain ⟨own, hown⟩ := h.threads.link j (mem_of_after_eq_some hafter).1
    refine ⟨?_, own, hafter ▸ hown⟩
    rintro rfl
    simp [hend] at hafter
  obtain ⟨value, hlink⟩ := h.threads.link i hi
  rw [hend] at hlink
  obtain ⟨links, free, head, tail, size⟩ := arena
  obtain rfl : tail = some i := htail
  simp only [moveToBack, detach, hlink, attach, if_true, Arena.mk.injEq, true_and]
  refine ⟨?_, ?_, Nat.sub_add_cancel hpos⟩
  · -- only the links at `i` and before it are touched, and both get back what they named
    refine Array.ext_getElem? fun j => ?_
    simp only [getElem?_modifyLink, Array.getElem?_modify]
    by_cases hij : i = j
    · subst hij
      have hne : before order i ≠ some i := fun hself => (hneighbour i hself).1 rfl
      simp [hne, hlink]
    · by_cases hprev : before order i = some j
      · obtain ⟨-, own, hown⟩ := hneighbour j hprev
        simp [hprev, hij, hown]
      · simp [hprev, hij]
  · cases hprev : before order i with
    | none => simpa using (hfirst hprev).symm
    | some p => simp

/-! ## Walking the line -/

def next? (arena : Arena α) (i : Nat) : Option Nat := arena.links[i]?.bind Link.next

def prev? (arena : Arena α) (i : Nat) : Option Nat := arena.links[i]?.bind Link.prev

/-- The next link of a place in the order is the place after it. -/
theorem Threads.next?_eq (h : arena.Threads order) {i : Nat} (hi : i ∈ order) :
    arena.next? i = after order i := by
  obtain ⟨value, hlink⟩ := h.link i hi
  simp [next?, hlink]

theorem Threads.prev?_eq (h : arena.Threads order) {i : Nat} (hi : i ∈ order) :
    arena.prev? i = before order i := by
  obtain ⟨value, hlink⟩ := h.link i hi
  simp [prev?, hlink]

end Arena

/-- Stepping on from a place, if there is one, meets these places in order and ends. -/
inductive Leads (step : Nat → Option Nat) : Option Nat → List Nat → Prop
  | stop : Leads step none []
  | go {i : Nat} {rest : List Nat} : Leads step (step i) rest → Leads step (some i) (i :: rest)

/-- Steps from each place to the one after it lead through the whole order, if no place is there
twice. -/
theorem Leads.of_after {order : List Nat} (hn : order.Nodup) {step : Nat → Option Nat}
    (hstep : ∀ i ∈ order, step i = after order i) : Leads step order.head? order := by
  have hsuffix (later : List Nat) : ∀ earlier, earlier ++ later = order →
      Leads step later.head? later := by
    induction later with
    | nil => exact fun _ _ => .stop
    | cons i later ih =>
        intro earlier hsplit
        have hnext : step i = later.head? := by
          rw [hstep i (hsplit ▸ by simp), ← hsplit, Arena.after_append_cons (hsplit ▸ hn)]
        exact .go (hnext ▸ ih (earlier ++ [i]) ((List.append_cons _ _ _).symm.trans hsplit))
  exact hsuffix order [] rfl

/-- The links lead through the places in line from the eldest to the newest. -/
theorem Arena.Threads.leads {arena : Arena α} {order : List Nat} (h : arena.Threads order) :
    Leads arena.next? arena.head order :=
  h.head ▸ .of_after h.nodup fun _ hi => h.next?_eq hi

/-- And back from the newest to the eldest. -/
theorem Arena.Threads.leads_back {arena : Arena α} {order : List Nat} (h : arena.Threads order) :
    Leads arena.prev? arena.tail order.reverse := by
  rw [h.tail, ← List.head?_reverse]
  exact .of_after (nodup_reversed h.nodup) fun i hi => h.prev?_eq (List.mem_reverse.mp hi)

/-- A line through exactly the places in `live`, eldest first, in an arena of `slots`
places whose other places are free. -/
structure Arena.Lines (arena : Arena α) (live : List Nat) (slots : Nat) : Prop where
  nodup : live.Nodup
  forward : Leads arena.next? arena.head live
  backward : Leads arena.prev? arena.tail live.reverse
  inverse : ∀ i j, (i ∈ live ∧ arena.next? i = some j) ↔ (j ∈ live ∧ arena.prev? j = some i)
  free_nodup : arena.free.Nodup
  disjoint : ∀ i ∈ live, i ∉ arena.free
  cover : ∀ i, i ∈ live ∨ i ∈ arena.free ↔ i < arena.links.size
  ends_lt : ∀ i, arena.head = some i ∨ arena.tail = some i → i < arena.links.size
  links_lt : LinksBelow arena.links arena.links.size
  slots_eq : arena.links.size = slots

/-- A sound arena is a line in both directions, with every other place on the free list. -/
theorem Arena.Sound.lines {arena : Arena α} {order : List Nat} (h : arena.Sound order)
    (hbelow : LinksBelow arena.links arena.links.size) : arena.Lines order arena.links.size := by
  have hn := h.threads.nodup
  have hall : (order ++ arena.free).Nodup := h.places_perm.nodup_iff.mpr List.nodup_range
  obtain ⟨-, hfree, hdisjoint⟩ := List.nodup_append.mp hall
  refine
    { nodup := hn
      forward := h.threads.leads
      backward := h.threads.leads_back
      inverse := ?inverse
      free_nodup := hfree
      disjoint := fun i hi hfree => hdisjoint i hi i hfree rfl
      cover := fun i => h.mem_or_free_iff
      ends_lt := fun i => Or.rec h.threads.head_lt h.threads.tail_lt
      links_lt := hbelow
      slots_eq := rfl }
  case inverse =>
    intro i j
    constructor
    · rintro ⟨hi, hnext⟩
      rw [h.threads.next?_eq hi] at hnext
      have hj := (mem_of_after_eq_some hnext).2
      exact ⟨hj, h.threads.prev?_eq hj ▸ (after_eq_some_iff_before hn).mp hnext⟩
    · rintro ⟨hj, hprev⟩
      rw [h.threads.prev?_eq hj] at hprev
      have hafter := (after_eq_some_iff_before hn).mpr hprev
      have hi := (mem_of_after_eq_some hafter).1
      exact ⟨hi, h.threads.next?_eq hi ▸ hafter⟩

/-! ## Every use of an arena -/

inductive Arena.Call (α : Type)
  | pushBack (value : α)
  | remove (place : Nat)
  | moveToBack (place : Nat)
  | setValue (place : Nat) (value : α)
  | clear

/-- An arena with the books of whoever uses it: the places that it handed out and has not
got back, each behind all that were handed out or moved before it was, and the largest
number of them since the arena was last cleared. -/
structure Course (α : Type) where
  arena : Arena α := .empty
  live : List Nat := []
  peak : Nat := 0

namespace Course

/-- A place is named only while it is held. -/
def Allows (course : Course α) : Arena.Call α → Prop
  | .pushBack _ | .clear => True
  | .remove place | .moveToBack place | .setValue place _ => place ∈ course.live

def step (course : Course α) : Arena.Call α → Course α
  | .pushBack value =>
      let (arena, place) := course.arena.pushBack value
      ⟨arena, course.live ++ [place], max course.peak (course.live.length + 1)⟩
  | .remove place => ⟨course.arena.remove place, without course.live place, course.peak⟩
  | .moveToBack place =>
      ⟨course.arena.moveToBack place, without course.live place ++ [place], course.peak⟩
  | .setValue place value => ⟨course.arena.setValue place value, course.live, course.peak⟩
  | .clear => {}

def run (course : Course α) (calls : List (Arena.Call α)) : Course α := calls.foldl step course

/-- Calls each of which is allowed after those before it. -/
def AllowsAll : Course α → List (Arena.Call α) → Prop
  | _, [] => True
  | course, call :: calls => course.Allows call ∧ (course.step call).AllowsAll calls

instance (course : Course α) : (call : Arena.Call α) → Decidable (course.Allows call)
  | .pushBack _ | .clear => inferInstanceAs (Decidable True)
  | .remove place | .moveToBack place | .setValue place _ =>
      inferInstanceAs (Decidable (place ∈ course.live))

instance : (course : Course α) → (calls : List (Arena.Call α)) → Decidable (course.AllowsAll calls)
  | _, [] => inferInstanceAs (Decidable True)
  | course, call :: calls =>
      have := instDecidableAllowsAll (course.step call) calls
      inferInstanceAs (Decidable (course.Allows call ∧ (course.step call).AllowsAll calls))

/-- What every allowed call keeps. -/
structure Keeps (course : Course α) : Prop where
  sound : course.arena.Sound course.live
  below : LinksBelow course.arena.links course.arena.links.size
  peak : course.arena.links.size = course.peak

theorem Keeps.start : ({} : Course α).Keeps :=
  ⟨Arena.empty_sound, fun _ _ hlink => by simp [Arena.empty] at hlink, rfl⟩

theorem Keeps.pushBack {course : Course α} (h : course.Keeps) (value : α) :
    (course.step (.pushBack value)).Keeps := by
  refine ⟨Arena.pushBack_sound h.sound value, Arena.linksBelow_pushBack h.sound h.below value, ?_⟩
  have hlength := h.sound.places_perm.length_eq
  have hpeak := h.peak
  simp only [List.length_append, List.length_range] at hlength
  simp only [step, Arena.links_size_pushBack]
  -- a new link is made only when every place is held
  split
  next hfree =>
    simp only [hfree, List.length_nil] at hlength
    omega
  next hfree =>
    have := List.length_pos_iff.mpr hfree
    omega

/-- An allowed call keeps the line: the arena and the order that is expected of it change
alike. -/
theorem Keeps.step {course : Course α} (h : course.Keeps) {call : Arena.Call α}
    (hallows : course.Allows call) : (course.step call).Keeps := by
  cases call with
  | pushBack value => exact h.pushBack value
  | remove place =>
      have hsize : (course.arena.remove place).links.size = course.arena.links.size :=
        Arena.links_size_detach _ _
      exact ⟨Arena.remove_sound h.sound hallows, hsize ▸ h.below.detach place, hsize.trans h.peak⟩
  | moveToBack place =>
      have hsize : (course.arena.moveToBack place).links.size = course.arena.links.size := by
        simp [Arena.moveToBack]
      refine ⟨Arena.moveToBack_sound h.sound hallows, ?_, hsize.trans h.peak⟩
      have hthreads := Arena.detach_threads h.sound.threads hallows
      simp only [Course.step, hsize]
      exact (h.below.detach place).attach (Arena.lt_of_mem h.sound.threads hallows)
        fun j hj => Arena.links_size_detach course.arena place ▸ hthreads.tail_lt hj
  | setValue place value =>
      have hsize : (course.arena.setValue place value).links.size = course.arena.links.size := by
        simp [Arena.setValue]
      exact ⟨Arena.setValue_sound h.sound place value,
        hsize ▸ h.below.modifyLink (some place) fun _ hlink => hlink, hsize.trans h.peak⟩
  | clear => exact .start

/-- After any run of allowed calls the arena is a line still. -/
theorem Keeps.run {course : Course α} (h : course.Keeps) {calls : List (Arena.Call α)}
    (hallows : course.AllowsAll calls) : (course.run calls).Keeps := by
  induction calls generalizing course with
  | nil => exact h
  | cons call calls ih => exact ih (h.step hallows.1) hallows.2

/-- However an arena is used from when it is empty, as long as no place is named that is
not held: the links lead from the head, and backwards from the tail, through the places
held and no others, each once, and are inverse to each other; every other place waits once
to be reused; no link, no end and no place to be reused is out of bounds; and there are as
many links as places were held at once since the arena was last cleared. -/
theorem lines_of_allowsAll {calls : List (Arena.Call α)}
    (hallows : ({} : Course α).AllowsAll calls) :
    let course := ({} : Course α).run calls
    course.arena.Lines course.live course.peak := by
  intro course
  have h : course.Keeps := Keeps.start.run hallows
  exact h.peak ▸ h.sound.lines h.below

/-- A place in the middle is given back and used again, and the eldest value is moved. -/
theorem lines_of_recycled :
    let calls : List (Arena.Call String) :=
      [.pushBack "first", .pushBack "second", .pushBack "third", .remove 1, .pushBack "fourth",
        .moveToBack 0]
    let course := ({} : Course String).run calls
    ({} : Course String).AllowsAll calls ∧ course.live = [2, 1, 0] ∧ course.peak = 3 ∧
      course.arena.Lines course.live course.peak := by
  intro calls course
  have hallows : ({} : Course String).AllowsAll calls := by decide
  exact ⟨hallows, rfl, rfl, lines_of_allowsAll hallows⟩

end Course

end ReplicatedCache.Recency
