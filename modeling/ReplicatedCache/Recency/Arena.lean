import ReplicatedCache.Recency.Neighbours

/-! # A linked order in an arena

Values in a line from the eldest to the newest, kept as links in one array.
Every link names its neighbours by their places in the array; places that have
been given back are reused. Moving a value to the newest end or taking it out
touches only its neighbours.

`Sound arena order` says that the places in use are those of `order`, eldest
first. Every operation keeps an arena sound, and the lemmas say for which order.
-/

namespace ReplicatedCache.Recency

structure Link (α : Type) where
  value : α
  prev : Option Nat
  next : Option Nat
deriving Inhabited

/-- Links, the places to be reused, and the two ends of the line. -/
structure Arena (α : Type) where
  links : Array (Link α) := #[]
  free : List Nat := []
  head : Option Nat := none
  tail : Option Nat := none
  size : Nat := 0

namespace Arena

variable {α : Type}

def empty : Arena α := {}

def modifyLink (links : Array (Link α)) (place : Option Nat) (f : Link α → Link α) :
    Array (Link α) :=
  match place with
  | none => links
  | some i => links.modify i f

/-- Puts the link at a place behind the newest one. -/
def attach (arena : Arena α) (i : Nat) : Arena α :=
  match arena with
  | ⟨links, free, head, tail, size⟩ =>
    let links := links.modify i (fun link => ⟨link.value, tail, none⟩)
    let links := modifyLink links tail (fun link => ⟨link.value, link.prev, some i⟩)
    ⟨links, free, if tail = none then some i else head, some i, size + 1⟩

/-- Takes the link at a place out of the line and closes the gap. -/
def detach (arena : Arena α) (i : Nat) : Arena α :=
  match arena with
  | ⟨links, free, head, tail, size⟩ =>
    match links[i]? with
    | none => ⟨links, free, head, tail, size⟩
    | some link =>
      let links := modifyLink links link.prev (fun l => ⟨l.value, l.prev, link.next⟩)
      let links := modifyLink links link.next (fun l => ⟨l.value, link.prev, l.next⟩)
      let links := links.modify i (fun l => ⟨l.value, none, none⟩)
      ⟨links, free, if link.prev = none then link.next else head,
        if link.next = none then link.prev else tail, size - 1⟩

/-- Adds a value at the newest end and tells its place. -/
def pushBack (arena : Arena α) (value : α) : Arena α × Nat :=
  match arena with
  | ⟨links, [], head, tail, size⟩ =>
    let i := links.size
    (attach ⟨links.push ⟨value, none, none⟩, [], head, tail, size⟩ i, i)
  | ⟨links, i :: free, head, tail, size⟩ =>
    (attach ⟨links.modify i (fun _ => ⟨value, none, none⟩), free, head, tail, size⟩ i, i)

/-- Takes the value at a place out and gives the place back. The value stays where it is
until the place is used again, and nobody looks at it. -/
def remove (arena : Arena α) (i : Nat) : Arena α :=
  match arena.detach i with
  | ⟨links, free, head, tail, size⟩ => ⟨links, i :: free, head, tail, size⟩

/-- Moves the value at a place to the newest end. -/
def moveToBack (arena : Arena α) (i : Nat) : Arena α := (arena.detach i).attach i

def setValue (arena : Arena α) (i : Nat) (value : α) : Arena α :=
  match arena with
  | ⟨links, free, head, tail, size⟩ =>
    ⟨links.modify i (fun link => ⟨value, link.prev, link.next⟩), free, head, tail, size⟩

def value? (arena : Arena α) (i : Nat) : Option α := arena.links[i]?.map Link.value

/-- The places met by following the links, at most `fuel` of them. -/
def follow (links : Array (Link α)) : (fuel : Nat) → Option Nat → List Nat
  | 0, _ => []
  | _, none => []
  | fuel + 1, some i => i :: follow links fuel (links[i]?.bind Link.next)

/-- The places in use, eldest first. -/
def places (arena : Arena α) : List Nat := follow arena.links arena.links.size arena.head

/-- The values, eldest first. -/
def toList (arena : Arena α) : List α := arena.places.filterMap arena.value?

def front? (arena : Arena α) : Option α := arena.head.bind arena.value?

/-! ## Soundness -/

/-- The line of an arena goes through the places of `order`, eldest first. -/
structure Threads (arena : Arena α) (order : List Nat) : Prop where
  nodup : order.Nodup
  head : arena.head = order.head?
  tail : arena.tail = order.getLast?
  link : ∀ i ∈ order, ∃ value, arena.links[i]? = some ⟨value, before order i, after order i⟩

/-- The places of an arena are those in line and those to be reused, each once. -/
structure Sound (arena : Arena α) (order : List Nat) : Prop where
  threads : arena.Threads order
  places_perm : (order ++ arena.free).Perm (List.range arena.links.size)
  size_eq : arena.size = order.length

theorem getElem?_modifyLink (links : Array (Link α)) (place : Option Nat) (f : Link α → Link α)
    (j : Nat) : (modifyLink links place f)[j]? =
      if place = some j then links[j]?.map f else links[j]? := by
  cases place with
  | none => simp [modifyLink]
  | some i => simp [modifyLink, Array.getElem?_modify]

@[simp] theorem size_modifyLink (links : Array (Link α)) (place : Option Nat)
    (f : Link α → Link α) : (modifyLink links place f).size = links.size := by
  cases place <;> simp [modifyLink]

theorem empty_sound : (empty : Arena α).Sound [] :=
  ⟨⟨List.nodup_nil, rfl, rfl, by simp⟩, by simp [empty], rfl⟩

section Attach

variable (arena : Arena α) (i : Nat)

@[simp] theorem links_size_attach : (arena.attach i).links.size = arena.links.size := by
  simp [attach]

@[simp] theorem free_attach : (arena.attach i).free = arena.free := rfl

@[simp] theorem size_attach : (arena.attach i).size = arena.size + 1 := rfl

theorem value?_attach (j : Nat) : (arena.attach i).value? j = arena.value? j := by
  simp only [value?, attach, getElem?_modifyLink, Array.getElem?_modify]
  split <;> split <;> simp [Function.comp_def]

end Attach

theorem attach_threads {arena : Arena α} {order : List Nat} (h : arena.Threads order) {i : Nat}
    (hi : i ∉ order) (hlt : i < arena.links.size) :
    (arena.attach i).Threads (order ++ [i]) := by
  refine ⟨?_, ?_, ?_, ?_⟩
  · exact List.nodup_append.mpr ⟨h.nodup, by simp, by
      intro a ha b hb
      simp only [List.mem_singleton] at hb
      exact fun heq => hi (hb ▸ heq ▸ ha)⟩
  · simp only [attach, h.tail, h.head]
    cases order <;> simp
  · simp [attach]
  · intro j hj
    simp only [attach, getElem?_modifyLink, Array.getElem?_modify, h.tail]
    by_cases hij : j = i
    · subst hij
      have hne : order.getLast? ≠ some j := fun heq => hi (List.mem_of_getLast? heq)
      refine ⟨arena.links[j].value, ?_⟩
      rw [before_concat_self, after_concat_self hi]
      simp [hne, Array.getElem?_eq_getElem hlt]
    · have hjo : j ∈ order := by simpa [hij] using hj
      obtain ⟨value, hv⟩ := h.link j hjo
      refine ⟨value, ?_⟩
      rw [before_concat hij, after_concat hjo hi h.nodup]
      have hij' : i ≠ j := fun heq => hij heq.symm
      by_cases hl : order.getLast? = some j <;> simp [hl, hij', hv]

section Detach

variable (arena : Arena α) (i : Nat)

@[simp] theorem links_size_detach : (arena.detach i).links.size = arena.links.size := by
  simp only [detach]
  split <;> simp

@[simp] theorem free_detach : (arena.detach i).free = arena.free := by
  simp only [detach]
  split <;> rfl

theorem value?_detach (j : Nat) : (arena.detach i).value? j = arena.value? j := by
  simp only [value?, detach]
  split
  · rfl
  · simp only [Array.getElem?_modify, getElem?_modifyLink]
    split <;> split <;> split <;> simp [Function.comp_def]

end Detach

theorem detach_threads {arena : Arena α} {order : List Nat} (h : arena.Threads order) {i : Nat}
    (hi : i ∈ order) : (arena.detach i).Threads (without order i) := by
  obtain ⟨value, hlink⟩ := h.link i hi
  simp only [detach, hlink]
  refine ⟨nodup_without h.nodup i, ?_, ?_, ?_⟩
  · rw [head?_without h.nodup hi, h.head]
  · rw [getLast?_without h.nodup hi, h.tail]
  · intro j hj
    obtain ⟨hjo, hji⟩ := mem_without.mp hj
    obtain ⟨own, hown⟩ := h.link j hjo
    refine ⟨own, ?_⟩
    have hprev := after_eq_some_iff_before h.nodup (i := j) (j := i)
    have hnext := after_eq_some_iff_before h.nodup (i := i) (j := j)
    simp only [Array.getElem?_modify, if_neg (Ne.symm hji), getElem?_modifyLink, hown,
      before_without h.nodup hji, after_without h.nodup hji, hprev, hnext]
    by_cases h₁ : before order i = some j <;> by_cases h₂ : before order j = some i <;>
      simp [h₁, h₂]

theorem size_detach {arena : Arena α} {order : List Nat} (h : arena.Threads order) {i : Nat}
    (hi : i ∈ order) : (arena.detach i).size = arena.size - 1 := by
  obtain ⟨value, hlink⟩ := h.link i hi
  simp [detach, hlink]

/-- An order is its element `i` and the rest, up to order. -/
theorem perm_without {order : List Nat} (hn : order.Nodup) {i : Nat} (hi : i ∈ order) :
    order.Perm (i :: without order i) := by
  induction order with
  | nil => simp at hi
  | cons x rest ih =>
    obtain ⟨hx, hr⟩ := List.nodup_cons.mp hn
    by_cases hxi : x = i
    · subst hxi
      have hstep : without (x :: rest) x = rest := by
        rw [without, List.filter_cons_of_neg (by simp)]
        exact without_of_not_mem hx
      rw [hstep]
    · have hir : i ∈ rest := by grind
      have hstep : without (x :: rest) i = x :: without rest i := by
        rw [without, List.filter_cons_of_pos (by simpa using hxi)]; rfl
      rw [hstep]
      exact ((ih hr hir).cons x).trans (List.Perm.swap i x _)

theorem lt_of_mem {arena : Arena α} {order : List Nat} (h : arena.Threads order) {i : Nat}
    (hi : i ∈ order) : i < arena.links.size := by
  obtain ⟨value, hlink⟩ := h.link i hi
  exact (Array.getElem?_eq_some_iff.mp hlink).1

theorem length_without {order : List Nat} (hn : order.Nodup) {i : Nat} (hi : i ∈ order) :
    (without order i).length + 1 = order.length := by
  simpa using (perm_without hn hi).length_eq.symm

theorem remove_sound {arena : Arena α} {order : List Nat} (h : arena.Sound order) {i : Nat}
    (hi : i ∈ order) : (arena.remove i).Sound (without order i) := by
  have ht := detach_threads h.threads hi
  refine ⟨⟨ht.nodup, ht.head, ht.tail, ht.link⟩, ?_, ?_⟩
  · have hp : (without order i ++ i :: arena.free).Perm (order ++ arena.free) :=
      List.perm_middle.trans ((perm_without h.threads.nodup hi).symm.append_right _)
    simpa [remove] using hp.trans h.places_perm
  · have := length_without h.threads.nodup hi
    have := size_detach h.threads hi
    have := h.size_eq
    show (arena.detach i).size = _
    omega

theorem value?_remove (arena : Arena α) (i j : Nat) :
    (arena.remove i).value? j = arena.value? j :=
  value?_detach arena i j

theorem moveToBack_sound {arena : Arena α} {order : List Nat} (h : arena.Sound order) {i : Nat}
    (hi : i ∈ order) : (arena.moveToBack i).Sound (without order i ++ [i]) := by
  have ht := detach_threads h.threads hi
  refine ⟨attach_threads ht (by simp) (by simpa using lt_of_mem h.threads hi), ?_, ?_⟩
  · have hp : (without order i ++ [i]).Perm order :=
      (List.perm_append_singleton i _).trans (perm_without h.threads.nodup hi).symm
    simpa [moveToBack] using (hp.append_right arena.free).trans h.places_perm
  · have := length_without h.threads.nodup hi
    have := size_detach h.threads hi
    have := h.size_eq
    simp only [moveToBack, size_attach, List.length_append, List.length_singleton]
    omega

theorem value?_moveToBack (arena : Arena α) (i j : Nat) :
    (arena.moveToBack i).value? j = arena.value? j := by
  rw [moveToBack, value?_attach, value?_detach]

theorem setValue_sound {arena : Arena α} {order : List Nat} (h : arena.Sound order) (i : Nat)
    (value : α) : (arena.setValue i value).Sound order := by
  refine ⟨⟨h.threads.nodup, h.threads.head, h.threads.tail, ?_⟩, ?_, h.size_eq⟩
  · intro j hj
    obtain ⟨own, hown⟩ := h.threads.link j hj
    by_cases hij : i = j
    · exact ⟨value, by simp [setValue, Array.getElem?_modify, hij, hown]⟩
    · exact ⟨own, by simp [setValue, Array.getElem?_modify, hij, hown]⟩
  · simpa [setValue] using h.places_perm

theorem value?_setValue {arena : Arena α} {i : Nat} (hi : i < arena.links.size) (value : α)
    (j : Nat) :
    (arena.setValue i value).value? j = if i = j then some value else arena.value? j := by
  simp only [value?, setValue, Array.getElem?_modify]
  by_cases hij : i = j
  · subst hij
    simp [Array.getElem?_eq_getElem hi]
  · simp [hij]

theorem pushBack_sound {arena : Arena α} {order : List Nat} (h : arena.Sound order) (value : α) :
    (arena.pushBack value).1.Sound (order ++ [(arena.pushBack value).2]) := by
  obtain ⟨links, free, head, tail, size⟩ := arena
  obtain ⟨⟨hn, hhead, htail, hlink⟩, hperm, hsize⟩ := h
  cases free with
  | nil =>
    have hfresh : links.size ∉ order := fun hmem => by
      obtain ⟨v, hv⟩ := hlink _ hmem
      simp at hv
    have ht : Threads (⟨links.push ⟨value, none, none⟩, [], head, tail, size⟩ : Arena α) order := by
      refine ⟨hn, hhead, htail, ?_⟩
      intro j hj
      obtain ⟨own, hown⟩ := hlink j hj
      have hlt := (Array.getElem?_eq_some_iff.mp hown).1
      exact ⟨own, by simpa [Array.getElem?_push, Nat.ne_of_lt hlt] using hown⟩
    refine ⟨attach_threads ht hfresh (by simp), ?_, ?_⟩
    · simp only [pushBack, free_attach, links_size_attach, Array.size_push, List.range_succ,
        List.append_nil] at hperm ⊢
      exact hperm.append_right _
    · simpa [pushBack] using hsize
  | cons i free =>
    have hi : i ∉ order := by
      have hnd : (order ++ i :: free).Nodup := hperm.nodup_iff.mpr List.nodup_range
      intro hmem
      exact (List.nodup_append.mp hnd).2.2 i hmem i (by simp) rfl
    have hlt : i < links.size := by
      have : i ∈ List.range links.size := hperm.mem_iff.mp (by simp)
      simpa using this
    have ht : Threads (⟨links.modify i (fun _ => ⟨value, none, none⟩), free, head, tail, size⟩ :
        Arena α) order := by
      refine ⟨hn, hhead, htail, ?_⟩
      intro j hj
      obtain ⟨own, hown⟩ := hlink j hj
      have hij : i ≠ j := fun heq => hi (heq ▸ hj)
      exact ⟨own, by simpa [Array.getElem?_modify, hij] using hown⟩
    refine ⟨attach_threads ht hi (by simpa using hlt), ?_, ?_⟩
    · have hp : (order ++ [i] ++ free).Perm (order ++ i :: free) := by simp
      simpa [pushBack] using hp.trans hperm
    · simpa [pushBack] using hsize

/-- A new value takes a place that was not in use. -/
theorem pushBack_fresh {arena : Arena α} {order : List Nat} (h : arena.Sound order) (value : α) :
    (arena.pushBack value).2 ∉ order := by
  have := (pushBack_sound h value).threads.nodup
  exact fun hmem => (List.nodup_append.mp this).2.2 _ hmem _ (by simp) rfl

theorem value?_pushBack {arena : Arena α} {order : List Nat} (h : arena.Sound order) (value : α)
    {j : Nat} (hj : j ∈ order ++ [(arena.pushBack value).2]) :
    (arena.pushBack value).1.value? j =
      if (arena.pushBack value).2 = j then some value else arena.value? j := by
  have hsound := h
  obtain ⟨links, free, head, tail, size⟩ := arena
  obtain ⟨⟨hn, hhead, htail, hlink⟩, hperm, hsize⟩ := h
  cases free with
  | nil =>
    simp only [pushBack, value?_attach]
    by_cases hji : links.size = j
    · subst hji
      simp [value?]
    · have hij : ¬ j = links.size := fun h => hji h.symm
      simp [value?, Array.getElem?_push, hji, hij]
  | cons i free =>
    have hlt : i < links.size := by
      have : i ∈ List.range links.size := hperm.mem_iff.mp (by simp)
      simpa using this
    simp only [pushBack, value?_attach]
    by_cases hji : i = j
    · subst hji
      simp [value?, Array.getElem?_modify, Array.getElem?_eq_getElem hlt]
    · simp [value?, Array.getElem?_modify, hji]

/-! ## Following the links -/

theorem after_append_cons {xs ys : List Nat} {i : Nat} (hn : (xs ++ i :: ys).Nodup) :
    after (xs ++ i :: ys) i = ys.head? := by
  induction xs with
  | nil => simp [after]
  | cons x xs ih =>
    have hne : x ≠ i := by
      intro heq
      have := (List.nodup_cons.mp hn).1
      simp [heq] at this
    simp only [List.cons_append, after, if_neg hne]
    exact ih (List.nodup_cons.mp hn).2

theorem follow_eq {arena : Arena α} {l ys : List Nat} (h : arena.Threads (l ++ ys))
    {fuel : Nat} (hfuel : ys.length ≤ fuel) : follow arena.links fuel ys.head? = ys := by
  induction ys generalizing l fuel with
  | nil => cases fuel <;> simp [follow]
  | cons i ys ih =>
    cases fuel with
    | zero => simp at hfuel
    | succ fuel =>
      obtain ⟨value, hv⟩ := h.link i (by simp)
      have hnext : after (l ++ i :: ys) i = ys.head? := after_append_cons h.nodup
      simp only [List.head?_cons, follow, hv, Option.bind_some, hnext]
      congr 1
      exact ih (l := l ++ [i]) (by simpa using h) (by simpa using hfuel)

/-- Following the links from the head meets every place in use once, in order. -/
theorem places_eq {arena : Arena α} {order : List Nat} (h : arena.Sound order) :
    arena.places = order := by
  have hlen : order.length ≤ arena.links.size := by
    have := h.places_perm.length_eq
    simp at this
    omega
  have := follow_eq (l := []) h.threads hlen
  rw [places, h.threads.head, this]

end Arena

end ReplicatedCache.Recency
