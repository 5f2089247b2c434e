/-! # Neighbours in a list

What stands right after and right before an element of a list without
duplicates, and how that changes when an element leaves or a new one joins at
the end. The linked order of the recency map is described by these functions.
-/

namespace ReplicatedCache.Recency

/-- The element that follows `i`. -/
def after : List Nat → Nat → Option Nat
  | [], _ => none
  | x :: rest, i => if x = i then rest.head? else after rest i

/-- The element that precedes `i`. -/
def before (order : List Nat) (i : Nat) : Option Nat := after order.reverse i

def without (order : List Nat) (i : Nat) : List Nat := order.filter (fun j => decide (j ≠ i))

theorem nodup_reversed {order : List Nat} (hn : order.Nodup) : order.reverse.Nodup :=
  List.pairwise_reverse.mpr (List.Pairwise.imp (fun h => h.symm) hn)

theorem mem_of_after_eq_some {order : List Nat} {i j : Nat} (h : after order i = some j) :
    i ∈ order ∧ j ∈ order := by
  induction order with
  | nil => simp [after] at h
  | cons x rest ih => grind [after, List.mem_of_mem_head?]

theorem after_eq_some_iff {order : List Nat} (hn : order.Nodup) {i j : Nat} :
    after order i = some j ↔ ∃ xs ys, order = xs ++ i :: j :: ys := by
  induction order with
  | nil => simp [after]
  | cons x rest ih =>
    obtain ⟨hx, hr⟩ := List.nodup_cons.mp hn
    by_cases hxi : x = i
    · subst hxi
      simp only [after, if_pos]
      constructor
      · intro h
        cases rest with
        | nil => simp at h
        | cons y ys => exact ⟨[], ys, by simp_all⟩
      · rintro ⟨xs, ys, h⟩
        cases xs with
        | nil => simp_all
        | cons z zs =>
          simp only [List.cons_append, List.cons.injEq] at h
          obtain ⟨rfl, rfl⟩ := h
          simp at hx
    · simp only [after, if_neg hxi, ih hr]
      constructor
      · rintro ⟨xs, ys, rfl⟩
        exact ⟨x :: xs, ys, rfl⟩
      · rintro ⟨xs, ys, h⟩
        cases xs with
        | nil => simp_all
        | cons z zs =>
          simp only [List.cons_append, List.cons.injEq] at h
          exact ⟨zs, ys, h.2⟩

/-- Following and preceding are inverse to each other. -/
theorem after_eq_some_iff_before {order : List Nat} (hn : order.Nodup) {i j : Nat} :
    after order i = some j ↔ before order j = some i := by
  rw [before, after_eq_some_iff hn, after_eq_some_iff (nodup_reversed hn)]
  constructor
  · rintro ⟨xs, ys, rfl⟩
    exact ⟨ys.reverse, xs.reverse, by simp⟩
  · rintro ⟨xs, ys, h⟩
    refine ⟨ys.reverse, xs.reverse, ?_⟩
    have := congrArg List.reverse h
    simpa using this

/-- Exactly the last element has no successor. -/
theorem after_eq_none_iff {order : List Nat} (hn : order.Nodup) {i : Nat} (hi : i ∈ order) :
    after order i = none ↔ order.getLast? = some i := by
  induction order with
  | nil => simp at hi
  | cons x rest ih =>
    obtain ⟨hx, hr⟩ := List.nodup_cons.mp hn
    by_cases hxi : x = i
    · subst hxi
      cases rest with
      | nil => simp [after]
      | cons y ys =>
        have hne : (y :: ys).getLast? ≠ some x := fun h => hx (List.mem_of_getLast? h)
        simp only [after, if_pos, List.head?_cons, List.getLast?_cons_cons]
        simp [hne]
    · have hir : i ∈ rest := by grind
      simp only [after, if_neg hxi, ih hr hir]
      cases rest with
      | nil => simp at hir
      | cons y ys => simp [List.getLast?_cons_cons]

theorem before_eq_none_iff {order : List Nat} (hn : order.Nodup) {i : Nat} (hi : i ∈ order) :
    before order i = none ↔ order.head? = some i := by
  rw [before, after_eq_none_iff (nodup_reversed hn) (by simpa using hi)]
  simp

@[simp] theorem mem_without {order : List Nat} {i j : Nat} :
    j ∈ without order i ↔ j ∈ order ∧ j ≠ i := by
  simp [without]

theorem nodup_without {order : List Nat} (hn : order.Nodup) (i : Nat) :
    (without order i).Nodup :=
  hn.sublist List.filter_sublist

theorem without_of_not_mem {order : List Nat} {i : Nat} (h : i ∉ order) :
    without order i = order := by
  rw [without, List.filter_eq_self]
  intro j hj
  have hne : j ≠ i := fun heq => h (heq ▸ hj)
  simp [hne]

theorem reverse_without (order : List Nat) (i : Nat) :
    (without order i).reverse = without order.reverse i := by
  simp [without]

/-- Taking `i` out closes the gap that it leaves. -/
theorem after_without {order : List Nat} (hn : order.Nodup) {i j : Nat} (hij : j ≠ i) :
    after (without order i) j =
      if after order j = some i then after order i else after order j := by
  induction order with
  | nil => simp [without, after]
  | cons x rest ih =>
    obtain ⟨hx, hr⟩ := List.nodup_cons.mp hn
    by_cases hxi : x = i
    · subst hxi
      have hstep : without (x :: rest) x = rest := by
        rw [without, List.filter_cons_of_neg (by simp)]
        exact without_of_not_mem hx
      have hxj : x ≠ j := fun h => hij h.symm
      have hne : after rest j ≠ some x := fun h => hx (mem_of_after_eq_some h).2
      simp [hstep, after, hxj, hne]
    · have hstep : without (x :: rest) i = x :: without rest i := by
        rw [without, List.filter_cons_of_pos (by simpa using hxi)]; rfl
      rw [hstep]
      by_cases hxj : x = j
      · subst hxj
        simp only [after, if_pos, if_neg hxi]
        cases rest with
        | nil => simp [without]
        | cons y ys =>
          by_cases hyi : y = i
          · subst hyi
            have hy : y ∉ ys := (List.nodup_cons.mp hr).1
            have : without (y :: ys) y = ys := by
              rw [without, List.filter_cons_of_neg (by simp)]
              exact without_of_not_mem hy
            simp [this, after]
          · have : without (y :: ys) i = y :: without ys i := by
              rw [without, List.filter_cons_of_pos (by simpa using hyi)]; rfl
            simp [this, hyi]
      · simp only [after, if_neg hxj, if_neg hxi]
        exact ih hr

theorem before_without {order : List Nat} (hn : order.Nodup) {i j : Nat} (hij : j ≠ i) :
    before (without order i) j =
      if before order j = some i then before order i else before order j := by
  rw [before, reverse_without, after_without (nodup_reversed hn) hij]
  rfl

/-- The first element once `i` has left. -/
theorem head?_without {order : List Nat} (hn : order.Nodup) {i : Nat} (hi : i ∈ order) :
    (without order i).head? = if before order i = none then after order i else order.head? := by
  simp only [before_eq_none_iff hn hi]
  cases order with
  | nil => simp at hi
  | cons x rest =>
    obtain ⟨hx, hr⟩ := List.nodup_cons.mp hn
    by_cases hxi : x = i
    · subst hxi
      have hstep : without (x :: rest) x = rest := by
        rw [without, List.filter_cons_of_neg (by simp)]
        exact without_of_not_mem hx
      simp [hstep, after]
    · have hstep : without (x :: rest) i = x :: without rest i := by
        rw [without, List.filter_cons_of_pos (by simpa using hxi)]; rfl
      simp [hstep, hxi]

/-- The last element once `i` has left. -/
theorem getLast?_without {order : List Nat} (hn : order.Nodup) {i : Nat} (hi : i ∈ order) :
    (without order i).getLast? =
      if after order i = none then before order i else order.getLast? := by
  have h := head?_without (nodup_reversed hn) (i := i) (by simpa using hi)
  rw [← reverse_without, List.head?_reverse, List.head?_reverse] at h
  simpa [before] using h

/-- A newcomer at the end follows the former last element. -/
theorem after_concat {order : List Nat} {i j : Nat} (hj : j ∈ order) (hi : i ∉ order)
    (hn : order.Nodup) :
    after (order ++ [i]) j = if order.getLast? = some j then some i else after order j := by
  simp only [← after_eq_none_iff hn hj]
  induction order with
  | nil => simp at hj
  | cons x rest ih =>
    obtain ⟨hx, hr⟩ := List.nodup_cons.mp hn
    by_cases hxj : x = j
    · subst hxj
      cases rest with
      | nil => simp [after]
      | cons y ys => simp [after]
    · have hjr : j ∈ rest := by grind
      have hir : i ∉ rest := by grind
      simp only [List.cons_append, after, if_neg hxj]
      exact ih hjr hir hr

theorem after_concat_self {order : List Nat} {i : Nat} (hi : i ∉ order) :
    after (order ++ [i]) i = none := by
  induction order with
  | nil => simp [after]
  | cons x rest ih => grind [after]

theorem before_concat {order : List Nat} {i j : Nat} (hij : j ≠ i) :
    before (order ++ [i]) j = before order j := by
  simp [before, after, hij.symm]

theorem before_concat_self {order : List Nat} {i : Nat} :
    before (order ++ [i]) i = order.getLast? := by
  simp [before, after]

end ReplicatedCache.Recency
