/-! # First in, first out

A queue with constant amortised cost, kept as a front list and a reversed back
list. `toList` is its content, oldest first; the lemmas say what each operation
does to it.
-/

namespace ReplicatedCache

/-- A queue: `front` oldest first, `back` newest first, and their total length. -/
structure Fifo (α : Type) where
  front : List α
  back : List α
  size : Nat
  size_eq : size = front.length + back.length

namespace Fifo

variable {α : Type}

def empty : Fifo α := ⟨[], [], 0, rfl⟩

instance : Inhabited (Fifo α) := ⟨empty⟩

/-- The content, oldest first. -/
def toList (queue : Fifo α) : List α := queue.front ++ queue.back.reverse

def push (queue : Fifo α) (x : α) : Fifo α :=
  match queue with
  | ⟨front, back, size, h⟩ =>
    ⟨front, x :: back, size + 1, by simp only [h, List.length_cons]; omega⟩

def pop? (queue : Fifo α) : Option (α × Fifo α) :=
  match queue with
  | ⟨x :: front, back, size, h⟩ => some (x, ⟨front, back, size - 1, by
      simp only [h, List.length_cons]; omega⟩)
  | ⟨[], back, size, h⟩ =>
    match hb : back.reverse with
    | [] => none
    | x :: rest => some (x, ⟨rest, [], size - 1, by
        have := congrArg List.length hb
        simp at this
        simp [h, this]⟩)

@[simp] theorem toList_empty : (empty : Fifo α).toList = [] := rfl

theorem size_eq_length (queue : Fifo α) : queue.size = queue.toList.length := by
  simp [toList, queue.size_eq]

@[simp] theorem toList_push (queue : Fifo α) (x : α) :
    (queue.push x).toList = queue.toList ++ [x] := by
  simp [push, toList]

@[simp] theorem size_push (queue : Fifo α) (x : α) : (queue.push x).size = queue.size + 1 := rfl

/-- Popping fails on the empty queue only: the two lists never hide an element from each
other. -/
theorem pop?_eq_none {queue : Fifo α} : queue.pop? = none ↔ queue.toList = [] := by
  obtain ⟨front, back, size, h⟩ := queue
  cases front with
  | cons x front => simp [pop?, toList]
  | nil =>
    unfold pop?
    split
    · rename_i heq
      simp_all
    · rename_i heq
      simp only [Fifo.mk.injEq] at heq
      obtain ⟨-, rfl, -⟩ := heq
      split
      · rename_i hb
        simp [toList, hb]
      · rename_i hb
        simp [toList, hb]

/-- What is popped is the oldest element, and the others keep their order. -/
theorem toList_of_pop? {queue rest : Fifo α} {x : α} (h : queue.pop? = some (x, rest)) :
    queue.toList = x :: rest.toList := by
  obtain ⟨front, back, size, hs⟩ := queue
  cases front with
  | cons y front =>
    simp only [pop?, Option.some.injEq, Prod.mk.injEq] at h
    obtain ⟨rfl, rfl⟩ := h
    simp [toList]
  | nil =>
    unfold pop? at h
    split at h
    · rename_i heq
      simp_all
    · rename_i heq
      simp only [Fifo.mk.injEq] at heq
      obtain ⟨-, rfl, -⟩ := heq
      split at h
      · simp at h
      · rename_i hb
        simp only [Option.some.injEq, Prod.mk.injEq] at h
        obtain ⟨rfl, rfl⟩ := h
        simp [toList, hb]

end Fifo

end ReplicatedCache
