import Mathlib.Data.List.Basic
import Mathlib.Tactic.Common

/-!
# Bounded queues

A first-in first-out queue with a capacity, as an abstract data type: what a circular buffer, a
bounded channel or a byte-stream device is for. The bound is a field, so that an overfull queue
cannot be built. `put` stores the fitting prefix of its argument, `take` removes a prefix of the
queue, and `resize` refuses a capacity that does not hold the queue.
-/

/-- A queue of at most `capacity` items, oldest first. -/
@[ext]
structure BoundedQueue (α : Type*) where
  capacity : ℕ
  items : List α
  fits : items.length ≤ capacity

namespace BoundedQueue

variable {α : Type*}

/-- The empty queue. -/
def empty (α : Type*) (capacity : ℕ) : BoundedQueue α := ⟨capacity, [], Nat.zero_le _⟩

/-- The number of items that still fit. -/
def free (q : BoundedQueue α) : ℕ := q.capacity - q.items.length

/-- Appends the fitting prefix of `xs`. -/
def put (q : BoundedQueue α) (xs : List α) : BoundedQueue α where
  capacity := q.capacity
  items := q.items ++ xs.take q.free
  fits := by
    have := q.fits
    simp only [List.length_append, List.length_take, free]
    omega

/-- Removes the oldest `n` items, or all if there are fewer. -/
def take (q : BoundedQueue α) (n : ℕ) : List α × BoundedQueue α :=
  (q.items.take n, ⟨q.capacity, q.items.drop n, by have := q.fits; simp only [List.length_drop]; omega⟩)

/-- Discards every item. -/
def clear (q : BoundedQueue α) : BoundedQueue α := empty α q.capacity

/-- Changes the capacity, if the new one holds the queue. -/
def resize (q : BoundedQueue α) (capacity : ℕ) : Option (BoundedQueue α) :=
  if h : q.items.length ≤ capacity then some ⟨capacity, q.items, h⟩ else none

end BoundedQueue
