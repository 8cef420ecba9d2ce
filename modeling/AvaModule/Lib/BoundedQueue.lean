import Mathlib.Data.List.Basic

/-! A first-in first-out queue of at most `cap` items. The contents, oldest
first, carry the bound. A producer may append the longest prefix that fits, all
or nothing, or everything at the cost of the oldest items. -/
namespace BoundedQueue
variable {α : Type*} {cap : Nat}

structure Queue (α : Type*) (cap : Nat) where
  items : List α
  bound : items.length ≤ cap

namespace Queue

def empty : Queue α cap := ⟨[], Nat.zero_le cap⟩

variable (q : Queue α cap) (src : List α)

def room : Nat := cap - q.items.length

def appendPrefix : Queue α cap where
  items := q.items ++ src.take q.room
  bound := by
    have := q.bound
    simp only [room, List.length_append, List.length_take]
    omega

def appendWhole : Queue α cap :=
  if fits : src.length ≤ q.room then
    { items := q.items ++ src
      bound := by
        have := q.bound
        simp only [room] at fits
        simp only [List.length_append]
        omega }
  else q

def appendDropping : Queue α cap where
  items := (q.items ++ src).drop (q.items.length + src.length - cap)
  bound := by
    simp only [List.length_drop, List.length_append]
    omega

def remove (n : Nat) : Queue α cap where
  items := q.items.drop n
  bound := by
    have := q.bound
    simp only [List.length_drop]
    omega

theorem appendPrefix_of_fits (fits : src.length ≤ q.room) :
    (q.appendPrefix src).items = q.items ++ src := by
  simp [appendPrefix, List.take_of_length_le fits]

theorem appendWhole_of_fits (fits : src.length ≤ q.room) :
    (q.appendWhole src).items = q.items ++ src := by
  simp [appendWhole, fits]

theorem appendDropping_of_fits (fits : src.length ≤ q.room) :
    (q.appendDropping src).items = q.items ++ src := by
  have := q.bound
  have nothing : q.items.length + src.length - cap = 0 := by
    simp only [room] at fits
    omega
  simp [appendDropping, nothing]

/-- What an append drops are items it found in the queue, when it is not longer
than the queue. -/
theorem appendDropping_items (small : src.length ≤ cap) :
    (q.appendDropping src).items = q.items.drop (q.items.length + src.length - cap) ++ src := by
  exact List.drop_append_of_le_length (by omega)

end Queue
end BoundedQueue
