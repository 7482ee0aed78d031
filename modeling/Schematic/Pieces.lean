/-!
# Cutting a list into pieces

A list is cut at every element of a class. `pieces` keeps the empty pieces, so that there is always
one more piece than there are cuts, and joining the pieces with the cut elements gives the list
back. Texts are cut into words with it, references at their points, and the body of an entity into
its rows.
-/

namespace Schematic

universe u

/-- The stretches between the elements that satisfy `cut`. -/
def pieces {α : Type u} (cut : α → Bool) : List α → List (List α)
  | [] => [[]]
  | x :: xs =>
    if cut x then [] :: pieces cut xs
    else
      match pieces cut xs with
      | [] => [[x]]
      | p :: ps => (x :: p) :: ps

theorem pieces_ne_nil {α : Type u} (cut : α → Bool) (xs : List α) : pieces cut xs ≠ [] := by
  cases xs with
  | nil => simp [pieces]
  | cons x xs =>
    simp only [pieces]
    split
    · simp
    · split <;> simp

end Schematic
