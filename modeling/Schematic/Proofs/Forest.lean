import Schematic.Document.Basic

/-!
# Forests side by side

Forests form a monoid under putting one behind the other.
-/

namespace Schematic

namespace Forest

theorem append_nil (b : Forest) : b ++ .nil = b := by
  induction b with
  | nil => rfl
  | entity e rest ih => exact congrArg (Forest.entity e) ih
  | group name members rest _ ih => exact congrArg (Forest.group name members) ih

theorem append_assoc (a b c : Forest) : a ++ b ++ c = a ++ (b ++ c) := by
  induction a with
  | nil => rfl
  | entity e rest ih => exact congrArg (Forest.entity e) ih
  | group name members rest _ ih => exact congrArg (Forest.group name members) ih

theorem append_eq_nil_iff {a b : Forest} : a ++ b = .nil ↔ a = .nil ∧ b = .nil := by
  cases a with
  | nil => exact (and_iff_right rfl).symm
  | entity e rest => exact iff_of_false (fun h => by cases h) fun h => by cases h.1
  | group name members rest => exact iff_of_false (fun h => by cases h) fun h => by cases h.1

end Forest

end Schematic
