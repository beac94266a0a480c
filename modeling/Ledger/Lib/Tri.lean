import Mathlib.Logic.Basic

/-!
# Three-valued logic

`none` is SQL's `NULL`: a comparison with a missing operand is unknown, `OR` is
true as soon as one side is, and a condition is taken only when it is true.
-/

namespace Tri

variable {α : Type*} [DecidableEq α]

def ne : Option α → Option α → Option Bool
  | some a, some b => some (decide (a ≠ b))
  | _, _ => none

def or : Option Bool → Option Bool → Option Bool
  | some true, _ => some true
  | _, some true => some true
  | some false, some false => some false
  | _, _ => none

theorem or_eq_true {a b : Option Bool} : or a b = some true ↔ a = some true ∨ b = some true := by
  rcases a with _ | (_ | _) <;> rcases b with _ | (_ | _) <;> simp [or]

theorem ne_eq_true {a b : α} : ne (some a) (some b) = some true ↔ a ≠ b := by
  simp [ne]

end Tri
