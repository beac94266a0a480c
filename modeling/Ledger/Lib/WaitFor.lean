import Mathlib.Logic.Relation

/-!
# Wait-for graphs

Parties that wait for one another and never in a circle: it is enough to give each a
rank that drops along every wait.
-/

namespace WaitFor

variable {α : Type*} {waits : α → α → Prop} {rank : α → Nat} (h : ∀ a b, waits a b → rank b < rank a)
include h

theorem rank_lt {a b : α} (hab : Relation.TransGen waits a b) : rank b < rank a := by
  induction hab with
  | single hw => exact h _ _ hw
  | tail _ hw ih => exact Nat.lt_trans (h _ _ hw) ih

theorem acyclic (a : α) : ¬ Relation.TransGen waits a a := fun hc => Nat.lt_irrefl _ (rank_lt h hc)

/-- If what a member of `P` waits for is in `P` too, then some member does not wait. -/
theorem exists_free {P : α → Prop} (hP : ∀ a b, P a → waits a b → P b) {a : α} (ha : P a) :
    ∃ b, P b ∧ ∀ b', ¬ waits b b' := by
  induction hn : rank a using Nat.strongRecOn generalizing a with
  | _ n ih =>
    by_cases hw : ∃ b, waits a b
    · obtain ⟨b, hw⟩ := hw
      exact ih (rank b) (hn ▸ h a b hw) (hP a b ha hw) rfl
    · exact ⟨a, ha, fun b hb => hw ⟨b, hb⟩⟩

end WaitFor
