import Mathlib.Data.List.Basic

/-!
# Binary search without an early exit

The window is halved until one element is left, and only that one is compared for
equality. The list is given by how its elements compare to what is searched for.
-/

namespace BinarySearch

variable {α : Type*}

/-- Where the window of `size` elements from `base` on ends up. -/
def narrow (f : α → Ordering) (xs : List α) (size base : Nat) : Nat :=
  if 1 < size then
    let half := size / 2
    let mid := base + half
    narrow f xs (size - half) (if xs[mid]?.map f = some .gt then base else mid)
  else base
termination_by size

def search (f : α → Ordering) (xs : List α) : Except Nat Nat :=
  if xs.length = 0 then .error 0
  else
    let base := narrow f xs xs.length 0
    match xs[base]?.map f with
    | some .eq => .ok base
    | some .lt => .error (base + 1)
    | _ => .error base

/-- First what is less, then what is equal, then what is greater. -/
def Sorted (f : α → Ordering) (xs : List α) : Prop :=
  xs.Pairwise fun a b => (f b = .lt → f a = .lt) ∧ (f a = .gt → f b = .gt)

variable {f : α → Ordering} {xs : List α}

structure Window (f : α → Ordering) (xs : List α) (size base : Nat) : Prop where
  inside : base + size ≤ xs.length
  below : ∀ (h : base < xs.length), base = 0 ∨ f xs[base] ≠ .gt
  above : ∀ i (h : i < xs.length), base + size ≤ i → f xs[i] = .gt

theorem Window.halve (hs : Sorted f xs) {size base : Nat} (h : Window f xs size base) (hsize : 1 < size) :
    Window f xs (size - size / 2) (if xs[base + size / 2]?.map f = some .gt then base else base + size / 2) := by
  have hmid : base + size / 2 < xs.length := by have := h.inside; omega
  simp only [List.getElem?_eq_getElem hmid, Option.map_some, Option.some.injEq]
  split
  · rename_i hgt
    refine ⟨by have := h.inside; omega, h.below, fun i hi hle => ?_⟩
    rcases Nat.lt_or_ge (base + size / 2) i with hlt | hge
    · exact (List.pairwise_iff_getElem.mp hs _ _ hmid hi hlt).2 hgt
    · obtain rfl : i = base + size / 2 := by omega
      exact hgt
  · rename_i hle
    exact ⟨by have := h.inside; omega, fun _ => Or.inr hle, fun i hi hi' => h.above i hi (by omega)⟩

theorem narrow_window (hs : Sorted f xs) {size base : Nat} (h : Window f xs size base) (hpos : 0 < size) :
    Window f xs 1 (narrow f xs size base) := by
  fun_induction narrow f xs size base with
  | case1 size base hsize half mid ih => exact ih (h.halve hs hsize) (by omega)
  | case2 size base hsize =>
    obtain rfl : size = 1 := by omega
    exact h

/-- What is less ends at the insertion point, and nothing in the list is equal. -/
structure Inserts (f : α → Ordering) (xs : List α) (i : Nat) : Prop where
  inside : i ≤ xs.length
  before : ∀ j (h : j < xs.length), j < i → f xs[j] = .lt
  after : ∀ j (h : j < xs.length), i ≤ j → f xs[j] = .gt

theorem search_cases (hs : Sorted f xs) :
    (∃ i, ∃ h : i < xs.length, search f xs = .ok i ∧ f xs[i] = .eq) ∨
      ∃ i, search f xs = .error i ∧ Inserts f xs i := by
  unfold search
  split
  · rename_i hzero
    exact Or.inr ⟨0, rfl, Nat.zero_le _, fun j h => (by omega), fun j h => (by omega)⟩
  · rename_i hpos
    have hw : Window f xs xs.length 0 := ⟨by omega, fun _ => Or.inl rfl, fun i hi hle => (by omega)⟩
    have hn := narrow_window hs hw (by omega)
    generalize narrow f xs xs.length 0 = base at hn
    have hbase : base < xs.length := by have := hn.inside; omega
    have habove : ∀ j (h : j < xs.length), base < j → f xs[j] = .gt := fun j h hlt => hn.above j h hlt
    dsimp only
    rw [List.getElem?_eq_getElem hbase, Option.map_some]
    cases hf : f xs[base] with
    | eq => exact Or.inl ⟨base, hbase, rfl, hf⟩
    | lt =>
      refine Or.inr ⟨base + 1, rfl, hbase, fun j h hlt => ?_, fun j h hle => habove j h (by omega)⟩
      rcases Nat.lt_or_ge j base with hj | hj
      · exact (List.pairwise_iff_getElem.mp hs j base h hbase hj).1 hf
      · obtain rfl : j = base := by omega
        exact hf
    | gt =>
      -- only the first element can be greater than what the window was left with
      have hzero : base = 0 := (hn.below hbase).resolve_right fun hne => hne hf
      refine Or.inr ⟨base, rfl, Nat.le_of_lt hbase, fun j h hlt => (by omega), fun j h hle => ?_⟩
      rcases Nat.lt_or_ge base j with hj | hj
      · exact habove j h hj
      · obtain rfl : j = base := by omega
        exact hf

theorem search_ok_iff (hs : Sorted f xs) : (search f xs).isOk = true ↔ ∃ a ∈ xs, f a = .eq := by
  rcases search_cases hs with ⟨i, hi, he, hf⟩ | ⟨i, he, hins⟩
  · rw [he]
    exact ⟨fun _ => ⟨_, List.getElem_mem hi, hf⟩, fun _ => rfl⟩
  · rw [he]
    refine ⟨fun h => (by cases h), fun ⟨a, ha, hf⟩ => ?_⟩
    obtain ⟨j, hj, rfl⟩ := List.getElem_of_mem ha
    rcases Nat.lt_or_ge j i with hlt | hge
    · rw [hins.before j hj hlt] at hf; cases hf
    · rw [hins.after j hj hge] at hf; cases hf

end BinarySearch
