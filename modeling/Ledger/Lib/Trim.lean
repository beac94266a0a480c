import Mathlib.Data.List.TakeWhile

/-!
# Taking the blanks off both ends of a list
-/

namespace Trim

variable {α β : Type*}

def trim (p : α → Bool) (l : List α) : List α := ((l.dropWhile p).reverse.dropWhile p).reverse

/-- A list that trimming leaves alone: neither end is blank. -/
structure Core (p : α → Bool) (l : List α) : Prop where
  first : ∀ a ∈ l.head?, p a = false
  last : ∀ a ∈ l.getLast?, p a = false

theorem dropWhile_of_head {p : α → Bool} {l : List α} (h : ∀ a ∈ l.head?, p a = false) : l.dropWhile p = l := by
  cases l with
  | nil => rfl
  | cons a l => rw [List.dropWhile_cons_of_neg (by rw [h a rfl]; exact Bool.false_ne_true)]

theorem trim_around {p : α → Bool} {before core after : List α} (hb : ∀ a ∈ before, p a = true)
    (hc : Core p core) (ha : ∀ a ∈ after, p a = true) : trim p (before ++ core ++ after) = core := by
  unfold trim
  rw [List.append_assoc, List.dropWhile_append_of_pos hb]
  cases core with
  | nil =>
    rw [List.nil_append, List.dropWhile_eq_nil_iff.mpr ha]
    rfl
  | cons c core =>
    have hfirst : ∀ a ∈ (c :: core ++ after).head?, p a = false := fun a h => hc.first a h
    rw [dropWhile_of_head hfirst, List.reverse_append,
      List.dropWhile_append_of_pos fun a h => ha a (List.mem_reverse.mp h)]
    have hlast : ∀ a ∈ (c :: core).reverse.head?, p a = false :=
      fun a h => hc.last a (by rwa [List.head?_reverse] at h)
    rw [dropWhile_of_head hlast, List.reverse_reverse]

theorem head_dropWhile (p : α → Bool) (l : List α) : ∀ a ∈ (l.dropWhile p).head?, p a = false := by
  intro a h
  have hnot := List.head?_dropWhile_not p l
  rw [Option.mem_def.mp h] at hnot
  simpa using hnot

theorem split (p : α → Bool) (l : List α) : ∃ before after, l = before ++ trim p l ++ after ∧
    (∀ a ∈ before, p a = true) ∧ (∀ a ∈ after, p a = true) ∧ l.dropWhile p = trim p l ++ after := by
  have hdrop : l.dropWhile p = trim p l ++ ((l.dropWhile p).reverse.takeWhile p).reverse := by
    unfold trim
    rw [← List.reverse_append, List.takeWhile_append_dropWhile, List.reverse_reverse]
  refine ⟨l.takeWhile p, _, ?_, fun a => List.mem_takeWhile_imp, fun a h => ?_, hdrop⟩
  · rw [List.append_assoc, ← hdrop, List.takeWhile_append_dropWhile]
  · exact List.mem_takeWhile_imp (List.mem_reverse.mp h)

theorem core_trim (p : α → Bool) (l : List α) : Core p (trim p l) := by
  obtain ⟨before, after, -, -, -, hdrop⟩ := split p l
  refine ⟨fun a h => head_dropWhile p l a ?_, fun a h => ?_⟩
  · rw [hdrop, List.head?_append, Option.mem_def.mp h]
    rfl
  · unfold trim at h
    rw [List.getLast?_reverse] at h
    exact head_dropWhile p _ a h

theorem trim_map {f : β → α} {p : α → Bool} (l : List β) : trim p (l.map f) = (trim (p ∘ f) l).map f := by
  unfold trim
  rw [List.dropWhile_map, ← List.map_reverse, List.dropWhile_map, ← List.map_reverse]

theorem trim_nil_iff {p : α → Bool} {l : List α} : trim p l = [] ↔ ∀ a ∈ l, p a = true := by
  constructor
  · intro h
    obtain ⟨before, after, hl, hb, ha, -⟩ := split p l
    rw [h, List.append_nil] at hl
    rw [hl]
    exact fun a hm => (List.mem_append.mp hm).elim (hb a) (ha a)
  · intro h
    unfold trim
    rw [List.dropWhile_eq_nil_iff.mpr h]
    rfl

end Trim
