import Mathlib.Data.List.Infix
import Mathlib.Data.List.TakeWhile

/-!
# Cutting a list at a delimiter

At the first occurrence of a pattern, at the last occurrence of an element, and before
the first element of a kind. Each cut is determined by what its pieces do not contain.
-/

namespace Split

variable {α : Type*}

/-! ## Before the first element of a kind -/

/-- At the end if there is none. -/
def before (p : α → Bool) (l : List α) : List α × List α := l.splitAt (l.findIdx p)

theorem before_eq_while (p : α → Bool) (l : List α) :
    before p l = (l.takeWhile fun a => !p a, l.dropWhile fun a => !p a) := by
  rw [before, List.splitAt_eq, List.takeWhile_eq_take_findIdx_not, List.dropWhile_eq_drop_findIdx_not]
  simp only [Bool.not_not]

theorem before_append {p : α → Bool} {l r : List α} (hl : ∀ a ∈ l, p a = false) (hr : ∀ a ∈ r.head?, p a = true) :
    before p (l ++ r) = (l, r) := by
  have hl' : ∀ a ∈ l, (!p a) = true := fun a ha => by rw [hl a ha]; rfl
  rw [before_eq_while, List.takeWhile_append_of_pos hl', List.dropWhile_append_of_pos hl']
  cases r with
  | nil => simp
  | cons a r =>
    have := hr a rfl
    simp [this]

theorem before_eq_iff {p : α → Bool} {s l r : List α} :
    before p s = (l, r) ↔ s = l ++ r ∧ (∀ a ∈ l, p a = false) ∧ ∀ a ∈ r.head?, p a = true := by
  constructor
  · intro h
    rw [before_eq_while] at h
    obtain ⟨rfl, rfl⟩ := Prod.mk.inj h
    refine ⟨List.takeWhile_append_dropWhile.symm, fun a ha => ?_, fun a ha => ?_⟩
    · simpa using List.mem_takeWhile_imp ha
    · have := List.head?_dropWhile_not (fun a => !p a) s
      rw [Option.mem_def.mp ha] at this
      simpa using this
  · rintro ⟨rfl, hl, hr⟩
    exact before_append hl hr

/-! ## Patterns that cannot overlap themselves -/

/-- No proper end of the pattern is a beginning of it. -/
def Borderless (pat : List α) : Prop := ∀ k < pat.length, 0 < k → ¬ pat.drop k <+: pat

theorem borderless_singleton (a : α) : Borderless [a] := by
  intro k hk h0
  rw [List.length_singleton] at hk
  omega

theorem Borderless.not_infix {pat l : List α} (hb : Borderless pat) (h : ¬ pat <:+: l) :
    ¬ pat <:+: l ++ pat.dropLast := by
  intro hin
  have hne : pat ≠ [] := fun e => h (e ▸ List.nil_infix)
  rcases List.infix_append_iff_ne_nil.mp hin with hl | hr | ⟨x, y, hx, hy, hxy, -, hpre⟩
  · exact h hl
  · have := hr.length_le
    have hpos := List.length_pos_iff.mpr hne
    rw [List.length_dropLast] at this
    omega
  · refine hb x.length ?_ (List.length_pos_iff.mpr hx) ?_
    · have := List.length_pos_iff.mpr hy
      rw [hxy, List.length_append]
      omega
    · have hdrop : pat.drop x.length = y := by rw [hxy, List.drop_left]
      rw [hdrop]
      exact hpre.trans (List.dropLast_prefix pat)

/-! ## At the last occurrence of an element -/

variable [DecidableEq α]

instance decidableBorderless (pat : List α) : Decidable (Borderless pat) :=
  inferInstanceAs (Decidable (∀ k < pat.length, 0 < k → ¬ pat.drop k <+: pat))

def last (a : α) : List α → Option (List α × List α)
  | [] => none
  | b :: l => match last a l with
    | some r => some (b :: r.1, r.2)
    | none => if b = a then some ([], l) else none

theorem last_eq_none_iff {a : α} {s : List α} : last a s = none ↔ a ∉ s := by
  induction s with
  | nil => simp [last]
  | cons b s ih =>
    simp only [last, List.mem_cons, not_or]
    cases h : last a s with
    | some r =>
      rw [h] at ih
      simp only [reduceCtorEq, false_iff, not_not] at ih ⊢
      exact fun hn => hn.2 ih
    | none =>
      rw [h] at ih
      by_cases hb : b = a
      · simp [hb]
      · simp [hb, Ne.symm hb, ih.mp rfl]

theorem last_append {a : α} {r : List α} (hr : a ∉ r) : ∀ l : List α, last a (l ++ a :: r) = some (l, r)
  | [] => by
    rw [List.nil_append, last, last_eq_none_iff.mpr hr]
    exact if_pos rfl
  | b :: l => by rw [List.cons_append, last, last_append hr l]

theorem last_eq_some_iff {a : α} {s l r : List α} : last a s = some (l, r) ↔ s = l ++ a :: r ∧ a ∉ r := by
  constructor
  · intro h
    induction s generalizing l with
    | nil => cases h
    | cons b s ih =>
      rw [last] at h
      cases hs : last a s with
      | some x =>
        rw [hs] at h
        cases h
        obtain ⟨rfl, hx⟩ := ih hs
        exact ⟨rfl, hx⟩
      | none =>
        rw [hs] at h
        by_cases hb : b = a
        · rw [if_pos hb] at h
          cases h
          exact ⟨by rw [hb]; rfl, last_eq_none_iff.mp hs⟩
        · rw [if_neg hb] at h
          cases h
  · rintro ⟨rfl, hr⟩
    exact last_append hr l

/-! ## At the first occurrence of a pattern -/

def once (pat : List α) : List α → Option (List α × List α)
  | [] => if pat = [] then some ([], []) else none
  | a :: l =>
    if pat <+: a :: l then some ([], (a :: l).drop pat.length)
    else (once pat l).map fun r => (a :: r.1, r.2)

theorem once_eq_none_iff {pat s : List α} : once pat s = none ↔ ¬ pat <:+: s := by
  induction s with
  | nil => simp [once]
  | cons a s ih =>
    rw [once, List.infix_cons_iff]
    by_cases h : pat <+: a :: s
    · simp [h]
    · simp [h, ih]

section
variable {pat : List α} (hb : Borderless pat)
include hb

theorem Borderless.once_append {l : List α} (h : ¬ pat <:+: l) (r : List α) :
    once pat (l ++ pat ++ r) = some (l, r) := by
  induction l with
  | nil =>
    cases pat with
    | nil => exact absurd List.nil_infix h
    | cons c pat =>
      rw [List.nil_append, List.cons_append, once, if_pos ⟨r, rfl⟩, ← List.cons_append, List.drop_left]
  | cons a l ih =>
    have hl : ¬ pat <:+: l := fun hin => h (hin.trans (List.suffix_cons a l).isInfix)
    have hpre : ¬ pat <+: a :: (l ++ pat ++ r) := by
      intro hp
      refine hb.not_infix h (List.IsPrefix.isInfix ?_)
      refine List.prefix_of_prefix_length_le hp ?_ ?_
      · have hdrop : a :: l ++ pat.dropLast <+: a :: l ++ pat :=
          (List.prefix_append_right_inj _).mpr (List.dropLast_prefix pat)
        exact hdrop.trans ⟨r, by simp⟩
      · simp only [List.cons_append, List.length_cons, List.length_append, List.length_dropLast]
        omega
    rw [List.cons_append, List.cons_append, once, if_neg hpre, ih hl]
    rfl

theorem Borderless.once_eq_some_iff (hne : pat ≠ []) {s l r : List α} :
    once pat s = some (l, r) ↔ s = l ++ pat ++ r ∧ ¬ pat <:+: l := by
  constructor
  · intro h
    induction s generalizing l with
    | nil =>
      rw [once, if_neg hne] at h
      cases h
    | cons a s ih =>
      rw [once] at h
      by_cases hp : pat <+: a :: s
      · rw [if_pos hp] at h
        cases h
        refine ⟨?_, fun hin => hne (List.infix_nil.mp hin)⟩
        rw [List.nil_append]
        exact (List.prefix_append_drop hp)
      · rw [if_neg hp] at h
        obtain ⟨x, hx, he⟩ := Option.map_eq_some_iff.mp h
        cases he
        obtain ⟨hs, hin⟩ := ih hx
        refine ⟨by rw [List.cons_append, List.cons_append, ← hs], ?_⟩
        rw [List.infix_cons_iff]
        rintro (hpre | hin')
        · refine hp (hpre.trans ⟨pat ++ x.2, ?_⟩)
          rw [List.cons_append, ← List.append_assoc, ← hs]
        · exact hin hin'
  · rintro ⟨rfl, hl⟩
    exact hb.once_append hl r

end

theorem once_singleton_iff {a : α} {s l r : List α} : once [a] s = some (l, r) ↔ s = l ++ a :: r ∧ a ∉ l := by
  rw [(borderless_singleton a).once_eq_some_iff (List.cons_ne_nil a []), List.singleton_infix_iff,
    List.append_assoc, List.singleton_append]

theorem once_singleton_none {a : α} {s : List α} : once [a] s = none ↔ a ∉ s := by
  rw [once_eq_none_iff, List.singleton_infix_iff]

/-! ## At every occurrence of an element -/

theorem not_mem_splitOn {a : α} : ∀ {s piece : List α}, piece ∈ s.splitOn a → a ∉ piece
  | [], piece, h => by
    rw [List.splitOn_nil, List.mem_singleton] at h
    rw [h]
    exact List.not_mem_nil
  | b :: s, piece, h => by
    rw [List.splitOn_cons_eq_if_modifyHead] at h
    cases hs : s.splitOn a with
    | nil => exact absurd hs (List.splitOn_ne_nil a s)
    | cons first rest =>
      have ih : ∀ p ∈ first :: rest, a ∉ p := fun p hp => not_mem_splitOn (hs ▸ hp)
      rw [hs] at h
      by_cases hb : b = a
      · simp only [hb, beq_self_eq_true, if_true, List.mem_cons] at h
        rcases h with rfl | h
        · exact List.not_mem_nil
        · exact ih _ (List.mem_cons.mpr h)
      · simp only [beq_eq_false_iff_ne.mpr hb, Bool.false_eq_true, if_false, List.modifyHead_cons,
          List.mem_cons] at h
        rcases h with rfl | h
        · simpa [Ne.symm hb] using ih first (List.mem_cons_self ..)
        · exact ih _ (List.mem_cons_of_mem _ h)

omit [DecidableEq α] in
theorem mem_intercalate {a b : α} : ∀ {pieces : List (List α)}, b ∈ [a].intercalate pieces →
    b = a ∨ ∃ piece ∈ pieces, b ∈ piece
  | [], h => by cases h
  | [piece], h => .inr ⟨piece, List.mem_singleton_self _, by simpa using h⟩
  | piece :: next :: pieces, h => by
    rw [List.intercalate_cons_cons, List.append_assoc, List.mem_append, List.mem_append, List.mem_singleton] at h
    rcases h with h | h | h
    · exact .inr ⟨piece, List.mem_cons_self .., h⟩
    · exact .inl h
    · refine (mem_intercalate h).imp_right ?_
      rintro ⟨p, hp, hb⟩
      exact ⟨p, List.mem_cons_of_mem _ hp, hb⟩

omit [DecidableEq α] in
theorem mem_intercalate_of_mem {a b : α} {piece : List α} (hb : b ∈ piece) : ∀ {pieces : List (List α)},
    piece ∈ pieces → b ∈ [a].intercalate pieces
  | [first], h => by
    rw [List.mem_singleton] at h
    subst h
    simpa using hb
  | first :: next :: pieces, h => by
    rw [List.intercalate_cons_cons, List.append_assoc, List.mem_append, List.mem_append]
    rcases List.mem_cons.mp h with rfl | h
    · exact .inl hb
    · exact .inr (.inr (mem_intercalate_of_mem hb h))

theorem mem_of_mem_splitOn {a b : α} {s piece : List α} (h : piece ∈ s.splitOn a) (hb : b ∈ piece) : b ∈ s := by
  have := mem_intercalate_of_mem (a := a) hb h
  rwa [List.intercalate_splitOn] at this

end Split
