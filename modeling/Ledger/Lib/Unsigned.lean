import Mathlib.Data.Nat.Basic

/-!
# Reading an unsigned integer of bounded size

One pass over the digits that stops at the first character that is not one, or at the
first digit that takes the number above the bound, whichever comes first.
-/

namespace Unsigned

inductive Fault
  | empty
  | invalidDigit
  | posOverflow
deriving DecidableEq

def toDigit (c : Char) : Option Nat := if c.isDigit then some (c.toNat - '0'.toNat) else none

/-- The digits of a number that begins with `n`. -/
def digits (max : Nat) : Nat → List Char → Except Fault Nat
  | n, [] => .ok n
  | n, c :: cs =>
    match toDigit c with
    | none => .error .invalidDigit
    -- a product that is too large makes a sum that is too large
    | some d => if 10 * n + d ≤ max then digits max (10 * n + d) cs else .error .posOverflow

def parse (max : Nat) : List Char → Except Fault Nat
  | [] => .error .empty
  | ['+'] => .error .invalidDigit
  | ['-'] => .error .invalidDigit
  | '+' :: cs => digits max 0 cs
  | cs => digits max 0 cs

/-! ## The numbers that are read -/

def unsign : List Char → List Char
  | '+' :: cs => cs
  | cs => cs

theorem unsign_digits {cs : List Char} (h : ∀ c ∈ cs, c.isDigit = true) : unsign cs = cs := by
  unfold unsign
  split
  · exact absurd (h '+' (List.mem_cons_self ..)) (by decide)
  · rfl

structure Denotes (cs : List Char) (n : Nat) : Prop where
  nonempty : unsign cs ≠ []
  digits : ∀ c ∈ unsign cs, c.isDigit = true
  value : Nat.ofDigitChars 10 (unsign cs) 0 = n

theorem Denotes.unique {cs : List Char} {n m : Nat} (h : Denotes cs n) (h' : Denotes cs m) : n = m :=
  h.value.symm.trans h'.value

theorem le_ofDigitChars : ∀ (cs : List Char) (n : Nat), n ≤ Nat.ofDigitChars 10 cs n
  | [], n => by rw [Nat.ofDigitChars_nil]
  | c :: cs, n => by
    rw [Nat.ofDigitChars_cons]
    exact Nat.le_trans (by omega) (le_ofDigitChars cs _)

section
variable {max : Nat}

theorem digits_digit {n : Nat} {c : Char} {cs : List Char} (hc : c.isDigit = true) :
    digits max n (c :: cs) = if 10 * n + (c.toNat - '0'.toNat) ≤ max then
      digits max (10 * n + (c.toNat - '0'.toNat)) cs else .error .posOverflow := by
  rw [digits, toDigit, if_pos hc]

theorem digits_other {n : Nat} {c : Char} {cs : List Char} (hc : c.isDigit ≠ true) :
    digits max n (c :: cs) = .error .invalidDigit := by
  rw [digits, toDigit, if_neg hc]

theorem digits_ok : ∀ {cs : List Char} {n m : Nat}, n ≤ max →
    (digits max n cs = .ok m ↔ (∀ c ∈ cs, c.isDigit = true) ∧ Nat.ofDigitChars 10 cs n = m ∧ m ≤ max)
  | [], n, m, hn => by
    simp only [digits, Except.ok.injEq, List.not_mem_nil, false_implies, implies_true, Nat.ofDigitChars_nil,
      true_and]
    exact ⟨fun h => ⟨h, h ▸ hn⟩, fun h => h.1⟩
  | c :: cs, n, m, hn => by
    by_cases hc : c.isDigit = true
    · rw [digits_digit hc, List.forall_mem_cons, Nat.ofDigitChars_cons]
      split
      · rename_i hle
        rw [digits_ok hle]
        simp only [hc, true_and]
      · rename_i hgt
        refine ⟨fun h => (by cases h), fun ⟨_, hv, hm⟩ => absurd ?_ hgt⟩
        exact Nat.le_trans (le_ofDigitChars cs _) (hv ▸ hm)
    · rw [digits_other hc, List.forall_mem_cons]
      exact ⟨fun h => (by cases h), fun h => absurd h.1.1 hc⟩

/-- A sign alone is not a number, and a `-` is not a digit. -/
theorem parse_eq (cs : List Char) : parse max cs =
    if cs = [] then .error .empty
    else if unsign cs = [] then .error .invalidDigit
    else digits max 0 (unsign cs) := by
  have hsign : digits max 0 ['-'] = .error .invalidDigit := digits_other (by decide)
  unfold parse
  split
  · rfl
  · rfl
  · exact hsign.symm
  · rename_i hne
    exact (if_neg hne).symm
  · rename_i hne _ _ hplus
    have hu : unsign cs = cs := by
      unfold unsign
      split
      · exact absurd rfl (hplus _)
      · rfl
    rw [hu, if_neg hne, if_neg hne]

theorem parse_ok {cs : List Char} {n : Nat} : parse max cs = .ok n ↔ Denotes cs n ∧ n ≤ max := by
  rw [parse_eq]
  split
  · rename_i h
    exact ⟨fun h => (by cases h), fun hd => absurd (by rw [h]; rfl) hd.1.nonempty⟩
  · split
    · rename_i h
      exact ⟨fun h => (by cases h), fun hd => absurd h hd.1.nonempty⟩
    · rename_i h
      rw [digits_ok (Nat.zero_le _)]
      exact ⟨fun ⟨hd, hv, hm⟩ => ⟨⟨h, hd, hv⟩, hm⟩, fun ⟨hd, hm⟩ => ⟨hd.digits, hd.value, hm⟩⟩

/-! ## Written in decimal -/

theorem denotes_repr (n : Nat) : Denotes n.repr.toList n := by
  rw [Nat.toList_repr]
  have hd : ∀ c ∈ Nat.toDigits 10 n, c.isDigit = true := fun c hc =>
    Nat.isDigit_of_mem_toDigits (by decide) (by decide) hc
  have hu := unsign_digits hd
  exact ⟨hu.symm ▸ Nat.toDigits_ne_nil, hu.symm ▸ hd, hu.symm ▸ Nat.ofDigitChars_ten_toDigits⟩

end

end Unsigned
