import Ledger.Money
import Mathlib.Data.Rat.Defs
import Mathlib.Algebra.Order.Ring.Rat

/-!
# Numbers in texts

What a text denotes, read digit by digit: a sign, digits with an optional point among
them, and an optional exponent. Nothing here rounds; `Decimal.ofNumeral` then shows what
a decimal with 28 places can keep of it.
-/

namespace Ledger

/-- A decimal literal: `num / 10 ^ places`. -/
structure Numeral where
  num : ℤ
  places : Nat
deriving DecidableEq

namespace Numeral

def value (n : Numeral) : ℚ := n.num / 10 ^ n.places

def digit (ch : Char) : Option Nat := if '0' ≤ ch ∧ ch ≤ '9' then some (ch.toNat - 48) else none

/-- The digits a text begins with, and the rest. Underscores between digits are skipped. -/
def digits : List Char → List Nat × List Char
  | [] => ([], [])
  | ch :: rest => match digit ch with
    | some d => ((digits rest).1.cons d, (digits rest).2)
    | none => if ch = '_' then digits rest else ([], ch :: rest)

def sign : List Char → Bool × List Char
  | '-' :: rest => (true, rest)
  | '+' :: rest => (false, rest)
  | rest => (false, rest)

/-- `e` or `E`, a sign and at least one digit, and nothing after it. -/
def exponent : List Char → Option ℤ
  | [] => some 0
  | ch :: rest =>
    let (neg, rest) := sign rest
    let (ds, tail) := digits rest
    if (ch = 'e' ∨ ch = 'E') ∧ ds ≠ [] ∧ tail = [] then
      some (if neg then -(Nat.ofDigits 10 ds.reverse : ℤ) else Nat.ofDigits 10 ds.reverse)
    else none

def fraction : List Char → List Nat × List Char
  | '.' :: rest => digits rest
  | rest => ([], rest)

def parse (s : String) : Option Numeral := do
  let (neg, rest) := sign s.toList
  let (whole, rest) := digits rest
  let (fraction, rest) := fraction rest
  if whole ++ fraction = [] then none
  else
    let e ← exponent rest
    let coeff : ℤ := Nat.ofDigits 10 (whole ++ fraction).reverse
    let num := if neg then -coeff else coeff
    let places : ℤ := fraction.length - e
    if 0 ≤ places then some ⟨num, places.toNat⟩ else some ⟨num * 10 ^ (-places).toNat, 0⟩

def denotes (s : String) : Option ℚ := (parse s).map value

def Plain (s : String) : Prop := 'e' ∉ s.toList ∧ 'E' ∉ s.toList

instance (s : String) : Decidable (Plain s) := inferInstanceAs (Decidable (_ ∧ _))

/-- Rounded half away from zero where there are more than `k` places. -/
def toPlaces (k : Nat) (n : Numeral) : Numeral :=
  if n.places ≤ k then n
  else
    let q : Nat := (n.num.natAbs + 10 ^ (n.places - k) / 2) / 10 ^ (n.places - k)
    ⟨if n.num < 0 then -q else q, k⟩

theorem toPlaces_of_le {k : Nat} {n : Numeral} (h : n.places ≤ k) : n.toPlaces k = n := if_pos h

end Numeral

def Decimal.toRat (d : Decimal) : ℚ := d.val / 10 ^ 28

/-- A multiple of `10⁻⁸` below `10¹²` in magnitude. -/
def StorableRat (q : ℚ) : Prop := ∃ k : ℤ, q = k / 10 ^ 8 ∧ |k| < 10 ^ 20

theorem Decimal.storable_iff (d : Decimal) : d.Storable ↔ StorableRat d.toRat := by
  have h28 : ((10 : ℚ) ^ 28) = 10 ^ 20 * 10 ^ 8 := by norm_num
  constructor
  · rintro ⟨⟨k, hk⟩, hlt⟩
    refine ⟨k, ?_, ?_⟩
    · rw [Decimal.toRat, hk, div_eq_div_iff (by norm_num) (by norm_num)]
      push_cast
      ring
    · rw [hk, abs_lt] at hlt
      rw [abs_lt]
      omega
  · rintro ⟨k, hk, hlt⟩
    have hval : d.val = 10 ^ 20 * k := by
      rw [Decimal.toRat, h28, div_eq_div_iff (by norm_num) (by norm_num)] at hk
      have : (d.val : ℚ) = ((10 ^ 20 * k : ℤ) : ℚ) := by
        push_cast
        linarith
      exact_mod_cast this
    refine ⟨⟨k, hval⟩, ?_⟩
    rw [abs_lt] at hlt
    rw [hval, abs_lt]
    omega

/-- A decimal with at most 28 places, rounding half away from zero where there are more. -/
def Decimal.ofNumeral (n : Numeral) : Option Decimal :=
  let scale := min n.places 28
  let c := n.num.natAbs
  let coeff := if n.places ≤ 28 then c else (c + 10 ^ (n.places - 28) / 2) / 10 ^ (n.places - 28)
  if h : coeff < 2 ^ 96 then some ⟨decide (n.num < 0), coeff, scale, h, Nat.min_le_right _ _⟩ else none

theorem Decimal.toRat_numeral (d : Decimal) : (⟨d.signed, d.scale⟩ : Numeral).value = d.toRat := by
  have hpow : (10 : ℚ) ^ 28 = 10 ^ d.scale * 10 ^ (28 - d.scale) := by
    rw [← pow_add, Nat.add_sub_cancel' d.scale_le]
  have hne : ∀ k : Nat, (10 : ℚ) ^ k ≠ 0 := fun k => pow_ne_zero k (by norm_num)
  rw [Numeral.value, Decimal.toRat, Decimal.val, hpow]
  push_cast
  rw [mul_div_mul_right _ _ (hne _)]

namespace Numeral

variable {n : Numeral}

theorem natAbs_toPlaces : (n.toPlaces 28).num.natAbs = if n.places ≤ 28 then n.num.natAbs
    else (n.num.natAbs + 10 ^ (n.places - 28) / 2) / 10 ^ (n.places - 28) := by
  unfold toPlaces
  split
  · rfl
  · simp only
    split
    · rw [Int.natAbs_neg, Int.natAbs_natCast]
    · rw [Int.natAbs_natCast]

theorem ofNumeral_fits (h : (n.toPlaces 28).num.natAbs < 2 ^ 96) :
    ∃ d, Decimal.ofNumeral n = some d ∧ d.toRat = (n.toPlaces 28).value := by
  rw [natAbs_toPlaces] at h
  refine ⟨_, dif_pos h, ?_⟩
  rw [← Decimal.toRat_numeral]
  congr 1
  unfold toPlaces Decimal.signed
  by_cases hp : n.places ≤ 28
  · simp only [if_pos hp, decide_eq_true_eq, Nat.min_eq_left hp]
    congr 1
    split <;> omega
  · simp only [if_neg hp, decide_eq_true_eq, Nat.min_eq_right (Nat.le_of_not_le hp)]

end Numeral

end Ledger
