import Mathlib.Data.Nat.Digits.Lemmas
import Mathlib.Tactic.Ring
import Mathlib.Tactic.Positivity

/-!
# The decimal type

`rust_decimal::Decimal`: a sign, a 96-bit coefficient and a scale of at most 28
decimal places. `val` is the number a decimal denotes, counted in units of
`10⁻²⁸`, the finest scale there is, so that two decimals are numerically equal
exactly when their `val` agree.
-/

namespace Ledger

structure Decimal where
  neg : Bool
  coeff : Nat
  scale : Nat
  coeff_lt : coeff < 2 ^ 96
  scale_le : scale ≤ 28
deriving DecidableEq

namespace Decimal

def signed (d : Decimal) : ℤ := if d.neg then -(d.coeff : ℤ) else d.coeff

def val (d : Decimal) : ℤ := d.signed * 10 ^ (28 - d.scale)

theorem whole_scale : 0 ≤ 28 := by omega

def zero : Decimal := ⟨false, 0, 0, by norm_num, whole_scale⟩

def abs (d : Decimal) : Decimal := { d with neg := false }

/-- Unary minus flips the sign bit. -/
def negate (d : Decimal) : Decimal := { d with neg := !d.neg }

def lt (a b : Decimal) : Bool := a.val < b.val

def strip : Nat → Nat → Nat × Nat
  | coeff, 0 => (coeff, 0)
  | coeff, scale + 1 => if coeff % 10 = 0 then strip (coeff / 10) scale else (coeff, scale + 1)

theorem strip_le : ∀ scale coeff, (strip coeff scale).1 ≤ coeff ∧ (strip coeff scale).2 ≤ scale
  | 0, coeff => by simp [strip]
  | scale + 1, coeff => by
    simp only [strip]
    split
    · have := strip_le scale (coeff / 10)
      have := Nat.div_le_self coeff 10
      omega
    · simp

theorem strip_value : ∀ scale coeff,
    (strip coeff scale).1 * 10 ^ (scale - (strip coeff scale).2) = coeff
  | 0, coeff => by simp [strip]
  | scale + 1, coeff => by
    simp only [strip]
    split
    · rename_i h
      have hle := (strip_le scale (coeff / 10)).2
      have e : scale + 1 - (strip (coeff / 10) scale).2 = scale - (strip (coeff / 10) scale).2 + 1 := by omega
      rw [e, pow_succ, ← mul_assoc, strip_value scale (coeff / 10)]
      omega
    · simp

theorem strip_least : ∀ scale coeff s, s ≤ scale → 10 ^ (scale - s) ∣ coeff → (strip coeff scale).2 ≤ s
  | 0, coeff, s, _, _ => by simp [strip]
  | scale + 1, coeff, s, hs, hd => by
    simp only [strip]
    by_cases h : coeff % 10 = 0
    · rw [if_pos h]
      by_cases hlt : s ≤ scale
      · refine strip_least scale (coeff / 10) s hlt ?_
        rw [show scale + 1 - s = scale - s + 1 by omega, pow_succ'] at hd
        exact (Nat.dvd_div_iff_mul_dvd (Nat.dvd_of_mod_eq_zero h)).mpr hd
      · have := (strip_le scale (coeff / 10)).2
        omega
    · rw [if_neg h]
      by_contra hlt
      have : 10 ∣ coeff := dvd_trans (dvd_pow_self 10 (by omega)) hd
      omega

def normalize (d : Decimal) : Decimal :=
  if d.coeff = 0 then zero
  else
    { neg := d.neg
      coeff := (strip d.coeff d.scale).1
      scale := (strip d.coeff d.scale).2
      coeff_lt := lt_of_le_of_lt (strip_le _ _).1 d.coeff_lt
      scale_le := le_trans (strip_le _ _).2 d.scale_le }

@[simp] theorem val_zero : zero.val = 0 := rfl

@[simp] theorem val_negate (d : Decimal) : d.negate.val = -d.val := by
  unfold val signed negate
  cases d.neg <;> simp

@[simp] theorem scale_negate (d : Decimal) : d.negate.scale = d.scale := rfl

theorem signed_negate (d : Decimal) : d.negate.signed = -d.signed := by
  unfold signed negate
  cases d.neg <;> simp

theorem natAbs_signed (d : Decimal) : d.signed.natAbs = d.coeff := by
  unfold signed; split <;> simp

theorem val_abs (d : Decimal) : d.abs.val = |d.val| := by
  have hp : (0 : ℤ) ≤ 10 ^ (28 - d.scale) := by positivity
  unfold val signed abs
  cases d.neg <;> simp [abs_mul, abs_of_nonneg hp]

theorem normalize_scale_le (d : Decimal) : d.normalize.scale ≤ d.scale := by
  unfold normalize
  split
  · exact Nat.zero_le _
  · exact (strip_le _ _).2

@[simp] theorem val_normalize (d : Decimal) : d.normalize.val = d.val := by
  unfold normalize
  split
  · rename_i h
    rw [val_zero]; simp [val, signed, h]
  · have h1 := strip_value d.scale d.coeff
    have h2 := (strip_le d.scale d.coeff).2
    have h3 := d.scale_le
    have e : (strip d.coeff d.scale).1 * 10 ^ (28 - (strip d.coeff d.scale).2) =
        d.coeff * 10 ^ (28 - d.scale) := by
      rw [show 28 - (strip d.coeff d.scale).2 = d.scale - (strip d.coeff d.scale).2 + (28 - d.scale) by omega,
        pow_add, ← mul_assoc, h1]
    have e' := congrArg (Nat.cast (R := ℤ)) e
    push_cast at e'
    simp only [val, signed]
    split <;> simp [e']

def units (d : Decimal) : ℤ := d.signed * 10 ^ (8 - d.scale)

theorem val_eq_units (d : Decimal) (h : d.scale ≤ 8) : d.val = d.units * 10 ^ 20 := by
  unfold val units
  rw [mul_assoc, ← pow_add, show 8 - d.scale + 20 = 28 - d.scale by omega]

theorem units_negate (d : Decimal) : d.negate.units = -d.units := by
  unfold units
  rw [signed_negate, scale_negate, neg_mul]

theorem natAbs_val (d : Decimal) : d.val.natAbs = d.coeff * 10 ^ (28 - d.scale) := by
  rw [val, Int.natAbs_mul, natAbs_signed, Int.natAbs_pow]
  rfl

theorem normalize_scale_least (d : Decimal) {s : Nat} (hs : s ≤ 28) (h : (10 : ℤ) ^ (28 - s) ∣ d.val) :
    d.normalize.scale ≤ s := by
  by_cases hlt : s ≤ d.scale
  · unfold normalize
    split
    · exact Nat.zero_le _
    · refine strip_least d.scale d.coeff s hlt ?_
      have hn := Int.natAbs_dvd_natAbs.mpr h
      rw [natAbs_val, Int.natAbs_pow, show 28 - s = (d.scale - s) + (28 - d.scale) by have := d.scale_le; omega,
        pow_add] at hn
      exact Nat.dvd_of_mul_dvd_mul_right (by positivity) hn
  · exact le_trans d.normalize_scale_le (by omega)

theorem dvd_val (d : Decimal) {s : Nat} (h : d.scale ≤ s) : (10 : ℤ) ^ (28 - s) ∣ d.val := by
  unfold val
  exact dvd_mul_of_dvd_right (pow_dvd_pow 10 (by omega)) _

theorem normalize_eq_zero (d : Decimal) (h : d.normalize.coeff = 0) : d.normalize = zero := by
  unfold normalize at h ⊢
  split
  · rfl
  · rename_i h0
    rw [if_neg h0] at h
    have := strip_value d.scale d.coeff
    simp only at h
    rw [h, zero_mul] at this
    omega

theorem normalize_congr {d e : Decimal} (h : d.val = e.val) : d.normalize = e.normalize := by
  have le : ∀ a b : Decimal, a.val = b.val → a.normalize.scale ≤ b.normalize.scale := fun a b hab =>
    a.normalize_scale_least b.normalize.scale_le (by rw [hab, ← val_normalize]; exact b.normalize.dvd_val le_rfl)
  have hscale : d.normalize.scale = e.normalize.scale := le_antisymm (le d e h) (le e d h.symm)
  have hsigned : d.normalize.signed = e.normalize.signed := by
    have hval : d.normalize.val = e.normalize.val := by rw [val_normalize, val_normalize, h]
    unfold val at hval
    rw [hscale] at hval
    exact mul_right_cancel₀ (by positivity) hval
  have hcoeff : d.normalize.coeff = e.normalize.coeff := by rw [← natAbs_signed, ← natAbs_signed, hsigned]
  by_cases h0 : d.normalize.coeff = 0
  · rw [d.normalize_eq_zero h0, e.normalize_eq_zero (hcoeff ▸ h0)]
  · have hneg : d.normalize.neg = e.normalize.neg := by
      unfold signed at hsigned
      cases hd : d.normalize.neg <;> cases he : e.normalize.neg <;> simp [hd, he] at hsigned ⊢ <;> omega
    cases hd : d.normalize
    cases he : e.normalize
    simp only [hd, he] at hscale hcoeff hneg
    subst hscale hcoeff hneg
    rfl

end Decimal

end Ledger
