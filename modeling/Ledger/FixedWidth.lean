import Ledger.Constructors

/-!
# Fixed-width arithmetic

Where the library's `+`, `-` and comparison have nothing to give up: both operands are
written with the larger number of places, and the result is exact as long as they and the
result fit the 96-bit coefficient. Amounts that `Money.new` let through always do.
`Arithmetic` bounds the digits of the result; here it is the coefficients that are bounded.
-/

namespace Ledger

namespace Decimal

/-- The signed coefficient once the number is written with `s` places. -/
def aligned (d : Decimal) (s : Nat) : ℤ := d.signed * 10 ^ (s - d.scale)

def commonScale (a b : Decimal) : Nat := max a.scale b.scale

theorem commonScale_le (a b : Decimal) : commonScale a b ≤ 28 := max_le a.scale_le b.scale_le

def Fits (n : ℤ) : Prop := n.natAbs < 2 ^ 96

instance decidableFits (n : ℤ) : Decidable (Fits n) := inferInstanceAs (Decidable (_ < _))

theorem val_eq_aligned (d : Decimal) {s : Nat} (h : d.scale ≤ s) (hs : s ≤ 28) :
    d.val = d.aligned s * 10 ^ (28 - s) := by
  unfold val aligned
  rw [mul_assoc, ← pow_add, show s - d.scale + (28 - s) = 28 - d.scale by omega]

theorem val_left (a b : Decimal) : a.aligned (a.commonScale b) * 10 ^ (28 - a.commonScale b) = a.val :=
  (a.val_eq_aligned (le_max_left _ _) (a.commonScale_le b)).symm

theorem val_right (a b : Decimal) : b.aligned (a.commonScale b) * 10 ^ (28 - a.commonScale b) = b.val :=
  (b.val_eq_aligned (le_max_right _ _) (a.commonScale_le b)).symm

theorem fits_of_val {n : ℤ} {s : Nat} (hs : s ≤ 8) (h : |n * 10 ^ (28 - s)| < 2 ^ 96 * 10 ^ 20) : Fits n := by
  have hp : (0 : ℤ) < 10 ^ (28 - s) := by positivity
  have hle : (10 : ℤ) ^ 20 ≤ 10 ^ (28 - s) := pow_le_pow_right₀ (by norm_num) (by omega)
  rw [abs_mul, abs_of_pos hp] at h
  have hlt : |n| * 10 ^ (28 - s) < 2 ^ 96 * 10 ^ (28 - s) :=
    lt_of_lt_of_le h (mul_le_mul_of_nonneg_left hle (by norm_num))
  have := lt_of_mul_lt_mul_right hlt hp.le
  unfold Fits
  zify
  exact this

/-- `f` computes `op` where both operands and the result fit at the common scale. What it does
elsewhere is left open. -/
def Computes (op : ℤ → ℤ → ℤ) (f : Decimal → Decimal → Option Decimal) : Prop :=
  ∀ a b : Decimal, Fits (a.aligned (a.commonScale b)) → Fits (b.aligned (a.commonScale b)) →
    Fits (op (a.aligned (a.commonScale b)) (b.aligned (a.commonScale b))) →
    ∃ c, f a b = some c ∧ c.scale ≤ a.commonScale b ∧ c.val = op a.val b.val

/-- What the sum and the difference have in common. -/
structure Linear (op : ℤ → ℤ → ℤ) : Prop where
  mul : ∀ x y k, op x y * k = op (x * k) (y * k)
  abs_le : ∀ x y, |op x y| ≤ |x| + |y|

theorem Linear.add : Linear (· + ·) := ⟨fun x y k => add_mul x y k, abs_add_le⟩

theorem Linear.sub : Linear (· - ·) := ⟨fun x y k => sub_mul x y k, abs_sub⟩

theorem Linear.dvd {op : ℤ → ℤ → ℤ} (hop : Linear op) {k x y : ℤ} (hx : k ∣ x) (hy : k ∣ y) : k ∣ op x y := by
  obtain ⟨u, rfl⟩ := hx
  obtain ⟨v, rfl⟩ := hy
  exact ⟨op u v, by rw [mul_comm k (op u v), hop.mul, mul_comm k u, mul_comm k v]⟩

end Decimal

/-- The library's operators, `none` where they panic. -/
structure FixedWidth where
  add : Decimal → Decimal → Option Decimal
  sub : Decimal → Decimal → Option Decimal
  cmp : Decimal → Decimal → Ordering
  add_computes : Decimal.Computes (· + ·) add
  sub_computes : Decimal.Computes (· - ·) sub
  cmp_aligned : ∀ a b : Decimal,
    cmp a b = compare (a.aligned (a.commonScale b)) (b.aligned (a.commonScale b))

namespace FixedWidth

variable (lib : FixedWidth)

def checkedAdd (m other : Money) : Option (Except MoneyError Money) := m.checked lib.add other

def checkedSub (m other : Money) : Option (Except MoneyError Money) := m.checked lib.sub other

def checkedLt (m other : Money) : Except MoneyError Bool :=
  match m.requireSameCurrency other with
  | .error e => .error e
  | .ok () => .ok (lib.cmp m.amount other.amount == .lt)

end FixedWidth

/-! ## Eight places -/

namespace Decimal

variable {op : ℤ → ℤ → ℤ} {f : Decimal → Decimal → Option Decimal} (hf : Computes op f) (hop : Linear op)
include hf hop

theorem Computes.of_scale {a b : Decimal} (ha : a.scale ≤ 8) (hb : b.scale ≤ 8) (hva : |a.val| < 2 ^ 96 * 10 ^ 20)
    (hvb : |b.val| < 2 ^ 96 * 10 ^ 20) (h : |op a.val b.val| < 2 ^ 96 * 10 ^ 20) :
    ∃ c, f a b = some c ∧ c.scale ≤ 8 ∧ c.val = op a.val b.val := by
  have hs : a.commonScale b ≤ 8 := max_le ha hb
  have hfa : Fits (a.aligned (a.commonScale b)) := fits_of_val hs (by rwa [a.val_left b])
  have hfb : Fits (b.aligned (a.commonScale b)) := fits_of_val hs (by rwa [a.val_right b])
  have hfr : Fits (op (a.aligned (a.commonScale b)) (b.aligned (a.commonScale b))) :=
    fits_of_val hs (by rwa [hop.mul, a.val_left b, a.val_right b])
  obtain ⟨c, hc, hcs, hv⟩ := hf a b hfa hfb hfr
  exact ⟨c, hc, hcs.trans hs, hv⟩

theorem Computes.of_magnitude {a b : Decimal} (ha : a.scale ≤ 8) (hb : b.scale ≤ 8) (hva : |a.val| < 10 ^ 40)
    (hvb : |b.val| < 10 ^ 40) : ∃ c, f a b = some c ∧ c.val = op a.val b.val := by
  have hle := hop.abs_le a.val b.val
  obtain ⟨c, hc, -, hv⟩ := hf.of_scale hop ha hb (by omega) (by omega) (by omega)
  exact ⟨c, hc, hv⟩

end Decimal

namespace FixedWidth

variable (lib : FixedWidth)

theorem cmp_val (a b : Decimal) : lib.cmp a b = compare a.val b.val := by
  have hp : (0 : ℤ) < 10 ^ (28 - a.commonScale b) := by positivity
  rw [lib.cmp_aligned, ← a.val_left b, ← a.val_right b]
  rcases lt_trichotomy (a.aligned (a.commonScale b)) (b.aligned (a.commonScale b)) with h | h | h
  · rw [compare_lt_iff_lt.mpr h, compare_lt_iff_lt.mpr (mul_lt_mul_of_pos_right h hp)]
  · rw [h, compare_eq_iff_eq.mpr rfl, compare_eq_iff_eq.mpr rfl]
  · rw [compare_gt_iff_gt.mpr h, compare_gt_iff_gt.mpr (mul_lt_mul_of_pos_right h hp)]

theorem cmp_zero (d : Decimal) : (lib.cmp d Decimal.zero == .eq) = true ↔ d.val = 0 := by
  rw [lib.cmp_val, Decimal.val_zero, beq_iff_eq, compare_eq_iff_eq]

end FixedWidth

/-! ## Two amounts -/

namespace Money

/-- `r` is the number `v` in currency `c`, or refused for its magnitude alone. -/
def Exactly (r : Option (Except MoneyError Money)) (v : ℤ) (c : Currency) : Prop :=
  (|v| < 10 ^ 40 → ∃ m, r = some (.ok m) ∧ m.amount.val = v ∧ m.currency = c) ∧
    (10 ^ 40 ≤ |v| → r = some (.error .magnitudeTooLarge))

theorem checked_same (op : Decimal → Decimal → Option Decimal) {m other : Money} (h : m.currency = other.currency) :
    m.checked op other = (op m.amount other.amount).map fun amount => new amount m.currency := by
  unfold checked requireSameCurrency
  rw [if_pos h]

theorem checked_mismatch (op : Decimal → Decimal → Option Decimal) {m other : Money}
    (h : m.currency ≠ other.currency) :
    m.checked op other = some (.error (.currencyMismatch m.currency other.currency)) := by
  unfold checked requireSameCurrency
  rw [if_neg h]

theorem checked_ok {op : Decimal → Decimal → Option Decimal} {m other r : Money}
    (h : m.checked op other = some (.ok r)) :
    m.currency = other.currency ∧ ∃ d, new d m.currency = .ok r := by
  by_cases hc : m.currency = other.currency
  · rw [checked_same _ hc] at h
    obtain ⟨d, -, hd⟩ := Option.map_eq_some_iff.mp h
    exact ⟨hc, d, hd⟩
  · rw [checked_mismatch _ hc] at h
    cases h

theorem new_exactly {d : Decimal} {v : ℤ} (hv : d.val = v) (hd : (10 : ℤ) ^ 20 ∣ v) (c : Currency) :
    Exactly (some (new d c)) v c := by
  subst hv
  constructor
  · intro hm
    obtain ⟨m, hok⟩ := (new_ok_iff (c := c)).mpr ⟨hd, hm⟩
    obtain ⟨hc, hv, -, -⟩ := new_ok hok
    exact ⟨m, by rw [hok], hv, hc⟩
  · intro hm
    rw [new_eq, if_pos hd, if_neg (not_lt.mpr hm)]

theorem checked_exactly {op : ℤ → ℤ → ℤ} {f : Decimal → Decimal → Option Decimal} (hf : Decimal.Computes op f)
    (hop : Decimal.Linear op) {a b : Money} {da db : Decimal} {ca cb : Currency} (ha : new da ca = .ok a)
    (hb : new db cb = .ok b) (hc : a.currency = b.currency) :
    Exactly (a.checked f b) (op a.amount.val b.amount.val) a.currency := by
  obtain ⟨-, -, hsa, hma⟩ := new_ok ha
  obtain ⟨-, -, hsb, hmb⟩ := new_ok hb
  rw [maxMagnitude_val] at hma hmb
  obtain ⟨d, hd, hv⟩ := hf.of_magnitude hop hsa hsb hma hmb
  rw [checked_same _ hc, hd, Option.map_some]
  exact new_exactly hv (hop.dvd (a.amount.dvd_val (s := 8) hsa) (b.amount.dvd_val (s := 8) hsb)) _

end Money

namespace FixedWidth

variable (lib : FixedWidth)

theorem checkedLt_same {a b : Money} (hc : a.currency = b.currency) :
    lib.checkedLt a b = .ok (decide (a.amount.val - b.amount.val < 0)) := by
  unfold checkedLt Money.requireSameCurrency
  rw [if_pos hc, lib.cmp_val]
  simp only [Except.ok.injEq]
  by_cases h : a.amount.val < b.amount.val
  · rw [compare_lt_iff_lt.mpr h, decide_eq_true (by omega)]
    rfl
  · rw [decide_eq_false (by omega)]
    exact beq_eq_false_iff_ne.mpr fun he => h (compare_lt_iff_lt.mp he)

theorem checkedLt_mismatch {a b : Money} (hc : a.currency ≠ b.currency) :
    lib.checkedLt a b = .error (.currencyMismatch a.currency b.currency) := by
  unfold checkedLt Money.requireSameCurrency
  rw [if_neg hc]

end FixedWidth

/-- **Money arithmetic is exact and total.** On amounts built by `Money.new` the sum and the
difference never overflow: within one currency they are the exact number, or refused for
a magnitude of `10¹²` or more; across currencies nothing is computed. Subtracting what was
added gives the same number back, and the order is that of the numbers, whatever the
scales of the operands. -/
theorem money_arithmetic_exact (lib : FixedWidth) (a b : Money) (ha : ∃ d c, Money.new d c = .ok a)
    (hb : ∃ d c, Money.new d c = .ok b) :
    (a.currency = b.currency →
      Money.Exactly (lib.checkedAdd a b) (a.amount.val + b.amount.val) a.currency ∧
      Money.Exactly (lib.checkedSub a b) (a.amount.val - b.amount.val) a.currency ∧
      lib.checkedLt a b = .ok (decide (a.amount.val - b.amount.val < 0))) ∧
    (a.currency ≠ b.currency →
      lib.checkedAdd a b = some (.error (.currencyMismatch a.currency b.currency)) ∧
      lib.checkedSub a b = some (.error (.currencyMismatch a.currency b.currency)) ∧
      lib.checkedLt a b = .error (.currencyMismatch a.currency b.currency)) ∧
    ∀ c, lib.checkedAdd a b = some (.ok c) →
      ∃ a', lib.checkedSub c b = some (.ok a') ∧ a'.amount.val = a.amount.val ∧ a'.currency = a.currency := by
  obtain ⟨da, ca, ha⟩ := ha
  obtain ⟨db, cb, hb⟩ := hb
  refine ⟨fun hc => ?_, fun hc => ?_, fun c hadd => ?_⟩
  · exact ⟨Money.checked_exactly lib.add_computes .add ha hb hc,
      Money.checked_exactly lib.sub_computes .sub ha hb hc, lib.checkedLt_same hc⟩
  · exact ⟨Money.checked_mismatch _ hc, Money.checked_mismatch _ hc, lib.checkedLt_mismatch hc⟩
  · obtain ⟨hc, d, hd⟩ := Money.checked_ok hadd
    obtain ⟨hcur, -, -, -⟩ := Money.new_ok hd
    have hsum := Money.checked_exactly lib.add_computes .add ha hb hc
    have hv : c.amount.val = a.amount.val + b.amount.val := by
      by_cases hlt : |a.amount.val + b.amount.val| < 10 ^ 40
      · obtain ⟨m, hok, hv, -⟩ := hsum.1 hlt
        cases hadd.symm.trans hok
        exact hv
      · cases hadd.symm.trans (hsum.2 (not_lt.mp hlt))
    -- the difference is the first operand, which is in range
    have hback := Money.checked_exactly lib.sub_computes .sub hd hb (hcur.trans hc)
    have hsub : c.amount.val - b.amount.val = a.amount.val := by omega
    have hlt := (Money.new_ok ha).2.2.2
    rw [Money.maxMagnitude_val] at hlt
    rw [hsub, hcur] at hback
    exact hback.1 hlt

/-! ### The operators at the common scale -/

def Decimal.ofAligned (n : ℤ) {s : Nat} (hs : s ≤ 28) (h : Decimal.Fits n) : Decimal :=
  ⟨decide (n < 0), n.natAbs, s, h, hs⟩

theorem Decimal.val_ofAligned (n : ℤ) {s : Nat} (hs : s ≤ 28) (h : Decimal.Fits n) :
    (Decimal.ofAligned n hs h).val = n * 10 ^ (28 - s) := by
  unfold val signed ofAligned
  by_cases hn : n < 0
  · simp only [hn, decide_true, if_true, Int.ofNat_natAbs_of_nonpos hn.le, neg_neg]
  · simp only [hn, decide_false, Bool.false_eq_true, if_false, Int.natAbs_of_nonneg (not_lt.mp hn)]

/-- `wide` is what the library does where something does not fit. -/
def Decimal.atCommonScale (op : ℤ → ℤ → ℤ) (wide : Decimal → Decimal → Option Decimal) (a b : Decimal) :
    Option Decimal :=
  if h : Fits (a.aligned (a.commonScale b)) ∧ Fits (b.aligned (a.commonScale b)) ∧
      Fits (op (a.aligned (a.commonScale b)) (b.aligned (a.commonScale b))) then
    some (ofAligned _ (a.commonScale_le b) h.2.2)
  else wide a b

theorem Decimal.atCommonScale_computes {op : ℤ → ℤ → ℤ} (hop : Linear op)
    (wide : Decimal → Decimal → Option Decimal) : Computes op (atCommonScale op wide) := by
  intro a b ha hb h
  refine ⟨_, dif_pos ⟨ha, hb, h⟩, le_refl _, ?_⟩
  rw [val_ofAligned, hop.mul, a.val_left b, a.val_right b]

def FixedWidth.of (wide : Decimal → Decimal → Option Decimal) : FixedWidth where
  add := Decimal.atCommonScale (· + ·) wide
  sub := Decimal.atCommonScale (· - ·) wide
  cmp a b := compare (a.aligned (a.commonScale b)) (b.aligned (a.commonScale b))
  add_computes := Decimal.atCommonScale_computes .add wide
  sub_computes := Decimal.atCommonScale_computes .sub wide
  cmp_aligned _ _ := rfl

theorem Decimal.fits_one : Decimal.Fits 1 := by decide

theorem Decimal.fits_limit : Decimal.Fits (10 ^ 20 - 1) := by decide

theorem Decimal.one_place : 1 ≤ 28 := by omega

theorem Decimal.eight_places : 8 ≤ 28 := by omega

def tenth : Money := ⟨Decimal.ofAligned 1 Decimal.one_place Decimal.fits_one, ⟨"USD"⟩⟩

def mostUsd : Money := ⟨Decimal.ofAligned (10 ^ 20 - 1) Decimal.eight_places Decimal.fits_limit, ⟨"USD"⟩⟩

theorem new_tenth : Money.new tenth.amount tenth.currency = .ok tenth := by
  rw [Money.new_of_scale (by decide), if_neg (by decide +kernel)]

theorem new_mostUsd : Money.new mostUsd.amount mostUsd.currency = .ok mostUsd := by
  rw [Money.new_of_scale (by decide), if_neg (by decide +kernel)]

theorem money_arithmetic_exact_mostUsd :
    (FixedWidth.of fun _ _ => none).checkedAdd mostUsd tenth = some (.error .magnitudeTooLarge) ∧
    ∃ m, (FixedWidth.of fun _ _ => none).checkedSub mostUsd tenth = some (.ok m) ∧
      m.amount.val = (10 ^ 20 - 1) * 10 ^ 20 - 10 ^ 27 := by
  obtain ⟨hadd, hsub, -⟩ := (money_arithmetic_exact (.of fun _ _ => none) mostUsd tenth ⟨_, _, new_mostUsd⟩
    ⟨_, _, new_tenth⟩).1 rfl
  obtain ⟨m, hm, hv, -⟩ := hsub.1 (by decide +kernel)
  exact ⟨hadd.2 (by decide +kernel), m, hm, hv.trans (by decide +kernel)⟩

end Ledger
