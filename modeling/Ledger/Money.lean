import Ledger.Decimal

/-!
# Monetary amounts and currencies

An amount never travels without its currency, and an amount that the
`NUMERIC(20, 8)` columns would have to round is rejected by `Money.new`.
-/

namespace Ledger

/-- The alphabetic codes a currency may have, sorted for binary search. -/
def ISO_4217 : List String :=
  ["AED", "AFN", "ALL", "AMD", "ANG", "AOA", "ARS", "AUD", "AWG", "AZN", "BAM", "BBD", "BDT",
    "BGN", "BHD", "BIF", "BMD", "BND", "BOB", "BOV", "BRL", "BSD", "BTN", "BWP", "BYN", "BZD",
    "CAD", "CDF", "CHE", "CHF", "CHW", "CLF", "CLP", "CNY", "COP", "COU", "CRC", "CUP", "CVE",
    "CZK", "DJF", "DKK", "DOP", "DZD", "EGP", "ERN", "ETB", "EUR", "FJD", "FKP", "GBP", "GEL",
    "GHS", "GIP", "GMD", "GNF", "GTQ", "GYD", "HKD", "HNL", "HTG", "HUF", "IDR", "ILS", "INR",
    "IQD", "IRR", "ISK", "JMD", "JOD", "JPY", "KES", "KGS", "KHR", "KMF", "KPW", "KRW", "KWD",
    "KYD", "KZT", "LAK", "LBP", "LKR", "LRD", "LSL", "LYD", "MAD", "MDL", "MGA", "MKD", "MMK",
    "MNT", "MOP", "MRU", "MUR", "MVR", "MWK", "MXN", "MXV", "MYR", "MZN", "NAD", "NGN", "NIO",
    "NOK", "NPR", "NZD", "OMR", "PAB", "PEN", "PGK", "PHP", "PKR", "PLN", "PYG", "QAR", "RON",
    "RSD", "RUB", "RWF", "SAR", "SBD", "SCR", "SDG", "SEK", "SGD", "SHP", "SLE", "SOS", "SRD",
    "SSP", "STN", "SVC", "SYP", "SZL", "THB", "TJS", "TMT", "TND", "TOP", "TRY", "TTD", "TWD",
    "TZS", "UAH", "UGX", "USD", "USN", "UYI", "UYU", "UYW", "UZS", "VED", "VES", "VND", "VUV",
    "WST", "XAF", "XAG", "XAU", "XBA", "XBB", "XBC", "XBD", "XCD", "XCG", "XDR", "XOF", "XPD",
    "XPF", "XPT", "XSU", "XTS", "XUA", "XXX", "YER", "ZAR", "ZMW", "ZWG"]

/-- A currency as the program holds it. Reading a row wraps the stored text
without looking at it; only `tryFrom` checks the table. -/
structure Currency where
  code : String
deriving DecidableEq

inductive MoneyError
  | tooManyDecimalPlaces (scale : Nat)
  | magnitudeTooLarge
  | currencyMismatch (lhs rhs : Currency)
  | unknownCurrency (value : String)
deriving DecidableEq

def Currency.tryFrom (value : String) : Except MoneyError Currency :=
  if ISO_4217.contains value then .ok ⟨value⟩ else .error (.unknownCurrency value)

theorem Currency.tryFrom_iso {c : Currency} (h : Currency.tryFrom c.code = .ok c) : c.code ∈ ISO_4217 := by
  unfold Currency.tryFrom at h
  split at h
  · rename_i hiso
    simpa using hiso
  · cases h

/-- An exact `NUMERIC(20, 8)` value: a multiple of `10⁻⁸` below `10¹²` in magnitude. -/
def Decimal.Storable (d : Decimal) : Prop := (10 : ℤ) ^ 20 ∣ d.val ∧ |d.val| < 10 ^ 40

instance (d : Decimal) : Decidable d.Storable := inferInstanceAs (Decidable (_ ∧ _))

structure Money where
  amount : Decimal
  currency : Currency
deriving DecidableEq

namespace Money

def MAX_SCALE : Nat := 8

def maxMagnitude : Decimal := ⟨false, 1000000000000, 0, by norm_num, Decimal.whole_scale⟩

/-- The second pass is entered with a scale of at most `MAX_SCALE`, so there is no third. -/
def new (amount : Decimal) (currency : Currency) : Except MoneyError Money :=
  if _h : MAX_SCALE < amount.scale then
    if _h' : MAX_SCALE < amount.normalize.scale then
      .error (.tooManyDecimalPlaces amount.normalize.scale)
    else new amount.normalize currency
  else if maxMagnitude.val ≤ amount.abs.val then .error .magnitudeTooLarge
  else .ok ⟨amount, currency⟩
termination_by amount.scale
decreasing_by omega

def zero (currency : Currency) : Money := ⟨Decimal.zero, currency⟩

def isPositive (m : Money) : Bool := Decimal.zero.lt m.amount

def requireSameCurrency (m other : Money) : Except MoneyError Unit :=
  if m.currency = other.currency then .ok () else .error (.currencyMismatch m.currency other.currency)

/-- What `new` leaves behind for a currency of the table. -/
structure Valid (m : Money) : Prop where
  scale : m.amount.scale ≤ MAX_SCALE
  magnitude : |m.amount.val| < maxMagnitude.val
  iso : m.currency.code ∈ ISO_4217

theorem maxMagnitude_val : maxMagnitude.val = 10 ^ 40 := by decide +kernel

theorem new_of_scale {d : Decimal} (h : d.scale ≤ MAX_SCALE) (c : Currency) :
    new d c = if maxMagnitude.val ≤ |d.val| then .error .magnitudeTooLarge else .ok ⟨d, c⟩ := by
  rw [new, dif_neg (by omega), Decimal.val_abs]

/-- Both passes at once: first the places, then the magnitude. -/
theorem new_eq (d : Decimal) (c : Currency) : new d c =
    if (10 : ℤ) ^ 20 ∣ d.val then
      if |d.val| < 10 ^ 40 then .ok ⟨if d.scale ≤ MAX_SCALE then d else d.normalize, c⟩
      else .error .magnitudeTooLarge
    else .error (.tooManyDecimalPlaces d.normalize.scale) := by
  have hmax := maxMagnitude_val
  have pass : ∀ d' : Decimal, d'.scale ≤ MAX_SCALE → d'.val = d.val →
      new d' c = if |d.val| < 10 ^ 40 then .ok ⟨d', c⟩ else .error .magnitudeTooLarge := by
    intro d' hs hv
    rw [new_of_scale hs, hmax, hv]
    by_cases hm : |d.val| < 10 ^ 40
    · rw [if_neg (not_le.mpr hm), if_pos hm]
    · rw [if_pos (not_lt.mp hm), if_neg hm]
  by_cases hs : d.scale ≤ MAX_SCALE
  · rw [if_pos (d.dvd_val (s := 8) hs), if_pos hs, pass d hs rfl]
  · rw [new, dif_pos (by omega), if_neg hs]
    by_cases hd : (10 : ℤ) ^ 20 ∣ d.val
    · have hn : d.normalize.scale ≤ MAX_SCALE := d.normalize_scale_least (s := 8) (by omega) hd
      rw [dif_neg (by omega), if_pos hd, pass d.normalize hn d.val_normalize]
    · have hn : MAX_SCALE < d.normalize.scale := by
        by_contra hle
        have := d.normalize.dvd_val (s := 8) (not_lt.mp hle)
        rw [d.val_normalize] at this
        exact hd this
      rw [dif_pos hn, if_neg hd]

theorem new_ok {d : Decimal} {c : Currency} {m : Money} (h : new d c = .ok m) :
    m.currency = c ∧ m.amount.val = d.val ∧ m.amount.scale ≤ MAX_SCALE ∧ |m.amount.val| < maxMagnitude.val := by
  rw [new_eq] at h
  split at h
  · rename_i hd
    split at h
    · rename_i hm
      cases h
      rw [maxMagnitude_val]
      by_cases hs : d.scale ≤ MAX_SCALE
      · simp only [if_pos hs]
        exact ⟨trivial, trivial, hs, hm⟩
      · simp only [if_neg hs, Decimal.val_normalize]
        exact ⟨trivial, trivial, d.normalize_scale_least (s := 8) (by omega) hd, hm⟩
    · cases h
  · cases h

theorem new_ok_iff {d : Decimal} {c : Currency} : (∃ m, new d c = .ok m) ↔ d.Storable := by
  rw [new_eq]
  constructor
  · rintro ⟨m, h⟩
    split at h
    · rename_i hd
      split at h
      · rename_i hm
        exact ⟨hd, hm⟩
      · cases h
    · cases h
  · rintro ⟨hd, hm⟩
    exact ⟨_, by rw [if_pos hd, if_pos hm]⟩

theorem new_of_units {d : Decimal} {n : ℤ} (hd : d.val = n * 10 ^ 20) (hn : |n| < 10 ^ 20) (c : Currency) :
    ∃ m, new d c = .ok m := by
  refine new_ok_iff.mpr ⟨⟨n, by rw [hd, mul_comm]⟩, ?_⟩
  rw [hd, abs_mul, abs_of_nonneg (by positivity : (0 : ℤ) ≤ 10 ^ 20)]
  calc |n| * 10 ^ 20 < 10 ^ 20 * 10 ^ 20 := by gcongr
    _ = 10 ^ 40 := by norm_num

theorem isPositive_iff (m : Money) : m.isPositive = true ↔ 0 < m.amount.val := by
  unfold isPositive Decimal.lt
  rw [Decimal.val_zero]
  exact decide_eq_true_iff

namespace Valid

variable {m : Money} (h : m.Valid)
include h

theorem val_eq : m.amount.val = m.amount.units * 10 ^ 20 := Decimal.val_eq_units _ h.scale

theorem units_lt : |m.amount.units| < 10 ^ 20 := by
  have := h.magnitude
  rw [maxMagnitude_val, h.val_eq, abs_mul, abs_of_nonneg (by positivity : (0 : ℤ) ≤ 10 ^ 20)] at this
  omega

theorem units_pos_iff : 0 < m.amount.units ↔ 0 < m.amount.val := by
  rw [h.val_eq]; omega

end Valid

end Money

end Ledger
