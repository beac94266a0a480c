import Ledger.StmtSound
import Mathlib.Order.Bounds.Basic

/-!
# Amounts in and out of the columns

What `Money.new` lets through is what a `NUMERIC(20, 8)` column holds: it is stored
without rounding, and what is stored converts back.
-/

namespace Ledger

theorem Decimal.normalize_isLeast (d : Decimal) :
    IsLeast {s : Nat | s ≤ 28 ∧ (10 : ℤ) ^ (28 - s) ∣ d.val} d.normalize.scale := by
  refine ⟨⟨d.normalize.scale_le, ?_⟩, fun s hs => d.normalize_scale_least hs.1 hs.2⟩
  have := d.normalize.dvd_val le_rfl
  rwa [d.val_normalize] at this

theorem Money.new_stored {d : Decimal} {c : Currency} {m : Money} (h : Money.new d c = .ok m) :
    ∃ n : Num20, (Literal.ofDecimal m.amount).cast = .ok n ∧ ∃ u : ℤ, n.val = .num u ∧ u * 10 ^ 20 = d.val := by
  obtain ⟨-, hv, hs, hm⟩ := Money.new_ok h
  have hunits := Decimal.val_eq_units m.amount hs
  have hlt : |m.amount.units| < 10 ^ 20 := by
    rw [Money.maxMagnitude_val, hunits, abs_mul, abs_of_nonneg (by positivity : (0 : ℤ) ≤ 10 ^ 20)] at hm
    omega
  have hrange : (Numeric.num m.amount.units).inRange = true := decide_eq_true hlt
  refine ⟨⟨_, hrange⟩, ?_, m.amount.units, rfl, by rw [← hunits, hv]⟩
  rw [Literal.cast_ofDecimal hs, Numeric.toNum20_ok hrange]

theorem Num20.num_lt {n : Num20} {u : ℤ} (h : n.val = .num u) : |u| < 10 ^ 20 := by
  have := n.range
  rw [h] at this
  exact of_decide_eq_true this

theorem Decode.money (dec : Decode) {n : Num20} {u : ℤ} (h : n.val = .num u) (c : Currency) :
    ∃ m, dec.num20 n = .ok (dec.decimal u) ∧ Money.new (dec.decimal u) c = .ok m ∧
      m.amount.val = u * 10 ^ 20 ∧ m.currency = c := by
  have hlt := Num20.num_lt h
  obtain ⟨m, hm⟩ := Money.new_of_units (dec.exact u hlt) hlt c
  obtain ⟨hc, hv, -, -⟩ := Money.new_ok hm
  refine ⟨m, ?_, hm, hv.trans (dec.exact u hlt), hc⟩
  unfold Decode.num20
  rw [h]

theorem Account.read (dec : Decode) {row : Row.Account} {u : ℤ} (h : row.balance.val = .num u) :
    ∃ r account, AccountRow.decode dec row = .ok r ∧ Account.tryFrom r = .ok account ∧
      account.balance.amount.val = u * 10 ^ 20 ∧ account.balance.currency.code = row.currency := by
  obtain ⟨m, hnum, hm, hv, hc⟩ := dec.money h ⟨row.currency⟩
  refine ⟨⟨row.id, row.name, ⟨row.currency⟩, dec.decimal u, row.allowsNegativeBalance, row.createdAt⟩,
    ⟨row.id, row.name, m, row.allowsNegativeBalance, row.createdAt⟩, ?_, ?_, hv, by rw [hc]⟩
  · rw [AccountRow.decode, hnum]; rfl
  · simp only [Account.tryFrom, hm]

theorem Entry.read (dec : Decode) {row : Row.Entry} {u : ℤ} (h : row.amount.val = .num u) :
    ∃ r entry, EntryRow.decode dec row = .ok r ∧ Entry.tryFrom r = .ok entry ∧
      entry.amount.amount.val = u * 10 ^ 20 ∧ entry.amount.currency.code = row.currency := by
  obtain ⟨m, hnum, hm, hv, hc⟩ := dec.money h ⟨row.currency⟩
  refine ⟨⟨row.id, row.transactionId, row.accountId, row.direction, dec.decimal u, ⟨row.currency⟩, row.createdAt⟩,
    ⟨row.id, row.transactionId, row.accountId, row.direction, m, row.createdAt⟩, ?_, ?_, hv, by rw [hc]⟩
  · rw [EntryRow.decode, hnum]; rfl
  · simp only [Entry.tryFrom, hm]

/-- **`Money.new` accepts exactly what the ledger can store.** It accepts the multiples of
`10⁻⁸` below `10¹²` and leaves their value; anything finer is refused with the least
number of places that represents it, and the rest for its magnitude. What it accepts is
stored without rounding, and a stored balance or amount is accepted by the conversions
that read it. -/
theorem money_new_accepts (d : Decimal) (c : Currency) :
    ((∃ m, Money.new d c = .ok m) ↔ (10 : ℤ) ^ 20 ∣ d.val ∧ |d.val| < 10 ^ 40) ∧
    (∀ m, Money.new d c = .ok m →
      m.amount.val = d.val ∧ m.amount.scale ≤ 8 ∧ m.currency = c ∧
      ∃ n : Num20, (Literal.ofDecimal m.amount).cast = .ok n ∧ ∃ u : ℤ, n.val = .num u ∧ u * 10 ^ 20 = d.val) ∧
    (¬ (10 : ℤ) ^ 20 ∣ d.val → ∃ s, Money.new d c = .error (.tooManyDecimalPlaces s) ∧
      IsLeast {s : Nat | s ≤ 28 ∧ (10 : ℤ) ^ (28 - s) ∣ d.val} s) ∧
    ((10 : ℤ) ^ 20 ∣ d.val → ¬ |d.val| < 10 ^ 40 → Money.new d c = .error .magnitudeTooLarge) ∧
    (∀ (dec : Decode) (row : Row.Account) (u : ℤ), row.balance.val = .num u → ∃ r account,
      AccountRow.decode dec row = .ok r ∧ Account.tryFrom r = .ok account ∧
      account.balance.amount.val = u * 10 ^ 20 ∧ account.balance.currency.code = row.currency) ∧
    ∀ (dec : Decode) (row : Row.Entry) (u : ℤ), row.amount.val = .num u → ∃ r entry,
      EntryRow.decode dec row = .ok r ∧ Entry.tryFrom r = .ok entry ∧
      entry.amount.amount.val = u * 10 ^ 20 ∧ entry.amount.currency.code = row.currency := by
  refine ⟨Money.new_ok_iff, fun m hm => ?_, fun hd => ?_, fun hd hm => ?_, fun dec _ _ hu => Account.read dec hu,
    fun dec _ _ hu => Entry.read dec hu⟩
  · obtain ⟨hc, hv, hs, -⟩ := Money.new_ok hm
    exact ⟨hv, hs, hc, Money.new_stored hm⟩
  · exact ⟨_, by rw [Money.new_eq, if_neg hd], d.normalize_isLeast⟩
  · rw [Money.new_eq, if_pos hd, if_neg hm]

end Ledger
