import Ledger.DecimalText
import Ledger.Json
import Ledger.Lib.Bind

/-!
# Routes into `Money`

`Money.new`, `Money.zero`, the checked arithmetic and the derived `Deserialize`, in any
sequence. The first four keep an amount storable. The last one does not look at it, so
what is built is representable exactly when everything that was read in was.
-/

namespace Ledger

/-- The library's addition and subtraction of decimals, `none` where they panic: exact as
long as the result has no more than 28 significant digits. -/
structure Arithmetic where
  add : Decimal → Decimal → Option Decimal
  sub : Decimal → Decimal → Option Decimal
  add_exact : ∀ (a b : Decimal) (n : ℤ) (s : Nat), s ≤ 28 → |n| < 10 ^ 28 → a.val + b.val = n * 10 ^ (28 - s) →
    ∃ c, add a b = some c ∧ c.val = a.val + b.val
  sub_exact : ∀ (a b : Decimal) (n : ℤ) (s : Nat), s ≤ 28 → |n| < 10 ^ 28 → a.val - b.val = n * 10 ^ (28 - s) →
    ∃ c, sub a b = some c ∧ c.val = a.val - b.val

namespace Money

/-- The shape of `checked_add` and `checked_sub`; `none` is a panic. -/
def checked (op : Decimal → Decimal → Option Decimal) (m other : Money) : Option (Except MoneyError Money) :=
  match m.requireSameCurrency other with
  | .error e => some (.error e)
  | .ok () => (op m.amount other.amount).map fun amount => Money.new amount m.currency

def checkedAdd (ar : Arithmetic) (m other : Money) : Option (Except MoneyError Money) := m.checked ar.add other

def checkedSub (ar : Arithmetic) (m other : Money) : Option (Except MoneyError Money) := m.checked ar.sub other

/-- What the type is meant to guarantee. -/
structure Representable (m : Money) : Prop where
  storable : m.amount.Storable
  iso : m.currency.code ∈ ISO_4217

end Money

inductive Source
  | money (j : Json)
  | account (j : Json)
  | entry (j : Json)
  | detail (j : Json) (n : Nat)

def Source.read (f : Formats) : Source → Option Money
  | money j => Money.deserialize f j
  | account j => (Account.deserialize f j).map (·.balance)
  | entry j => (Entry.deserialize f j).map (·.amount)
  | detail j n => (TransactionDetail.deserialize f j).bind fun d => (d.entries[n]?).map (·.amount)

def Source.moneyJson : Source → Option Json
  | money j => some j
  | account j => j.required 5 2 "balance"
  | entry j => j.required 6 4 "amount"
  | detail j n => do
    let items ← (j.required 2 1 "entries").bind Json.asArray
    let item ← items[n]?
    item.required 6 4 "amount"

def Source.amountText (source : Source) : Option String :=
  source.moneyJson.bind fun j => (j.required 2 0 "amount").bind Json.asString

/-- The JSON has every field of its type, each of its kind. -/
def Source.Accepted (f : Formats) : Source → Prop
  | money j => j.IsMoney f
  | account j => j.IsAccount f
  | entry j => j.IsEntry f
  | detail j _ => j.IsDetail f

inductive Build
  | new (amount : Decimal) (currency : Currency)
  | zero (currency : Currency)
  | add (a b : Build)
  | sub (a b : Build)
  | read (source : Source)

inductive Fault
  | refused
  | panicked
deriving DecidableEq

namespace Build

def combine (op : Money → Money → Option (Except MoneyError Money)) (a b : Except Fault Money) :
    Except Fault Money := do
  let m ← a
  let other ← b
  match op m other with
  | none => .error .panicked
  | some r => r.mapError fun _ => .refused

def value (f : Formats) (ar : Arithmetic) : Build → Except Fault Money
  | new amount currency => (Money.new amount currency).mapError fun _ => .refused
  | zero currency => .ok (Money.zero currency)
  | add a b => combine (Money.checkedAdd ar) (a.value f ar) (b.value f ar)
  | sub a b => combine (Money.checkedSub ar) (a.value f ar) (b.value f ar)
  | read source => match source.read f with
    | none => .error .refused
    | some m => .ok m

def parts : Build → List Build
  | add a b => add a b :: (a.parts ++ b.parts)
  | sub a b => sub a b :: (a.parts ++ b.parts)
  | b => [b]

/-- The amount in every JSON that is accepted is the text of a storable decimal. A
`Currency` that is handed over comes from the table; only the driver, which wraps the text
of a row, makes one that need not. -/
def Checked (f : Formats) : Build → Prop
  | new amount currency => amount.Storable → currency.code ∈ ISO_4217
  | zero currency => currency.code ∈ ISO_4217
  | add a b | sub a b => a.Checked f ∧ b.Checked f
  | read source => source.Accepted f → ∀ s d, source.amountText = some s → f.decimal s = some d → d.Storable

structure Sound (f : Formats) (ar : Arithmetic) (b : Build) : Prop where
  total : b.value f ar ≠ .error .panicked
  representable : ∀ m, b.value f ar = .ok m → m.Representable

end Build

/-! ## Reading -/

theorem Account.deserialize_balance {f : Formats} {j : Json} {a : Account} (h : Account.deserialize f j = some a) :
    (j.required 5 2 "balance").bind (Money.deserialize f) = some a.balance := by
  obtain ⟨id, -, h⟩ := Option.bind_eq_some_iff.mp h
  obtain ⟨name, -, h⟩ := Option.bind_eq_some_iff.mp h
  obtain ⟨balance, hb, h⟩ := Option.bind_eq_some_iff.mp h
  obtain ⟨flag, -, h⟩ := Option.bind_eq_some_iff.mp h
  obtain ⟨time, -, h⟩ := Option.bind_eq_some_iff.mp h
  cases h
  exact hb

theorem Entry.deserialize_amount {f : Formats} {j : Json} {e : Entry} (h : Entry.deserialize f j = some e) :
    (j.required 6 4 "amount").bind (Money.deserialize f) = some e.amount := by
  obtain ⟨id, -, h⟩ := Option.bind_eq_some_iff.mp h
  obtain ⟨transactionId, -, h⟩ := Option.bind_eq_some_iff.mp h
  obtain ⟨accountId, -, h⟩ := Option.bind_eq_some_iff.mp h
  obtain ⟨direction, -, h⟩ := Option.bind_eq_some_iff.mp h
  obtain ⟨amount, hm, h⟩ := Option.bind_eq_some_iff.mp h
  obtain ⟨time, -, h⟩ := Option.bind_eq_some_iff.mp h
  cases h
  exact hm

theorem TransactionDetail.deserialize_entries {f : Formats} {j : Json} {d : TransactionDetail}
    (h : TransactionDetail.deserialize f j = some d) : ∃ items,
      (j.required 2 1 "entries").bind Json.asArray = some items ∧
      items.mapM (Entry.deserialize f) = some d.entries := by
  cases j with
  | object members =>
    obtain ⟨items, hi, h⟩ := Option.bind_eq_some_iff.mp h
    obtain ⟨entries, he, h⟩ := Option.bind_eq_some_iff.mp h
    obtain ⟨transaction, -, h⟩ := Option.bind_eq_some_iff.mp h
    cases h
    exact ⟨items, hi, he⟩
  | _ => cases h

namespace Source

variable {f : Formats} {source : Source}

theorem read_accepted {m : Money} (h : source.read f = some m) : source.Accepted f := by
  cases source with
  | money j => exact Json.isMoney_iff.mpr ⟨m, h⟩
  | account j =>
    obtain ⟨a, ha, -⟩ := Option.map_eq_some_iff.mp h
    exact Json.isAccount_iff.mpr ⟨a, ha⟩
  | entry j =>
    obtain ⟨e, he, -⟩ := Option.map_eq_some_iff.mp h
    exact Json.isEntry_iff.mpr ⟨e, he⟩
  | detail j n =>
    obtain ⟨d, hd, -⟩ := Option.bind_eq_some_iff.mp h
    exact Json.isDetail_iff.mpr ⟨d, hd⟩

theorem read_eq (h : source.Accepted f) : source.read f = source.moneyJson.bind (Money.deserialize f) := by
  cases source with
  | money j => rfl
  | account j =>
    obtain ⟨a, ha⟩ := Json.isAccount_iff.mp h
    rw [read, moneyJson, ha, Account.deserialize_balance ha]
    rfl
  | entry j =>
    obtain ⟨e, he⟩ := Json.isEntry_iff.mp h
    rw [read, moneyJson, he, Entry.deserialize_amount he]
    rfl
  | detail j n =>
    obtain ⟨d, hd⟩ := Json.isDetail_iff.mp h
    obtain ⟨items, hi, hm⟩ := TransactionDetail.deserialize_entries hd
    have hn := Bind.mapM_getElem n hm
    rw [read, moneyJson, hd, hi, Option.bind_some, hn]
    cases hitem : items[n]? with
    | none => simp [hitem]
    | some item =>
      obtain ⟨e, he⟩ := Bind.mapM_defined hm item (List.mem_of_getElem? hitem)
      simp [hitem, he, Entry.deserialize_amount he]

theorem read_some {m : Money} (h : source.read f = some m) : ∃ s, source.amountText = some s ∧
    f.decimal s = some m.amount ∧ m.currency.code ∈ ISO_4217 := by
  rw [read_eq (read_accepted h)] at h
  obtain ⟨j, hj, hm⟩ := Option.bind_eq_some_iff.mp h
  obtain ⟨s, hs, hd⟩ := Money.deserialize_some hm
  exact ⟨s, by rw [amountText, hj, Option.bind_some, hs], hd⟩

theorem moneyJson_isMoney (h : source.Accepted f) {j : Json} (hj : source.moneyJson = some j) : j.IsMoney f := by
  cases source with
  | money j' =>
    cases hj
    exact h
  | account j' =>
    obtain ⟨v, hv, hm⟩ := h.balance
    cases hv.symm.trans hj
    exact hm
  | entry j' =>
    obtain ⟨v, hv, hm⟩ := h.amount
    cases hv.symm.trans hj
    exact hm
  | detail j' n =>
    obtain ⟨v, hv, items, rfl, hall⟩ := h.entries
    simp only [moneyJson, hv, Option.bind_some, Json.asArray, Option.bind_eq_bind, Option.bind_eq_some_iff] at hj
    obtain ⟨item, hn, hj⟩ := hj
    obtain ⟨w, hw, hm⟩ := (hall item (List.mem_of_getElem? hn)).amount
    cases hw.symm.trans hj
    exact hm

theorem read_defined (h : source.Accepted f) {s : String} (hs : source.amountText = some s) :
    ∃ m, source.read f = some m := by
  obtain ⟨j, hj, -⟩ := Option.bind_eq_some_iff.mp hs
  rw [read_eq h, hj]
  exact Json.isMoney_iff.mp (moneyJson_isMoney h hj)

end Source

/-! ## Building -/

theorem Decimal.Storable.combine {a b : Decimal} (ha : a.Storable) (hb : b.Storable) :
    (∃ n : ℤ, |n| < 10 ^ 28 ∧ a.val + b.val = n * 10 ^ (28 - 8)) ∧
      ∃ n : ℤ, |n| < 10 ^ 28 ∧ a.val - b.val = n * 10 ^ (28 - 8) := by
  obtain ⟨⟨k, hk⟩, hka⟩ := ha
  obtain ⟨⟨l, hl⟩, hlb⟩ := hb
  rw [hk, abs_lt] at hka
  rw [hl, abs_lt] at hlb
  refine ⟨⟨k + l, abs_lt.mpr (by omega), by rw [hk, hl]; ring⟩, k - l, abs_lt.mpr (by omega), by rw [hk, hl]; ring⟩

theorem Money.Representable.new {d : Decimal} {c : Currency} {m : Money} (h : Money.new d c = .ok m)
    (hc : c.code ∈ ISO_4217) : m.Representable := by
  obtain ⟨hcur, hv, -, -⟩ := Money.new_ok h
  have hs : d.Storable := Money.new_ok_iff.mp ⟨m, h⟩
  refine ⟨?_, hcur ▸ hc⟩
  unfold Decimal.Storable at hs ⊢
  rwa [hv]

namespace Build

variable {f : Formats} {ar : Arithmetic}

theorem combine_sound {op : Decimal → Decimal → Option Decimal} {a b : Except Fault Money}
    (hop : ∀ m other : Money, m.Representable → other.Representable → ∃ d, op m.amount other.amount = some d)
    (ha : a ≠ .error .panicked) (hb : b ≠ .error .panicked) (hra : ∀ m, a = .ok m → m.Representable)
    (hrb : ∀ m, b = .ok m → m.Representable) :
    combine (Money.checked op) a b ≠ .error .panicked ∧
      ∀ m, combine (Money.checked op) a b = .ok m → m.Representable := by
  cases a with
  | error e => exact ⟨ha, nofun⟩
  | ok m =>
    cases b with
    | error e => exact ⟨hb, nofun⟩
    | ok other =>
      have hm := hra m rfl
      obtain ⟨d, hd⟩ := hop m other hm (hrb other rfl)
      have he : combine (Money.checked op) (.ok m) (.ok other) =
          if m.currency = other.currency then (Money.new d m.currency).mapError fun _ => Fault.refused
          else .error .refused := by
        simp only [combine, bind, Except.bind, Money.checked, Money.requireSameCurrency]
        by_cases hc : m.currency = other.currency
        · simp only [if_pos hc, hd, Option.map_some]
        · simp only [if_neg hc, Except.mapError]
      rw [he]
      split
      · cases hn : Money.new d m.currency with
        | error e => exact ⟨nofun, nofun⟩
        | ok r =>
          refine ⟨nofun, fun m' h => ?_⟩
          cases h
          exact Money.Representable.new hn hm.iso
      · exact ⟨nofun, nofun⟩

theorem Sound.add {a b : Build} (ha : Sound f ar a) (hb : Sound f ar b) : Sound f ar (.add a b) := by
  have hop : ∀ m other : Money, m.Representable → other.Representable →
      ∃ c, ar.add m.amount other.amount = some c := by
    intro m other hm ho
    obtain ⟨⟨n, hn, he⟩, -⟩ := hm.storable.combine ho.storable
    obtain ⟨c, hc, -⟩ := ar.add_exact _ _ n 8 (by omega) hn he
    exact ⟨c, hc⟩
  have := combine_sound hop ha.total hb.total ha.representable hb.representable
  exact ⟨this.1, this.2⟩

theorem Sound.sub {a b : Build} (ha : Sound f ar a) (hb : Sound f ar b) : Sound f ar (.sub a b) := by
  have hop : ∀ m other : Money, m.Representable → other.Representable →
      ∃ c, ar.sub m.amount other.amount = some c := by
    intro m other hm ho
    obtain ⟨-, n, hn, he⟩ := hm.storable.combine ho.storable
    obtain ⟨c, hc, -⟩ := ar.sub_exact _ _ n 8 (by omega) hn he
    exact ⟨c, hc⟩
  have := combine_sound hop ha.total hb.total ha.representable hb.representable
  exact ⟨this.1, this.2⟩

theorem sound_new {d : Decimal} {c : Currency} :
    Sound f ar (.new d c) ↔ (d.Storable → c.code ∈ ISO_4217) := by
  constructor
  · intro h hs
    obtain ⟨m, hm⟩ := (Money.new_ok_iff (c := c)).mpr hs
    have := (h.representable m (by simp only [value, hm, Except.mapError])).iso
    rwa [(Money.new_ok hm).1] at this
  · intro h
    cases hn : Money.new d c with
    | error e =>
      exact ⟨by simp [value, hn, Except.mapError], fun m hm => by simp [value, hn, Except.mapError] at hm⟩
    | ok m =>
      refine ⟨by simp [value, hn, Except.mapError], fun m' hm => ?_⟩
      simp only [value, hn, Except.mapError, Except.ok.injEq] at hm
      subst hm
      exact Money.Representable.new hn (h (Money.new_ok_iff.mp ⟨m, hn⟩))

theorem sound_zero {c : Currency} : Sound f ar (.zero c) ↔ c.code ∈ ISO_4217 := by
  have hz : Decimal.zero.Storable := by decide
  exact ⟨fun h => (h.representable _ rfl).iso, fun h => ⟨nofun, fun m hm => by cases hm; exact ⟨hz, h⟩⟩⟩

theorem sound_read {source : Source} : Sound f ar (.read source) ↔
    (source.Accepted f → ∀ s d, source.amountText = some s → f.decimal s = some d → d.Storable) := by
  constructor
  · intro h ha s d hs hd
    obtain ⟨m, hm⟩ := Source.read_defined ha hs
    obtain ⟨s', hs', hd', -⟩ := Source.read_some hm
    cases hs.symm.trans hs'
    rw [Option.some.inj (hd.symm.trans hd')]
    exact (h.representable m (by simp only [value, hm])).storable
  · intro h
    cases hr : source.read f with
    | none => exact ⟨by simp [value, hr], fun m hm => by simp [value, hr] at hm⟩
    | some m =>
      refine ⟨by simp [value, hr], fun m' hm => ?_⟩
      simp only [value, hr, Except.ok.injEq] at hm
      subst hm
      obtain ⟨s, hs, hd, hiso⟩ := Source.read_some hr
      exact ⟨h (Source.read_accepted hr) s _ hs hd, hiso⟩

end Build

/-- **When every `Money` value is representable.** However a value is built: the values on
the way are all multiples of `10⁻⁸` below `10¹²` in a currency of the table, and no
addition or subtraction overflows, exactly when the amounts in the JSON that was accepted
are the texts of such multiples, and the currencies that were handed over are in the table. -/
theorem money_representable_iff (f : Formats) (ar : Arithmetic) (b : Build) :
    (∀ p ∈ b.parts, p.value f ar ≠ .error .panicked ∧ ∀ m, p.value f ar = .ok m →
      (10 : ℤ) ^ 20 ∣ m.amount.val ∧ |m.amount.val| < 10 ^ 40 ∧ m.currency.code ∈ ISO_4217) ↔ b.Checked f := by
  have sound : ∀ p : Build, (p.value f ar ≠ .error .panicked ∧ ∀ m, p.value f ar = .ok m →
      (10 : ℤ) ^ 20 ∣ m.amount.val ∧ |m.amount.val| < 10 ^ 40 ∧ m.currency.code ∈ ISO_4217) ↔ p.Sound f ar := by
    refine fun p => ⟨fun h => ⟨h.1, fun m hm => ⟨⟨(h.2 m hm).1, (h.2 m hm).2.1⟩, (h.2 m hm).2.2⟩⟩,
      fun h => ⟨h.total, fun m hm => ?_⟩⟩
    have := h.representable m hm
    exact ⟨this.storable.1, this.storable.2, this.iso⟩
  simp only [sound]
  -- an operation is in order as soon as its operands are
  have self : ∀ p : Build, p ∈ p.parts := by intro p; cases p <;> simp [Build.parts]
  induction b with
  | new d c => simpa only [Build.parts, List.forall_mem_singleton, Build.Checked] using Build.sound_new
  | zero c => simpa only [Build.parts, List.forall_mem_singleton, Build.Checked] using Build.sound_zero
  | read source => simpa only [Build.parts, List.forall_mem_singleton, Build.Checked] using Build.sound_read
  | add a b iha ihb =>
    simp only [Build.parts, List.forall_mem_cons, List.forall_mem_append, iha, ihb, Build.Checked]
    exact ⟨fun h => h.2, fun h => ⟨(iha.mpr h.1 a (self a)).add (ihb.mpr h.2 b (self b)), h⟩⟩
  | sub a b iha ihb =>
    simp only [Build.parts, List.forall_mem_cons, List.forall_mem_append, iha, ihb, Build.Checked]
    exact ⟨fun h => h.2, fun h => ⟨(iha.mpr h.1 a (self a)).sub (ihb.mpr h.2 b (self b)), h⟩⟩

/-! ### Two amounts that are read as they are -/

/-- A sum as the library computes it where it does not have to round. -/
def Decimal.ofVal (v : ℤ) : Option Decimal :=
  let (coeff, scale) := strip v.natAbs 28
  if h : coeff < 2 ^ 96 ∧ scale ≤ 28 then some ⟨decide (v < 0), coeff, scale, h.1, h.2⟩ else none

theorem Decimal.ofVal_exact (n : ℤ) (s : Nat) (hs : s ≤ 28) (hn : |n| < 10 ^ 28) :
    ∃ c, Decimal.ofVal (n * 10 ^ (28 - s)) = some c ∧ c.val = n * 10 ^ (28 - s) := by
  set v := n * 10 ^ (28 - s) with hv
  have habs : v.natAbs = n.natAbs * 10 ^ (28 - s) := by
    rw [hv, Int.natAbs_mul, Int.natAbs_pow]
    rfl
  have hle := strip_least 28 v.natAbs s hs (habs ▸ Dvd.intro_left _ rfl)
  have hvalue := strip_value 28 v.natAbs
  have hscale := (strip_le 28 v.natAbs).2
  have hcoeff : (strip v.natAbs 28).1 < 2 ^ 96 := by
    have hbound : (strip v.natAbs 28).1 ≤ n.natAbs := by
      refine Nat.le_of_mul_le_mul_right (c := 10 ^ (28 - s)) ?_ (by positivity)
      calc (strip v.natAbs 28).1 * 10 ^ (28 - s)
          ≤ (strip v.natAbs 28).1 * 10 ^ (28 - (strip v.natAbs 28).2) :=
            Nat.mul_le_mul_left _ (Nat.pow_le_pow_right (by omega) (by omega))
        _ = n.natAbs * 10 ^ (28 - s) := by rw [hvalue, habs]
    have : n.natAbs < 10 ^ 28 := by rw [Int.abs_eq_natAbs] at hn; exact_mod_cast hn
    exact lt_of_le_of_lt hbound (lt_trans this (by norm_num))
  refine ⟨⟨decide (v < 0), (strip v.natAbs 28).1, (strip v.natAbs 28).2, hcoeff, hscale⟩,
    dif_pos ⟨hcoeff, hscale⟩, ?_⟩
  have hcast : (((strip v.natAbs 28).1 : ℤ) * 10 ^ (28 - (strip v.natAbs 28).2)) = v.natAbs := by
    exact_mod_cast hvalue
  unfold Decimal.val Decimal.signed
  by_cases hneg : v < 0
  · simp only [hneg, decide_true, if_true, neg_mul, hcast]
    omega
  · simp only [hneg, decide_false, Bool.false_eq_true, if_false, hcast]
    omega

def Arithmetic.unrounded : Arithmetic where
  add a b := Decimal.ofVal (a.val + b.val)
  sub a b := Decimal.ofVal (a.val - b.val)
  add_exact a b n s hs hn he := by rw [he]; exact Decimal.ofVal_exact n s hs hn
  sub_exact a b n s hs hn he := by rw [he]; exact Decimal.ofVal_exact n s hs hn

/-- The libraries on the texts of this file and of `Wire`. -/
def Formats.plain : Formats where
  decimal s := (Numeral.parse s).bind Decimal.ofNumeral
  uuid s :=
    if s = "00000000-0000-0000-0000-000000000001" then some 1
    else if s = "00000000-0000-0000-0000-000000000002" then some 2
    else none
  timestamp _ := none

def moneyJson (amount : String) : Json := .object [("amount", .string amount), ("currency", .string "USD")]

def tooFine : Build := .read (.money (moneyJson "0.000000001"))

def largest : Build := .read (.money (moneyJson "79228162514264337593543950335"))

/-- The derived `Deserialize` lets both through: a ninth decimal place, and an amount that
cannot even be added to itself. -/
theorem deserialize_skips_the_checks :
    (∃ m, tooFine.value .plain .unrounded = .ok m ∧ ¬ (10 : ℤ) ^ 20 ∣ m.amount.val) ∧
    (∃ m, largest.value .plain .unrounded = .ok m ∧ ¬ |m.amount.val| < 10 ^ 40) ∧
    (Build.add largest largest).value .plain .unrounded = .error .panicked := by
  have fine : (tooFine.value .plain .unrounded).toOption.any (fun m => ¬ (10 : ℤ) ^ 20 ∣ m.amount.val) = true := by
    decide +kernel
  have large : (largest.value .plain .unrounded).toOption.any (fun m => ¬ |m.amount.val| < 10 ^ 40) = true := by
    decide +kernel
  have sum : (match (Build.add largest largest).value .plain .unrounded with
      | .error e => decide (e = .panicked)
      | .ok _ => false) = true := by decide +kernel
  refine ⟨?_, ?_, ?_⟩
  · cases h : tooFine.value .plain .unrounded with
    | error e => rw [h] at fine; cases fine
    | ok m => rw [h] at fine; exact ⟨m, rfl, of_decide_eq_true fine⟩
  · cases h : largest.value .plain .unrounded with
    | error e => rw [h] at large; cases large
    | ok m => rw [h] at large; exact ⟨m, rfl, of_decide_eq_true large⟩
  · cases h : (Build.add largest largest).value .plain .unrounded with
    | error e => rw [h] at sum; rw [of_decide_eq_true sum]
    | ok m => rw [h] at sum; cases sum

end Ledger
