import Ledger.Json
import Ledger.DecimalText

/-!
# What is written reads back

The derived `Serialize` of the domain types, and that a client with the derived
`Deserialize` gets what was sent. An amount is written as a string, and that string
denotes the amount exactly, digit by digit: nothing is lost to a reader that does not
know the decimal library.
-/

namespace Ledger

/-! ## The text of a decimal -/

/-- `Decimal::to_string`: the bytes of `Display` are ASCII. -/
def Decimal.text (d : Decimal) : String := String.ofList (d.display.map fun b => Char.ofNat b.toNat)

def digitChar (n : Nat) : Char := Char.ofNat (digitByte n).toNat

namespace Numeral

theorem digit_digitChar : ∀ n < 10, digit (digitChar n) = some n := by decide

theorem sign_digitChar : ∀ n < 10, digitChar n ≠ '-' ∧ digitChar n ≠ '+' := by decide

theorem plain_digitChar : ∀ n < 10, digitChar n ≠ 'e' ∧ digitChar n ≠ 'E' := by decide

theorem sign_digits {ds : List Nat} (hne : ds ≠ []) (hlt : ∀ n ∈ ds, n < 10) (rest : List Char) :
    sign (ds.map digitChar ++ rest) = (false, ds.map digitChar ++ rest) := by
  cases ds with
  | nil => exact absurd rfl hne
  | cons n ds =>
    obtain ⟨hm, hp⟩ := sign_digitChar n (hlt n (List.mem_cons_self ..))
    rw [List.map_cons, List.cons_append]
    unfold sign
    split
    · rename_i he; exact absurd (List.cons.inj he).1 hm
    · rename_i he; exact absurd (List.cons.inj he).1 hp
    · rfl

theorem digits_run {ds : List Nat} (hlt : ∀ n ∈ ds, n < 10) (rest : List Char) :
    digits (ds.map digitChar ++ rest) = (ds ++ (digits rest).1, (digits rest).2) := by
  induction ds with
  | nil => rfl
  | cons n ds ih =>
    have hn := digit_digitChar n (hlt n (List.mem_cons_self ..))
    rw [List.map_cons, List.cons_append, digits, hn]
    simp only [ih fun m hm => hlt m (List.mem_cons_of_mem _ hm), List.cons_append]

theorem digits_point (rest : List Char) : digits ('.' :: rest) = ([], '.' :: rest) := by
  rw [digits, show digit '.' = none by decide]
  rfl

end Numeral

namespace Decimal

theorem text_toList (d : Decimal) :
    d.text.toList = (if d.neg then ['-'] else []) ++ (d.digits.take (d.digits.length - d.scale)).map digitChar ++
      (if d.scale = 0 then [] else '.' :: (d.digits.drop (d.digits.length - d.scale)).map digitChar) := by
  have hmap : ∀ ds : List Nat, (ds.map digitByte).map (fun b => Char.ofNat b.toNat) = ds.map digitChar :=
    fun ds => List.map_map ..
  rw [text, String.toList_ofList, display, List.map_append, List.map_append, whole, fraction, hmap]
  congr 1
  · split <;> rfl
  · split
    · rfl
    · rw [List.map_cons, hmap]; rfl

theorem text_plain (d : Decimal) : Numeral.Plain d.text := by
  have plain : ∀ ch ∈ d.text.toList, ch ≠ 'e' ∧ ch ≠ 'E' := by
    intro ch hch
    have hdigit : ∀ n ∈ d.digits, digitChar n ≠ 'e' ∧ digitChar n ≠ 'E' := fun n hn =>
      Numeral.plain_digitChar n (d.digits_lt n hn)
    rw [text_toList, List.mem_append, List.mem_append] at hch
    rcases hch with (hch | hch) | hch
    · split at hch
      · cases List.mem_singleton.mp hch; decide
      · cases hch
    · obtain ⟨n, hn, rfl⟩ := List.mem_map.mp hch
      exact hdigit n (List.mem_of_mem_take hn)
    · split at hch
      · cases hch
      · rcases List.mem_cons.mp hch with rfl | hch
        · decide
        · obtain ⟨n, hn, rfl⟩ := List.mem_map.mp hch
          exact hdigit n (List.mem_of_mem_drop hn)
  exact ⟨fun he => (plain _ he).1 rfl, fun he => (plain _ he).2 rfl⟩

/-- **An amount's text denotes the amount**: its sign and all its digits, with the point
where its scale says. -/
theorem parse_text (d : Decimal) : Numeral.parse d.text = some ⟨d.signed, d.scale⟩ := by
  have hlt := d.digits_lt
  have hlen := d.digits_length
  set k := d.digits.length - d.scale with hk
  have htake : ∀ n ∈ d.digits.take k, n < 10 := fun n hn => hlt n (List.mem_of_mem_take hn)
  have hdrop : ∀ n ∈ d.digits.drop k, n < 10 := fun n hn => hlt n (List.mem_of_mem_drop hn)
  have hne : d.digits.take k ≠ [] := by
    rw [Ne, List.take_eq_nil_iff]
    rintro (h | h)
    · omega
    · rw [h] at hlen; exact absurd hlen (by simp)
  set tail : List Char := if d.scale = 0 then [] else '.' :: (d.digits.drop k).map digitChar with htail
  have hsign : Numeral.sign d.text.toList = (d.neg, (d.digits.take k).map digitChar ++ tail) := by
    rw [text_toList, ← hk, ← htail, List.append_assoc]
    cases d.neg
    · exact Numeral.sign_digits hne htake tail
    · rfl
  have hwhole : Numeral.digits ((d.digits.take k).map digitChar ++ tail) = (d.digits.take k, tail) := by
    rw [Numeral.digits_run htake, htail]
    split
    · simp [Numeral.digits]
    · rw [Numeral.digits_point, List.append_nil]
  have hfraction : Numeral.fraction tail = (d.digits.drop k, []) := by
    rw [htail]
    split
    · rename_i h0
      rw [hk, h0, Nat.sub_zero, List.drop_length]
      rfl
    · have := Numeral.digits_run hdrop []
      rw [List.append_nil] at this
      rw [Numeral.fraction, this]
      simp [Numeral.digits]
  have hdigits : d.digits ≠ [] := fun h => by rw [h] at hlen; exact absurd hlen (by simp)
  have hscale : (d.digits.drop k).length = d.scale := by rw [List.length_drop]; omega
  have hcoeff : Nat.ofDigits (10 : ℤ) d.digits.reverse = d.coeff := by
    rw [← ofDigits_digits d, Nat.coe_ofDigits]; rfl
  simp only [Numeral.parse, hsign, hwhole, hfraction, Numeral.exponent, List.take_append_drop, if_neg hdigits,
    hscale, hcoeff]
  simp [signed]

end Decimal

/-! ## The text of a UUID -/

def hexDigit (n : Nat) : Char := Char.ofNat (if n < 10 then 48 + n else 87 + n)

def hexValue (ch : Char) : Option Nat :=
  if '0' ≤ ch ∧ ch ≤ '9' then some (ch.toNat - 48) else if 'a' ≤ ch ∧ ch ≤ 'f' then some (ch.toNat - 87) else none

namespace Uuid

def nibbles (u : Uuid) : List Nat := ((List.range 32).map fun i => u.val / 16 ^ i % 16).reverse

/-- `Display`: hyphenated, in lower case. -/
def text (u : Uuid) : String :=
  let hex := u.nibbles.map hexDigit
  String.ofList (hex.take 8 ++ '-' :: ((hex.drop 8).take 4 ++ '-' :: ((hex.drop 12).take 4 ++
    '-' :: ((hex.drop 16).take 4 ++ '-' :: hex.drop 20))))

/-- The number of 32 hexadecimal digits, hyphens aside. -/
def parse (s : String) : Option Uuid :=
  ((s.toList.filter (· ≠ '-')).mapM hexValue).bind fun ds =>
    if h : Nat.ofDigits 16 ds.reverse < 2 ^ 128 then some ⟨_, h⟩ else none

theorem hexDigit_value : ∀ n < 16, hexValue (hexDigit n) = some n ∧ hexDigit n ≠ '-' := by decide

theorem ofDigits_base (b : Nat) : ∀ k n : Nat, n < b ^ k →
    Nat.ofDigits b ((List.range k).map fun i => n / b ^ i % b) = n
  | 0, n, h => by
    rw [pow_zero, Nat.lt_one_iff] at h
    rw [h]
    rfl
  | k + 1, n, h => by
    have hdiv : n / b < b ^ k := Nat.div_lt_of_lt_mul (by rwa [pow_succ, Nat.mul_comm] at h)
    have hnext : (fun i => n / b ^ i % b) ∘ Nat.succ = fun i => n / b / b ^ i % b := by
      funext i
      simp only [Function.comp, Nat.succ_eq_add_one, pow_succ', Nat.div_div_eq_div_mul]
    rw [List.range_succ_eq_map, List.map_cons, List.map_map, hnext, Nat.ofDigits_cons, ofDigits_base b k _ hdiv,
      pow_zero, Nat.div_one]
    exact Nat.mod_add_div n b

theorem nibbles_lt {u : Uuid} {n : Nat} (h : n ∈ u.nibbles) : n < 16 := by
  obtain ⟨i, -, rfl⟩ := List.mem_map.mp (List.mem_reverse.mp h)
  exact Nat.mod_lt _ (by omega)

theorem filter_text (u : Uuid) : u.text.toList.filter (· ≠ '-') = u.nibbles.map hexDigit := by
  set hex := u.nibbles.map hexDigit with hhex
  have hall : ∀ ch ∈ hex, ch ≠ '-' := fun ch hch => by
    obtain ⟨n, hn, rfl⟩ := List.mem_map.mp hch
    exact (hexDigit_value n (nibbles_lt hn)).2
  have htake : ∀ (i j : Nat), ((hex.drop i).take j).filter (· ≠ '-') = (hex.drop i).take j := fun i j =>
    List.filter_eq_self.mpr fun ch hch => decide_eq_true (hall ch (List.mem_of_mem_drop (List.mem_of_mem_take hch)))
  have hdrop : (hex.drop 20).filter (· ≠ '-') = hex.drop 20 :=
    List.filter_eq_self.mpr fun ch hch => decide_eq_true (hall ch (List.mem_of_mem_drop hch))
  have h0 := htake 0 8
  rw [List.drop_zero] at h0
  have hhyphen : ∀ l : List Char, ('-' :: l).filter (· ≠ '-') = l.filter (· ≠ '-') := fun l => by simp
  rw [text, String.toList_ofList, ← hhex]
  simp only [List.filter_append, hhyphen, h0, htake, hdrop]
  have hsplit : ∀ i j : Nat, (hex.drop i).take j ++ hex.drop (i + j) = hex.drop i := fun i j => by
    rw [← List.drop_drop, List.take_append_drop]
  rw [hsplit 16 4, hsplit 12 4, hsplit 8 4, List.take_append_drop]

theorem parse_text (u : Uuid) : parse u.text = some u := by
  have hmap : ∀ ds : List Nat, (∀ n ∈ ds, n < 16) → (ds.map hexDigit).mapM hexValue = some ds := by
    intro ds hds
    induction ds with
    | nil => rfl
    | cons n ds ih =>
      rw [List.map_cons, List.mapM_cons, (hexDigit_value n (hds n (List.mem_cons_self ..))).1,
        ih fun m hm => hds m (List.mem_cons_of_mem _ hm)]
      rfl
  have hval : Nat.ofDigits 16 u.nibbles.reverse = u.val := by
    rw [nibbles, List.reverse_reverse]
    exact ofDigits_base 16 32 u.val (lt_of_lt_of_eq u.isLt (by norm_num))
  rw [parse, filter_text, hmap _ fun n hn => nibbles_lt hn, Option.bind_some, dif_pos (hval ▸ u.isLt)]
  exact congrArg some (Fin.ext hval)

theorem text_inj {u v : Uuid} (h : u.text = v.text) : u = v :=
  Option.some.inj ((parse_text u).symm.trans ((congrArg parse h).trans (parse_text v)))

end Uuid

/-! ## `Serialize` -/

/-- What a client's libraries make of the texts written here. A number without an exponent
is read as what it denotes as long as a decimal can hold it. -/
structure Formats.Reads (f : Formats) (time : Timestamp → String) : Prop where
  uuid : ∀ u : Uuid, f.uuid u.text = some u
  timestamp : ∀ t, f.timestamp (time t) = some t
  decimal : ∀ d : Decimal, (f.decimal d.text).isSome = true
  exact : ∀ s n d, Numeral.Plain s → Numeral.parse s = some n → n.places ≤ 28 → n.num.natAbs < 2 ^ 96 →
    f.decimal s = some d → d.toRat = n.value

section
variable (time : Timestamp → String)

def Money.serialize (m : Money) : Json :=
  .object [("amount", .string m.amount.text), ("currency", .string m.currency.code)]

def Direction.serialize : Direction → Json
  | .debit => .string "debit"
  | .credit => .string "credit"

def Account.serialize (a : Account) : Json :=
  .object [("id", .string a.id.text), ("name", .string a.name), ("balance", a.balance.serialize),
    ("allows_negative_balance", .bool a.allowsNegativeBalance), ("created_at", .string (time a.createdAt))]

def Entry.serialize (e : Entry) : Json :=
  .object [("id", .string e.id.text), ("transaction_id", .string e.transactionId.text),
    ("account_id", .string e.accountId.text), ("direction", e.direction.serialize), ("amount", e.amount.serialize),
    ("created_at", .string (time e.createdAt))]

def Transaction.members (t : Transaction) : List (String × Json) :=
  [("id", .string t.id.text), ("idempotency_key", .string t.idempotencyKey), ("description", .string t.description),
    ("created_at", .string (time t.createdAt))]

def TransactionDetail.serialize (d : TransactionDetail) : Json :=
  .object (d.transaction.members time ++ [("entries", .array (d.entries.map (·.serialize time)))])

end

/-! ## Reading it back -/

/-- Equal as amounts; the scale may differ. -/
structure Money.Same (m m' : Money) : Prop where
  currency : m'.currency = m.currency
  amount : m'.amount.val = m.amount.val

structure Account.Same (a a' : Account) : Prop where
  rest : a' = { a with balance := a'.balance }
  balance : a.balance.Same a'.balance

structure Entry.Same (e e' : Entry) : Prop where
  rest : e' = { e with amount := e'.amount }
  amount : e.amount.Same e'.amount

structure TransactionDetail.Same (d d' : TransactionDetail) : Prop where
  transaction : d'.transaction = d.transaction
  entries : List.Forall₂ Entry.Same d.entries d'.entries

theorem Decimal.toRat_inj {d e : Decimal} (h : d.toRat = e.toRat) : d.val = e.val := by
  unfold Decimal.toRat at h
  exact_mod_cast (div_left_inj' (by norm_num : ((10 : ℚ) ^ 28) ≠ 0)).mp h

theorem Direction.deserialize_serialize (d : Direction) : Direction.deserialize d.serialize = some d := by
  cases d <;> rfl

section
variable {f : Formats} {time : Timestamp → String} (h : f.Reads time)
include h

theorem Formats.Reads.amount (d : Decimal) : ∃ d', f.decimal d.text = some d' ∧ d'.val = d.val := by
  obtain ⟨d', hd'⟩ := Option.isSome_iff_exists.mp (h.decimal d)
  refine ⟨d', hd', Decimal.toRat_inj ?_⟩
  have hnat : d.signed.natAbs < 2 ^ 96 := d.natAbs_signed ▸ d.coeff_lt
  exact (h.exact _ _ _ d.text_plain d.parse_text d.scale_le hnat hd').trans d.toRat_numeral

theorem Money.deserialize_serialize {m : Money} (hm : m.currency.code ∈ ISO_4217) :
    ∃ m', Money.deserialize f m.serialize = some m' ∧ m.Same m' := by
  obtain ⟨d', hd', hv⟩ := h.amount m.amount
  have hiso : Currency.deserialize (.string m.currency.code) = some m.currency := by
    rw [Currency.deserialize, Json.asString, Option.bind_some, Currency.tryFrom,
      if_pos (List.contains_iff_mem.mpr hm)]
    rfl
  refine ⟨⟨d', m.currency⟩, ?_, rfl, hv⟩
  have hamount : m.serialize.required 2 0 "amount" = some (.string m.amount.text) := rfl
  have hcurrency : m.serialize.required 2 1 "currency" = some (.string m.currency.code) := rfl
  simp only [Money.deserialize, hamount, hcurrency, Option.bind_some, Formats.readDecimal, Json.asString, hd', hiso,
    Option.bind_eq_bind]
  rfl

theorem Account.deserialize_serialize {a : Account} (ha : a.balance.currency.code ∈ ISO_4217) :
    ∃ a', Account.deserialize f (a.serialize time) = some a' ∧ a.Same a' := by
  obtain ⟨m', hm', hsame⟩ := Money.deserialize_serialize h ha
  refine ⟨{ a with balance := m' }, ?_, rfl, hsame⟩
  have hid : (a.serialize time).required 5 0 "id" = some (.string a.id.text) := rfl
  have hname : (a.serialize time).required 5 1 "name" = some (.string a.name) := rfl
  have hbalance : (a.serialize time).required 5 2 "balance" = some a.balance.serialize := rfl
  have hflag : (a.serialize time).required 5 3 "allows_negative_balance" =
    some (.bool a.allowsNegativeBalance) := rfl
  have hat : (a.serialize time).required 5 4 "created_at" = some (.string (time a.createdAt)) := rfl
  simp only [Account.deserialize, hid, hname, hbalance, hflag, hat, Option.bind_some, Formats.readUuid,
    Formats.readTimestamp, Json.asString, Json.asBool, h.uuid, h.timestamp, hm', Option.bind_eq_bind]
  rfl

theorem Entry.deserialize_serialize {e : Entry} (he : e.amount.currency.code ∈ ISO_4217) :
    ∃ e', Entry.deserialize f (e.serialize time) = some e' ∧ e.Same e' := by
  obtain ⟨m', hm', hsame⟩ := Money.deserialize_serialize h he
  refine ⟨{ e with amount := m' }, ?_, rfl, hsame⟩
  have hid : (e.serialize time).required 6 0 "id" = some (.string e.id.text) := rfl
  have htransaction : (e.serialize time).required 6 1 "transaction_id" = some (.string e.transactionId.text) := rfl
  have haccount : (e.serialize time).required 6 2 "account_id" = some (.string e.accountId.text) := rfl
  have hdirection : (e.serialize time).required 6 3 "direction" = some e.direction.serialize := rfl
  have hamount : (e.serialize time).required 6 4 "amount" = some e.amount.serialize := rfl
  have hat : (e.serialize time).required 6 5 "created_at" = some (.string (time e.createdAt)) := rfl
  simp only [Entry.deserialize, hid, htransaction, haccount, hdirection, hamount, hat, Option.bind_some,
    Formats.readUuid, Formats.readTimestamp, Json.asString, h.uuid, h.timestamp, hm', Option.bind_eq_bind,
    Direction.deserialize_serialize]
  rfl

theorem Entry.deserialize_entries : ∀ es : List Entry, (∀ e ∈ es, e.amount.currency.code ∈ ISO_4217) →
    ∃ es', (es.map (·.serialize time)).mapM (Entry.deserialize f) = some es' ∧ List.Forall₂ Entry.Same es es'
  | [], _ => ⟨[], rfl, .nil⟩
  | e :: es, hes => by
    obtain ⟨e', he', hsame⟩ := Entry.deserialize_serialize h (hes e (List.mem_cons_self ..))
    obtain ⟨es', hes', hsames⟩ := deserialize_entries es fun x hx => hes x (List.mem_cons_of_mem _ hx)
    refine ⟨e' :: es', ?_, .cons hsame hsames⟩
    rw [List.map_cons, List.mapM_cons, he', hes']
    rfl

theorem TransactionDetail.deserialize_serialize {d : TransactionDetail}
    (hd : ∀ e ∈ d.entries, e.amount.currency.code ∈ ISO_4217) :
    ∃ d', TransactionDetail.deserialize f (d.serialize time) = some d' ∧ d.Same d' := by
  obtain ⟨es', hes', hsames⟩ := Entry.deserialize_entries h d.entries hd
  refine ⟨⟨d.transaction, es'⟩, ?_, rfl, hsames⟩
  have hentries : (d.serialize time).required 2 1 "entries" =
    some (.array (d.entries.map (·.serialize time))) := rfl
  have hid : (d.serialize time).required 4 0 "id" = some (.string d.transaction.id.text) := rfl
  have hkey : (d.serialize time).required 4 1 "idempotency_key" = some (.string d.transaction.idempotencyKey) := rfl
  have hdesc : (d.serialize time).required 4 2 "description" = some (.string d.transaction.description) := rfl
  have hat : (d.serialize time).required 4 3 "created_at" = some (.string (time d.transaction.createdAt)) := rfl
  unfold TransactionDetail.serialize at hentries hid hkey hdesc hat ⊢
  simp only [TransactionDetail.deserialize, Transaction.deserialize, hentries, hid, hkey, hdesc, hat,
    Option.bind_some,
    Formats.readUuid, Formats.readTimestamp, Json.asString, Json.asArray, h.uuid, h.timestamp, hes',
    Option.bind_eq_bind]
  rfl

end

/-! ## A client -/

/-- A client that knows the texts as they are written here; times are numbers. -/
def Formats.client : Formats where
  decimal s := (Numeral.parse s).bind Decimal.ofNumeral
  uuid := Uuid.parse
  timestamp s := some (Nat.ofDigitChars 10 s.toList 0)

theorem Formats.client_decimal (s : String) :
    Formats.client.decimal s = (Numeral.parse s).bind Decimal.ofNumeral := rfl

theorem Formats.client_uuid (s : String) : Formats.client.uuid s = Uuid.parse s := rfl

theorem Formats.client_timestamp (t : Timestamp) : Formats.client.timestamp (Nat.repr t) = some t :=
  congrArg some ((congrArg (Nat.ofDigitChars 10 · 0) Nat.toList_repr).trans
    (Nat.ofDigitChars_toDigits (by norm_num) (by norm_num)))

theorem Formats.client_reads : Formats.client.Reads Nat.repr := by
  refine ⟨fun u => ?_, fun t => ?_, fun d => ?_, fun s n d _ hparse hp hn hd => ?_⟩
  · rw [client_uuid, Uuid.parse_text]
  · exact client_timestamp t
  · have hfit : ((⟨d.signed, d.scale⟩ : Numeral).toPlaces 28).num.natAbs < 2 ^ 96 := by
      rw [Numeral.toPlaces_of_le d.scale_le]
      exact d.natAbs_signed ▸ d.coeff_lt
    obtain ⟨d', hd', -⟩ := Numeral.ofNumeral_fits hfit
    rw [client_decimal, Decimal.parse_text, Option.bind_some, hd']
    rfl
  · obtain ⟨d', hd', hv⟩ := Numeral.ofNumeral_fits (n := n) (by rw [Numeral.toPlaces_of_le hp]; exact hn)
    rw [client_decimal, hparse, Option.bind_some, hd', Option.some.injEq] at hd
    rw [← hd, hv, Numeral.toPlaces_of_le hp]

end Ledger
