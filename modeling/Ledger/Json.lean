import Ledger.Http
import Ledger.Lib.Bind

/-!
# JSON bodies

The derived `Deserialize` of the request and domain types: a struct is built field by
field, from an object or from an array in the order of the fields, and nothing looks at
the value as a whole. The texts of its errors are the library's and are left out.
-/

namespace Ledger

inductive Json
  | null
  | bool (b : Bool)
  | number (text : String)
  | string (s : String)
  | array (items : List Json)
  | object (members : List (String × Json))

/-- How the libraries read a decimal, a UUID and a time from a string. -/
structure Formats where
  decimal : String → Option Decimal
  uuid : String → Option Uuid
  timestamp : String → Option Timestamp

namespace Json

def asString : Json → Option String
  | string s => some s
  | _ => none

def asBool : Json → Option Bool
  | bool b => some b
  | _ => none

def asArray : Json → Option (List Json)
  | array items => some items
  | _ => none

/-- A field of a struct with `arity` fields, the `i`-th of them: `some none` when it is
not there. An object must not name it twice; its other members are ignored. -/
def field (arity i : Nat) (name : String) : Json → Option (Option Json)
  | object members => match members.filter (·.1 = name) with
    | [] => some none
    | [(_, v)] => some (some v)
    | _ => none
  | array items => if items.length ≤ arity then some items[i]? else none
  | _ => none

def required (arity i : Nat) (name : String) (j : Json) : Option Json := (j.field arity i name).join

/-- A field with `#[serde(default)]`. -/
def optional {α : Type} (arity i : Nat) (name : String) (dflt : α) (read : Json → Option α) (j : Json) : Option α :=
  match j.field arity i name with
  | none => none
  | some none => some dflt
  | some (some v) => read v

end Json

section
variable (f : Formats)

def Currency.deserialize (j : Json) : Option Currency := j.asString.bind fun s => (Currency.tryFrom s).toOption

def Formats.readDecimal (j : Json) : Option Decimal := j.asString.bind f.decimal

def Formats.readUuid (j : Json) : Option Uuid := j.asString.bind f.uuid

def Formats.readTimestamp (j : Json) : Option Timestamp := j.asString.bind f.timestamp

def Direction.deserialize : Json → Option Direction
  | .string "debit" | .object [("debit", .null)] => some .debit
  | .string "credit" | .object [("credit", .null)] => some .credit
  | _ => none

def Money.deserialize (j : Json) : Option Money := do
  let amount ← (j.required 2 0 "amount").bind f.readDecimal
  let currency ← (j.required 2 1 "currency").bind Currency.deserialize
  return { amount, currency }

def Account.deserialize (j : Json) : Option Account := do
  let id ← (j.required 5 0 "id").bind f.readUuid
  let name ← (j.required 5 1 "name").bind Json.asString
  let balance ← (j.required 5 2 "balance").bind (Money.deserialize f)
  let allowsNegativeBalance ← (j.required 5 3 "allows_negative_balance").bind Json.asBool
  let createdAt ← (j.required 5 4 "created_at").bind f.readTimestamp
  return { id, name, balance, allowsNegativeBalance, createdAt }

def Entry.deserialize (j : Json) : Option Entry := do
  let id ← (j.required 6 0 "id").bind f.readUuid
  let transactionId ← (j.required 6 1 "transaction_id").bind f.readUuid
  let accountId ← (j.required 6 2 "account_id").bind f.readUuid
  let direction ← (j.required 6 3 "direction").bind Direction.deserialize
  let amount ← (j.required 6 4 "amount").bind (Money.deserialize f)
  let createdAt ← (j.required 6 5 "created_at").bind f.readTimestamp
  return { id, transactionId, accountId, direction, amount, createdAt }

def Transaction.deserialize (j : Json) : Option Transaction := do
  let id ← (j.required 4 0 "id").bind f.readUuid
  let idempotencyKey ← (j.required 4 1 "idempotency_key").bind Json.asString
  let description ← (j.required 4 2 "description").bind Json.asString
  let createdAt ← (j.required 4 3 "created_at").bind f.readTimestamp
  return { id, idempotencyKey, description, createdAt }

/-- The transaction is flattened into the object, so an array is not taken for one. -/
def TransactionDetail.deserialize : Json → Option TransactionDetail
  | .object members => do
    let entries ← ((Json.object members).required 2 1 "entries").bind Json.asArray
    let entries ← entries.mapM (Entry.deserialize f)
    let transaction ← Transaction.deserialize f (.object members)
    return { transaction, entries }
  | _ => none

end

theorem Currency.deserialize_known {j : Json} {c : Currency} (h : Currency.deserialize j = some c) :
    Currency.tryFrom c.code = .ok c := by
  obtain ⟨s, -, h⟩ := Option.bind_eq_some_iff.mp h
  cases hs : Currency.tryFrom s with
  | error e => rw [hs] at h; cases h
  | ok c' =>
    rw [hs] at h
    cases h
    unfold Currency.tryFrom at hs
    split at hs
    · cases hs
      rename_i hiso
      simp only [Currency.tryFrom, if_pos hiso]
    · cases hs

theorem Money.deserialize_some {f : Formats} {j : Json} {m : Money} (h : Money.deserialize f j = some m) :
    ∃ s, (j.required 2 0 "amount").bind Json.asString = some s ∧ f.decimal s = some m.amount ∧
      m.currency.code ∈ ISO_4217 := by
  obtain ⟨amount, ha, h⟩ := Option.bind_eq_some_iff.mp h
  obtain ⟨currency, hc, h⟩ := Option.bind_eq_some_iff.mp h
  cases h
  obtain ⟨v, hv, ha⟩ := Option.bind_eq_some_iff.mp ha
  obtain ⟨s, hs, hd⟩ := Option.bind_eq_some_iff.mp ha
  obtain ⟨w, -, hc⟩ := Option.bind_eq_some_iff.mp hc
  exact ⟨s, by rw [hv, Option.bind_some, hs], hd, Currency.tryFrom_iso (Currency.deserialize_known hc)⟩

/-! ## What is accepted -/

namespace Json

/-- The struct's `i`-th field is there, and its value is as described. -/
def Has (arity i : Nat) (name : String) (p : Json → Prop) (j : Json) : Prop :=
  ∃ v, j.required arity i name = some v ∧ p v

def IsString {α : Type} (read : String → Option α) (j : Json) : Prop := ∃ s a, j = string s ∧ read s = some a

def IsBool (j : Json) : Prop := ∃ b, j = bool b

def IsDirection (j : Json) : Prop :=
  ∃ name ∈ ["debit", "credit"], j = string name ∨ j = object [(name, null)]

structure IsMoney (f : Formats) (j : Json) : Prop where
  amount : j.Has 2 0 "amount" (IsString f.decimal)
  currency : j.Has 2 1 "currency" (IsString fun s => (Currency.tryFrom s).toOption)

structure IsAccount (f : Formats) (j : Json) : Prop where
  id : j.Has 5 0 "id" (IsString f.uuid)
  name : j.Has 5 1 "name" (IsString some)
  balance : j.Has 5 2 "balance" (IsMoney f)
  allowsNegativeBalance : j.Has 5 3 "allows_negative_balance" IsBool
  createdAt : j.Has 5 4 "created_at" (IsString f.timestamp)

structure IsEntry (f : Formats) (j : Json) : Prop where
  id : j.Has 6 0 "id" (IsString f.uuid)
  transactionId : j.Has 6 1 "transaction_id" (IsString f.uuid)
  accountId : j.Has 6 2 "account_id" (IsString f.uuid)
  direction : j.Has 6 3 "direction" IsDirection
  amount : j.Has 6 4 "amount" (IsMoney f)
  createdAt : j.Has 6 5 "created_at" (IsString f.timestamp)

structure IsTransaction (f : Formats) (j : Json) : Prop where
  id : j.Has 4 0 "id" (IsString f.uuid)
  idempotencyKey : j.Has 4 1 "idempotency_key" (IsString some)
  description : j.Has 4 2 "description" (IsString some)
  createdAt : j.Has 4 3 "created_at" (IsString f.timestamp)

structure IsDetail (f : Formats) (j : Json) : Prop where
  object : ∃ members, j = .object members
  entries : j.Has 2 1 "entries" fun v => ∃ items, v = .array items ∧ ∀ item ∈ items, item.IsEntry f
  transaction : j.IsTransaction f

section
variable {α : Type} {arity i : Nat} {name : String} {p : Json → Prop} {read : Json → Option α} {j v : Json}

theorem has_iff (h : ∀ v, p v ↔ ∃ a, read v = some a) :
    j.Has arity i name p ↔ ∃ a, (j.required arity i name).bind read = some a := by
  constructor
  · rintro ⟨v, hv, hp⟩
    obtain ⟨a, ha⟩ := (h v).mp hp
    exact ⟨a, by rw [hv, Option.bind_some, ha]⟩
  · rintro ⟨a, ha⟩
    obtain ⟨v, hv, hr⟩ := Option.bind_eq_some_iff.mp ha
    exact ⟨v, hv, (h v).mpr ⟨a, hr⟩⟩

theorem asString_some {s : String} : v.asString = some s ↔ v = string s := by
  cases v <;> simp [asString]

theorem isString_iff {read : String → Option α} : v.IsString read ↔ ∃ a, v.asString.bind read = some a := by
  constructor
  · rintro ⟨s, a, rfl, ha⟩
    exact ⟨a, ha⟩
  · rintro ⟨a, ha⟩
    obtain ⟨s, hs, hr⟩ := Option.bind_eq_some_iff.mp ha
    exact ⟨s, a, asString_some.mp hs, hr⟩

theorem isText_iff : v.IsString some ↔ ∃ s, v.asString = some s :=
  isString_iff.trans (by simp)

theorem isBool_iff : v.IsBool ↔ ∃ b, v.asBool = some b := by
  cases v <;> simp [IsBool, asBool]

theorem isDirection_iff : v.IsDirection ↔ ∃ d, Direction.deserialize v = some d := by
  constructor
  · rintro ⟨name, hname, hv⟩
    simp only [List.mem_cons, List.not_mem_nil, or_false] at hname
    rcases hname with rfl | rfl <;> rcases hv with rfl | rfl
    · exact ⟨.debit, rfl⟩
    · exact ⟨.debit, rfl⟩
    · exact ⟨.credit, rfl⟩
    · exact ⟨.credit, rfl⟩
  · rintro ⟨d, hd⟩
    unfold Direction.deserialize at hd
    split at hd
    · exact ⟨"debit", by simp, Or.inl rfl⟩
    · exact ⟨"debit", by simp, Or.inr rfl⟩
    · exact ⟨"credit", by simp, Or.inl rfl⟩
    · exact ⟨"credit", by simp, Or.inr rfl⟩
    · cases hd

end

section
variable {f : Formats} {v : Json}

theorem isDecimal_iff : v.IsString f.decimal ↔ ∃ d, f.readDecimal v = some d := isString_iff

theorem isUuid_iff : v.IsString f.uuid ↔ ∃ id, f.readUuid v = some id := isString_iff

theorem isTimestamp_iff : v.IsString f.timestamp ↔ ∃ t, f.readTimestamp v = some t := isString_iff

theorem isCurrency_iff : (v.IsString fun s => (Currency.tryFrom s).toOption) ↔
    ∃ c, Currency.deserialize v = some c :=
  isString_iff

theorem isMoney_iff : v.IsMoney f ↔ ∃ m, Money.deserialize f v = some m := by
  constructor
  · rintro ⟨hamount, hcurrency⟩
    obtain ⟨amount, ha⟩ := (has_iff fun _ => isDecimal_iff).mp hamount
    obtain ⟨currency, hc⟩ := (has_iff fun _ => isCurrency_iff).mp hcurrency
    exact ⟨⟨amount, currency⟩, by rw [Money.deserialize, ha, hc]; rfl⟩
  · rintro ⟨m, h⟩
    obtain ⟨amount, ha, h⟩ := Option.bind_eq_some_iff.mp h
    obtain ⟨currency, hc, -⟩ := Option.bind_eq_some_iff.mp h
    exact ⟨(has_iff fun _ => isDecimal_iff).mpr ⟨amount, ha⟩, (has_iff fun _ => isCurrency_iff).mpr ⟨currency, hc⟩⟩

theorem isAccount_iff : v.IsAccount f ↔ ∃ a, Account.deserialize f v = some a := by
  constructor
  · rintro ⟨hid, hname, hbalance, hflag, htime⟩
    obtain ⟨id, hi⟩ := (has_iff fun _ => isUuid_iff).mp hid
    obtain ⟨name, hn⟩ := (has_iff fun _ => isText_iff).mp hname
    obtain ⟨balance, hb⟩ := (has_iff fun _ => isMoney_iff).mp hbalance
    obtain ⟨flag, hf⟩ := (has_iff fun _ => isBool_iff).mp hflag
    obtain ⟨time, ht⟩ := (has_iff fun _ => isTimestamp_iff).mp htime
    exact ⟨⟨id, name, balance, flag, time⟩, by rw [Account.deserialize, hi, hn, hb, hf, ht]; rfl⟩
  · rintro ⟨a, h⟩
    obtain ⟨id, hi, h⟩ := Option.bind_eq_some_iff.mp h
    obtain ⟨name, hn, h⟩ := Option.bind_eq_some_iff.mp h
    obtain ⟨balance, hb, h⟩ := Option.bind_eq_some_iff.mp h
    obtain ⟨flag, hf, h⟩ := Option.bind_eq_some_iff.mp h
    obtain ⟨time, ht, -⟩ := Option.bind_eq_some_iff.mp h
    exact ⟨(has_iff fun _ => isUuid_iff).mpr ⟨id, hi⟩, (has_iff fun _ => isText_iff).mpr ⟨name, hn⟩,
      (has_iff fun _ => isMoney_iff).mpr ⟨balance, hb⟩, (has_iff fun _ => isBool_iff).mpr ⟨flag, hf⟩,
      (has_iff fun _ => isTimestamp_iff).mpr ⟨time, ht⟩⟩

theorem isEntry_iff : v.IsEntry f ↔ ∃ e, Entry.deserialize f v = some e := by
  constructor
  · rintro ⟨hid, htransaction, haccount, hdirection, hamount, htime⟩
    obtain ⟨id, hi⟩ := (has_iff fun _ => isUuid_iff).mp hid
    obtain ⟨transactionId, htr⟩ := (has_iff fun _ => isUuid_iff).mp htransaction
    obtain ⟨accountId, ha⟩ := (has_iff fun _ => isUuid_iff).mp haccount
    obtain ⟨direction, hd⟩ := (has_iff fun _ => isDirection_iff).mp hdirection
    obtain ⟨amount, hm⟩ := (has_iff fun _ => isMoney_iff).mp hamount
    obtain ⟨time, ht⟩ := (has_iff fun _ => isTimestamp_iff).mp htime
    exact ⟨⟨id, transactionId, accountId, direction, amount, time⟩,
      by rw [Entry.deserialize, hi, htr, ha, hd, hm, ht]; rfl⟩
  · rintro ⟨e, h⟩
    obtain ⟨id, hi, h⟩ := Option.bind_eq_some_iff.mp h
    obtain ⟨transactionId, htr, h⟩ := Option.bind_eq_some_iff.mp h
    obtain ⟨accountId, ha, h⟩ := Option.bind_eq_some_iff.mp h
    obtain ⟨direction, hd, h⟩ := Option.bind_eq_some_iff.mp h
    obtain ⟨amount, hm, h⟩ := Option.bind_eq_some_iff.mp h
    obtain ⟨time, ht, -⟩ := Option.bind_eq_some_iff.mp h
    exact ⟨(has_iff fun _ => isUuid_iff).mpr ⟨id, hi⟩, (has_iff fun _ => isUuid_iff).mpr ⟨transactionId, htr⟩,
      (has_iff fun _ => isUuid_iff).mpr ⟨accountId, ha⟩, (has_iff fun _ => isDirection_iff).mpr ⟨direction, hd⟩,
      (has_iff fun _ => isMoney_iff).mpr ⟨amount, hm⟩, (has_iff fun _ => isTimestamp_iff).mpr ⟨time, ht⟩⟩

theorem isTransaction_iff : v.IsTransaction f ↔ ∃ t, Transaction.deserialize f v = some t := by
  constructor
  · rintro ⟨hid, hkey, hdescription, htime⟩
    obtain ⟨id, hi⟩ := (has_iff fun _ => isUuid_iff).mp hid
    obtain ⟨key, hk⟩ := (has_iff fun _ => isText_iff).mp hkey
    obtain ⟨description, hd⟩ := (has_iff fun _ => isText_iff).mp hdescription
    obtain ⟨time, ht⟩ := (has_iff fun _ => isTimestamp_iff).mp htime
    exact ⟨⟨id, key, description, time⟩, by rw [Transaction.deserialize, hi, hk, hd, ht]; rfl⟩
  · rintro ⟨t, h⟩
    obtain ⟨id, hi, h⟩ := Option.bind_eq_some_iff.mp h
    obtain ⟨key, hk, h⟩ := Option.bind_eq_some_iff.mp h
    obtain ⟨description, hd, h⟩ := Option.bind_eq_some_iff.mp h
    obtain ⟨time, ht, -⟩ := Option.bind_eq_some_iff.mp h
    exact ⟨(has_iff fun _ => isUuid_iff).mpr ⟨id, hi⟩, (has_iff fun _ => isText_iff).mpr ⟨key, hk⟩,
      (has_iff fun _ => isText_iff).mpr ⟨description, hd⟩, (has_iff fun _ => isTimestamp_iff).mpr ⟨time, ht⟩⟩

theorem asArray_some {items : List Json} : v.asArray = some items ↔ v = array items := by
  cases v <;> simp [asArray]

theorem isDetail_iff : v.IsDetail f ↔ ∃ d, TransactionDetail.deserialize f v = some d := by
  constructor
  · rintro ⟨⟨members, rfl⟩, ⟨_, hv, items, rfl, hitems⟩, htransaction⟩
    obtain ⟨entries, he⟩ := Bind.mapM_of_defined fun item hm => isEntry_iff.mp (hitems item hm)
    obtain ⟨transaction, ht⟩ := isTransaction_iff.mp htransaction
    have hentries : ((object members).required 2 1 "entries").bind asArray = some items := by rw [hv]; rfl
    exact ⟨⟨transaction, entries⟩, by
      simp only [TransactionDetail.deserialize, hentries, he, ht, Option.bind_eq_bind, Option.bind_some]
      rfl⟩
  · rintro ⟨d, h⟩
    cases v with
    | object members =>
      obtain ⟨items, hi, h⟩ := Option.bind_eq_some_iff.mp h
      obtain ⟨entries, he, h⟩ := Option.bind_eq_some_iff.mp h
      obtain ⟨transaction, ht, -⟩ := Option.bind_eq_some_iff.mp h
      obtain ⟨w, hw, harray⟩ := Option.bind_eq_some_iff.mp hi
      exact ⟨⟨members, rfl⟩, ⟨w, hw, items, asArray_some.mp harray,
        fun item hm => isEntry_iff.mpr (Bind.mapM_defined he item hm)⟩, isTransaction_iff.mpr ⟨transaction, ht⟩⟩
    | _ => cases h

end

end Json

namespace Http

def TransferRequest.deserialize (f : Formats) (j : Json) : Option TransferRequest := do
  let fromAccountId ← (j.required 5 0 "from_account_id").bind f.readUuid
  let toAccountId ← (j.required 5 1 "to_account_id").bind f.readUuid
  let amount ← (j.required 5 2 "amount").bind f.readDecimal
  match h : (j.required 5 3 "currency").bind Currency.deserialize with
  | none => none
  | some currency =>
    let description ← j.optional 5 4 "description" "" Json.asString
    return { fromAccountId, toAccountId, amount, currency, description,
             known := Currency.deserialize_known (Option.bind_eq_some_iff.mp h).choose_spec.2 }

/-- `POST /transfers` from its body on; `rejection` is the JSON layer's text. -/
def post (f : Formats) (rejection : String) (header : Option (List UInt8)) (body : Json) :
    Except LedgerError (String × TransferIntent) :=
  create header (match TransferRequest.deserialize f body with
    | none => .error rejection
    | some request => .ok request)

theorem TransferRequest.deserialize_amount {f : Formats} {j : Json} {request : TransferRequest} {s : String}
    (h : TransferRequest.deserialize f j = some request) (hs : j.required 5 2 "amount" = some (.string s)) :
    f.decimal s = some request.amount := by
  simp only [TransferRequest.deserialize, Option.bind_eq_bind, Option.bind_eq_some_iff] at h
  obtain ⟨source, -, target, -, amount, ⟨j', hj, ha⟩, h⟩ := h
  rw [hs, Option.some.injEq] at hj
  subst hj
  split at h
  · cases h
  · obtain ⟨description, -, h⟩ := Option.bind_eq_some_iff.mp h
    cases h
    exact ha

end Http

end Ledger
