import Ledger.Accounts
import Mathlib.Data.List.Sort

/-!
# Transaction and entry reads

Each statement reads one committed state. `get` is two statements, so it may see
two of them.
-/

namespace Ledger

structure IdempotencyRecord where
  transactionId : Uuid
  requestHash : List UInt8
deriving DecidableEq

structure EntryRow where
  id : Uuid
  transactionId : Uuid
  accountId : Uuid
  direction : Direction
  amount : Decimal
  currency : Currency
  createdAt : Timestamp
deriving DecidableEq

def EntryRow.decode (dec : Decode) (row : Row.Entry) : Except SqlxError EntryRow :=
  (dec.num20 row.amount).map fun amount =>
    { id := row.id
      transactionId := row.transactionId
      accountId := row.accountId
      direction := row.direction
      amount
      currency := ⟨row.currency⟩
      createdAt := row.createdAt }

def Entry.tryFrom (row : EntryRow) : Except LedgerError Entry :=
  match Money.new row.amount row.currency with
  | .error e => .error (.money e)
  | .ok amount => .ok
    { id := row.id
      transactionId := row.transactionId
      accountId := row.accountId
      direction := row.direction
      amount
      createdAt := row.createdAt }

def Transaction.ofRow (r : Row.Transaction) : Transaction where
  id := r.id
  idempotencyKey := r.idempotencyKey
  description := r.description
  createdAt := r.createdAt

/-- `ORDER BY created_at, id` -/
def Row.Entry.before (a b : Row.Entry) : Prop :=
  a.createdAt < b.createdAt ∨ a.createdAt = b.createdAt ∧ a.id ≤ b.id

instance : DecidableRel Row.Entry.before := fun a b => by unfold Row.Entry.before; infer_instance

namespace Transactions

def findByIdempotencyKey (t : Tables) (key : String) : Option IdempotencyRecord :=
  (t.transactions.find? (·.idempotencyKey = key)).map fun r =>
    { transactionId := r.id, requestHash := r.requestHash }

theorem findByIdempotencyKey_none {t : Tables} {key : String} :
    findByIdempotencyKey t key = none ↔ ∀ r ∈ t.transactions, r.idempotencyKey ≠ key := by
  simp [findByIdempotencyKey]

theorem findByIdempotencyKey_some {t : Tables} {key : String} :
    (∃ record, findByIdempotencyKey t key = some record) ↔ ∃ r ∈ t.transactions, r.idempotencyKey = key := by
  rw [← Option.ne_none_iff_exists']
  simp only [ne_eq, findByIdempotencyKey_none, not_forall, not_not, exists_prop]

def fetchTransaction (t : Tables) (id : Uuid) : Option Transaction :=
  (t.transactions.find? (·.id = id)).map Transaction.ofRow

def entriesOf (t : Tables) (id : Uuid) : List Row.Entry := t.entries.filter fun e => e.transactionId = id

/-- The second statement of `get`; `scan` is the order in which its rows are found. -/
def fetchEntries (dec : Decode) (scan : List Row.Entry) : Except SqlxError (List EntryRow) :=
  (scan.insertionSort Row.Entry.before).mapM (EntryRow.decode dec)

def detail (transaction : Transaction) (rows : Except SqlxError (List EntryRow)) :
    Except LedgerError TransactionDetail := do
  let rows ← rows.mapError LedgerError.database
  let entries ← rows.mapM Entry.tryFrom
  return { transaction, entries }

/-- `get`, its first statement on `t` and its second on `t'`. -/
def get (dec : Decode) (t t' : Tables) (scan : List Row.Entry) (id : Uuid) :
    Option (Except LedgerError TransactionDetail) :=
  match fetchTransaction t id with
  | none => some (.error (.transactionNotFound id))
  | some transaction =>
    if scan.Perm (entriesOf t' id) then some (detail transaction (fetchEntries dec scan)) else none

end Transactions

end Ledger
