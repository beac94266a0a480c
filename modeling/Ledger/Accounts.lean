import Ledger.Db

/-!
# Reading and creating accounts

A stored `NUMERIC` reaches the program through the driver's decoder, which is not
part of this code base: `Decode` is any decoder that is exact on the values the
columns hold.
-/

namespace Ledger

/-- The driver's `NUMERIC` to `Decimal` conversion. It refuses `NaN`. -/
structure Decode where
  decimal : ℤ → Decimal
  exact : ∀ u : ℤ, |u| < 10 ^ 20 → (decimal u).val = u * 10 ^ 20

def Decode.num20 (dec : Decode) (n : Num20) : Except SqlxError Decimal :=
  match n.val with
  | .nan => .error .columnDecode
  | .num u => .ok (dec.decimal u)

structure AccountRow where
  id : Uuid
  name : String
  currency : Currency
  balance : Decimal
  allowsNegativeBalance : Bool
  createdAt : Timestamp
deriving DecidableEq

def AccountRow.decode (dec : Decode) (row : Row.Account) : Except SqlxError AccountRow :=
  (dec.num20 row.balance).map fun balance =>
    { id := row.id
      name := row.name
      currency := ⟨row.currency⟩
      balance
      allowsNegativeBalance := row.allowsNegativeBalance
      createdAt := row.createdAt }

def Account.tryFrom (row : AccountRow) : Except LedgerError Account :=
  match Money.new row.balance row.currency with
  | .error e => .error (.money e)
  | .ok balance => .ok
    { id := row.id
      name := row.name
      balance
      allowsNegativeBalance := row.allowsNegativeBalance
      createdAt := row.createdAt }

namespace Accounts

def insertStmt (id : Uuid) (name : String) (currency : Currency) (allowsNegativeBalance : Bool) : Stmt :=
  .insertAccount
    { id := .val id
      name := .val name
      currency := .val currency.code
      allowsNegativeBalance := .val allowsNegativeBalance }

def createError (err : SqlxError) : LedgerError :=
  match constraintFailure err with
  | some (code, _) =>
    if code = .checkViolation then .validation "account name must be 1-255 characters" else .database err
  | none => .database err

/-- `create`: one statement in a transaction of its own, and the row it returns. -/
def create (sch : Schema) (dec : Decode) (db : Db) (id : Uuid) (now : Timestamp) (name : String)
    (currency : Currency) (allowsNegativeBalance : Bool) :
    Option (Db × List Row.Account × Except LedgerError Account) :=
  let x := db.nextXid
  let txn : Txn := { now }
  let opened := db.begin now
  match opened.exec sch x txn (insertStmt id name currency allowsNegativeBalance) with
  | .wait _ => none
  | .error e => some (opened.close x, [], .error (createError e))
  | .ok (w, _) =>
    match (opened.install x txn w).commit x { txn with work := w } with
    | .error e => some (opened.close x, [], .error (createError e))
    | .ok db' => some (db', w.accounts, do
        let row ← match w.accounts.head? with
          | none => .error (.database .rowNotFound)
          | some row => (AccountRow.decode dec row).mapError LedgerError.database
        Account.tryFrom row)

def fetch (dec : Decode) (t : Tables) (id : Uuid) : Except SqlxError (Option AccountRow) :=
  match t.accounts.find? (·.id = id) with
  | none => .ok none
  | some row => (AccountRow.decode dec row).map some

def get (dec : Decode) (t : Tables) (id : Uuid) : Except LedgerError Account := do
  let row ← (fetch dec t id).mapError LedgerError.database
  match row with
  | none => .error (.accountNotFound id)
  | some row => Account.tryFrom row

def fetchForUpdate (id : Uuid) : Stmt := .selectForUpdate id

end Accounts

end Ledger
