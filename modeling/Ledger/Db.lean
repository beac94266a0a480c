import Ledger.Schema
import Mathlib.Logic.Function.Basic

/-!
# Sessions

Postgres at `READ COMMITTED`. The committed tables are one value; every open
transaction keeps what it has written in its own `Work` and reads the committed
tables through it. A statement runs in one step: it has an outcome, or it waits
for other transactions and runs when they are gone. For the statements of this
schema that is the same as taking a snapshot first and re-reading a row after a
lock wait, since a row found in the snapshot is never removed by its locker.
-/

namespace Ledger

/-! ## Locks and writes -/

inductive LockMode
  | keyShare
  | noKeyUpdate
  | update
deriving DecidableEq

/-- The conflict table of row-level locks, for the modes the schema's statements take. -/
def LockMode.conflicts : LockMode → LockMode → Bool
  | .keyShare, .update => true
  | .keyShare, _ => false
  | .noKeyUpdate, .keyShare => false
  | .noKeyUpdate, _ => true
  | .update, _ => true

/-- What an open transaction has written: inserted rows, new versions of account
rows (latest first), row locks on accounts, and tables it has truncated. -/
structure Work where
  accounts : List Row.Account := []
  updates : List Row.Account := []
  transactions : List Row.Transaction := []
  entries : List Row.Entry := []
  locks : List (Uuid × LockMode) := []
  truncated : List Table := []
deriving DecidableEq

namespace Work

def current (w : Work) (a : Row.Account) : Row.Account := (w.updates.find? fun u => u.id = a.id).getD a

/-- The tables as the transaction sees them, and as its commit leaves them. -/
def overlay (w : Work) (t : Tables) : Tables where
  accounts := ((if .accounts ∈ w.truncated then [] else t.accounts) ++ w.accounts).map w.current
  transactions := (if .transactions ∈ w.truncated then [] else t.transactions) ++ w.transactions
  entries := (if .entries ∈ w.truncated then [] else t.entries) ++ w.entries

def locked (w : Work) (id : Uuid) (mode : LockMode) : Bool :=
  w.locks.any fun l => l.1 = id && l.2.conflicts mode

def touches (w : Work) : Table → Bool
  | .accounts => !w.accounts.isEmpty || !w.updates.isEmpty || !w.locks.isEmpty || w.truncated.contains .accounts
  | .transactions => !w.transactions.isEmpty || w.truncated.contains .transactions
  | .entries => !w.entries.isEmpty || w.truncated.contains .entries

end Work

structure Txn where
  work : Work := {}
  savepoints : List (String × Work) := []
  aborted : Bool := false
  now : Timestamp
deriving DecidableEq

structure Db where
  tables : Tables
  txns : Xid → Option Txn
  nextXid : Xid

def Db.init : Db := { tables := {}, txns := fun _ => none, nextXid := 0 }

/-! ## Outcomes -/

inductive Res (α : Type)
  | ok (a : α)
  | error (e : SqlxError)
  | wait (on : List Xid)

namespace Res

protected def bind {α β : Type} : Res α → (α → Res β) → Res β
  | ok a, f => f a
  | error e, _ => error e
  | wait ys, _ => wait ys

instance : Monad Res where
  pure := ok
  bind := Res.bind

def ofExcept {α : Type} : Except SqlxError α → Res α
  | .ok a => ok a
  | .error e => error e

end Res

namespace Db

/-- The other open transactions whose writes satisfy `p`. -/
def holders (db : Db) (x : Xid) (p : Work → Bool) : List Xid :=
  (List.range db.nextXid).filter fun y => y ≠ x && (db.txns y).any fun t => p t.work

def await (db : Db) (x : Xid) (p : Work → Bool) : Res Unit :=
  match db.holders x p with
  | [] => .ok ()
  | ys => .wait ys

/-- A unique index: a committed or own duplicate is an error, another transaction's
uncommitted one is waited for. -/
def unique (db : Db) (x : Xid) (c : Constraint) (dup : Bool) (p : Work → Bool) : Res Unit :=
  if dup then .error (.database .uniqueViolation (some c)) else db.await x p

def require (c : Constraint) (cond : Bool) : Res Unit :=
  if cond then .ok () else .error (.database .foreignKeyViolation (some c))

def insertAccount (sch : Schema) (db : Db) (x : Xid) (txn : Txn) (new : NewAccount) : Res Work := do
  db.await x fun w => w.truncated.contains .accounts
  let row ← Res.ofExcept (new.row sch txn.now)
  db.unique x .accounts_pkey ((txn.work.overlay db.tables).accounts.any (·.id = row.id))
    fun w => w.accounts.any (·.id = row.id)
  return { txn.work with accounts := txn.work.accounts ++ [row] }

def insertTransaction (db : Db) (x : Xid) (txn : Txn) (new : NewTransaction) : Res Work := do
  db.await x fun w => w.truncated.contains .transactions
  let row ← Res.ofExcept (new.row x txn.now)
  db.unique x .transactions_pkey ((txn.work.overlay db.tables).transactions.any (·.id = row.id))
    fun w => w.transactions.any (·.id = row.id)
  db.unique x .transactions_idempotency_key_key
    ((txn.work.overlay db.tables).transactions.any (·.idempotencyKey = row.idempotencyKey))
    fun w => w.transactions.any (·.idempotencyKey = row.idempotencyKey)
  return { txn.work with transactions := txn.work.transactions ++ [row] }

/-- The foreign key to the account takes a `KEY SHARE` lock on it. The one to the
parent does too, but no statement ever holds a conflicting lock on a parent row. -/
def insertEntry (db : Db) (x : Xid) (txn : Txn) (new : NewEntry) : Res Work := do
  db.await x fun w => !w.truncated.isEmpty
  let view := txn.work.overlay db.tables
  let row ← Res.ofExcept (new.row x txn.now view.transactions)
  db.unique x .entries_pkey (view.entries.any (·.id = row.id)) fun w => w.entries.any (·.id = row.id)
  require .entries_transaction_id_fkey (view.transactions.any (·.id = row.transactionId))
  require .entries_account_currency_fkey
    (view.accounts.any fun a => a.id = row.accountId && a.currency = row.currency)
  db.await x fun w => w.locked row.accountId .keyShare
  return { txn.work with
    entries := txn.work.entries ++ [row], locks := (row.accountId, .keyShare) :: txn.work.locks }

def updateAccounts (sch : Schema) (db : Db) (x : Xid) (txn : Txn) (cond : Row.Account → Bool)
    (set : Row.Account → SetAccount) : Res Work := do
  db.await x fun w => w.truncated.contains .accounts
  let targets := (txn.work.overlay db.tables).accounts.filter cond
  db.await x fun w => targets.any fun a => w.locked a.id .noKeyUpdate
  let news ← Res.ofExcept (targets.mapM (SetAccount.row sch set))
  return { txn.work with
    updates := news.reverse ++ txn.work.updates
    locks := news.map (fun a => (a.id, .noKeyUpdate)) ++ txn.work.locks }

def selectForUpdate (db : Db) (x : Xid) (txn : Txn) (id : Uuid) : Res (Work × Option Row.Account) := do
  db.await x fun w => w.truncated.contains .accounts
  match (txn.work.overlay db.tables).accounts.find? (·.id = id) with
  | none => return (txn.work, none)
  | some row =>
    db.await x fun w => w.locked id .update
    return ({ txn.work with locks := (id, .update) :: txn.work.locks }, some row)

/-- `reject_mutation`, fired for the first matching row. -/
def rejectIf (db : Db) (x : Xid) (txn : Txn) (table : Table) (found : Bool) : Res Work := do
  db.await x fun w => w.truncated.contains table
  if found then .error rejectMutation else return txn.work

/-- `TRUNCATE` fires no row trigger. It refuses a table that another references by a
foreign key unless that one is truncated too, and a table with deferred checks pending. -/
def truncate (db : Db) (x : Xid) (txn : Txn) (tables : List Table) (cascade : Bool) : Res Work := do
  let referenced := tables.contains .accounts || tables.contains .transactions
  if referenced && !tables.contains .entries && !cascade then
    .error (.database .featureNotSupported none)
  else
    let tables := if referenced then .entries :: tables else tables
    db.await x fun w => tables.any w.touches
    if tables.contains .entries && !txn.work.entries.isEmpty then .error (.database .objectInUse none)
    else return { txn.work with
      accounts := if tables.contains .accounts then [] else txn.work.accounts
      updates := if tables.contains .accounts then [] else txn.work.updates
      transactions := if tables.contains .transactions then [] else txn.work.transactions
      truncated := tables ++ txn.work.truncated }

end Db

inductive Stmt
  | insertAccount (new : NewAccount)
  | insertTransaction (new : NewTransaction)
  | insertEntry (new : NewEntry)
  | updateAccounts (cond : Row.Account → Bool) (set : Row.Account → SetAccount)
  | updateTransactions (cond : Row.Transaction → Bool)
  | updateEntries (cond : Row.Entry → Bool)
  | deleteAccounts (cond : Row.Account → Bool)
  | deleteTransactions (cond : Row.Transaction → Bool)
  | deleteEntries (cond : Row.Entry → Bool)
  | truncate (tables : List Table) (cascade : Bool)
  | selectForUpdate (id : Uuid)

namespace Db

def exec (sch : Schema) (db : Db) (x : Xid) (txn : Txn) : Stmt → Res (Work × Option Row.Account)
  | .insertAccount new => (db.insertAccount sch x txn new).bind fun w => .ok (w, none)
  | .insertTransaction new => (db.insertTransaction x txn new).bind fun w => .ok (w, none)
  | .insertEntry new => (db.insertEntry x txn new).bind fun w => .ok (w, none)
  | .updateAccounts cond set => (db.updateAccounts sch x txn cond set).bind fun w => .ok (w, none)
  | .updateTransactions cond | .deleteTransactions cond =>
    (db.rejectIf x txn .transactions ((txn.work.overlay db.tables).transactions.any cond)).bind fun w =>
      .ok (w, none)
  | .updateEntries cond | .deleteEntries cond =>
    (db.rejectIf x txn .entries ((txn.work.overlay db.tables).entries.any cond)).bind fun w => .ok (w, none)
  | .deleteAccounts cond =>
    (db.rejectIf x txn .accounts ((txn.work.overlay db.tables).accounts.any cond)).bind fun w => .ok (w, none)
  | .truncate tables cascade => (db.truncate x txn tables cascade).bind fun w => .ok (w, none)
  | .selectForUpdate id => db.selectForUpdate x txn id

/-! ## Transaction control -/

def put (db : Db) (x : Xid) (txn : Txn) : Db := { db with txns := Function.update db.txns x (some txn) }

def close (db : Db) (x : Xid) : Db := { db with txns := Function.update db.txns x none }

def begin (db : Db) (now : Timestamp) : Db :=
  { db.put db.nextXid { now } with nextXid := db.nextXid + 1 }

def install (db : Db) (x : Xid) (txn : Txn) (w : Work) : Db := db.put x { txn with work := w }

/-- An error aborts the innermost subtransaction: its writes and locks go at once. -/
def fail (db : Db) (x : Xid) (txn : Txn) : Db :=
  db.put x { txn with work := (txn.savepoints.head?.map (·.2)).getD {}, aborted := true }

/-- The deferred constraint trigger, for every inserted entry that is still there. -/
def deferred (db : Db) (txn : Txn) : Except SqlxError Unit :=
  txn.work.entries.forM fun e => assertTransactionBalanced (txn.work.overlay db.tables).entries e.transactionId

/-- An aborted transaction's `COMMIT` rolls back. -/
def commit (db : Db) (x : Xid) (txn : Txn) : Except SqlxError Db := do
  if txn.aborted then return db.close x
  db.deferred txn
  return { db.close x with tables := txn.work.overlay db.tables }

end Db

inductive Cmd
  | begin (now : Timestamp)
  | stmt (x : Xid) (s : Stmt)
  | fail (x : Xid)
  | savepoint (x : Xid) (name : String)
  | rollbackTo (x : Xid) (name : String)
  | release (x : Xid) (name : String)
  | commit (x : Xid)
  | rollback (x : Xid)

/-- One command of one session; `none` when its transaction is not open or it has to wait. -/
def Db.step (sch : Schema) (db : Db) : Cmd → Option Db
  | .begin now => some (db.begin now)
  | .stmt x s => (db.txns x).bind fun txn =>
    if txn.aborted then some (db.fail x txn)
    else match db.exec sch x txn s with
      | .ok (w, _) => some (db.install x txn w)
      | .error _ => some (db.fail x txn)
      | .wait _ => none
  | .fail x => (db.txns x).map (db.fail x)
  | .savepoint x name => (db.txns x).bind fun txn =>
    if txn.aborted then none else some (db.put x { txn with savepoints := (name, txn.work) :: txn.savepoints })
  | .rollbackTo x name => (db.txns x).bind fun txn =>
    match txn.savepoints.dropWhile (·.1 ≠ name) with
    | [] => some (db.fail x txn)
    | (n, w) :: rest => some (db.put x { txn with work := w, savepoints := (n, w) :: rest, aborted := false })
  | .release x name => (db.txns x).bind fun txn =>
    if txn.aborted then none
    else match txn.savepoints.dropWhile (·.1 ≠ name) with
      | [] => some (db.fail x txn)
      | _ :: rest => some (db.put x { txn with savepoints := rest })
  | .commit x => (db.txns x).map fun txn =>
    match db.commit x txn with
    | .ok db' => db'
    | .error _ => db.close x
  | .rollback x => (db.txns x).map fun _ => db.close x

end Ledger
