import Ledger.Transactions

/-!
# The sequential ledger

What the service is for, one step per account or transfer: a key that was used
answers with its transaction or with a conflict; otherwise the request is refused
for the first reason that applies, or it moves the amount and appends the
transaction with its two entries.
-/

namespace Ledger

namespace TransferIntent

def units (i : TransferIntent) : ℤ := i.amount.amount.units

theorem units_inRange (i : TransferIntent) : (Numeric.num i.units).inRange = true :=
  decide_eq_true i.valid.units_lt

def num20 (i : TransferIntent) : Num20 := ⟨.num i.units, i.units_inRange⟩

end TransferIntent

namespace Spec

/-- A transfer that takes effect, with what the program and the database generate for it. -/
structure Transfer where
  call : Nat
  key : String
  intent : TransferIntent
  id : Uuid
  creditId : Uuid
  debitId : Uuid
  now : Timestamp
  xid : Xid
deriving DecidableEq

namespace Transfer

def row (sha256 : List UInt8 → Vector UInt8 32) (tr : Transfer) : Row.Transaction where
  id := tr.id
  idempotencyKey := tr.key
  requestHash := (tr.intent.requestHash sha256).toList
  description := tr.intent.description
  createdXid := tr.xid
  createdAt := tr.now
  xmin := tr.xid

def entry (tr : Transfer) (id accountId : Uuid) (direction : Direction) : Row.Entry where
  id := id
  transactionId := tr.id
  accountId := accountId
  direction := direction
  amount := tr.intent.num20
  currency := tr.intent.amount.currency.code
  createdAt := tr.now
  xmin := tr.xid

/-- The sender is credited, the receiver debited. -/
def credit (tr : Transfer) : Row.Entry := tr.entry tr.creditId tr.intent.fromAccountId .credit

def debit (tr : Transfer) : Row.Entry := tr.entry tr.debitId tr.intent.toAccountId .debit

end Transfer

inductive Event
  | account (row : Row.Account)
  | transfer (tr : Transfer)
deriving DecidableEq

inductive Verdict
  | accepted
  | replayed (detail : Except LedgerError TransactionDetail)
  | rejected (err : LedgerError)

def findAccount (t : Tables) (id : Uuid) : Option Row.Account := t.accounts.find? (·.id = id)

theorem findAccount_some {t : Tables} {id : Uuid} {a : Row.Account} (h : findAccount t id = some a) :
    a ∈ t.accounts ∧ a.id = id :=
  ⟨List.mem_of_find?_eq_some h, by simpa using List.find?_some h⟩

def refuses (i : TransferIntent) (sender receiver : Row.Account) : Option LedgerError :=
  let currency := i.amount.currency.code
  if sender.currency ≠ currency then some (.accountCurrencyMismatch sender.id sender.currency currency)
  else if receiver.currency ≠ currency then some (.accountCurrencyMismatch receiver.id receiver.currency currency)
  else if !sender.allowsNegativeBalance && sender.balance.val.lt (.num i.units) then
    some (.insufficientFunds sender.id)
  else none

def refusal (t : Tables) (i : TransferIntent) : Option LedgerError :=
  if i.fromAccountId = i.toAccountId then some .selfTransfer
  else if !i.amount.isPositive then some .nonPositiveAmount
  else match findAccount t i.fromAccountId, findAccount t i.toAccountId with
    | some sender, some receiver => refuses i sender receiver
    | none, some _ => some (.accountNotFound i.fromAccountId)
    | some _, none => some (.accountNotFound i.toAccountId)
    | none, none => some (.accountNotFound (min i.fromAccountId i.toAccountId))

def replay (dec : Decode) (t : Tables) (r : Row.Transaction) : Except LedgerError TransactionDetail :=
  Transactions.detail (Transaction.ofRow r) (Transactions.fetchEntries dec (Transactions.entriesOf t r.id))

def verdict (sha256 : List UInt8 → Vector UInt8 32) (dec : Decode) (t : Tables) (key : String)
    (i : TransferIntent) : Verdict :=
  match t.transactions.find? (·.idempotencyKey = key) with
  | some r =>
    if r.requestHash ≠ (i.requestHash sha256).toList then .rejected (.idempotencyKeyConflict key)
    else .replayed (replay dec t r)
  | none => match refusal t i with
    | some err => .rejected err
    | none => .accepted

/-- Adds to a balance, if the column can hold the result. -/
def shift (a : Row.Account) (delta : ℤ) : Option Row.Account :=
  if h : (a.balance.val + .num delta).inRange = true then some { a with balance := ⟨_, h⟩ } else none

def move (i : TransferIntent) (a : Row.Account) : Option Row.Account :=
  if a.id = i.fromAccountId then shift a (-i.units)
  else if a.id = i.toAccountId then shift a i.units
  else some a

def transfer (sha256 : List UInt8 → Vector UInt8 32) (dec : Decode) (t : Tables) (tr : Transfer) :
    Option Tables :=
  match verdict sha256 dec t tr.key tr.intent with
  | .accepted => (t.accounts.mapM (move tr.intent)).map fun accounts =>
    { accounts
      transactions := t.transactions ++ [tr.row sha256]
      entries := t.entries ++ [tr.credit, tr.debit] }
  | _ => none

def openAccount (t : Tables) (row : Row.Account) : Option Tables :=
  if row.balance = Num20.zero ∧ ∀ a ∈ t.accounts, a.id ≠ row.id then
    some { t with accounts := t.accounts ++ [row] }
  else none

def step (sha256 : List UInt8 → Vector UInt8 32) (dec : Decode) (t : Tables) : Event → Option Tables
  | .account row => openAccount t row
  | .transfer tr => transfer sha256 dec t tr

end Spec

end Ledger
