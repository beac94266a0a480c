import Ledger.Error
import Ledger.Lib.Tri
import Mathlib.Algebra.BigOperators.Group.List.Basic

/-!
# The schema

The rows of the three tables, what an `INSERT` or `UPDATE` makes of the values it
is given (defaults, casts, `NOT NULL`, `CHECK`), and the trigger functions. Nothing
here looks at more than the rows it is handed; sessions and locks are in `Db`.
-/

namespace Ledger

/-! ## Numbers -/

/-- A `NUMERIC` of the database counted in units of `10⁻⁸`. -/
inductive Numeric
  | nan
  | num (n : ℤ)
deriving DecidableEq

namespace Numeric

protected def add : Numeric → Numeric → Numeric
  | num a, num b => num (a + b)
  | _, _ => nan

protected def neg : Numeric → Numeric
  | num a => num (-a)
  | nan => nan

/-- `NaN` sorts above every number. -/
def lt : Numeric → Numeric → Bool
  | num a, num b => decide (a < b)
  | num _, nan => true
  | nan, _ => false

def inRange : Numeric → Bool
  | num n => decide (|n| < 10 ^ 20)
  | nan => true

instance : Add Numeric := ⟨Numeric.add⟩
instance : Neg Numeric := ⟨Numeric.neg⟩
instance : Zero Numeric := ⟨num 0⟩

@[simp] theorem num_add (a b : ℤ) : num a + num b = num (a + b) := rfl
@[simp] theorem nan_add (a : Numeric) : nan + a = nan := rfl
@[simp] theorem add_nan (a : Numeric) : a + nan = nan := by cases a <;> rfl
@[simp] theorem neg_num (a : ℤ) : -(num a) = num (-a) := rfl
@[simp] theorem neg_nan : -nan = nan := rfl
theorem zero_def : (0 : Numeric) = num 0 := rfl

protected theorem neg_add (a b : Numeric) : -(a + b) = -a + -b := by
  cases a <;> cases b <;> simp only [num_add, neg_num, nan_add, add_nan, neg_nan, Int.neg_add]

instance : AddCommMonoid Numeric where
  add_assoc a b c := by cases a <;> cases b <;> cases c <;> simp [add_assoc]
  zero_add a := by cases a <;> simp [zero_def]
  add_zero a := by cases a <;> simp [zero_def]
  add_comm a b := by cases a <;> cases b <;> simp [add_comm]
  nsmul := nsmulRec

end Numeric

/-- The value of a `NUMERIC(20, 8)` column. -/
structure Num20 where
  val : Numeric
  range : val.inRange = true
deriving DecidableEq

def Num20.zero : Num20 := ⟨.num 0, by decide⟩

/-- A number as a statement writes it, of any scale. -/
inductive Literal
  | nan
  | infinity (neg : Bool)
  | num (coeff : ℤ) (scale : Nat)
deriving DecidableEq

namespace Literal

/-- Division by `m` rounding half away from zero, as a cast to fewer places does. -/
def roundDiv (c : ℤ) (m : Nat) : ℤ := c.sign * ((c.natAbs + m / 2) / m : Nat)

def units (coeff : ℤ) (scale : Nat) : ℤ :=
  if scale ≤ 8 then coeff * 10 ^ (8 - scale) else roundDiv coeff (10 ^ (scale - 8))

protected def add : Literal → Literal → Literal
  | num a s, num b t => num (a * 10 ^ (max s t - s) + b * 10 ^ (max s t - t)) (max s t)
  | infinity n, infinity m => if n = m then infinity n else nan
  | infinity n, num .. => infinity n
  | num .., infinity n => infinity n
  | nan, _ => nan
  | _, nan => nan

def ofDecimal (d : Decimal) : Literal := num d.signed d.scale

end Literal

def Num20.toLiteral (n : Num20) : Literal :=
  match n.val with
  | .nan => .nan
  | .num u => .num u 8

def outOfRange : SqlxError := .database .numericValueOutOfRange none

def Numeric.toNum20 (n : Numeric) : Except SqlxError Num20 :=
  if h : n.inRange = true then .ok ⟨n, h⟩ else .error outOfRange

/-- Assignment to a `NUMERIC(20, 8)` column. -/
def Literal.cast : Literal → Except SqlxError Num20
  | nan => Numeric.nan.toNum20
  | infinity _ => .error outOfRange
  | num c s => (Numeric.num (units c s)).toNum20

/-! ## Rows -/

abbrev Xid := Nat

namespace Row

structure Account where
  id : Uuid
  name : String
  currency : String
  balance : Num20
  allowsNegativeBalance : Bool
  createdAt : Timestamp
deriving DecidableEq

/-- `xmin` is the system column: the database transaction that inserted the row. -/
structure Transaction where
  id : Uuid
  idempotencyKey : String
  requestHash : List UInt8
  description : String
  createdXid : Xid
  createdAt : Timestamp
  xmin : Xid
deriving DecidableEq

structure Entry where
  id : Uuid
  transactionId : Uuid
  accountId : Uuid
  direction : Direction
  amount : Num20
  currency : String
  createdAt : Timestamp
  xmin : Xid
deriving DecidableEq

/-- Everything about an account but its balance. -/
def Account.terms (a : Account) : Uuid × String × String × Bool × Timestamp :=
  (a.id, a.name, a.currency, a.allowsNegativeBalance, a.createdAt)

/-- `CASE WHEN direction = 'debit' THEN amount ELSE -amount END` -/
def Entry.signed (e : Entry) : Numeric :=
  match e.direction with
  | .debit => e.amount.val
  | .credit => -e.amount.val

end Row

inductive Table
  | accounts
  | transactions
  | entries
deriving DecidableEq

structure Tables where
  accounts : List Row.Account := []
  transactions : List Row.Transaction := []
  entries : List Row.Entry := []
deriving DecidableEq

/-- The schema as migrated, or with `accounts_balance_non_negative` dropped. -/
structure Schema where
  balanceNonNegative : Bool := true
deriving DecidableEq

/-! ## Column values -/

inductive Col (α : Type)
  | default
  | null
  | val (a : α)
deriving DecidableEq

/-- An omitted column takes its default, or `NULL` where there is none. -/
def Col.eval {α : Type} (dflt : Option α) : Col α → Option α
  | default => dflt
  | null => none
  | val a => some a

def notNull {α : Type} : Option α → Except SqlxError α
  | some a => .ok a
  | none => .error (.database .notNullViolation none)

def check (c : Constraint) (cond : Bool) : Except SqlxError Unit :=
  if cond then .ok () else .error (.database .checkViolation (some c))

/-- `TEXT` does not hold U+0000. -/
def text (s : Option String) : Except SqlxError (Option String) :=
  if (s.getD "").toList.contains (Char.ofNat 0) then .error (.database .characterNotInRepertoire none) else .ok s

def castCol (l : Option Literal) : Except SqlxError (Option Num20) :=
  match l with
  | none => .ok none
  | some l => (l.cast).map some

structure NewAccount where
  id : Col Uuid := .default
  name : Col String := .default
  currency : Col String := .default
  balance : Col Literal := .default
  allowsNegativeBalance : Col Bool := .default
  createdAt : Col Timestamp := .default

structure NewTransaction where
  id : Col Uuid := .default
  idempotencyKey : Col String := .default
  requestHash : Col (List UInt8) := .default
  description : Col String := .default
  createdXid : Col Xid := .default
  createdAt : Col Timestamp := .default

structure NewEntry where
  id : Col Uuid := .default
  transactionId : Col Uuid := .default
  accountId : Col Uuid := .default
  direction : Col Direction := .default
  amount : Col Literal := .default
  currency : Col String := .default
  createdAt : Col Timestamp := .default

/-- The right-hand sides of an `UPDATE accounts SET`, `none` for `NULL`. -/
structure SetAccount where
  id : Option Uuid
  name : Option String
  currency : Option String
  balance : Option Literal
  allowsNegativeBalance : Option Bool
  createdAt : Option Timestamp

def upperThree (s : String) : Bool :=
  s.toList.length = 3 && s.toList.all fun c => decide ('A' ≤ c) && decide (c ≤ 'Z')

/-- The constraints are tested in the order of their names. -/
def Row.Account.checks (sch : Schema) (a : Row.Account) : Except SqlxError Row.Account := do
  check .accounts_balance_non_negative
    (!sch.balanceNonNegative || a.allowsNegativeBalance || !a.balance.val.lt (.num 0))
  check .accounts_currency_check (upperThree a.currency)
  check .accounts_name_check (1 ≤ a.name.length && a.name.length ≤ 255)
  return a

def NewAccount.row (sch : Schema) (now : Timestamp) (new : NewAccount) : Except SqlxError Row.Account := do
  let name ← text (new.name.eval none)
  let currency ← text (new.currency.eval none)
  let balance ← castCol (new.balance.eval (some (.num 0 0)))
  let id ← notNull (new.id.eval none)
  let name ← notNull name
  let currency ← notNull currency
  let balance ← notNull balance
  let allowsNegativeBalance ← notNull (new.allowsNegativeBalance.eval (some false))
  let createdAt ← notNull (new.createdAt.eval (some now))
  Row.Account.checks sch { id, name, currency, balance, allowsNegativeBalance, createdAt }

def NewTransaction.row (x : Xid) (now : Timestamp) (new : NewTransaction) : Except SqlxError Row.Transaction := do
  let key ← text (new.idempotencyKey.eval none)
  let description ← text (new.description.eval none)
  let id ← notNull (new.id.eval none)
  let idempotencyKey ← notNull key
  let requestHash ← notNull (new.requestHash.eval none)
  let description ← notNull description
  let createdXid ← notNull (new.createdXid.eval (some x))
  let createdAt ← notNull (new.createdAt.eval (some now))
  check .transactions_request_hash_check (requestHash.length = 32)
  return { id, idempotencyKey, requestHash, description, createdXid, createdAt, xmin := x }

/-! ## Trigger functions -/

/-- `assert_entry_in_parent_xact`: `SELECT INTO` leaves `NULL` when no row matches. -/
def assertEntryInParentXact (transactions : List Row.Transaction) (x : Xid) (transactionId : Option Uuid) :
    Except SqlxError Unit :=
  match transactions.find? fun r => decide (some r.id = transactionId) with
  | none => .error (.database .foreignKeyViolation none)
  | some r =>
    if r.createdXid ≠ x then .error (.database .checkViolation (some .entries_written_with_parent)) else .ok ()

def NewEntry.row (x : Xid) (now : Timestamp) (transactions : List Row.Transaction) (new : NewEntry) :
    Except SqlxError Row.Entry := do
  let amount ← castCol (new.amount.eval none)
  let currency ← text (new.currency.eval none)
  assertEntryInParentXact transactions x (new.transactionId.eval none)
  let id ← notNull (new.id.eval none)
  let transactionId ← notNull (new.transactionId.eval none)
  let accountId ← notNull (new.accountId.eval none)
  let direction ← notNull (new.direction.eval none)
  let amount ← notNull amount
  let currency ← notNull currency
  let createdAt ← notNull (new.createdAt.eval (some now))
  check .entries_amount_check ((Numeric.num 0).lt amount.val)
  return { id, transactionId, accountId, direction, amount, currency, createdAt, xmin := x }

def assertTransactionBalanced (entries : List Row.Entry) (transactionId : Uuid) : Except SqlxError Unit := do
  let rows := entries.filter fun e => e.transactionId = transactionId
  check .transaction_min_two_entries (!decide (rows.length < 2))
  check .transaction_single_currency (!decide ((rows.map (·.currency)).dedup.length ≠ 1))
  check .transaction_balanced (!decide ((rows.map (·.signed)).sum ≠ 0))

def rejectMutation : SqlxError := .database .restrictViolation none

/-- The update branch of `reject_account_mutation`; the condition is unknown as
soon as it meets a `NULL` and no column differs. -/
def rejectAccountMutation (old : Row.Account) (new : SetAccount) : Except SqlxError Unit :=
  if Tri.or (Tri.ne new.id (some old.id)) (Tri.or (Tri.ne new.name (some old.name))
      (Tri.or (Tri.ne new.currency (some old.currency))
        (Tri.or (Tri.ne new.allowsNegativeBalance (some old.allowsNegativeBalance))
          (Tri.ne new.createdAt (some old.createdAt))))) = some true
  then .error rejectMutation else .ok ()

def SetAccount.row (sch : Schema) (set : Row.Account → SetAccount) (old : Row.Account) :
    Except SqlxError Row.Account := do
  let new := set old
  let name ← text new.name
  let currency ← text new.currency
  let balance ← castCol new.balance
  rejectAccountMutation old new
  let id ← notNull new.id
  let name ← notNull name
  let currency ← notNull currency
  let balance ← notNull balance
  let allowsNegativeBalance ← notNull new.allowsNegativeBalance
  let createdAt ← notNull new.createdAt
  Row.Account.checks sch { id, name, currency, balance, allowsNegativeBalance, createdAt }

end Ledger
