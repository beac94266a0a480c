import Ledger.Transfers
import Mathlib.Data.List.Dedup

/-!
# The invariant sweep

`ledger_check_invariants()`, the post-factum control: seven queries, each a row of
the result. The function is volatile, so each query reads the state committed when
it starts, and transfers go on between one query and the next.
-/

namespace Ledger

/-- Eight decimal places, as a stored amount prints. -/
def Numeric.text : Numeric → String
  | nan => "NaN"
  | num n =>
    let fraction := toString (n.natAbs % 10 ^ 8)
    (if n < 0 then "-" else "") ++ toString (n.natAbs / 10 ^ 8) ++ "." ++
      String.ofList (List.replicate (8 - fraction.length) '0') ++ fraction

structure InvariantCheck where
  invariant : String
  ok : Bool
  detail : String
deriving DecidableEq

structure DerivedBalance where
  accountId : Uuid
  currency : String
  balance : Num20
deriving DecidableEq

namespace Sweep

/-- `SUM(CASE WHEN direction = 'debit' THEN amount ELSE -amount END)` -/
def net (entries : List Row.Entry) : Numeric := (entries.map (·.signed)).sum

/-- `COALESCE(SUM(..), 0)` prints a bare zero when there is nothing to add up. -/
def netText (entries : List Row.Entry) : String := if entries = [] then "0" else (net entries).text

/-- `GROUP BY transaction_id` -/
def groups (t : Tables) : List Uuid := (t.entries.map (·.transactionId)).dedup

/-- `account_balances_derived`. The id is the primary key, so every group is the
entries of one account; the cast of the sum may fail. -/
def accountBalancesDerived (t : Tables) : Except SqlxError (List DerivedBalance) :=
  t.accounts.mapM fun a =>
    (net (t.entries.filter fun e => e.accountId = a.id)).toNum20.map fun balance =>
      { accountId := a.id, currency := a.currency, balance }

def counting (invariant : String) (bad : Nat) (what : String) : InvariantCheck where
  invariant := invariant
  ok := bad = 0
  detail := toString bad ++ what

def globalSumZero (t : Tables) : InvariantCheck where
  invariant := "global_sum_zero"
  ok := net t.entries = 0
  detail := "net = " ++ netText t.entries

def perTransactionBalanced (t : Tables) : InvariantCheck :=
  counting "per_transaction_balanced"
    ((groups t).filter fun id => net (Transactions.entriesOf t id) ≠ 0).length " unbalanced transaction(s)"

def transactionShape (t : Tables) : InvariantCheck :=
  counting "transaction_shape"
    ((groups t).filter fun id => (Transactions.entriesOf t id).length < 2 ∨
      ((Transactions.entriesOf t id).map (·.currency)).dedup.length ≠ 1).length
    " transaction(s) with <2 entries or mixed currency"

def noEmptyTransactions (t : Tables) : InvariantCheck :=
  counting "no_empty_transactions"
    (t.transactions.filter fun r => Transactions.entriesOf t r.id = []).length " transaction(s) with no entries"

def materializedBalanceMatchesEntries (t : Tables) : Except SqlxError InvariantCheck :=
  (accountBalancesDerived t).map fun derived =>
    counting "materialized_balance_matches_entries"
      (t.accounts.flatMap fun a => derived.filter fun d => d.accountId = a.id ∧ a.balance ≠ d.balance).length
      " account(s) drifted from the entry log"

def noUnauthorizedNegativeBalance (t : Tables) : InvariantCheck :=
  counting "no_unauthorized_negative_balance"
    (t.accounts.filter fun a => a.balance.val.lt (.num 0) ∧ !a.allowsNegativeBalance).length
    " account(s) negative without allows_negative_balance"

def idempotencyKeysUnique (t : Tables) : InvariantCheck :=
  counting "idempotency_keys_unique"
    ((t.transactions.map (·.idempotencyKey)).dedup.filter fun key =>
      1 < (t.transactions.filter fun r => r.idempotencyKey = key).length).length
    " duplicated idempotency key(s)"

def queries : List (Tables → Except SqlxError InvariantCheck) :=
  [fun t => .ok (globalSumZero t), fun t => .ok (perTransactionBalanced t), fun t => .ok (transactionShape t),
    fun t => .ok (noEmptyTransactions t), materializedBalanceMatchesEntries,
    fun t => .ok (noUnauthorizedNegativeBalance t), fun t => .ok (idempotencyKeysUnique t)]

inductive Label
  | service (l : Ledger.Label)
  | query

end Sweep

/-- The service with a sweep under way: the rows it has returned, or how it failed. -/
structure Sweep where
  world : World
  rows : Except SqlxError (List InvariantCheck)

namespace Sweep

def begin (w : World) : Sweep where
  world := w
  rows := .ok []

def query (s : Sweep) : Option Sweep :=
  match s.rows with
  | .error _ => none
  | .ok rows => (queries[rows.length]?).map fun q =>
    { s with rows := (q s.world.db.tables).map fun row => rows ++ [row] }

def step (cfg : Config) (s : Sweep) : Label → Option Sweep
  | .service l => (s.world.step cfg l).map fun world => { s with world }
  | .query => s.query

end Sweep

end Ledger
