import Ledger.Domain

/-!
# The error taxonomy

Database errors carry a SQLSTATE and, for a violated constraint, its name; the
program looks at nothing else of them. Everything the ledger answers with is a
`LedgerError`.
-/

namespace Ledger

inductive SqlState
  | uniqueViolation
  | checkViolation
  | restrictViolation
  | foreignKeyViolation
  | notNullViolation
  | serializationFailure
  | deadlockDetected
  | numericValueOutOfRange
  | characterNotInRepertoire
  | inFailedSqlTransaction
  | objectInUse
  | featureNotSupported
  | other (code : String)
deriving DecidableEq

/-- The constraints of the schema, under the names Postgres reports. -/
inductive Constraint
  | accounts_pkey
  | accounts_name_check
  | accounts_currency_check
  | accounts_balance_non_negative
  | transactions_pkey
  | transactions_idempotency_key_key
  | transactions_request_hash_check
  | entries_pkey
  | entries_amount_check
  | entries_transaction_id_fkey
  | entries_account_currency_fkey
  | transaction_min_two_entries
  | transaction_single_currency
  | transaction_balanced
  | entries_written_with_parent
deriving DecidableEq

inductive SqlxError
  | database (code : SqlState) (constraint : Option Constraint)
  | columnDecode
  | rowNotFound
  | io
  | poolTimedOut
deriving DecidableEq

/-- SQLSTATE class 23: Postgres reports it for a violated constraint and for nothing else. -/
def SqlState.integrity : SqlState → Bool
  | .uniqueViolation | .checkViolation | .restrictViolation | .foreignKeyViolation | .notNullViolation => true
  | _ => false

/-- An error a statement may end with although nothing is wrong with the request. -/
def SqlxError.spontaneous : SqlxError → Bool
  | .database code _ => !code.integrity
  | _ => true

def constraintFailure : SqlxError → Option (SqlState × Option Constraint)
  | .database code constraint => some (code, constraint)
  | _ => none

def isIdempotencyKeyCollision (err : SqlxError) : Bool :=
  match constraintFailure err with
  | some (code, some constraint) => code = .uniqueViolation && constraint = .transactions_idempotency_key_key
  | _ => false

def isRetryableConflict (err : SqlxError) : Bool :=
  match constraintFailure err with
  | some (code, _) => code = .serializationFailure || code = .deadlockDetected
  | none => false

def isOverdraftViolation (err : SqlxError) : Bool :=
  match constraintFailure err with
  | some (code, some constraint) => code = .checkViolation && constraint = .accounts_balance_non_negative
  | _ => false

inductive LedgerError
  | accountNotFound (id : Uuid)
  | transactionNotFound (id : Uuid)
  | insufficientFunds (accountId : Uuid)
  | accountCurrencyMismatch (accountId : Uuid) (accountCurrency transferCurrency : String)
  | selfTransfer
  | nonPositiveAmount
  | fundingAccountCreationDisabled
  | missingIdempotencyKey
  | idempotencyKeyConflict (key : String)
  | validation (message : String)
  | money (err : MoneyError)
  | database (err : SqlxError)
deriving DecidableEq

instance decidableEqExcept {ε α : Type} [DecidableEq ε] [DecidableEq α] : DecidableEq (Except ε α)
  | .ok a, .ok b => decidable_of_iff (a = b) (by rw [Except.ok.injEq])
  | .error a, .error b => decidable_of_iff (a = b) (by rw [Except.error.injEq])
  | .ok _, .error _ => .isFalse nofun
  | .error _, .ok _ => .isFalse nofun

namespace LedgerError

def code : LedgerError → String
  | accountNotFound _ => "account_not_found"
  | transactionNotFound _ => "transaction_not_found"
  | insufficientFunds _ => "insufficient_funds"
  | accountCurrencyMismatch .. => "currency_mismatch"
  | selfTransfer => "self_transfer"
  | nonPositiveAmount => "non_positive_amount"
  | fundingAccountCreationDisabled => "funding_account_creation_disabled"
  | missingIdempotencyKey => "missing_idempotency_key"
  | idempotencyKeyConflict _ => "idempotency_key_conflict"
  | validation _ => "validation_failed"
  | money _ => "invalid_amount"
  | database _ => "internal_error"

def status : LedgerError → Nat
  | accountNotFound _ | transactionNotFound _ => 404
  | missingIdempotencyKey => 400
  | fundingAccountCreationDisabled => 403
  | idempotencyKeyConflict _ => 409
  | insufficientFunds _ | accountCurrencyMismatch .. | selfTransfer | nonPositiveAmount | validation _
  | money _ => 422
  | database _ => 500

/-- A typed outcome: anything but an opaque database error. -/
def typed : LedgerError → Bool
  | database _ => false
  | _ => true

theorem typed_iff (e : LedgerError) : e.typed = true ↔ e.status ≠ 500 ∧ e.code ≠ "internal_error" := by
  cases e <;> simp [typed, status, code]

end LedgerError

theorem collision_iff {err : SqlxError} : isIdempotencyKeyCollision err = true ↔
    err = .database .uniqueViolation (some .transactions_idempotency_key_key) := by
  unfold isIdempotencyKeyCollision constraintFailure
  cases err with
  | database code constraint => cases constraint <;> simp
  | _ => simp

theorem overdraft_iff {err : SqlxError} : isOverdraftViolation err = true ↔
    err = .database .checkViolation (some .accounts_balance_non_negative) := by
  unfold isOverdraftViolation constraintFailure
  cases err with
  | database code constraint => cases constraint <;> simp
  | _ => simp

theorem spontaneous_not_constraint {err : SqlxError} (h : err.spontaneous = true) :
    isIdempotencyKeyCollision err = false ∧ isOverdraftViolation err = false := by
  constructor <;> rw [Bool.eq_false_iff] <;> intro hc
  · rw [collision_iff.mp hc] at h; cases h
  · rw [overdraft_iff.mp hc] at h; cases h

end Ledger
