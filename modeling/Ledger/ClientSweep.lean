import Ledger.ClientAccounts
import Ledger.Reconcile

/-!
# The sweep against arbitrary clients

With the schema alone, whatever SQL its clients send, five of the seven rows of the sweep
stay true as long as nobody truncates. The other two are the ones that watch the
application: a transaction without entries, and a cached balance that is not the sum of
its entries.
-/

namespace Ledger

open Keyed Runs

theorem FloorInv.reach {db : Db} (h : Reach (Db.step {}) (fun _ c => c.truncates = false) Db.init db) :
    DbInv db ∧ FloorInv db :=
  h.invariant (P := fun d => DbInv d ∧ FloorInv d) (fun _ _ _ hd hc hs => ⟨hd.1.step hc hs, hd.2.step hd.1 hc hs⟩)
    ⟨DbInv.init, FloorInv.init⟩

namespace TablesInv

variable {t : Tables} (h : TablesInv t)
include h

theorem entries_balance {e : Row.Entry} (he : e ∈ t.entries) :
    Sweep.net (Transactions.entriesOf t e.transactionId) = 0 :=
  (balanced_ok (h.balanced e he)).2.2

theorem entries_shape {e : Row.Entry} (he : e ∈ t.entries) :
    2 ≤ (Transactions.entriesOf t e.transactionId).length ∧
      ∀ e' ∈ t.entries, e'.transactionId = e.transactionId → e'.currency = e.currency := by
  obtain ⟨hlen, ⟨c, hc⟩, -⟩ := balanced_ok (h.balanced e he)
  exact ⟨hlen, fun e' he' hid => (hc e' he' hid).trans (hc e he rfl).symm⟩

end TablesInv

/-- **What the schema alone guarantees of the sweep.** In every state that SQL clients can
lead the database to without truncating a table, the sums, the shapes, the keys and the
sign of customer balances are in order; and the sweep as a whole passes exactly if every
transaction has entries and every cached balance is the sum of its account's entries. -/
theorem client_sweep {db : Db} (hr : Reach (Db.step {}) (fun _ c => c.truncates = false) Db.init db) :
    (Sweep.globalSumZero db.tables).ok = true ∧ (Sweep.perTransactionBalanced db.tables).ok = true ∧
    (Sweep.transactionShape db.tables).ok = true ∧ (Sweep.noUnauthorizedNegativeBalance db.tables).ok = true ∧
    (Sweep.idempotencyKeysUnique db.tables).ok = true ∧
    (Sweep.Passes db.tables ↔
      (∀ r ∈ db.tables.transactions, Transactions.entriesOf db.tables r.id ≠ []) ∧ Sweep.Cached db.tables) := by
  obtain ⟨hi, hf⟩ := FloorInv.reach hr
  have hbalance := fun e he => hi.tables.entries_balance (e := e) he
  have hshape := fun e he => hi.tables.entries_shape (e := e) he
  have hsum := Sweep.net_entries hbalance hshape
  have hkeys := hi.tables.keys.filter_le_one
  have hfloor : ∀ a ∈ db.tables.accounts, a.allowsNegativeBalance = false → a.balance.val.lt (.num 0) = false :=
    hf.committed
  refine ⟨Sweep.globalSumZero_ok.mpr hsum, Sweep.perTransactionBalanced_ok.mpr hbalance,
    Sweep.transactionShape_ok.mpr hshape, Sweep.noUnauthorizedNegativeBalance_ok.mpr hfloor,
    Sweep.idempotencyKeysUnique_ok.mpr hkeys, fun hp => ?_, fun ⟨hnonempty, hcached⟩ => ?_⟩
  · have hrec := hp.reconciled
    exact ⟨hrec.nonempty, hrec.cached⟩
  · exact Sweep.Reconciled.passes hi.tables.accountIds
      ⟨hsum, hbalance, hshape, hnonempty, hcached, hfloor, hkeys⟩

def drift : List Cmd :=
  [.begin 0, .stmt 0 (.insertAccount (newAccount 1 true)), .stmt 0 (.insertTransaction (newTransaction .default)),
    .stmt 0 (.updateAccounts (fun _ => true) fun a =>
      { id := some a.id, name := some a.name, currency := some a.currency, balance := some (.num 1 0)
        allowsNegativeBalance := some a.allowsNegativeBalance, createdAt := some a.createdAt }), .commit 0]

theorem client_sweep_drift : ∃ db, Reach (Db.step {}) (fun _ c => c.truncates = false) Db.init db ∧
    (Sweep.globalSumZero db.tables).ok = true ∧ (Sweep.noUnauthorizedNegativeBalance db.tables).ok = true ∧
    (Sweep.noEmptyTransactions db.tables).ok = false ∧
    (∃ row, Sweep.materializedBalanceMatchesEntries db.tables = .ok row ∧ row.ok = false) ∧
    ¬ Sweep.Passes db.tables := by
  have h : (exec (Db.step {}) Db.init drift).any (fun db => decide (
      (Sweep.noEmptyTransactions db.tables).ok = false ∧
      (Sweep.materializedBalanceMatchesEntries db.tables).map (·.ok) = .ok false)) = true := by decide +kernel
  obtain ⟨db, hdb, h⟩ := (Option.any_eq_true _ _).mp h
  obtain ⟨hempty, hcached⟩ := of_decide_eq_true h
  have hr : Reach (Db.step {}) (fun _ c => c.truncates = false) Db.init db :=
    reach_of_exec (fun _ => by simp [drift, Cmd.truncates, Stmt.isTruncate]) hdb
  obtain ⟨hglobal, -, -, hfloor, -, hpasses⟩ := client_sweep hr
  refine ⟨db, hr, hglobal, hfloor, hempty, ?_, fun hp => ?_⟩
  · cases hrow : Sweep.materializedBalanceMatchesEntries db.tables with
    | error e => rw [hrow] at hcached; cases hcached
    | ok row => exact ⟨row, rfl, by simpa [hrow, Except.map] using hcached⟩
  rw [Sweep.noEmptyTransactions_ok.mpr (hpasses.mp hp).1] at hempty
  cases hempty

end Ledger
