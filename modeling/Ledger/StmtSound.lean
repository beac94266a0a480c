import Ledger.DbInv
import Ledger.Transfers

/-!
# The statements of the transfer path

For each statement `execute_once` sends, exactly what the database makes of it: the
row it writes, the errors it can end with, and what it may have to wait for. The
balance updates and the entry inserts run under the locks already taken, so for
them nothing is left to wait for but a duplicate of the entry's id.
-/

namespace Ledger

open Keyed Transfers

/-! ## Numbers -/

theorem Num20.ext {a b : Num20} (h : a.val = b.val) : a = b := by
  cases a; cases b; cases h; rfl

theorem Literal.cast_ofDecimal {d : Decimal} (h : d.scale ≤ 8) :
    (Literal.ofDecimal d).cast = (Numeric.num d.units).toNum20 := by
  simp [Literal.ofDecimal, Literal.cast, Literal.units, h, Decimal.units]

theorem Num20.cast_add (n : Num20) {d : Decimal} (h : d.scale ≤ 8) :
    (n.toLiteral.add (Literal.ofDecimal d)).cast = (n.val + .num d.units).toNum20 := by
  unfold Num20.toLiteral
  cases hn : n.val with
  | nan => rfl
  | num u => simp [Literal.add, Literal.ofDecimal, Literal.cast, Literal.units, Decimal.units, h]

theorem Numeric.toNum20_ok {n : Numeric} (h : n.inRange = true) : n.toNum20 = .ok ⟨n, h⟩ := dif_pos h

/-! ## Text -/

def hasNul (s : String) : Bool := s.toList.contains (Char.ofNat 0)

theorem text_some (s : String) : text (some s) =
    if hasNul s then .error (.database .characterNotInRepertoire none) else .ok (some s) := rfl

theorem iso_stored : ∀ c ∈ ISO_4217, hasNul c = false ∧ upperThree c = true := by decide +kernel

/-- What the checks of the `accounts` table leave of a stored row. -/
structure Row.Account.Stored (a : Row.Account) : Prop where
  name : hasNul a.name = false
  currency : hasNul a.currency = false
  length : (1 ≤ a.name.length && a.name.length ≤ 255) = true
  upper : upperThree a.currency = true

/-! ## The rows the statements write -/

theorem claim_row (sha256 : List UInt8 → Vector UInt8 32) (call : Call) (c : Nat) (x : Xid) (id cid did : Uuid)
    (now : Timestamp) :
    NewTransaction.row x now
      { id := .val id
        idempotencyKey := .val call.key
        requestHash := .val (call.intent.requestHash sha256).toList
        description := .val call.intent.description } =
      if hasNul call.key || hasNul call.intent.description then .error (.database .characterNotInRepertoire none)
      else .ok ((call.transfer c x id cid did now).row sha256) := by
  simp only [NewTransaction.row, Col.eval, text_some]
  cases hk : hasNul call.key with
  | true => rfl
  | false =>
    cases hd : hasNul call.intent.description with
    | true => rfl
    | false => simp [bind, Except.bind, notNull, check, pure, Except.pure, Spec.Transfer.row, Call.transfer]

theorem entry_row (tr : Spec.Transfer) (id accountId : Uuid) (direction : Direction)
    (transactions : List Row.Transaction) (hp : assertEntryInParentXact transactions tr.xid (some tr.id) = .ok ())
    (hpos : 0 < tr.intent.units) :
    NewEntry.row tr.xid tr.now transactions
      { id := .val id
        transactionId := .val tr.id
        accountId := .val accountId
        direction := .val direction
        amount := .val (Literal.ofDecimal tr.intent.amount.amount)
        currency := .val tr.intent.amount.currency.code } =
      .ok (tr.entry id accountId direction) := by
  have hnul := (iso_stored _ tr.intent.valid.iso).1
  have hcast : (Literal.ofDecimal tr.intent.amount.amount).cast = .ok tr.intent.num20 := by
    rw [Literal.cast_ofDecimal tr.intent.valid.scale]
    exact Numeric.toNum20_ok tr.intent.units_inRange
  have hlt : (Numeric.num 0).lt tr.intent.num20.val = true := decide_eq_true hpos
  simp only [NewEntry.row, Col.eval, castCol, hcast, text_some, hnul]
  simp [Except.map, bind, Except.bind, hp, notNull, check, hlt, pure, Except.pure, Spec.Transfer.entry]

theorem Row.Account.Stored.checks (sch : Schema) {a : Row.Account} (h : a.Stored) (b : Num20) :
    Row.Account.checks sch { a with balance := b } =
      if !sch.balanceNonNegative || a.allowsNegativeBalance || !b.val.lt (.num 0) then
        .ok { a with balance := b }
      else .error (.database .checkViolation (some .accounts_balance_non_negative)) := by
  simp only [Row.Account.checks, check, h.length, h.upper, if_true]
  split
  · rfl
  · rfl

/-- An update of the balance alone: the new value must fit the column and pass the `CHECK`. -/
theorem adjust_row (sch : Schema) {a : Row.Account} (ha : a.Stored) {delta : Decimal} (hd : delta.scale ≤ 8) :
    SetAccount.row sch (fun a =>
      { id := some a.id
        name := some a.name
        currency := some a.currency
        balance := some (a.balance.toLiteral.add (Literal.ofDecimal delta))
        allowsNegativeBalance := some a.allowsNegativeBalance
        createdAt := some a.createdAt }) a =
      match Spec.shift a delta.units with
      | none => .error outOfRange
      | some new =>
        if !sch.balanceNonNegative || a.allowsNegativeBalance || !new.balance.val.lt (.num 0) then .ok new
        else .error (.database .checkViolation (some .accounts_balance_non_negative)) := by
  have htri : ∀ {α : Type} [DecidableEq α] (v : α), Tri.ne (some v) (some v) = some false := by
    intro α _ v; simp [Tri.ne]
  have hrej : ∀ b, rejectAccountMutation a
      ⟨some a.id, some a.name, some a.currency, b, some a.allowsNegativeBalance, some a.createdAt⟩ = .ok () := by
    intro b
    simp only [rejectAccountMutation, htri]
    rfl
  simp only [SetAccount.row, text_some, ha.name, ha.currency, castCol, Num20.cast_add a.balance hd, hrej]
  unfold Spec.shift
  by_cases h : (a.balance.val + .num delta.units).inRange = true
  · rw [Numeric.toNum20_ok h, dif_pos h]
    exact ha.checks sch ⟨_, h⟩
  · rw [dif_neg h]
    simp only [Numeric.toNum20, dif_neg h]
    rfl

theorem text_plain {s : String} {r : Option String} (h : text (some s) = .ok r) :
    hasNul s = false ∧ r = some s := by
  rw [text_some] at h
  cases hn : hasNul s with
  | true => rw [hn] at h; cases h
  | false => rw [hn] at h; cases h; exact ⟨rfl, rfl⟩

theorem create_row {sch : Schema} {now : Timestamp} {id : Uuid} {name code : String} {flag : Bool}
    {row : Row.Account} (h : NewAccount.row sch now
      { id := .val id, name := .val name, currency := .val code, allowsNegativeBalance := .val flag } = .ok row) :
    row.balance = Num20.zero ∧ row.Stored := by
  simp only [NewAccount.row, Col.eval, Bind.ok, notNull_ok] at h
  obtain ⟨n, hn, cu, hcu, b, hb, _, _, n', hn', cu', hcu', b', hb', _, _, _, _, h⟩ := h
  obtain ⟨hnul, rfl⟩ := text_plain hn
  obtain ⟨hcnul, rfl⟩ := text_plain hcu
  cases hn'
  cases hcu'
  have hzero : castCol (some (.num 0 0)) = .ok (some Num20.zero) := rfl
  rw [hzero, Except.ok.injEq] at hb
  subst hb
  cases hb'
  simp only [Row.Account.checks, Bind.ok, check_ok] at h
  obtain ⟨_, _, _, hup, _, hlen, h⟩ := h
  cases h
  exact ⟨rfl, hnul, hcnul, hlen, hup⟩

theorem NewAccount.row_flag {sch : Schema} {now : Timestamp} {new : NewAccount} {row : Row.Account}
    (h : new.row sch now = .ok row) :
    new.allowsNegativeBalance.eval (some false) = some row.allowsNegativeBalance := by
  simp only [NewAccount.row, Bind.ok, notNull_ok] at h
  obtain ⟨_, _, _, _, _, _, _, _, _, _, _, _, _, _, flag, hflag, _, _, h⟩ := h
  rw [Row.Account.checks_ok h]
  exact hflag

/-! ## Running them -/

theorem Res.ok_bind {α β : Type} (a : α) (f : α → Res β) : (Res.ok a >>= f) = f a := rfl

theorem Res.bind_bind {α β γ : Type} (r : Res α) (f : α → Res β) (g : β → Res γ) :
    (r >>= f).bind g = r >>= fun a => (f a).bind g := by
  cases r <;> rfl

theorem Res.bind_error {α β : Type} {r : Res α} {f : α → Res β} {e : SqlxError} :
    (r >>= f) = .error e ↔ r = .error e ∨ ∃ a, r = .ok a ∧ f a = .error e := by
  cases r <;> simp [bind, Res.bind]

theorem Db.unique_error {db : Db} {x : Xid} {c : Constraint} {dup : Bool} {p : Work → Bool} {e : SqlxError}
    (h : db.unique x c dup p = .error e) : dup = true ∧ e = .database .uniqueViolation (some c) := by
  unfold Db.unique Db.await at h
  split at h
  · rename_i hd
    cases h; exact ⟨hd, rfl⟩
  · split at h <;> cases h

theorem Db.await_ok {db : Db} {x : Xid} {p : Work → Bool} (h : db.Others x fun w => p w = false) :
    db.await x p = .ok () := by
  have hnil : db.holders x p = [] := by
    unfold Db.holders
    rw [List.filter_eq_nil_iff]
    intro y _ hy
    simp only [Bool.and_eq_true, decide_eq_true_eq, Option.any_eq_true] at hy
    obtain ⟨hne, txn, hty, hp⟩ := hy
    rw [h y txn hne hty] at hp
    cases hp
  simp only [Db.await, hnil]

theorem create_exec {sch : Schema} {db : Db} {x : Xid} {txn : Txn} {id : Uuid} {name : String} {currency : Currency}
    {flag : Bool} {w : Work} {r : Option Row.Account} (hb : db.Bounded)
    (h : db.exec sch x txn (Accounts.insertStmt id name currency flag) = .ok (w, r)) :
    ∃ row : Row.Account, row.balance = Num20.zero ∧ row.Stored ∧
      (∀ a ∈ (txn.work.overlay db.tables).accounts, a.id ≠ row.id) ∧
      w = { txn.work with accounts := txn.work.accounts ++ [row] } := by
  simp only [Accounts.insertStmt, Db.exec, Db.insertAccount, Res.bind_ok', Res.bind_ok, Res.ofExcept_ok] at h
  obtain ⟨w', ⟨_, -, row, hrow, _, hu, hw⟩, h⟩ := h
  cases hw
  cases h
  obtain ⟨hzero, hst⟩ := create_row hrow
  exact ⟨row, hzero, hst, not_any (Db.others_of_unique hb hu).1, rfl⟩

theorem Accounts.create_rows {sch : Schema} {dec : Decode} {db db' : Db} {id : Uuid} {now : Timestamp}
    {name : String} {currency : Currency} {flag : Bool} {rows : List Row.Account}
    {answer : Except LedgerError Account}
    (h : Accounts.create sch dec db id now name currency flag = some (db', rows, answer)) :
    rows = [] ∨ ∃ row, rows = [row] ∧ row.allowsNegativeBalance = flag := by
  simp only [Accounts.create] at h
  split at h
  · cases h
  · cases h; exact Or.inl rfl
  · rename_i w r hex
    simp only [Accounts.insertStmt, Db.exec, Db.insertAccount, Res.bind_ok', Res.bind_ok, Res.ofExcept_ok] at hex
    obtain ⟨w', ⟨_, -, row, hrow, _, -, hw⟩, hex⟩ := hex
    cases hw
    cases hex
    have hflag : some flag = some row.allowsNegativeBalance := NewAccount.row_flag hrow
    split at h <;> cases h
    · exact Or.inl rfl
    · exact Or.inr ⟨row, rfl, (Option.some.inj hflag).symm⟩

/-- What one database transaction of the service has written: the rows, and locks on
no accounts but `ids`, each of them for update. -/
structure Work.Shape (w : Work) (transactions : List Row.Transaction) (updates : List Row.Account)
    (entries : List Row.Entry) (ids : List Uuid) : Prop where
  accounts : w.accounts = []
  transactions : w.transactions = transactions
  updates : w.updates = updates
  entries : w.entries = entries
  locked : ∀ id ∈ ids, (id, .update) ∈ w.locks
  only : ∀ l ∈ w.locks, l.1 ∈ ids

theorem Work.Shape.empty : Work.Shape {} [] [] [] [] :=
  ⟨rfl, rfl, rfl, rfl, fun _ h => (by cases h), fun _ h => (by cases h)⟩

section
variable {sch : Schema} {db : Db} {x : Xid} {txn : Txn} (hi : DbInv db) (hx : db.txns x = some txn)

theorem DbInv.await_truncation {db : Db} (hi : DbInv db) (x : Xid) {p : Work → Bool}
    (hp : ∀ w : Work, w.truncated = [] → p w = false) : db.await x p = .ok () :=
  Db.await_ok fun _ _ _ hty => hp _ (hi.work hty).untruncated

include hi hx in
theorem DbInv.await_locked {id : Uuid} (hid : (id, .update) ∈ txn.work.locks) (mode : LockMode) :
    db.await x (fun w => w.locked id mode) = .ok () := by
  refine Db.await_ok fun y ty hy hty => Bool.eq_false_iff.mpr fun hl => ?_
  obtain ⟨l, hl, hc⟩ := List.any_eq_true.mp hl
  rw [Bool.and_eq_true, decide_eq_true_eq] at hc
  have := (hi.apart x y txn ty hy.symm hx hty).locks _ hid l hl hc.1.symm
  cases l.2 <;> cases this

include hi in
theorem claim_exec (sha256 : List UInt8 → Vector UInt8 32) (call : Call) (c : Nat) (id cid did : Uuid)
    (hnul : (hasNul call.key || hasNul call.intent.description) = false) :
    db.exec sch x txn (claimStmt sha256 id call.key call.intent) = (do
      db.unique x .transactions_pkey ((txn.work.overlay db.tables).transactions.any (·.id = id))
        fun w => w.transactions.any (·.id = id)
      db.unique x .transactions_idempotency_key_key
        ((txn.work.overlay db.tables).transactions.any (·.idempotencyKey = call.key))
        fun w => w.transactions.any (·.idempotencyKey = call.key)
      return ({ txn.work with
        transactions := txn.work.transactions ++ [(call.transfer c x id cid did txn.now).row sha256] }, none)) := by
  have ht := hi.await_truncation x (p := fun w => w.truncated.contains .transactions) fun w hw => by simp [hw]
  simp only [claimStmt, Db.exec, Db.insertTransaction, ht, Res.ok_bind, claim_row sha256 call c x id cid did, hnul,
    Bool.false_eq_true, if_false, Res.ofExcept, Res.bind_bind]
  rfl

include hi in
theorem claim_exec_nul (sha256 : List UInt8 → Vector UInt8 32) (call : Call) (id : Uuid)
    (hnul : (hasNul call.key || hasNul call.intent.description) = true) :
    db.exec sch x txn (claimStmt sha256 id call.key call.intent) =
      .error (.database .characterNotInRepertoire none) := by
  have ht := hi.await_truncation x (p := fun w => w.truncated.contains .transactions) fun w hw => by simp [hw]
  simp only [claimStmt, Db.exec, Db.insertTransaction, ht, Res.ok_bind, claim_row sha256 call 0 x id id id, hnul,
    if_true, Res.ofExcept]
  rfl

include hi hx in
theorem DbInv.view_account {id : Uuid} {a : Row.Account} (hacc : txn.work.accounts = [])
    (hup : ∀ u ∈ txn.work.updates, u.id ≠ id) (ha : Spec.findAccount db.tables id = some a) :
    (txn.work.overlay db.tables).accounts.filter (fun a => decide (a.id = id)) = [a] := by
  have hw := hi.work hx
  obtain ⟨hm, hid⟩ := Spec.findAccount_some ha
  have hcur : txn.work.current a = a := Work.current_eq fun u hu => by rw [hid]; exact hup u hu
  have hids := hw.accountIds
  rw [hacc, List.append_nil] at hids
  rw [Work.overlay_accounts hw.untruncated, hacc, List.append_nil]
  refine Distinct.filter (hids.map fun b _ => Work.current_id _ b) ?_ hid
  exact hcur ▸ List.mem_map_of_mem hm

include hi hx in
theorem adjust_exec (sch : Schema) {id : Uuid} {a : Row.Account} (hid : (id, .update) ∈ txn.work.locks)
    (hacc : txn.work.accounts = []) (hup : ∀ u ∈ txn.work.updates, u.id ≠ id)
    (ha : Spec.findAccount db.tables id = some a) (hs : a.Stored) {delta : Decimal} (hd : delta.scale ≤ 8) :
    db.exec sch x txn (adjustBalance id delta) =
      match Spec.shift a delta.units with
      | none => .error outOfRange
      | some new =>
        if !sch.balanceNonNegative || a.allowsNegativeBalance || !new.balance.val.lt (.num 0) then
          .ok ({ txn.work with
            updates := new :: txn.work.updates
            locks := (new.id, .noKeyUpdate) :: txn.work.locks }, none)
        else .error (.database .checkViolation (some .accounts_balance_non_negative)) := by
  have ht := hi.await_truncation x (p := fun w => w.truncated.contains .accounts) fun w hw => by simp [hw]
  have hl := hi.await_locked hx hid .noKeyUpdate
  rw [← (Spec.findAccount_some ha).2] at hl
  simp only [adjustBalance, Db.exec, Db.updateAccounts, ht, Res.ok_bind, hi.view_account hx hacc hup ha,
    List.any_cons, List.any_nil, Bool.or_false, hl, List.mapM_cons, List.mapM_nil, adjust_row sch hs hd]
  cases hsh : Spec.shift a delta.units with
  | none => rfl
  | some new =>
    simp only
    split <;> rfl

include hi hx in
theorem DbInv.own_parent {r : Row.Transaction} (hr : r ∈ txn.work.transactions) (hxr : r.createdXid = x) :
    assertEntryInParentXact (txn.work.overlay db.tables).transactions x (some r.id) = .ok () := by
  have hw := hi.work hx
  have hfind := (distinct_some hw.transactionIds).find (List.mem_append_right _ hr) (k := some r.id) rfl
  rw [Work.overlay_transactions hw.untruncated]
  simp only [assertEntryInParentXact, hfind, hxr, ne_eq, not_true_eq_false, if_false]

include hi hx in
theorem entry_exec {tr : Spec.Transfer} (hxid : tr.xid = x) (hnow : tr.now = txn.now)
    {sha256 : List UInt8 → Vector UInt8 32} (hr : tr.row sha256 ∈ txn.work.transactions)
    (hpos : 0 < tr.intent.units) {accountId : Uuid} (hid : (accountId, .update) ∈ txn.work.locks)
    (ha : ∃ a ∈ (txn.work.overlay db.tables).accounts, a.id = accountId ∧
      a.currency = tr.intent.amount.currency.code) (id : Uuid) (direction : Direction) :
    db.exec sch x txn (insertEntry id tr.id accountId direction tr.intent.amount.amount
      tr.intent.amount.currency) = (do
        db.unique x .entries_pkey ((txn.work.overlay db.tables).entries.any (·.id = id))
          fun w => w.entries.any (·.id = id)
        return ({ txn.work with
          entries := txn.work.entries ++ [tr.entry id accountId direction]
          locks := (accountId, .keyShare) :: txn.work.locks }, none)) := by
  have ht := hi.await_truncation x (p := fun w => !w.truncated.isEmpty) fun w hw => by simp [hw]
  have hp : assertEntryInParentXact (txn.work.overlay db.tables).transactions tr.xid (some tr.id) = .ok () :=
    hxid ▸ hi.own_parent hx hr hxid
  have hrow := entry_row tr id accountId direction _ hp hpos
  rw [hxid, hnow] at hrow
  have hparent : Db.require .entries_transaction_id_fkey ((txn.work.overlay db.tables).transactions.any
      fun r => decide (r.id = (tr.entry id accountId direction).transactionId)) = .ok () := by
    refine if_pos (List.any_eq_true.mpr ⟨tr.row sha256, ?_, decide_eq_true rfl⟩)
    rw [Work.overlay_transactions (hi.work hx).untruncated]
    exact List.mem_append_right _ hr
  have haccount : Db.require .entries_account_currency_fkey ((txn.work.overlay db.tables).accounts.any
      fun a => decide (a.id = (tr.entry id accountId direction).accountId) &&
        decide (a.currency = (tr.entry id accountId direction).currency)) = .ok () := by
    obtain ⟨a, hm, h1, h2⟩ := ha
    refine if_pos (List.any_eq_true.mpr ⟨a, hm, ?_⟩)
    rw [Bool.and_eq_true]
    exact ⟨decide_eq_true h1, decide_eq_true h2⟩
  have hlock : db.await x (fun w => w.locked (tr.entry id accountId direction).accountId .keyShare) = .ok () :=
    hi.await_locked hx hid .keyShare
  simp only [insertEntry, Db.exec, Db.insertEntry, ht, Res.ok_bind, hrow, Res.ofExcept, Res.bind_bind]
  congr 1
  funext u
  simp only [hparent, haccount, hlock, Res.ok_bind]
  rfl

end

end Ledger
