import Ledger.Db
import Ledger.Lib.Bind
import Ledger.Lib.Keyed
import Ledger.Lib.Runs

/-!
# What the sessions keep

`exec_ok` says once what a statement other than `TRUNCATE` can write. From it comes
`DbInv`: keys stay unique across the committed tables and all uncommitted writes,
conflicting row locks are never held together, every entry has a parent whose
`created_xid` is the entry's writer, and what was committed has passed the deferred
check.
-/

namespace Ledger

open Keyed

namespace Res

variable {α β : Type}

theorem bind_ok {x : Res α} {f : α → Res β} {b : β} : (x >>= f) = .ok b ↔ ∃ a, x = .ok a ∧ f a = .ok b := by
  cases x <;> simp [bind, Res.bind]

theorem bind_ok' {x : Res α} {f : α → Res β} {b : β} : x.bind f = .ok b ↔ ∃ a, x = .ok a ∧ f a = .ok b :=
  bind_ok

theorem ofExcept_ok {x : Except SqlxError α} {a : α} : ofExcept x = .ok a ↔ x = .ok a := by
  cases x <;> simp [ofExcept]

end Res

/-! ## Rows that pass their checks -/

theorem notNull_ok {α : Type} {o : Option α} {a : α} : notNull o = .ok a ↔ o = some a := by
  cases o <;> simp [notNull]

theorem check_ok {c : Constraint} {b : Bool} {u : Unit} : check c b = .ok u ↔ b = true := by
  unfold check; split <;> simp_all

theorem assertTransactionBalanced_ok {table : List Row.Entry} {id : Uuid} :
    assertTransactionBalanced table id = .ok () ↔
      2 ≤ (table.filter fun r => r.transactionId = id).length ∧
      ((table.filter fun r => r.transactionId = id).map (·.currency)).dedup.length = 1 ∧
      ((table.filter fun r => r.transactionId = id).map (·.signed)).sum = 0 := by
  simp only [assertTransactionBalanced, Bind.ok, check_ok, Bool.not_eq_true', decide_eq_false_iff_not, Nat.not_lt,
    not_not, exists_const, ne_eq]

theorem text_ok {s r : Option String} (h : text s = .ok r) : r = s := by
  unfold text at h
  split at h
  · cases h
  · simpa using h.symm

theorem NewTransaction.row_ok {x : Xid} {now : Timestamp} {new : NewTransaction} {row : Row.Transaction}
    (h : new.row x now = .ok row) : row.xmin = x ∧ new.createdXid.eval (some x) = some row.createdXid := by
  simp only [NewTransaction.row, Bind.ok, notNull_ok] at h
  obtain ⟨_, _, _, _, _, _, _, _, _, _, _, _, xid, hxid, _, _, _, _, h⟩ := h
  cases h
  exact ⟨rfl, hxid⟩

theorem parentXact_ok {transactions : List Row.Transaction} {x : Xid} {id : Option Uuid} {u : Unit}
    (h : assertEntryInParentXact transactions x id = .ok u) :
    ∃ r ∈ transactions, some r.id = id ∧ r.createdXid = x := by
  unfold assertEntryInParentXact at h
  split at h
  · cases h
  · rename_i r hr
    split at h
    · cases h
    · rename_i hx
      exact ⟨r, List.mem_of_find?_eq_some hr, by simpa using List.find?_some hr, by simpa using hx⟩

theorem NewEntry.row_ok {x : Xid} {now : Timestamp} {transactions : List Row.Transaction} {new : NewEntry}
    {row : Row.Entry} (h : new.row x now transactions = .ok row) :
    row.xmin = x ∧ ∃ r ∈ transactions, r.id = row.transactionId ∧ r.createdXid = x := by
  simp only [NewEntry.row, Bind.ok, notNull_ok] at h
  obtain ⟨_, _, _, _, _, hp, _, _, tid, htid, _, _, _, _, _, _, _, _, _, _, _, _, h⟩ := h
  obtain ⟨r, hr, hid, hx⟩ := parentXact_ok hp
  cases h
  rw [htid, Option.some.injEq] at hid
  exact ⟨rfl, r, hr, hid, hx⟩

theorem Row.Account.checks_ok {sch : Schema} {a b : Row.Account} (h : a.checks sch = .ok b) : b = a := by
  simp only [Row.Account.checks, Bind.ok] at h
  obtain ⟨_, _, _, _, _, _, h⟩ := h
  cases h; rfl

/-- A `NULL` gets past the trigger's comparison, but not past `NOT NULL`. -/
theorem SetAccount.row_ok {sch : Schema} {set : Row.Account → SetAccount} {old new : Row.Account}
    (h : SetAccount.row sch set old = .ok new) : new.terms = old.terms := by
  simp only [SetAccount.row, Bind.ok, notNull_ok] at h
  obtain ⟨nm, hnm, cu, hcu, _, _, _, hrej, id, hid, nm', hnm', cu', hcu', _, _, flag, hflag, at', hat, h⟩ := h
  have hn := text_ok hnm
  have hc := text_ok hcu
  subst hn; subst hc
  have := Row.Account.checks_ok h
  subst this
  unfold rejectAccountMutation at hrej
  split at hrej
  · cases hrej
  · rename_i hne
    rw [hid, hnm', hcu', hflag, hat] at hne
    simp only [Tri.or_eq_true, Tri.ne_eq_true, not_or, not_not] at hne
    obtain ⟨h1, h2, h3, h4, h5⟩ := hne
    simp only [Row.Account.terms, h1, h2, h3, h4, h5]

/-! ## Waiting -/

namespace Db

def Others (db : Db) (x : Xid) (P : Work → Prop) : Prop :=
  ∀ y txn, y ≠ x → db.txns y = some txn → P txn.work

def Bounded (db : Db) : Prop := ∀ y, db.nextXid ≤ y → db.txns y = none

theorem mem_holders {db : Db} {x y : Xid} {p : Work → Bool} :
    y ∈ db.holders x p ↔ y < db.nextXid ∧ y ≠ x ∧ ∃ txn, db.txns y = some txn ∧ p txn.work = true := by
  simp only [holders, List.mem_filter, List.mem_range, Bool.and_eq_true, decide_eq_true_eq,
    Option.any_eq_true]

variable {db : Db} (hb : db.Bounded)
include hb

theorem others_of_await {x : Xid} {p : Work → Bool} {u : Unit} (h : db.await x p = .ok u) :
    db.Others x fun w => p w = false := by
  intro y txn hy hty
  unfold await at h
  split at h
  · rename_i hnil
    rw [Bool.eq_false_iff]
    intro hp
    have hlt : y < db.nextXid := by
      rcases Nat.lt_or_ge y db.nextXid with hlt | hge
      · exact hlt
      · rw [hb y hge] at hty; cases hty
    have hm : y ∈ db.holders x p := mem_holders.mpr ⟨hlt, hy, txn, hty, hp⟩
    rw [hnil] at hm
    cases hm
  · cases h

theorem others_of_unique {x : Xid} {c : Constraint} {dup : Bool} {p : Work → Bool} {u : Unit}
    (h : db.unique x c dup p = .ok u) : dup = false ∧ db.Others x fun w => p w = false := by
  unfold unique at h
  split at h
  · cases h
  · rename_i hd
    exact ⟨by simpa using hd, others_of_await hb h⟩

end Db

theorem not_any {α : Type} {l : List α} {p : α → Prop} [DecidablePred p]
    (h : (l.any fun a => decide (p a)) = false) : ∀ a ∈ l, ¬ p a := by
  intro a ha hp
  have := List.any_eq_false.mp h a ha
  simp [hp] at this

/-! ## What a statement writes -/

/-- The effect of a successful statement on its transaction's own writes, with
everything it checked on the way. -/
inductive Wrote (sch : Schema) (db : Db) (x : Xid) (txn : Txn) : Stmt → Work → Prop
  | same (s : Stmt) : Wrote sch db x txn s txn.work
  | account {new : NewAccount} {row : Row.Account} (hrow : new.row sch txn.now = .ok row)
      (hid : ∀ a ∈ (txn.work.overlay db.tables).accounts, a.id ≠ row.id)
      (hfree : db.Others x fun w => ∀ a ∈ w.accounts, a.id ≠ row.id) :
      Wrote sch db x txn (.insertAccount new) { txn.work with accounts := txn.work.accounts ++ [row] }
  | transaction {new : NewTransaction} {row : Row.Transaction} (hrow : new.row x txn.now = .ok row)
      (hid : ∀ r ∈ (txn.work.overlay db.tables).transactions, r.id ≠ row.id)
      (hkey : ∀ r ∈ (txn.work.overlay db.tables).transactions, r.idempotencyKey ≠ row.idempotencyKey)
      (hfree : db.Others x fun w => ∀ r ∈ w.transactions, r.id ≠ row.id)
      (hfree' : db.Others x fun w => ∀ r ∈ w.transactions, r.idempotencyKey ≠ row.idempotencyKey) :
      Wrote sch db x txn (.insertTransaction new) { txn.work with transactions := txn.work.transactions ++ [row] }
  | entry {new : NewEntry} {row : Row.Entry}
      (hrow : new.row x txn.now (txn.work.overlay db.tables).transactions = .ok row)
      (hid : ∀ e ∈ (txn.work.overlay db.tables).entries, e.id ≠ row.id)
      (hfree : db.Others x fun w => ∀ e ∈ w.entries, e.id ≠ row.id)
      (hacc : ∃ a ∈ (txn.work.overlay db.tables).accounts, a.id = row.accountId ∧ a.currency = row.currency)
      (hlock : db.Others x fun w => w.locked row.accountId .keyShare = false) :
      Wrote sch db x txn (.insertEntry new)
        { txn.work with
          entries := txn.work.entries ++ [row], locks := (row.accountId, .keyShare) :: txn.work.locks }
  | update {cond : Row.Account → Bool} {set : Row.Account → SetAccount} {news : List Row.Account}
      (hnews : ((txn.work.overlay db.tables).accounts.filter cond).mapM (SetAccount.row sch set) = .ok news)
      (hlock : db.Others x fun w =>
        ∀ a ∈ (txn.work.overlay db.tables).accounts.filter cond, w.locked a.id .noKeyUpdate = false) :
      Wrote sch db x txn (.updateAccounts cond set)
        { txn.work with
          updates := news.reverse ++ txn.work.updates
          locks := news.map (fun a => (a.id, .noKeyUpdate)) ++ txn.work.locks }
  | lock {id : Uuid} {row : Row.Account} (hrow : (txn.work.overlay db.tables).accounts.find? (·.id = id) = some row)
      (hlock : db.Others x fun w => w.locked id .update = false) :
      Wrote sch db x txn (.selectForUpdate id) { txn.work with locks := (id, .update) :: txn.work.locks }

def Stmt.isTruncate : Stmt → Bool
  | .truncate .. => true
  | _ => false

theorem rejectIf_ok {db : Db} {x : Xid} {txn : Txn} {table : Table} {found : Bool} {w : Work}
    (h : db.rejectIf x txn table found = .ok w) :
    w = txn.work ∧ found = false := by
  simp only [Db.rejectIf, Res.bind_ok] at h
  obtain ⟨_, _, h⟩ := h
  split at h
  · cases h
  · rename_i hf
    cases h
    exact ⟨rfl, by simpa using hf⟩

section
variable {sch : Schema} {db : Db} {x : Xid} {txn : Txn} (hb : db.Bounded)
include hb

theorem insertAccount_ok {new : NewAccount} {w : Work} (h : db.insertAccount sch x txn new = .ok w) :
    Wrote sch db x txn (.insertAccount new) w := by
  simp only [Db.insertAccount, Res.bind_ok, Res.ofExcept_ok] at h
  obtain ⟨_, _, row, hrow, _, hu, h⟩ := h
  cases h
  obtain ⟨hd, hf⟩ := Db.others_of_unique hb hu
  exact .account hrow (not_any hd) fun y t hy ht => not_any (hf y t hy ht)

theorem insertTransaction_ok {new : NewTransaction} {w : Work} (h : db.insertTransaction x txn new = .ok w) :
    Wrote sch db x txn (.insertTransaction new) w := by
  simp only [Db.insertTransaction, Res.bind_ok, Res.ofExcept_ok] at h
  obtain ⟨_, _, row, hrow, _, hu, _, hu', h⟩ := h
  cases h
  obtain ⟨hd, hf⟩ := Db.others_of_unique hb hu
  obtain ⟨hd', hf'⟩ := Db.others_of_unique hb hu'
  exact .transaction hrow (not_any hd) (not_any hd') (fun y t hy ht => not_any (hf y t hy ht))
    fun y t hy ht => not_any (hf' y t hy ht)

theorem insertEntry_ok {new : NewEntry} {w : Work} (h : db.insertEntry x txn new = .ok w) :
    Wrote sch db x txn (.insertEntry new) w := by
  simp only [Db.insertEntry, Res.bind_ok, Res.ofExcept_ok] at h
  obtain ⟨_, _, row, hrow, _, hu, _, _, _, hacc, _, hl, h⟩ := h
  cases h
  obtain ⟨hd, hf⟩ := Db.others_of_unique hb hu
  refine .entry hrow (not_any hd) (fun y t hy ht => not_any (hf y t hy ht)) ?_ (Db.others_of_await hb hl)
  unfold Db.require at hacc
  split at hacc
  · rename_i ha
    obtain ⟨a, ha, he⟩ := List.any_eq_true.mp ha
    exact ⟨a, ha, by simpa using he⟩
  · cases hacc

theorem updateAccounts_ok {cond : Row.Account → Bool} {set : Row.Account → SetAccount} {w : Work}
    (h : db.updateAccounts sch x txn cond set = .ok w) : Wrote sch db x txn (.updateAccounts cond set) w := by
  simp only [Db.updateAccounts, Res.bind_ok, Res.ofExcept_ok] at h
  obtain ⟨_, _, _, hl, news, hnews, h⟩ := h
  cases h
  refine .update hnews fun y t hy ht a ha => ?_
  have := List.any_eq_false.mp (Db.others_of_await hb hl y t hy ht) a ha
  simpa using this

theorem selectForUpdate_ok {id : Uuid} {w : Work} {r : Option Row.Account}
    (h : db.selectForUpdate x txn id = .ok (w, r)) :
    (r = none ∧ w = txn.work ∧ (txn.work.overlay db.tables).accounts.find? (·.id = id) = none) ∨
      ∃ row, r = some row ∧ w = { txn.work with locks := (id, .update) :: txn.work.locks } ∧
        (txn.work.overlay db.tables).accounts.find? (·.id = id) = some row ∧
        db.Others x fun w => w.locked id .update = false := by
  simp only [Db.selectForUpdate, Res.bind_ok] at h
  obtain ⟨_, _, h⟩ := h
  split at h
  · rename_i hn
    cases h
    exact Or.inl ⟨rfl, rfl, hn⟩
  · rename_i row hrow
    obtain ⟨_, hl, h⟩ := Res.bind_ok.mp h
    cases h
    exact Or.inr ⟨row, rfl, rfl, hrow, Db.others_of_await hb hl⟩

theorem exec_ok {s : Stmt} (hs : s.isTruncate = false) {w : Work} {r : Option Row.Account}
    (h : db.exec sch x txn s = .ok (w, r)) : Wrote sch db x txn s w := by
  have plain : ∀ {y : Res Work}, (y.bind fun w => Res.ok (w, (none : Option Row.Account))) = .ok (w, r) →
      y = .ok w := by
    intro y hy
    obtain ⟨w', hw', he⟩ := Res.bind_ok'.mp hy
    cases he; exact hw'
  cases s with
  | insertAccount new => exact insertAccount_ok hb (plain h)
  | insertTransaction new => exact insertTransaction_ok hb (plain h)
  | insertEntry new => exact insertEntry_ok hb (plain h)
  | updateAccounts cond set => exact updateAccounts_ok hb (plain h)
  | updateTransactions cond | updateEntries cond | deleteAccounts cond | deleteTransactions cond
  | deleteEntries cond =>
    rw [(rejectIf_ok (plain h)).1]
    exact .same _
  | truncate ts c => cases hs
  | selectForUpdate id =>
    rcases selectForUpdate_ok hb h with ⟨_, rfl, _⟩ | ⟨row, _, rfl, hrow, hl⟩
    · exact .same _
    · exact .lock hrow hl

end

/-! ## What a `COMMIT` does -/

theorem Db.commit_ok {db db' : Db} {x : Xid} {txn : Txn} (hc : db.commit x txn = .ok db') :
    txn.aborted = true ∧ db' = db.close x ∨
      txn.aborted = false ∧ db.deferred txn = .ok () ∧
        db' = { db.close x with tables := txn.work.overlay db.tables } := by
  unfold Db.commit at hc
  split at hc
  · rename_i hab
    cases hc
    exact Or.inl ⟨hab, rfl⟩
  · rename_i hab
    obtain ⟨_, hd, hc⟩ := Bind.ok.mp hc
    cases hc
    exact Or.inr ⟨Bool.eq_false_iff.mpr hab, hd, rfl⟩

theorem Db.step_commit {sch : Schema} {db db' : Db} {x : Xid} (hs : db.step sch (.commit x) = some db') :
    ∃ txn, db.txns x = some txn ∧ (db' = db.close x ∨
      txn.aborted = false ∧ db.deferred txn = .ok () ∧
        db' = { db.close x with tables := txn.work.overlay db.tables }) := by
  simp only [Db.step, Option.map_eq_some_iff] at hs
  obtain ⟨txn, hx, hs⟩ := hs
  refine ⟨txn, hx, ?_⟩
  split at hs
  · rename_i db'' hok
    subst hs
    exact (Db.commit_ok hok).imp_left And.right
  · exact Or.inl hs.symm

end Ledger
