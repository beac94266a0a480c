import Ledger.Client

/-!
# Accounts against any client

Whatever the sessions insert, update or delete, with `NULL` and `NaN` among the
values: a committed account stays, differs from what was inserted in its balance
only, and an account without the flag never holds a number below zero. The trigger
lets a row pass when a column is set to `NULL`, the `CHECK` as well; what stops such
a row is `NOT NULL`.
-/

namespace Ledger

open Keyed Runs

/-! ## The floor -/

def Row.Account.AboveFloor (a : Row.Account) : Prop :=
  a.allowsNegativeBalance = false → a.balance.val.lt (.num 0) = false

theorem Row.Account.checks_aboveFloor {a b : Row.Account} (h : a.checks {} = .ok b) : b.AboveFloor := by
  have he := Row.Account.checks_ok h
  simp only [Row.Account.checks, Bind.ok, check_ok] at h
  obtain ⟨_, hneg, -⟩ := h
  intro hf
  rw [he] at hf ⊢
  simpa [hf] using hneg

theorem NewAccount.row_aboveFloor {now : Timestamp} {new : NewAccount} {row : Row.Account}
    (h : new.row {} now = .ok row) : row.AboveFloor := by
  simp only [NewAccount.row, Bind.ok] at h
  obtain ⟨_, _, _, _, _, _, _, _, _, _, _, _, _, _, _, _, _, _, h⟩ := h
  exact Row.Account.checks_aboveFloor h

theorem SetAccount.row_aboveFloor {set : Row.Account → SetAccount} {old new : Row.Account}
    (h : SetAccount.row {} set old = .ok new) : new.AboveFloor := by
  simp only [SetAccount.row, Bind.ok] at h
  obtain ⟨_, _, _, _, _, _, _, _, _, _, _, _, _, _, _, _, _, _, _, _, h⟩ := h
  exact Row.Account.checks_aboveFloor h

/-- No version of an account, committed or not, is below the floor. -/
structure FloorInv (db : Db) : Prop where
  committed : ∀ a ∈ db.tables.accounts, a.AboveFloor
  inserted : ∀ x txn, db.txns x = some txn → ∀ w ∈ txn.works, ∀ a ∈ w.accounts, a.AboveFloor
  updated : ∀ x txn, db.txns x = some txn → ∀ w ∈ txn.works, ∀ a ∈ w.updates, a.AboveFloor

theorem FloorInv.init : FloorInv Db.init where
  committed a ha := by cases ha
  inserted x txn hx := by cases hx
  updated x txn hx := by cases hx

theorem Wrote.aboveFloor {db : Db} {x : Xid} {txn : Txn} {s : Stmt} {w : Work} (h : Wrote {} db x txn s w)
    (hi : ∀ a ∈ txn.work.accounts, a.AboveFloor) (hu : ∀ a ∈ txn.work.updates, a.AboveFloor) :
    (∀ a ∈ w.accounts, a.AboveFloor) ∧ ∀ a ∈ w.updates, a.AboveFloor := by
  cases h with
  | same | transaction | entry | lock => exact ⟨hi, hu⟩
  | account hrow =>
    refine ⟨fun a ha => ?_, hu⟩
    rcases List.mem_append.mp ha with ha | ha
    · exact hi a ha
    · rw [List.mem_singleton.mp ha]
      exact NewAccount.row_aboveFloor hrow
  | update hnews =>
    refine ⟨hi, fun a ha => ?_⟩
    rcases List.mem_append.mp ha with ha | ha
    · obtain ⟨old, -, hnew⟩ := Bind.mapM_mem hnews a (List.mem_reverse.mp ha)
      exact SetAccount.row_aboveFloor hnew
    · exact hu a ha

section
variable {db : Db} (hi : DbInv db) (h : FloorInv db)
include hi h

theorem FloorInv.view {x : Xid} {txn : Txn} (hx : db.txns x = some txn) :
    ∀ a ∈ (txn.work.overlay db.tables).accounts, a.AboveFloor := by
  intro a ha
  rw [Work.overlay_accounts (hi.work hx).untruncated] at ha
  obtain ⟨b, hb, rfl⟩ := List.mem_map.mp ha
  rcases Work.current_mem (w := txn.work) (a := b) with he | hu
  · rw [he]
    rcases List.mem_append.mp hb with hb | hb
    · exact h.committed b hb
    · exact h.inserted x txn hx txn.work (List.mem_cons_self ..) b hb
  · exact h.updated x txn hx txn.work (List.mem_cons_self ..) _ hu

theorem FloorInv.step {db' : Db} {cmd : Cmd} (hc : cmd.truncates = false) (hs : db.step {} cmd = some db') :
    FloorInv db' := by
  have written : ∀ y ty, db'.txns y = some ty → ∀ w ∈ ty.works,
      (∀ a ∈ w.accounts, a.AboveFloor) ∧ ∀ a ∈ w.updates, a.AboveFloor := by
    intro y ty hy w hw
    rcases Db.step_works hs hy hw with ⟨-, rfl⟩ | ⟨t, ht, rfl | hw' | ⟨s, r, rfl, hex⟩⟩
    · exact ⟨List.forall_mem_nil _, List.forall_mem_nil _⟩
    · exact ⟨List.forall_mem_nil _, List.forall_mem_nil _⟩
    · exact ⟨h.inserted y t ht w hw', h.updated y t ht w hw'⟩
    · have hm : t.work ∈ t.works := List.mem_cons_self ..
      exact (exec_ok hi.bounded hc hex).aboveFloor (h.inserted y t ht _ hm) (h.updated y t ht _ hm)
  refine ⟨fun a ha => ?_, fun y ty hy w hw => (written y ty hy w hw).1,
    fun y ty hy w hw => (written y ty hy w hw).2⟩
  rcases Db.step_tables hs with ht | ⟨x, txn, -, hx, -, -, ht⟩
  · rw [ht] at ha
    exact h.committed a ha
  · rw [ht] at ha
    exact h.view hi hx a ha

end

/-! ## The terms -/

theorem WorkInv.overlay_terms {t : Tables} {x : Xid} {w : Work} (h : WorkInv t x w) :
    (w.overlay t).accounts.map (·.terms) = (t.accounts ++ w.accounts).map (·.terms) := by
  rw [Work.overlay_accounts h.untruncated, List.map_map]
  exact List.map_congr_left fun a ha => h.current_terms ha

theorem WorkInv.overlay_ids {t : Tables} {x : Xid} {w : Work} (h : WorkInv t x w) :
    Distinct (·.id) (w.overlay t).accounts := by
  rw [Work.overlay_accounts h.untruncated]
  exact h.accountIds.map fun a _ => w.current_id a

def Tables.Holds (t : Tables) (a : Row.Account) : Prop :=
  (∃ b ∈ t.accounts, b.terms = a.terms) ∧ ∀ b ∈ t.accounts, b.id = a.id → b.terms = a.terms

theorem Tables.holds_of_mem {t : Tables} {a : Row.Account} (hd : Distinct (·.id) t.accounts)
    (h : a.terms ∈ t.accounts.map (·.terms)) : t.Holds a := by
  obtain ⟨b, hb, hba⟩ := List.mem_map.mp h
  refine ⟨⟨b, hb, hba⟩, fun c hc hid => ?_⟩
  rw [hd.eq hc hb (hid.trans (congrArg (·.1) hba).symm), hba]

theorem DbInv.view_holds {db : Db} (h : DbInv db) {x : Xid} {txn : Txn} (hx : db.txns x = some txn)
    {a : Row.Account} (ha : db.tables.Holds a) : (txn.work.overlay db.tables).Holds a := by
  obtain ⟨⟨b, hb, hba⟩, -⟩ := ha
  refine Tables.holds_of_mem (h.work hx).overlay_ids ?_
  rw [(h.work hx).overlay_terms, ← hba]
  exact List.mem_map_of_mem (List.mem_append_left _ hb)

theorem DbInv.step_holds {sch : Schema} {db db' : Db} {cmd : Cmd} (h : DbInv db) (hs : db.step sch cmd = some db')
    {a : Row.Account} (ha : db.tables.Holds a) : db'.tables.Holds a := by
  rcases Db.step_tables hs with ht | ⟨x, txn, -, hx, -, -, ht⟩
  · rw [ht]; exact ha
  · rw [ht]; exact h.view_holds hx ha

theorem DbInv.update_terms {sch : Schema} {db : Db} (h : DbInv db) {x : Xid} {txn : Txn} (hx : db.txns x = some txn)
    {cond : Row.Account → Bool} {set : Row.Account → SetAccount} {w : Work} {r : Option Row.Account}
    (hex : db.exec sch x txn (.updateAccounts cond set) = .ok (w, r)) :
    (w.overlay db.tables).accounts.map (·.terms) = (txn.work.overlay db.tables).accounts.map (·.terms) ∧
      (w.overlay db.tables).transactions = (txn.work.overlay db.tables).transactions ∧
      (w.overlay db.tables).entries = (txn.work.overlay db.tables).entries := by
  have hw := exec_ok h.bounded rfl hex
  rw [(hw.workInv (h.work hx)).overlay_terms, (h.work hx).overlay_terms]
  cases hw with
  | same => exact ⟨rfl, rfl, rfl⟩
  | update => exact ⟨rfl, rfl, rfl⟩

/-- **Invariant #2 against any client.** In every run of any statements but `TRUNCATE`, a
committed account without the flag is in every later committed state and in every
session's view of it, under the same id, name, currency, flag and creation time, and its
balance is never a number below zero; and an accepted `UPDATE` changes balances only. -/
theorem accounts_keep_floor_and_terms {db db' : Db}
    (h : Reach (Db.step {}) (fun _ c => c.truncates = false) Db.init db)
    (h' : Reach (Db.step {}) (fun _ c => c.truncates = false) db db') :
    (∀ a ∈ db.tables.accounts, a.allowsNegativeBalance = false →
      ∀ t, (t = db'.tables ∨ ∃ x txn, db'.txns x = some txn ∧ t = txn.work.overlay db'.tables) →
        (∃ b ∈ t.accounts, b.terms = a.terms) ∧
        ∀ b ∈ t.accounts, b.id = a.id → b.terms = a.terms ∧ b.balance.val.lt (.num 0) = false) ∧
    (∀ x txn, db'.txns x = some txn → ∀ a ∈ (txn.work.overlay db'.tables).accounts,
      a.allowsNegativeBalance = false → a.balance.val.lt (.num 0) = false) ∧
    ∀ x txn cond set w r, db'.txns x = some txn → db'.exec {} x txn (.updateAccounts cond set) = .ok (w, r) →
      (w.overlay db'.tables).accounts.map (·.terms) = (txn.work.overlay db'.tables).accounts.map (·.terms) ∧
      (w.overlay db'.tables).transactions = (txn.work.overlay db'.tables).transactions ∧
      (w.overlay db'.tables).entries = (txn.work.overlay db'.tables).entries := by
  have step : ∀ d c d', (DbInv d ∧ FloorInv d) → c.truncates = false → d.step {} c = some d' →
      DbInv d' ∧ FloorInv d' := fun _ _ _ hp hc hs => ⟨hp.1.step hc hs, hp.2.step hp.1 hc hs⟩
  have hdb := h.invariant (P := fun d => DbInv d ∧ FloorInv d) step ⟨DbInv.init, FloorInv.init⟩
  obtain ⟨hi, hf⟩ := h'.invariant (P := fun d => DbInv d ∧ FloorInv d) step hdb
  refine ⟨fun a ha hflag t ht => ?_, fun x txn hx => hf.view hi hx, fun x txn cond set w r hx => hi.update_terms hx⟩
  have hkept : DbInv db' ∧ db'.tables.Holds a := by
    refine h'.invariant (P := fun d => DbInv d ∧ d.tables.Holds a) ?_
      ⟨hdb.1, Tables.holds_of_mem hdb.1.tables.accountIds (List.mem_map_of_mem ha)⟩
    rintro d c d' ⟨hd, hh⟩ hc hs
    exact ⟨hd.step hc hs, hd.step_holds hs hh⟩
  have hview : t.Holds a ∧ ∀ b ∈ t.accounts, b.AboveFloor := by
    rcases ht with rfl | ⟨x, txn, hx, rfl⟩
    · exact ⟨hkept.2, hf.committed⟩
    · exact ⟨hi.view_holds hx hkept.2, hf.view hi hx⟩
  refine ⟨hview.1.1, fun b hb hid => ?_⟩
  have hterms := hview.1.2 b hb hid
  have hbf : b.allowsNegativeBalance = false := (congrArg (·.2.2.2.1) hterms).trans hflag
  exact ⟨hterms, hview.2 b hb hbf⟩

/-- Sets the balance of every account to `NaN`, and tries to clear the flag with `NULL`. -/
def nanBalance : List Cmd :=
  let set (flag : Option Bool) (a : Row.Account) : SetAccount :=
    { id := some a.id, name := some a.name, currency := some a.currency, balance := some .nan
      allowsNegativeBalance := flag, createdAt := some a.createdAt }
  [.begin 0, .stmt 1 (.updateAccounts (fun _ => true) fun a => set (some a.allowsNegativeBalance) a), .commit 1,
    .begin 0, .stmt 2 (.updateAccounts (fun _ => true) (set none)), .commit 2]

theorem accounts_keep_floor_and_terms_nan : ∃ db db' : Db,
    db.tables.accounts.map (fun a => (a.id, a.allowsNegativeBalance)) = [(1, true), (2, false)] ∧
    db'.tables.accounts.map (·.balance.val) = [.nan, .nan] ∧
    ∃ b ∈ db'.tables.accounts, b.id = 2 ∧ b.allowsNegativeBalance = false := by
  have hrun : ((exec (Db.step {}) Db.init oneTransfer).bind fun db =>
      (exec (Db.step {}) db nanBalance).map fun db' =>
        (db.tables.accounts.map (fun a => (a.id, a.allowsNegativeBalance)),
          db'.tables.accounts.map (·.balance.val))) = some ([(1, true), (2, false)], [.nan, .nan]) := by
    decide +kernel
  obtain ⟨db, hdb, hrun⟩ := Option.bind_eq_some_iff.mp hrun
  obtain ⟨db', hdb', hrun⟩ := Option.map_eq_some_iff.mp hrun
  obtain ⟨hacc, hbal⟩ := Prod.mk.inj hrun
  have plain : ∀ c ∈ nanBalance, c.truncates = false := by
    unfold nanBalance; simp [Cmd.truncates, Stmt.isTruncate]
  have h := accounts_keep_floor_and_terms (reach_of_exec (fun _ => oneTransfer_plain) hdb)
    (reach_of_exec (fun _ => plain) hdb')
  have hm : (2, false) ∈ db.tables.accounts.map (fun a => (a.id, a.allowsNegativeBalance)) := by rw [hacc]; simp
  obtain ⟨a, ha, hid⟩ := List.mem_map.mp hm
  obtain ⟨hid, hflag⟩ := Prod.mk.inj hid
  obtain ⟨⟨b, hb, hterms⟩, -⟩ := h.1 a ha hflag _ (Or.inl rfl)
  exact ⟨db, db', hacc, hbal, b, hb, (congrArg (·.1) hterms).trans hid,
    (congrArg (·.2.2.2.1) hterms).trans hflag⟩

end Ledger
