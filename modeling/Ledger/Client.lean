import Ledger.DbInv

/-!
# Arbitrary SQL clients

Any number of sessions, each running any statements on the three tables with any
column values. What the schema promises them alone: a committed transaction's
entries balance and never change, rows are only ever added, and entries come from
the database transaction that wrote their parent.
-/

namespace Ledger

open Keyed Runs

theorem balanced_ok {entries : List Row.Entry} {tid : Uuid} (h : assertTransactionBalanced entries tid = .ok ()) :
    2 ≤ (entries.filter fun e => e.transactionId = tid).length ∧
      (∃ c, ∀ e ∈ entries, e.transactionId = tid → e.currency = c) ∧
      ((entries.filter fun e => e.transactionId = tid).map (·.signed)).sum = 0 := by
  obtain ⟨hlen, hcur, hsum⟩ := assertTransactionBalanced_ok.mp h
  refine ⟨hlen, ?_, hsum⟩
  obtain ⟨first, hfirst⟩ := List.exists_mem_of_length_pos (Nat.lt_of_lt_of_le Nat.zero_lt_two hlen)
  refine ⟨first.currency, fun e he ht => ?_⟩
  exact (dedup_length_one (List.mem_map_of_mem hfirst)).mp hcur _
    (List.mem_map_of_mem (List.mem_filter.mpr ⟨he, decide_eq_true ht⟩))

theorem TablesInv.currency_sum {t : Tables} (h : TablesInv t) (c : String) :
    ((t.entries.filter fun e => e.currency = c).map (·.signed)).sum = 0 := by
  refine sum_filter_eq_zero Row.Entry.transactionId Row.Entry.signed (fun a ha b hb hab => ?_) fun a ha => ?_
  · obtain ⟨-, ⟨d, hd⟩, -⟩ := balanced_ok (h.balanced b hb)
    rw [hd a ha hab, hd b hb rfl]
  · exact (balanced_ok (h.balanced a ha)).2.2

theorem client_inv {sch : Schema} {db : Db} (h : Reach (Db.step sch) (fun _ c => c.truncates = false) Db.init db) :
    DbInv db :=
  h.invariant (fun _ _ _ hi hc hs => hi.step hc hs) DbInv.init

theorem DbInv.entries_fixed {sch : Schema} {db db' : Db} {cmd : Cmd} (h : DbInv db)
    (hs : db.step sch cmd = some db') {e : Row.Entry} (he : e ∈ db.tables.entries) :
    db'.tables.entries.filter (fun e' => e'.transactionId = e.transactionId) =
      db.tables.entries.filter fun e' => e'.transactionId = e.transactionId := by
  rcases Db.step_tables hs with ht | ⟨x, txn, -, hx, -, -, ht⟩
  · rw [ht]
  · rw [ht]; exact h.filter_fixed hx he

/-- **Invariant #1 against any client.** In every committed state a transaction with
entries has at least two, in one currency that is also their accounts', netting to
exactly zero; they never change again; so every currency nets to zero. -/
theorem committed_entries_balance (sch : Schema) {db : Db}
    (h : Reach (Db.step sch) (fun _ c => c.truncates = false) Db.init db) :
    (∀ e ∈ db.tables.entries,
      2 ≤ (db.tables.entries.filter fun e' => e'.transactionId = e.transactionId).length ∧
      (∀ e' ∈ db.tables.entries, e'.transactionId = e.transactionId → e'.currency = e.currency ∧
        (∃ a ∈ db.tables.accounts, a.id = e'.accountId) ∧
        ∀ a ∈ db.tables.accounts, a.id = e'.accountId → a.currency = e'.currency) ∧
      ((db.tables.entries.filter fun e' => e'.transactionId = e.transactionId).map (·.signed)).sum = 0) ∧
    (∀ db', Reach (Db.step sch) (fun _ c => c.truncates = false) db db' → ∀ e ∈ db.tables.entries,
      db'.tables.entries.filter (fun e' => e'.transactionId = e.transactionId) =
        db.tables.entries.filter fun e' => e'.transactionId = e.transactionId) ∧
    ∀ c, ((db.tables.entries.filter fun e => e.currency = c).map (·.signed)).sum = 0 := by
  have hi := client_inv h
  refine ⟨fun e he => ?_, fun db' h' e he => ?_, hi.tables.currency_sum⟩
  · obtain ⟨hlen, ⟨c, hc⟩, hsum⟩ := balanced_ok (hi.tables.balanced e he)
    refine ⟨hlen, fun e' he' ht => ⟨(hc e' he' ht).trans (hc e he rfl).symm, ?_, ?_⟩, hsum⟩
    · obtain ⟨a, ha, hid, -⟩ := hi.tables.account e' he'
      exact ⟨a, ha, hid⟩
    · intro a ha hid
      obtain ⟨b, hb, hbid, hbc⟩ := hi.tables.account e' he'
      rw [hi.tables.accountIds.eq ha hb (hid.trans hbid.symm), hbc]
  · -- the entry stays, so the next step still finds it
    have : DbInv db' ∧ db'.tables.entries.filter (fun e' => e'.transactionId = e.transactionId) =
        db.tables.entries.filter fun e' => e'.transactionId = e.transactionId := by
      refine h'.invariant (P := fun d => DbInv d ∧ d.tables.entries.filter (fun e' => e'.transactionId =
        e.transactionId) = db.tables.entries.filter fun e' => e'.transactionId = e.transactionId) ?_ ⟨hi, rfl⟩
      rintro a cmd b ⟨ha, hf⟩ hc hs
      refine ⟨ha.step hc hs, ?_⟩
      have hm : e ∈ a.tables.entries := by
        have : e ∈ db.tables.entries.filter fun e' => e'.transactionId = e.transactionId := by
          simp [he]
        rw [← hf] at this
        exact (List.mem_filter.mp this).1
      rw [ha.entries_fixed hs hm, hf]
    exact this.2

/-! One session that opens two accounts and moves a unit between them. -/

def newAccount (id : Uuid) (funding : Bool) : NewAccount where
  id := .val id
  name := .val "account"
  currency := .val "EUR"
  allowsNegativeBalance := .val funding

def newTransaction (createdXid : Col Xid) : NewTransaction where
  id := .val 3
  idempotencyKey := .val "key"
  requestHash := .val (List.replicate 32 0)
  description := .val "rent"
  createdXid := createdXid

def newEntry (id accountId : Uuid) (direction : Direction) : NewEntry where
  id := .val id
  transactionId := .val 3
  accountId := .val accountId
  direction := .val direction
  amount := .val (.num 1 0)
  currency := .val "EUR"

def oneTransfer : List Cmd :=
  [.begin 0, .stmt 0 (.insertAccount (newAccount 1 true)), .stmt 0 (.insertAccount (newAccount 2 false)),
    .stmt 0 (.insertTransaction (newTransaction .default)), .stmt 0 (.insertEntry (newEntry 4 1 .credit)),
    .stmt 0 (.insertEntry (newEntry 5 2 .debit)), .commit 0]

theorem oneTransfer_entries : ∃ db, exec (Db.step {}) Db.init oneTransfer = some db ∧
    db.tables.entries.map (·.id) = [4, 5] := by
  rw [← Option.map_eq_some_iff]
  decide +kernel

theorem oneTransfer_plain : ∀ c ∈ oneTransfer, c.truncates = false := by
  unfold oneTransfer; simp [Cmd.truncates, Stmt.isTruncate]

theorem committed_entries_balance_oneTransfer : ∃ db : Db, db.tables.entries.map (·.id) = [4, 5] ∧
    ((db.tables.entries.filter fun e => e.currency = "EUR").map (·.signed)).sum = 0 := by
  obtain ⟨db, hdb, he⟩ := oneTransfer_entries
  have h := committed_entries_balance {} (reach_of_exec (fun _ => oneTransfer_plain) hdb)
  exact ⟨db, he, h.2.2 "EUR"⟩

/-! ## Append-only -/

def Tables.Empty (t : Tables) : Table → Prop
  | .accounts => t.accounts = []
  | .transactions => t.transactions = []
  | .entries => t.entries = []

/-- The command commits a transaction whose `TRUNCATE` has emptied a table with rows in it. -/
def Db.CommitsTruncation (db : Db) (cmd : Cmd) : Prop :=
  ∃ x txn, cmd = .commit x ∧ db.txns x = some txn ∧ txn.aborted = false ∧ db.deferred txn = .ok () ∧
    ∃ t ∈ txn.work.truncated, ¬ db.tables.Empty t

/-- Nothing is lost from `t` to `t'`: rows of the log stay as they are, accounts keep their ids. -/
structure Tables.Keeps (t t' : Tables) : Prop where
  transactions : ∀ r ∈ t.transactions, r ∈ t'.transactions
  entries : ∀ e ∈ t.entries, e ∈ t'.entries
  accounts : ∀ a ∈ t.accounts, ∃ b ∈ t'.accounts, b.id = a.id

theorem Tables.Keeps.refl (t : Tables) : t.Keeps t := ⟨fun _ h => h, fun _ h => h, fun a h => ⟨a, h, rfl⟩⟩

theorem Tables.Keeps.trans {t₁ t₂ t₃ : Tables} (h : t₁.Keeps t₂) (h' : t₂.Keeps t₃) : t₁.Keeps t₃ where
  transactions r hr := h'.transactions r (h.transactions r hr)
  entries e he := h'.entries e (h.entries e he)
  accounts a ha := by
    obtain ⟨b, hb, hba⟩ := h.accounts a ha
    obtain ⟨c, hc, hcb⟩ := h'.accounts b hb
    exact ⟨c, hc, hcb.trans hba⟩

theorem Work.overlay_keeps {w : Work} {t : Tables} (h : ∀ s ∈ w.truncated, t.Empty s) : t.Keeps (w.overlay t) where
  transactions r hr := by
    have hn : Table.transactions ∉ w.truncated := fun hm => by
      have : t.transactions = [] := h _ hm
      rw [this] at hr; cases hr
    simp [Work.overlay, hn, hr]
  entries e he := by
    have hn : Table.entries ∉ w.truncated := fun hm => by
      have : t.entries = [] := h _ hm
      rw [this] at he; cases he
    simp [Work.overlay, hn, he]
  accounts a ha := by
    have hn : Table.accounts ∉ w.truncated := fun hm => by
      have : t.accounts = [] := h _ hm
      rw [this] at ha; cases ha
    refine ⟨w.current a, ?_, w.current_id a⟩
    simp only [Work.overlay, hn, ite_false]
    exact List.mem_map_of_mem (List.mem_append_left _ ha)

theorem Db.step_keeps {sch : Schema} {db db' : Db} {cmd : Cmd} (hc : ¬ db.CommitsTruncation cmd)
    (hs : db.step sch cmd = some db') : db.tables.Keeps db'.tables := by
  rcases Db.step_tables hs with ht | ⟨x, txn, hcmd, hx, hab, hd, ht⟩
  · rw [ht]; exact Tables.Keeps.refl _
  · rw [ht]
    refine Work.overlay_keeps fun s hm => ?_
    by_contra hne
    exact hc ⟨x, txn, hcmd, hx, hab, hd, s, hm, hne⟩

theorem DbInv.not_commitsTruncation {db : Db} (h : DbInv db) (cmd : Cmd) : ¬ db.CommitsTruncation cmd := by
  rintro ⟨x, txn, -, hx, -, -, t, ht, -⟩
  rw [(h.work hx).untruncated] at ht
  cases ht

/-- **Append-only.** As long as no truncation of a table with rows is committed, every
committed transaction, entry and account id is in every later committed state. -/
theorem committed_rows_stay (sch : Schema) {db db' : Db}
    (h : Reach (Db.step sch) (fun d c => ¬ d.CommitsTruncation c) db db') :
    (∀ r ∈ db.tables.transactions, r ∈ db'.tables.transactions) ∧
      (∀ e ∈ db.tables.entries, e ∈ db'.tables.entries) ∧
      ∀ a ∈ db.tables.accounts, ∃ b ∈ db'.tables.accounts, b.id = a.id := by
  have hk : db.tables.Keeps db'.tables :=
    h.rel (R := fun d d' => d.tables.Keeps d'.tables) (P := fun _ => True)
      (fun _ => Tables.Keeps.refl _) (fun _ _ _ => Tables.Keeps.trans) (fun _ _ _ _ _ _ => trivial)
      (fun _ _ _ _ hc hs => Db.step_keeps hc hs) trivial
  exact ⟨hk.transactions, hk.entries, hk.accounts⟩

theorem committed_rows_stay_oneTransfer : ∃ db db' : Db, db.tables.entries.map (·.id) = [4, 5] ∧
    db'.nextXid = db.nextXid + 1 ∧ ∀ e ∈ db.tables.entries, e ∈ db'.tables.entries := by
  obtain ⟨db, hdb, he⟩ := oneTransfer_entries
  have h : Reach (Db.step {}) (fun _ c => c.truncates = false) Db.init db :=
    reach_of_exec (fun _ => oneTransfer_plain) hdb
  have hs := committed_rows_stay {}
    (Reach.one (Cmd.begin 0) ((client_inv h).not_commitsTruncation _) (b := db.begin 0) rfl)
  exact ⟨db, db.begin 0, he, rfl, hs.2.1⟩

def truncateEntries : List Cmd := [.begin 0, .stmt 1 (.truncate [.entries] false), .commit 1]

/-- `TRUNCATE` fires no row trigger: once it commits, the committed entries are gone. -/
theorem truncate_loses_entries : ∃ db db', Reach (Db.step {}) (fun _ _ => True) Db.init db ∧
    Reach (Db.step {}) (fun _ _ => True) db db' ∧ ∃ e ∈ db.tables.entries, e ∉ db'.tables.entries := by
  have h : ((exec (Db.step {}) Db.init oneTransfer).bind fun db =>
      (exec (Db.step {}) db truncateEntries).map fun db' => (db.tables.entries.map (·.id), db'.tables.entries)) =
      some ([4, 5], []) := by decide +kernel
  obtain ⟨db, hdb, h⟩ := Option.bind_eq_some_iff.mp h
  obtain ⟨db', hdb', h⟩ := Option.map_eq_some_iff.mp h
  have hne : db.tables.entries ≠ [] := by
    intro hn
    simp [hn] at h
  obtain ⟨e, he⟩ := List.exists_mem_of_ne_nil _ hne
  refine ⟨db, db', reach_of_exec (fun _ _ _ => trivial) hdb, reach_of_exec (fun _ _ _ => trivial) hdb', e, he, ?_⟩
  rw [(Prod.mk.inj h).2]
  exact List.not_mem_nil

/-! ## Entries and their parents -/

def Db.Ended (db : Db) (c : Xid) : Prop := c < db.nextXid ∧ db.txns c = none

/-- The command commits a transactions row that names another database transaction, one
that is not over, in `created_xid`. -/
def Db.CommitsForeignXid (db : Db) (cmd : Cmd) : Prop :=
  ∃ x txn, cmd = .commit x ∧ db.txns x = some txn ∧ txn.aborted = false ∧ db.deferred txn = .ok () ∧
    ∃ r ∈ txn.work.transactions, r.createdXid ≠ x ∧ ¬ db.Ended r.createdXid

/-- An `INSERT` on transactions that fills `created_xid` does so with its own id or
with that of a database transaction that is over. -/
def Db.HonestXid (db : Db) : Cmd → Prop
  | .stmt x (.insertTransaction new) => ∀ c, new.createdXid = .val c → c = x ∨ db.Ended c
  | _ => True

theorem Db.put_txns {db : Db} {x y : Xid} {txn ty : Txn} (h : (db.put x txn).txns y = some ty) :
    (y = x ∧ ty = txn) ∨ (y ≠ x ∧ db.txns y = some ty) := by
  by_cases hyx : y = x
  · subst hyx
    simp only [Db.put, Function.update_self, Option.some.injEq] at h
    exact Or.inl ⟨rfl, h.symm⟩
  · simp only [Db.put, Function.update_of_ne hyx] at h
    exact Or.inr ⟨hyx, h⟩

theorem Db.close_txns {db : Db} {x y : Xid} {ty : Txn} (h : (db.close x).txns y = some ty) :
    y ≠ x ∧ db.txns y = some ty := by
  by_cases hyx : y = x
  · subst hyx; simp [Db.close] at h
  · simp only [Db.close, Function.update_of_ne hyx] at h
    exact ⟨hyx, h⟩

theorem Txn.innermost (txn : Txn) : (txn.savepoints.head?.map (·.2)).getD {} = {} ∨
    (txn.savepoints.head?.map (·.2)).getD {} ∈ txn.works := by
  unfold Txn.works
  cases txn.savepoints with
  | nil => exact Or.inl rfl
  | cons p rest => simp

/-- Where a transaction's writes come from: they were there before, at some savepoint
or now, they are empty, or the statement just run has left them. -/
theorem Db.step_works {sch : Schema} {db db' : Db} {cmd : Cmd} (hs : db.step sch cmd = some db') {y : Xid}
    {ty : Txn} (hy : db'.txns y = some ty) {w : Work} (hw : w ∈ ty.works) :
    (y = db.nextXid ∧ w = {}) ∨ ∃ ty₀, db.txns y = some ty₀ ∧
      (w = {} ∨ w ∈ ty₀.works ∨ ∃ s r, cmd = .stmt y s ∧ db.exec sch y ty₀ s = .ok (w, r)) := by
  have kept : ∀ {t : Txn}, db.txns y = some t → w ∈ t.works → (y = db.nextXid ∧ w = {}) ∨
      ∃ ty₀, db.txns y = some ty₀ ∧
        (w = {} ∨ w ∈ ty₀.works ∨ ∃ s r, cmd = .stmt y s ∧ db.exec sch y ty₀ s = .ok (w, r)) :=
    fun ht hm => Or.inr ⟨_, ht, Or.inr (Or.inl hm)⟩
  have failed : ∀ {x : Xid} {t : Txn}, db.txns x = some t → (db.fail x t).txns y = some ty →
      (y = db.nextXid ∧ w = {}) ∨ ∃ ty₀, db.txns y = some ty₀ ∧
        (w = {} ∨ w ∈ ty₀.works ∨ ∃ s r, cmd = .stmt y s ∧ db.exec sch y ty₀ s = .ok (w, r)) := by
    intro x t hx hf
    rcases Db.put_txns hf with ⟨rfl, rfl⟩ | ⟨-, hy'⟩
    · rcases List.mem_cons.mp hw with rfl | hm
      · exact (Txn.innermost t).elim (fun he => Or.inr ⟨t, hx, Or.inl he⟩) (kept hx)
      · exact kept hx (List.mem_cons_of_mem _ hm)
    · exact kept hy' hw
  cases cmd with
  | begin now =>
    cases hs
    simp only [Db.begin] at hy
    rcases Db.put_txns hy with ⟨hn, rfl⟩ | ⟨-, hy'⟩
    · exact Or.inl ⟨hn, by simpa [Txn.works] using hw⟩
    · exact kept hy' hw
  | stmt x s =>
    simp only [Db.step, Option.bind_eq_some_iff] at hs
    obtain ⟨t, hx, hs⟩ := hs
    split at hs
    · cases hs; exact failed hx hy
    split at hs
    · rename_i v r hv
      cases hs
      rcases Db.put_txns hy with ⟨rfl, rfl⟩ | ⟨-, hy'⟩
      · rcases List.mem_cons.mp hw with rfl | hm
        · exact Or.inr ⟨t, hx, Or.inr (Or.inr ⟨s, r, rfl, hv⟩)⟩
        · exact kept hx (List.mem_cons_of_mem _ hm)
      · exact kept hy' hw
    · cases hs; exact failed hx hy
    · cases hs
  | fail x =>
    simp only [Db.step, Option.map_eq_some_iff] at hs
    obtain ⟨t, hx, rfl⟩ := hs
    exact failed hx hy
  | savepoint x name =>
    simp only [Db.step, Option.bind_eq_some_iff] at hs
    obtain ⟨t, hx, hs⟩ := hs
    split at hs <;> cases hs
    rcases Db.put_txns hy with ⟨rfl, rfl⟩ | ⟨-, hy'⟩
    · refine kept hx ?_
      rcases List.mem_cons.mp hw with rfl | hm
      · exact List.mem_cons_self ..
      · exact hm
    · exact kept hy' hw
  | rollbackTo x name =>
    simp only [Db.step, Option.bind_eq_some_iff] at hs
    obtain ⟨t, hx, hs⟩ := hs
    split at hs
    · cases hs; exact failed hx hy
    rename_i n v rest hd
    cases hs
    have hsub := (hd ▸ List.dropWhile_sublist _ : ((n, v) :: rest).Sublist t.savepoints).map (·.2)
    rcases Db.put_txns hy with ⟨rfl, rfl⟩ | ⟨-, hy'⟩
    · refine kept hx (List.mem_cons_of_mem _ (hsub.subset ?_))
      rcases List.mem_cons.mp hw with rfl | hm
      · exact List.mem_cons_self ..
      · exact hm
    · exact kept hy' hw
  | release x name =>
    simp only [Db.step, Option.bind_eq_some_iff] at hs
    obtain ⟨t, hx, hs⟩ := hs
    split at hs
    · cases hs
    split at hs
    · cases hs; exact failed hx hy
    rename_i p rest hd
    cases hs
    have hsub := ((List.sublist_cons_self p rest).trans (hd ▸ List.dropWhile_sublist _ :
      (p :: rest).Sublist t.savepoints)).map (·.2)
    rcases Db.put_txns hy with ⟨rfl, rfl⟩ | ⟨-, hy'⟩
    · refine kept hx ?_
      rcases List.mem_cons.mp hw with rfl | hm
      · exact List.mem_cons_self ..
      · exact List.mem_cons_of_mem _ (hsub.subset hm)
    · exact kept hy' hw
  | commit x =>
    have hcl : (db.close x).txns y = some ty := by
      obtain ⟨_, -, rfl | ⟨-, -, rfl⟩⟩ := Db.step_commit hs <;> exact hy
    exact kept (Db.close_txns hcl).2 hw
  | rollback x =>
    simp only [Db.step, Option.map_eq_some_iff] at hs
    obtain ⟨t, hx, rfl⟩ := hs
    exact kept (Db.close_txns hy).2 hw

structure XidInv (db : Db) : Prop where
  committed : ∀ r ∈ db.tables.transactions, db.Ended r.createdXid
  parent : ∀ e ∈ db.tables.entries, ∃ r ∈ db.tables.transactions, r.id = e.transactionId ∧ r.xmin = e.xmin

theorem Db.step_nextXid {sch : Schema} {db db' : Db} {cmd : Cmd} (hs : db.step sch cmd = some db') :
    db.nextXid ≤ db'.nextXid := by
  cases cmd with
  | begin now => cases hs; exact Nat.le_succ _
  | stmt x s =>
    simp only [Db.step, Option.bind_eq_some_iff] at hs
    obtain ⟨txn, -, hs⟩ := hs
    split at hs
    · cases hs; exact Nat.le_refl _
    · split at hs <;> cases hs <;> exact Nat.le_refl _
  | fail x | rollback x =>
    simp only [Db.step, Option.map_eq_some_iff] at hs
    obtain ⟨txn, -, rfl⟩ := hs
    exact Nat.le_refl _
  | savepoint x name =>
    simp only [Db.step, Option.bind_eq_some_iff] at hs
    obtain ⟨txn, -, hs⟩ := hs
    split at hs <;> cases hs
    exact Nat.le_refl _
  | rollbackTo x name =>
    simp only [Db.step, Option.bind_eq_some_iff] at hs
    obtain ⟨txn, -, hs⟩ := hs
    split at hs <;> cases hs <;> exact Nat.le_refl _
  | release x name =>
    simp only [Db.step, Option.bind_eq_some_iff] at hs
    obtain ⟨txn, -, hs⟩ := hs
    split at hs
    · cases hs
    · split at hs <;> cases hs <;> exact Nat.le_refl _
  | commit x =>
    obtain ⟨_, -, rfl | ⟨-, -, rfl⟩⟩ := Db.step_commit hs <;> exact Nat.le_refl _

theorem Db.Ended.step {sch : Schema} {db db' : Db} {cmd : Cmd} {c : Xid} (h : db.Ended c)
    (hs : db.step sch cmd = some db') : db'.Ended c := by
  refine ⟨Nat.lt_of_lt_of_le h.1 (Db.step_nextXid hs), ?_⟩
  cases hc : db'.txns c with
  | none => rfl
  | some ty =>
    rcases Db.step_works hs hc (w := ty.work) (List.mem_cons_self ..) with ⟨he, -⟩ | ⟨t, ht, -⟩
    · exact absurd he h.1.ne
    · rw [h.2] at ht; cases ht

theorem XidInv.own_parent {db : Db} (hi : DbInv db) (h : XidInv db) {x : Xid} {txn : Txn}
    (hx : db.txns x = some txn) {e : Row.Entry} (he : e ∈ txn.work.entries) :
    ∃ r ∈ txn.work.transactions, r.id = e.transactionId ∧ r.xmin = e.xmin := by
  have hw := hi.work hx
  obtain ⟨r, hr, hid, hrx⟩ := hw.parent e he
  rcases List.mem_append.mp hr with hr | hr
  · have := (h.committed r hr).2
    rw [hrx, hx] at this; cases this
  · exact ⟨r, hr, hid, (hw.txnWriter r hr).trans (hw.entryWriter e he).symm⟩

theorem XidInv.step {sch : Schema} {db db' : Db} {cmd : Cmd} (hi : DbInv db) (h : XidInv db)
    (hc : ¬ db.CommitsForeignXid cmd) (hs : db.step sch cmd = some db') : XidInv db' := by
  rcases Db.step_tables hs with htab | ⟨x, txn, rfl, hx, hab, hd, htab⟩
  · exact ⟨fun r hr => (h.committed r (htab ▸ hr)).step hs, by rw [htab]; exact h.parent⟩
  · have hw := hi.work hx
    refine ⟨fun r hr => ?_, fun e he => ?_⟩
    · rw [htab, Work.overlay_transactions hw.untruncated] at hr
      rcases List.mem_append.mp hr with hr | hr
      · exact (h.committed r hr).step hs
      · by_cases hrx : r.createdXid = x
        · refine ⟨Nat.lt_of_lt_of_le (hrx ▸ hi.lt_nextXid hx) (Db.step_nextXid hs), ?_⟩
          rw [hrx]
          cases hcx : db'.txns x with
          | none => rfl
          | some ty =>
            have hcl : (db.close x).txns x = some ty := by
              obtain ⟨_, -, rfl | ⟨-, -, rfl⟩⟩ := Db.step_commit hs <;> exact hcx
            exact absurd rfl (Db.close_txns hcl).1
        · refine Db.Ended.step ?_ hs
          by_contra hne
          exact hc ⟨x, txn, rfl, hx, hab, hd, r, hr, hrx, hne⟩
    · rw [htab, Work.overlay_entries hw.untruncated] at he
      rw [htab, Work.overlay_transactions hw.untruncated]
      rcases List.mem_append.mp he with he | he
      · obtain ⟨r, hr, h1⟩ := h.parent e he
        exact ⟨r, List.mem_append_left _ hr, h1⟩
      · obtain ⟨r, hr, h1⟩ := h.own_parent hi hx he
        exact ⟨r, List.mem_append_right _ hr, h1⟩

theorem XidInv.no_extension {sch : Schema} {db db' : Db} {cmd : Cmd} (hi : DbInv db) (h : XidInv db)
    (hs : db.step sch cmd = some db') {r : Row.Transaction} (hr : r ∈ db.tables.transactions) :
    db'.tables.entries.filter (fun e => e.transactionId = r.id) =
      db.tables.entries.filter fun e => e.transactionId = r.id := by
  rcases Db.step_tables hs with htab | ⟨x, txn, -, hx, -, -, htab⟩
  · rw [htab]
  · have hw := hi.work hx
    have hn : txn.work.entries.filter (fun e => e.transactionId = r.id) = [] := by
      rw [List.filter_eq_nil_iff]
      intro e he heq
      obtain ⟨r', hr', hid, -⟩ := h.own_parent hi hx he
      have hd := (distinct_append.mp hw.transactionIds).2.2 r hr r' hr'
      exact hd ((by simpa using heq : e.transactionId = r.id).symm.trans hid.symm)
    rw [htab, Work.overlay_entries hw.untruncated, List.filter_append, hn, List.append_nil]

theorem XidInv.init : XidInv Db.init where
  committed r hr := by cases hr
  parent e he := by cases he

/-- **Entries come from their parent's own database transaction**, in every run that
commits no row with the id of another unfinished one; so a committed parent's entry set
is final. -/
theorem entries_written_with_parent (sch : Schema) {db : Db}
    (h : Reach (Db.step sch) (fun d c => c.truncates = false ∧ ¬ d.CommitsForeignXid c) Db.init db) :
    (∀ e ∈ db.tables.entries, ∃ r ∈ db.tables.transactions, r.id = e.transactionId ∧ r.xmin = e.xmin) ∧
    (∀ e ∈ db.tables.entries, ∀ r ∈ db.tables.transactions, r.id = e.transactionId → r.xmin = e.xmin) ∧
    ∀ db', Reach (Db.step sch) (fun d c => c.truncates = false ∧ ¬ d.CommitsForeignXid c) db db' →
      ∀ r ∈ db.tables.transactions, db'.tables.entries.filter (fun e => e.transactionId = r.id) =
        db.tables.entries.filter fun e => e.transactionId = r.id := by
  obtain ⟨hi, hx⟩ := h.invariant (P := fun d => DbInv d ∧ XidInv d)
    (fun _ _ _ hp hc hs => ⟨hp.1.step hc.1 hs, hp.2.step hp.1 hc.2 hs⟩) ⟨DbInv.init, XidInv.init⟩
  refine ⟨hx.parent, fun e he r hr hid => ?_, fun db' h' r hr => ?_⟩
  · obtain ⟨r', hr', hid', hw⟩ := hx.parent e he
    rw [hi.tables.transactionIds.eq hr hr' (hid.trans hid'.symm), hw]
  · -- the parent row stays, so every later step finds it committed
    have : (DbInv db' ∧ XidInv db') ∧ r ∈ db'.tables.transactions ∧
        db'.tables.entries.filter (fun e => e.transactionId = r.id) =
          db.tables.entries.filter fun e => e.transactionId = r.id := by
      refine h'.invariant (P := fun d => (DbInv d ∧ XidInv d) ∧ r ∈ d.tables.transactions ∧
        d.tables.entries.filter (fun e => e.transactionId = r.id) =
          db.tables.entries.filter fun e => e.transactionId = r.id) ?_ ⟨⟨hi, hx⟩, hr, rfl⟩
      rintro a cmd b ⟨ha, hm, hf⟩ hc hs
      refine ⟨⟨ha.1.step hc.1 hs, ha.2.step ha.1 hc.2 hs⟩, ?_, (ha.2.no_extension ha.1 hs hm).trans hf⟩
      exact (Db.step_keeps (ha.1.not_commitsTruncation cmd) hs).transactions r hm
    exact this.2.2

/-- The rows that open transactions have written name their own transaction, or one that is over. -/
def Db.WritesOwnXid (db : Db) : Prop :=
  ∀ x txn, db.txns x = some txn → ∀ w ∈ txn.works, ∀ r ∈ w.transactions, r.createdXid = x ∨ db.Ended r.createdXid

theorem Db.WritesOwnXid.step {sch : Schema} {db db' : Db} {cmd : Cmd} (hi : DbInv db) (h : db.WritesOwnXid)
    (ht : cmd.truncates = false) (hc : db.HonestXid cmd) (hs : db.step sch cmd = some db') : db'.WritesOwnXid := by
  have ended : ∀ {c}, db.Ended c → db'.Ended c := fun hc' => hc'.step hs
  intro y ty hy w hw r hr
  rcases Db.step_works hs hy hw with ⟨-, rfl⟩ | ⟨t, hty, rfl | hw' | ⟨s, row, rfl, hex⟩⟩
  · cases hr
  · cases hr
  · exact (h y t hty w hw' r hr).imp_right ended
  · have old := fun hr' => (h y t hty t.work (List.mem_cons_self ..) r hr').imp_right ended
    cases exec_ok hi.bounded ht hex with
    | @transaction new row' hrow =>
      rcases List.mem_append.mp hr with hr | hr
      · exact old hr
      · rw [List.mem_singleton.mp hr]
        have hval := (NewTransaction.row_ok hrow).2
        cases hcx : new.createdXid with
        | default => rw [hcx, Col.eval, Option.some.injEq] at hval; exact Or.inl hval.symm
        | null => rw [hcx, Col.eval] at hval; cases hval
        | val c =>
          rw [hcx, Col.eval, Option.some.injEq] at hval
          subst hval
          exact (hc _ hcx).imp_right ended
    | same | account | entry | update | lock => exact old hr

theorem Db.honest_commits {sch : Schema} {db : Db}
    (h : Reach (Db.step sch) (fun d c => c.truncates = false ∧ d.HonestXid c) Db.init db) :
    Reach (Db.step sch) (fun d c => c.truncates = false ∧ ¬ d.CommitsForeignXid c) Db.init db := by
  refine h.mono (P := fun d => DbInv d ∧ d.WritesOwnXid)
    (fun _ _ _ hp hc hs => ⟨hp.1.step hc.1 hs, hp.2.step hp.1 hc.1 hc.2 hs⟩) ?_
    ⟨DbInv.init, fun x txn hx => by cases hx⟩
  rintro a cmd ⟨-, hw⟩ hc
  refine ⟨hc.1, ?_⟩
  rintro ⟨x, txn, rfl, hx, -, -, r, hr, hne, hopen⟩
  exact (hw x txn hx txn.work (List.mem_cons_self ..) r hr).elim hne hopen

theorem entries_written_with_parent_oneTransfer : ∃ db : Db, db.tables.entries.map (·.id) = [4, 5] ∧
    ∀ e ∈ db.tables.entries, ∃ r ∈ db.tables.transactions, r.id = e.transactionId ∧ r.xmin = e.xmin := by
  obtain ⟨db, hdb, he⟩ := oneTransfer_entries
  have honest : ∀ d : Db, ∀ c ∈ oneTransfer, c.truncates = false ∧ d.HonestXid c := by
    unfold oneTransfer
    simp [Cmd.truncates, Stmt.isTruncate, Db.HonestXid, newTransaction]
  exact ⟨db, he, (entries_written_with_parent {} (Db.honest_commits (reach_of_exec honest hdb))).1⟩

/-- The claim names the next transaction id as its `created_xid`, so the session that
gets it may write the entries. -/
def lateEntries : List Cmd :=
  [.begin 0, .stmt 0 (.insertAccount (newAccount 1 true)), .stmt 0 (.insertAccount (newAccount 2 false)),
    .stmt 0 (.insertTransaction (newTransaction (.val 1))), .commit 0,
    .begin 0, .stmt 1 (.insertEntry (newEntry 4 1 .credit)), .stmt 1 (.insertEntry (newEntry 5 2 .debit)),
    .commit 1]

theorem supplied_xid_admits_late_entries : ∃ db, Reach (Db.step {}) (fun _ c => c.truncates = false) Db.init db ∧
    ∃ e ∈ db.tables.entries, ∀ r ∈ db.tables.transactions, r.id = e.transactionId → r.xmin ≠ e.xmin := by
  have h : (exec (Db.step {}) Db.init lateEntries).any (fun db => decide (∃ e ∈ db.tables.entries,
      ∀ r ∈ db.tables.transactions, r.id = e.transactionId → r.xmin ≠ e.xmin)) = true := by decide +kernel
  obtain ⟨db, hdb, h⟩ := (Option.any_eq_true _ _).mp h
  have plain : ∀ c ∈ lateEntries, c.truncates = false := by
    unfold lateEntries; simp [Cmd.truncates, Stmt.isTruncate]
  exact ⟨db, reach_of_exec (fun _ => plain) hdb, of_decide_eq_true h⟩

end Ledger
