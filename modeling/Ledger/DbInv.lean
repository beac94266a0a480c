import Ledger.DbSound

/-!
# The invariant of the sessions

`WorkInv` is about one transaction's writes against the committed tables, `Apart`
about the writes of two transactions, `DbInv` about the whole database. A statement
keeps them (`Wrote.inv`), and so does every command of a session.
-/

namespace Ledger

open Keyed

namespace LockMode

theorem conflicts_comm (m n : LockMode) : m.conflicts n = n.conflicts m := by
  cases m <;> cases n <;> rfl

end LockMode

/-! ## A transaction's view -/

namespace Work

theorem current_id (w : Work) (a : Row.Account) : (w.current a).id = a.id := by
  unfold current
  cases h : w.updates.find? fun u => u.id = a.id with
  | none => rfl
  | some u => simpa using List.find?_some h

theorem current_eq {w : Work} {a : Row.Account} (h : ∀ u ∈ w.updates, u.id ≠ a.id) : w.current a = a := by
  unfold current
  rw [List.find?_eq_none.mpr]
  · rfl
  · intro u hu
    simpa using h u hu

theorem current_mem {w : Work} {a : Row.Account} : w.current a = a ∨ w.current a ∈ w.updates := by
  unfold current
  cases h : w.updates.find? fun u => u.id = a.id with
  | none => exact Or.inl rfl
  | some u => exact Or.inr (List.mem_of_find?_eq_some h)

theorem overlay_opened (t : Tables) (accounts : List Row.Account) :
    ({ accounts } : Work).overlay t = { t with accounts := t.accounts ++ accounts } := by
  have hcur : ({ accounts } : Work).current = id := by funext b; rfl
  simp [overlay, hcur]

section
variable {w : Work} (h : w.truncated = []) (t : Tables)
include h

theorem overlay_accounts : (w.overlay t).accounts = (t.accounts ++ w.accounts).map w.current := by
  simp [overlay, h]

theorem overlay_transactions : (w.overlay t).transactions = t.transactions ++ w.transactions := by
  simp [overlay, h]

theorem overlay_entries : (w.overlay t).entries = t.entries ++ w.entries := by
  simp [overlay, h]

end

structure Le (w w' : Work) : Prop where
  accounts : w.accounts ⊆ w'.accounts
  transactions : w.transactions ⊆ w'.transactions
  entries : w.entries ⊆ w'.entries
  locks : w.locks ⊆ w'.locks

theorem Le.refl (w : Work) : Le w w :=
  ⟨List.Subset.refl _, List.Subset.refl _, List.Subset.refl _, List.Subset.refl _⟩

theorem Le.trans {w₁ w₂ w₃ : Work} (h : Le w₁ w₂) (h' : Le w₂ w₃) : Le w₁ w₃ :=
  ⟨List.Subset.trans h.accounts h'.accounts, List.Subset.trans h.transactions h'.transactions,
    List.Subset.trans h.entries h'.entries, List.Subset.trans h.locks h'.locks⟩

end Work

structure WorkInv (t : Tables) (x : Xid) (w : Work) : Prop where
  untruncated : w.truncated = []
  txnWriter : ∀ r ∈ w.transactions, r.xmin = x
  entryWriter : ∀ e ∈ w.entries, e.xmin = x
  parent : ∀ e ∈ w.entries, ∃ r ∈ t.transactions ++ w.transactions, r.id = e.transactionId ∧ r.createdXid = x
  account : ∀ e ∈ w.entries, ∃ a ∈ t.accounts ++ w.accounts, a.id = e.accountId ∧ a.currency = e.currency
  terms : ∀ u ∈ w.updates, ∃ a ∈ t.accounts ++ w.accounts, a.terms = u.terms
  locked : ∀ u ∈ w.updates, (u.id, .noKeyUpdate) ∈ w.locks
  accountIds : Distinct (·.id) (t.accounts ++ w.accounts)
  transactionIds : Distinct (·.id) (t.transactions ++ w.transactions)
  keys : Distinct (·.idempotencyKey) (t.transactions ++ w.transactions)
  entryIds : Distinct (·.id) (t.entries ++ w.entries)

namespace WorkInv

variable {t : Tables} {x : Xid} {w : Work} (h : WorkInv t x w)
include h

theorem current_terms {a : Row.Account} (ha : a ∈ t.accounts ++ w.accounts) : (w.current a).terms = a.terms := by
  rcases Work.current_mem (w := w) (a := a) with he | hu
  · rw [he]
  · obtain ⟨b, hb, hbu⟩ := h.terms _ hu
    have hid : b.id = a.id := (congrArg (·.1) hbu).trans (w.current_id a)
    rw [← hbu, h.accountIds.eq hb ha hid]

theorem view_account {a : Row.Account} (ha : a ∈ (w.overlay t).accounts) :
    ∃ b ∈ t.accounts ++ w.accounts, b.terms = a.terms := by
  rw [Work.overlay_accounts h.untruncated] at ha
  obtain ⟨b, hb, rfl⟩ := List.mem_map.mp ha
  exact ⟨b, hb, (h.current_terms hb).symm⟩

end WorkInv

/-- Two transactions write under different keys and hold no conflicting locks. -/
structure Apart (w w' : Work) : Prop where
  accountIds : ∀ a ∈ w.accounts, ∀ b ∈ w'.accounts, a.id ≠ b.id
  transactionIds : ∀ a ∈ w.transactions, ∀ b ∈ w'.transactions, a.id ≠ b.id
  keys : ∀ a ∈ w.transactions, ∀ b ∈ w'.transactions, a.idempotencyKey ≠ b.idempotencyKey
  entryIds : ∀ a ∈ w.entries, ∀ b ∈ w'.entries, a.id ≠ b.id
  locks : ∀ l ∈ w.locks, ∀ m ∈ w'.locks, l.1 = m.1 → l.2.conflicts m.2 = false

namespace Apart

theorem symm {w w' : Work} (h : Apart w w') : Apart w' w where
  accountIds a ha b hb := (h.accountIds b hb a ha).symm
  transactionIds a ha b hb := (h.transactionIds b hb a ha).symm
  keys a ha b hb := (h.keys b hb a ha).symm
  entryIds a ha b hb := (h.entryIds b hb a ha).symm
  locks l hl m hm he := by rw [LockMode.conflicts_comm]; exact h.locks m hm l hl he.symm

theorem mono {w₀ w w' : Work} (h : Apart w w') (hle : Work.Le w₀ w) : Apart w₀ w' where
  accountIds a ha := h.accountIds a (hle.accounts ha)
  transactionIds a ha := h.transactionIds a (hle.transactions ha)
  keys a ha := h.keys a (hle.transactions ha)
  entryIds a ha := h.entryIds a (hle.entries ha)
  locks l hl := h.locks l (hle.locks hl)

theorem empty (w : Work) : Apart {} w where
  accountIds a ha := by cases ha
  transactionIds a ha := by cases ha
  keys a ha := by cases ha
  entryIds a ha := by cases ha
  locks l hl := by cases hl

end Apart

theorem unlocked {w : Work} {id : Uuid} {mode : LockMode} (h : w.locked id mode = false) :
    ∀ m ∈ w.locks, id = m.1 → mode.conflicts m.2 = false := by
  intro m hm he
  have := List.any_eq_false.mp h m hm
  rw [LockMode.conflicts_comm]
  simpa [he] using this

/-! ## A statement keeps it -/

namespace Wrote

variable {sch : Schema} {db : Db} {x : Xid} {txn : Txn} {s : Stmt} {w : Work}

theorem le (h : Wrote sch db x txn s w) : Work.Le txn.work w := by
  cases h with
  | same => exact Work.Le.refl _
  | account => exact { Work.Le.refl txn.work with accounts := List.subset_append_left _ _ }
  | transaction => exact { Work.Le.refl txn.work with transactions := List.subset_append_left _ _ }
  | entry =>
    exact { Work.Le.refl txn.work with
      entries := List.subset_append_left _ _, locks := List.subset_cons_self _ _ }
  | update => exact { Work.Le.refl txn.work with locks := List.subset_append_right _ _ }
  | lock => exact { Work.Le.refl txn.work with locks := List.subset_cons_self _ _ }

theorem workInv (hi : WorkInv db.tables x txn.work) (h : Wrote sch db x txn s w) : WorkInv db.tables x w := by
  cases h with
  | same => exact hi
  | @account new row hrow hid hfree =>
    have hids : Distinct (·.id) (db.tables.accounts ++ (txn.work.accounts ++ [row])) := by
      rw [← List.append_assoc]
      refine distinct_concat hi.accountIds fun b hb => ?_
      have := hid (txn.work.current b)
        (by rw [Work.overlay_accounts hi.untruncated]; exact List.mem_map_of_mem hb)
      rwa [Work.current_id] at this
    have grow : ∀ a, a ∈ db.tables.accounts ++ txn.work.accounts →
        a ∈ db.tables.accounts ++ (txn.work.accounts ++ [row]) := fun a ha => by
      rw [← List.append_assoc]; exact List.mem_append_left _ ha
    exact { hi with
      accountIds := hids
      account := fun e he => by
        obtain ⟨a, ha, h1⟩ := hi.account e he
        exact ⟨a, grow a ha, h1⟩
      terms := fun u hu => by
        obtain ⟨a, ha, h1⟩ := hi.terms u hu
        exact ⟨a, grow a ha, h1⟩ }
  | @transaction new row hrow hid hkey hfree hfree' =>
    rw [Work.overlay_transactions hi.untruncated] at hid hkey
    have grow : ∀ r, r ∈ db.tables.transactions ++ txn.work.transactions →
        r ∈ db.tables.transactions ++ (txn.work.transactions ++ [row]) := fun r hr => by
      rw [← List.append_assoc]; exact List.mem_append_left _ hr
    exact { hi with
      txnWriter := fun r hr => by
        rcases List.mem_append.mp hr with hr | hr
        · exact hi.txnWriter r hr
        · rw [List.mem_singleton.mp hr]; exact (NewTransaction.row_ok hrow).1
      parent := fun e he => by
        obtain ⟨r, hr, h1⟩ := hi.parent e he
        exact ⟨r, grow r hr, h1⟩
      transactionIds := by
        rw [← List.append_assoc]; exact distinct_concat hi.transactionIds hid
      keys := by
        rw [← List.append_assoc]; exact distinct_concat hi.keys hkey }
  | @entry new row hrow hid hfree hacc hlock =>
    rw [Work.overlay_entries hi.untruncated] at hid
    obtain ⟨hx, r, hr, hrid, hrx⟩ := NewEntry.row_ok hrow
    rw [Work.overlay_transactions hi.untruncated] at hr
    obtain ⟨a, ha, haid, hac⟩ := hacc
    obtain ⟨b, hb, hba⟩ := hi.view_account ha
    simp only [Row.Account.terms, Prod.mk.injEq] at hba
    exact { hi with
      entryWriter := fun e he => by
        rcases List.mem_append.mp he with he | he
        · exact hi.entryWriter e he
        · rw [List.mem_singleton.mp he]; exact hx
      parent := fun e he => by
        rcases List.mem_append.mp he with he | he
        · exact hi.parent e he
        · rw [List.mem_singleton.mp he]; exact ⟨r, hr, hrid, hrx⟩
      account := fun e he => by
        rcases List.mem_append.mp he with he | he
        · exact hi.account e he
        · rw [List.mem_singleton.mp he]; exact ⟨b, hb, hba.1.trans haid, hba.2.2.1.trans hac⟩
      locked := fun u hu => List.mem_cons_of_mem _ (hi.locked u hu)
      entryIds := by
        rw [← List.append_assoc]; exact distinct_concat hi.entryIds hid }
  | @update cond set news hnews hlock =>
    exact { hi with
      terms := fun u hu => by
        rcases List.mem_append.mp hu with hu | hu
        · obtain ⟨a, ha, hau⟩ := Bind.mapM_mem hnews u (List.mem_reverse.mp hu)
          obtain ⟨b, hb, hba⟩ := hi.view_account (List.mem_of_mem_filter ha)
          exact ⟨b, hb, hba.trans (SetAccount.row_ok hau).symm⟩
        · exact hi.terms u hu
      locked := fun u hu => by
        rcases List.mem_append.mp hu with hu | hu
        · exact List.mem_append_left _ (List.mem_map.mpr ⟨u, List.mem_reverse.mp hu, rfl⟩)
        · exact List.mem_append_right _ (hi.locked u hu) }
  | lock => exact { hi with locked := fun u hu => List.mem_cons_of_mem _ (hi.locked u hu) }

theorem apart (h : Wrote sch db x txn s w) {y : Xid} {ty : Txn} (hy : y ≠ x) (hty : db.txns y = some ty)
    (ha : Apart txn.work ty.work) : Apart w ty.work := by
  cases h with
  | same => exact ha
  | @account new row hrow hid hfree =>
    exact { ha with
      accountIds := fun a hm b hb => by
        rcases List.mem_append.mp hm with hm | hm
        · exact ha.accountIds a hm b hb
        · rw [List.mem_singleton.mp hm]; exact (hfree y ty hy hty b hb).symm }
  | @transaction new row hrow hid hkey hfree hfree' =>
    exact { ha with
      transactionIds := fun a hm b hb => by
        rcases List.mem_append.mp hm with hm | hm
        · exact ha.transactionIds a hm b hb
        · rw [List.mem_singleton.mp hm]; exact (hfree y ty hy hty b hb).symm
      keys := fun a hm b hb => by
        rcases List.mem_append.mp hm with hm | hm
        · exact ha.keys a hm b hb
        · rw [List.mem_singleton.mp hm]; exact (hfree' y ty hy hty b hb).symm }
  | @entry new row hrow hid hfree hacc hlock =>
    exact { ha with
      entryIds := fun a hm b hb => by
        rcases List.mem_append.mp hm with hm | hm
        · exact ha.entryIds a hm b hb
        · rw [List.mem_singleton.mp hm]; exact (hfree y ty hy hty b hb).symm
      locks := fun l hl m hm he => by
        rcases List.mem_cons.mp hl with rfl | hl
        · exact unlocked (hlock y ty hy hty) m hm he
        · exact ha.locks l hl m hm he }
  | @update cond set news hnews hlock =>
    exact { ha with
      locks := fun l hl m hm he => by
        rcases List.mem_append.mp hl with hl | hl
        · obtain ⟨u, hu, rfl⟩ := List.mem_map.mp hl
          obtain ⟨a, hma, hau⟩ := Bind.mapM_mem hnews u hu
          have hid : a.id = u.id := (congrArg (·.1) (SetAccount.row_ok hau)).symm
          exact unlocked (hlock y ty hy hty a hma) m hm (hid.trans he)
        · exact ha.locks l hl m hm he }
  | @lock id row hrow hlock =>
    exact { ha with
      locks := fun l hl m hm he => by
        rcases List.mem_cons.mp hl with rfl | hl
        · exact unlocked (hlock y ty hy hty) m hm he
        · exact ha.locks l hl m hm he }

end Wrote

/-! ## The database -/

def Txn.works (txn : Txn) : List Work := txn.work :: txn.savepoints.map (·.2)

structure TablesInv (t : Tables) : Prop where
  accountIds : Distinct (·.id) t.accounts
  transactionIds : Distinct (·.id) t.transactions
  keys : Distinct (·.idempotencyKey) t.transactions
  entryIds : Distinct (·.id) t.entries
  account : ∀ e ∈ t.entries, ∃ a ∈ t.accounts, a.id = e.accountId ∧ a.currency = e.currency
  parent : ∀ e ∈ t.entries, ∃ r ∈ t.transactions, r.id = e.transactionId ∧ r.createdXid = e.xmin
  balanced : ∀ e ∈ t.entries, assertTransactionBalanced t.entries e.transactionId = .ok ()

structure DbInv (db : Db) : Prop where
  bounded : db.Bounded
  tables : TablesInv db.tables
  ended : ∀ e ∈ db.tables.entries, e.xmin < db.nextXid ∧ db.txns e.xmin = none
  works : ∀ x txn, db.txns x = some txn → ∀ w ∈ txn.works, WorkInv db.tables x w
  nested : ∀ x txn, db.txns x = some txn → txn.works.Pairwise fun later earlier => Work.Le earlier later
  apart : ∀ x y tx ty, x ≠ y → db.txns x = some tx → db.txns y = some ty → Apart tx.work ty.work

theorem WorkInv.empty {t : Tables} (h : TablesInv t) (x : Xid) : WorkInv t x {} where
  untruncated := rfl
  txnWriter r hr := by cases hr
  entryWriter e he := by cases he
  parent e he := by cases he
  account e he := by cases he
  terms u hu := by cases hu
  locked u hu := by cases hu
  accountIds := by simpa using h.accountIds
  transactionIds := by simpa using h.transactionIds
  keys := by simpa using h.keys
  entryIds := by simpa using h.entryIds

theorem distinct_join {α κ : Type} {f : α → κ} {t v w : List α} (hv : Distinct f (t ++ v))
    (hw : Distinct f (t ++ w)) (hvw : ∀ a ∈ v, ∀ b ∈ w, f a ≠ f b) : Distinct f ((t ++ v) ++ w) := by
  rw [distinct_append] at hw
  refine distinct_append.mpr ⟨hv, hw.2.1, fun a ha b hb => ?_⟩
  rcases List.mem_append.mp ha with ha | ha
  · exact hw.2.2 a ha b hb
  · exact hvw a ha b hb

theorem WorkInv.after_commit {t : Tables} {x y : Xid} {v w : Work} (hv : WorkInv t x v) (hw : WorkInv t y w)
    (ha : Apart v w) : WorkInv (v.overlay t) y w := by
  have grow : ∀ a ∈ t.accounts ++ w.accounts, ∃ b ∈ (v.overlay t).accounts ++ w.accounts, b.terms = a.terms := by
    intro a hm
    rw [Work.overlay_accounts hv.untruncated]
    rcases List.mem_append.mp hm with hm | hm
    · exact ⟨v.current a, List.mem_append_left _ (List.mem_map_of_mem (List.mem_append_left _ hm)),
        hv.current_terms (List.mem_append_left _ hm)⟩
    · exact ⟨a, List.mem_append_right _ hm, rfl⟩
  have hids : Distinct (·.id) ((v.overlay t).accounts ++ w.accounts) := by
    have h := distinct_join hv.accountIds hw.accountIds ha.accountIds
    rw [Work.overlay_accounts hv.untruncated]
    rw [distinct_append] at h ⊢
    refine ⟨h.1.map fun a _ => v.current_id a, h.2.1, ?_⟩
    intro a hm b hb
    obtain ⟨c, hc, rfl⟩ := List.mem_map.mp hm
    rw [v.current_id]
    exact h.2.2 c hc b hb
  exact { hw with
    accountIds := hids
    account := fun e he => by
      obtain ⟨a, hm, hid, hc⟩ := hw.account e he
      obtain ⟨b, hb, hba⟩ := grow a hm
      simp only [Row.Account.terms, Prod.mk.injEq] at hba
      exact ⟨b, hb, hba.1.trans hid, hba.2.2.1.trans hc⟩
    terms := fun u hu => by
      obtain ⟨a, hm, hau⟩ := hw.terms u hu
      obtain ⟨b, hb, hba⟩ := grow a hm
      exact ⟨b, hb, hba.trans hau⟩
    parent := fun e he => by
      obtain ⟨r, hr, h1⟩ := hw.parent e he
      rw [Work.overlay_transactions hv.untruncated]
      refine ⟨r, ?_, h1⟩
      rcases List.mem_append.mp hr with hr | hr
      · exact List.mem_append_left _ (List.mem_append_left _ hr)
      · exact List.mem_append_right _ hr
    transactionIds := by
      rw [Work.overlay_transactions hv.untruncated]
      exact distinct_join hv.transactionIds hw.transactionIds ha.transactionIds
    keys := by
      rw [Work.overlay_transactions hv.untruncated]
      exact distinct_join hv.keys hw.keys ha.keys
    entryIds := by
      rw [Work.overlay_entries hv.untruncated]
      exact distinct_join hv.entryIds hw.entryIds ha.entryIds }

namespace DbInv

variable {sch : Schema} {db : Db} (h : DbInv db) {x : Xid} {txn : Txn} (hx : db.txns x = some txn)
include h hx

theorem work : WorkInv db.tables x txn.work := h.works x txn hx _ (List.mem_cons_self ..)

theorem lt_nextXid : x < db.nextXid := by
  rcases Nat.lt_or_ge x db.nextXid with hlt | hge
  · exact hlt
  · rw [h.bounded x hge] at hx; cases hx

/-- A transaction that has no committed entry of its own cannot add to one that has entries. -/
theorem no_late_entry {e : Row.Entry} (he : e ∈ db.tables.entries) :
    ∀ e' ∈ txn.work.entries, e'.transactionId ≠ e.transactionId := by
  intro e' he' heq
  obtain ⟨r', hr', hid', hx'⟩ := (h.work hx).parent e' he'
  obtain ⟨r, hr, hid, hxr⟩ := h.tables.parent e he
  have := (h.work hx).transactionIds.eq hr' (List.mem_append_left _ hr) (hid'.trans (heq.trans hid.symm))
  have hend := (h.ended e he).2
  rw [← hxr, ← this, hx', hx] at hend
  cases hend

theorem filter_fixed {e : Row.Entry} (he : e ∈ db.tables.entries) :
    (txn.work.overlay db.tables).entries.filter (fun e' => e'.transactionId = e.transactionId) =
      db.tables.entries.filter fun e' => e'.transactionId = e.transactionId := by
  have hn : txn.work.entries.filter (fun e' => e'.transactionId = e.transactionId) = [] := by
    rw [List.filter_eq_nil_iff]
    intro e' he'
    simpa using h.no_late_entry hx he e' he'
  rw [Work.overlay_entries (h.work hx).untruncated, List.filter_append, hn, List.append_nil]

theorem put {txn' : Txn} (hw : ∀ w ∈ txn'.works, WorkInv db.tables x w)
    (hn : txn'.works.Pairwise fun later earlier => Work.Le earlier later)
    (ha : ∀ y ty, y ≠ x → db.txns y = some ty → Apart txn'.work ty.work) : DbInv (db.put x txn') where
  bounded y hy := by
    have : y ≠ x := fun e => by
      have := h.lt_nextXid hx
      exact absurd hy (by rw [e]; exact Nat.not_le.mpr this)
    simp only [Db.put, Function.update_of_ne this]
    exact h.bounded y hy
  tables := h.tables
  ended e he := by
    have := h.ended e he
    have hne : e.xmin ≠ x := fun e' => by rw [e', hx] at this; cases this.2
    simpa [Db.put, Function.update_of_ne hne] using this
  works y ty hy w hm := by
    by_cases hyx : y = x
    · subst hyx
      simp only [Db.put, Function.update_self, Option.some.injEq] at hy
      subst hy; exact hw w hm
    · simp only [Db.put, Function.update_of_ne hyx] at hy
      exact h.works y ty hy w hm
  nested y ty hy := by
    by_cases hyx : y = x
    · subst hyx
      simp only [Db.put, Function.update_self, Option.some.injEq] at hy
      subst hy; exact hn
    · simp only [Db.put, Function.update_of_ne hyx] at hy
      exact h.nested y ty hy
  apart y z ty tz hyz hy hz := by
    by_cases hyx : y = x
    · subst hyx
      simp only [Db.put, Function.update_self, Function.update_of_ne hyz.symm, Option.some.injEq] at hy hz
      subst hy; exact ha z tz hyz.symm hz
    · simp only [Db.put, Function.update_of_ne hyx] at hy
      by_cases hzx : z = x
      · subst hzx
        simp only [Db.put, Function.update_self, Option.some.injEq] at hz
        subst hz; exact (ha y ty hyx hy).symm
      · simp only [Db.put, Function.update_of_ne hzx] at hz
        exact h.apart y z ty tz hyz hy hz

theorem install {s : Stmt} {w : Work} (hw : Wrote sch db x txn s w) : DbInv (db.install x txn w) := by
  have hn := h.nested x txn hx
  rw [Txn.works, List.pairwise_cons] at hn
  refine h.put hx ?_ ?_ fun y ty hy hty => hw.apart hy hty (h.apart x y txn ty hy.symm hx hty)
  · intro v hv
    rcases List.mem_cons.mp hv with rfl | hv
    · exact hw.workInv (h.work hx)
    · exact h.works x txn hx v (List.mem_cons_of_mem _ hv)
  · exact List.pairwise_cons.mpr ⟨fun v hv => (hn.1 v hv).trans hw.le, hn.2⟩

/-- Going back to a remembered point: what is kept was part of the transaction before. -/
theorem restore {w : Work} {saved : List (String × Work)} {aborted : Bool} (hw : w ∈ txn.works)
    (hs : ((w :: saved.map (·.2)) : List Work).Pairwise fun later earlier => Work.Le earlier later)
    (hsub : ∀ v ∈ saved.map (·.2), v ∈ txn.works) :
    DbInv (db.put x { txn with work := w, savepoints := saved, aborted := aborted }) := by
  have hle : Work.Le w txn.work := by
    rcases List.mem_cons.mp hw with rfl | hw'
    · exact Work.Le.refl _
    · have hn := h.nested x txn hx
      rw [Txn.works, List.pairwise_cons] at hn
      exact hn.1 w hw'
  refine h.put hx ?_ hs fun y ty hy hty => (h.apart x y txn ty hy.symm hx hty).mono hle
  intro v hv
  rcases List.mem_cons.mp hv with rfl | hv
  · exact h.works x txn hx _ hw
  · exact h.works x txn hx v (hsub v hv)

theorem fail : DbInv (db.fail x txn) := by
  have hn := h.nested x txn hx
  cases hs : txn.savepoints with
  | nil =>
    have he : db.fail x txn = db.put x { txn with work := {}, aborted := true } := by
      simp [Db.fail, hs]
    rw [he]
    refine h.put hx ?_ ?_ fun y ty _ _ => Apart.empty _
    · intro w hw
      simp only [Txn.works, hs, List.map_nil, List.mem_singleton] at hw
      subst hw; exact WorkInv.empty h.tables x
    · simp [Txn.works, hs]
  | cons p rest =>
    have he : db.fail x txn = db.put x { txn with work := p.2, savepoints := p :: rest, aborted := true } := by
      simp [Db.fail, hs]
    rw [he]
    rw [Txn.works, hs, List.map_cons, List.pairwise_cons] at hn
    refine h.restore hx ?_ ?_ ?_
    · simp [Txn.works, hs]
    · refine List.pairwise_cons.mpr ⟨fun v hv => ?_, hn.2⟩
      rw [List.map_cons] at hv
      rcases List.mem_cons.mp hv with rfl | hv
      · exact Work.Le.refl _
      · exact (List.pairwise_cons.mp hn.2).1 v hv
    · intro v hv; rw [Txn.works, hs]; exact List.mem_cons_of_mem _ hv

omit hx in
theorem close : DbInv (db.close x) where
  bounded y hy := by
    by_cases hyx : y = x
    · subst hyx; simp [Db.close]
    · simp only [Db.close, Function.update_of_ne hyx]; exact h.bounded y hy
  tables := h.tables
  ended e he := by
    refine ⟨(h.ended e he).1, ?_⟩
    by_cases hex : e.xmin = x
    · simp [Db.close, hex]
    · simp only [Db.close, Function.update_of_ne hex]; exact (h.ended e he).2
  works y ty hy w hw := by
    by_cases hyx : y = x
    · subst hyx; simp [Db.close] at hy
    · simp only [Db.close, Function.update_of_ne hyx] at hy; exact h.works y ty hy w hw
  nested y ty hy := by
    by_cases hyx : y = x
    · subst hyx; simp [Db.close] at hy
    · simp only [Db.close, Function.update_of_ne hyx] at hy; exact h.nested y ty hy
  apart y z ty tz hyz hy hz := by
    by_cases hyx : y = x
    · subst hyx; simp [Db.close] at hy
    · by_cases hzx : z = x
      · subst hzx; simp [Db.close] at hz
      · simp only [Db.close, Function.update_of_ne hyx] at hy
        simp only [Db.close, Function.update_of_ne hzx] at hz
        exact h.apart y z ty tz hyz hy hz

theorem commit_tables (hd : db.deferred txn = .ok ()) : TablesInv (txn.work.overlay db.tables) := by
  have hw := h.work hx
  have hacc := Work.overlay_accounts hw.untruncated db.tables
  have htx := Work.overlay_transactions hw.untruncated db.tables
  have hen := Work.overlay_entries hw.untruncated db.tables
  refine ⟨?_, htx ▸ hw.transactionIds, htx ▸ hw.keys, hen ▸ hw.entryIds, ?_, ?_, ?_⟩
  · rw [hacc]; exact hw.accountIds.map fun a _ => txn.work.current_id a
  · intro e he
    have : ∃ a ∈ db.tables.accounts ++ txn.work.accounts, a.id = e.accountId ∧ a.currency = e.currency := by
      rw [hen] at he
      rcases List.mem_append.mp he with he | he
      · obtain ⟨a, ha, h1⟩ := h.tables.account e he
        exact ⟨a, List.mem_append_left _ ha, h1⟩
      · exact hw.account e he
    obtain ⟨a, ha, hid, hc⟩ := this
    have ht := hw.current_terms ha
    simp only [Row.Account.terms, Prod.mk.injEq] at ht
    exact ⟨_, by rw [hacc]; exact List.mem_map_of_mem ha, ht.1.trans hid, ht.2.2.1.trans hc⟩
  · intro e he
    rw [hen] at he; rw [htx]
    rcases List.mem_append.mp he with he | he
    · obtain ⟨r, hr, h1⟩ := h.tables.parent e he
      exact ⟨r, List.mem_append_left _ hr, h1⟩
    · rw [hw.entryWriter e he]; exact hw.parent e he
  · intro e he
    by_cases hm : e ∈ db.tables.entries
    · unfold assertTransactionBalanced
      rw [h.filter_fixed hx hm]
      exact h.tables.balanced e hm
    · rw [hen] at he
      rcases List.mem_append.mp he with he | he
      · exact absurd he hm
      · exact Bind.forM_ok.mp hd e he

theorem commit {db' : Db} (hc : db.commit x txn = .ok db') : DbInv db' := by
  rcases Db.commit_ok hc with ⟨-, rfl⟩ | ⟨-, hd, rfl⟩
  · exact h.close
  have hw := h.work hx
  have hcl := h.close (x := x)
  refine ⟨hcl.bounded, h.commit_tables hx hd, ?_, ?_, hcl.nested, hcl.apart⟩
  · intro e he
    simp only at he
    rw [Work.overlay_entries hw.untruncated] at he
    rcases List.mem_append.mp he with he | he
    · exact hcl.ended e he
    · rw [hw.entryWriter e he]
      exact ⟨h.lt_nextXid hx, by simp [Db.close]⟩
  · intro y ty hy v hv
    have hyx : y ≠ x := fun e => by subst e; simp [Db.close] at hy
    simp only [Db.close, Function.update_of_ne hyx] at hy
    refine hw.after_commit (h.works y ty hy v hv) ?_
    have hap := (h.apart x y txn ty hyx.symm hx hy).symm
    rcases List.mem_cons.mp hv with rfl | hv
    · exact hap.symm
    · have hn := h.nested y ty hy
      rw [Txn.works, List.pairwise_cons] at hn
      exact (hap.mono (hn.1 v hv)).symm

omit hx in
theorem begin (now : Timestamp) : DbInv (db.begin now) := by
  have hnone := h.bounded db.nextXid (Nat.le_refl _)
  refine ⟨?_, h.tables, ?_, ?_, ?_, ?_⟩
  · intro y hy
    simp only [Db.begin] at hy
    have : y ≠ db.nextXid := (Nat.lt_of_succ_le hy).ne'
    simp only [Db.begin, Db.put, Function.update_of_ne this]
    exact h.bounded y (Nat.le_of_succ_le hy)
  · intro e he
    have := h.ended e he
    have hne : e.xmin ≠ db.nextXid := this.1.ne
    simp only [Db.begin, Db.put, Function.update_of_ne hne]
    exact ⟨Nat.lt_succ_of_lt this.1, this.2⟩
  · intro y ty hy w hw
    by_cases hyx : y = db.nextXid
    · subst hyx
      simp only [Db.begin, Db.put, Function.update_self, Option.some.injEq] at hy
      subst hy
      simp only [Txn.works, List.map_nil, List.mem_singleton] at hw
      subst hw; exact WorkInv.empty h.tables _
    · simp only [Db.begin, Db.put, Function.update_of_ne hyx] at hy
      exact h.works y ty hy w hw
  · intro y ty hy
    by_cases hyx : y = db.nextXid
    · subst hyx
      simp only [Db.begin, Db.put, Function.update_self, Option.some.injEq] at hy
      subst hy; simp [Txn.works]
    · simp only [Db.begin, Db.put, Function.update_of_ne hyx] at hy
      exact h.nested y ty hy
  · intro y z ty tz hyz hy hz
    by_cases hyx : y = db.nextXid
    · subst hyx
      simp only [Db.begin, Db.put, Function.update_self, Option.some.injEq] at hy
      subst hy; exact Apart.empty _
    · by_cases hzx : z = db.nextXid
      · subst hzx
        simp only [Db.begin, Db.put, Function.update_self, Option.some.injEq] at hz
        subst hz; exact (Apart.empty _).symm
      · simp only [Db.begin, Db.put, Function.update_of_ne hyx] at hy
        simp only [Db.begin, Db.put, Function.update_of_ne hzx] at hz
        exact h.apart y z ty tz hyz hy hz

omit hx in
theorem close_new {d : Db} (hd : ∀ y, y ≠ db.nextXid → d.txns y = db.txns y) (y : Xid) :
    (d.close db.nextXid).txns y = db.txns y := by
  by_cases hy : y = db.nextXid
  · rw [hy, h.bounded db.nextXid (Nat.le_refl _)]
    exact Function.update_self ..
  · exact (Function.update_of_ne hy ..).trans (hd y hy)

end DbInv

/-! ## Every command keeps it -/

def Cmd.truncates : Cmd → Bool
  | .stmt _ s => s.isTruncate
  | _ => false

theorem TablesInv.empty : TablesInv {} where
  accountIds := distinct_nil _
  transactionIds := distinct_nil _
  keys := distinct_nil _
  entryIds := distinct_nil _
  account e he := by cases he
  parent e he := by cases he
  balanced e he := by cases he

theorem DbInv.init : DbInv Db.init where
  bounded _ _ := rfl
  tables := TablesInv.empty
  ended e he := absurd he List.not_mem_nil
  works x txn hx := by simp [Db.init] at hx
  nested x txn hx := by simp [Db.init] at hx
  apart x y tx ty _ hx := by simp [Db.init] at hx

theorem DbInv.step {sch : Schema} {db db' : Db} {cmd : Cmd} (h : DbInv db) (hc : cmd.truncates = false)
    (hs : db.step sch cmd = some db') : DbInv db' := by
  cases cmd with
  | begin now =>
    simp only [Db.step, Option.some.injEq] at hs
    subst hs; exact h.begin now
  | stmt x s =>
    simp only [Db.step, Option.bind_eq_some_iff] at hs
    obtain ⟨txn, hx, hs⟩ := hs
    split at hs
    · cases hs; exact h.fail hx
    split at hs
    · rename_i w r hw
      cases hs; exact h.install hx (exec_ok h.bounded hc hw)
    · cases hs; exact h.fail hx
    · cases hs
  | fail x =>
    simp only [Db.step, Option.map_eq_some_iff] at hs
    obtain ⟨txn, hx, rfl⟩ := hs
    exact h.fail hx
  | savepoint x name =>
    simp only [Db.step, Option.bind_eq_some_iff] at hs
    obtain ⟨txn, hx, hs⟩ := hs
    split at hs
    · cases hs
    cases hs
    have hn := h.nested x txn hx
    refine h.restore hx (List.mem_cons_self ..) ?_ ?_
    · simp only [List.map_cons]
      refine List.pairwise_cons.mpr ⟨fun v hv => ?_, hn⟩
      rcases List.mem_cons.mp hv with rfl | hv
      · exact Work.Le.refl _
      · exact (List.pairwise_cons.mp hn).1 v hv
    · intro v hv; exact hv
  | rollbackTo x name =>
    simp only [Db.step, Option.bind_eq_some_iff] at hs
    obtain ⟨txn, hx, hs⟩ := hs
    split at hs
    · cases hs; exact h.fail hx
    rename_i n w rest hd
    cases hs
    have hsub : ((n, w) :: rest).Sublist txn.savepoints := hd ▸ List.dropWhile_sublist _
    have hsub' := hsub.map (·.2)
    have hn : ((w :: rest.map (·.2)) : List Work).Pairwise fun later earlier => Work.Le earlier later :=
      (List.pairwise_cons.mp (h.nested x txn hx)).2.sublist hsub'
    refine h.restore hx (List.mem_cons_of_mem _ (hsub'.subset (List.mem_cons_self ..))) ?_ ?_
    · refine List.pairwise_cons.mpr ⟨fun v hv => ?_, hn⟩
      rcases List.mem_cons.mp hv with rfl | hv
      · exact Work.Le.refl _
      · exact (List.pairwise_cons.mp hn).1 v hv
    · intro v hv; exact List.mem_cons_of_mem _ (hsub'.subset hv)
  | release x name =>
    simp only [Db.step, Option.bind_eq_some_iff] at hs
    obtain ⟨txn, hx, hs⟩ := hs
    split at hs
    · cases hs
    split at hs
    · cases hs; exact h.fail hx
    rename_i p rest hd
    cases hs
    have hsub : rest.Sublist txn.savepoints :=
      (List.sublist_cons_self p rest).trans (hd ▸ List.dropWhile_sublist _)
    have hsub' := (hsub.map (·.2)).cons_cons txn.work
    refine h.restore hx (List.mem_cons_self ..) ((h.nested x txn hx).sublist hsub') ?_
    intro v hv; exact hsub'.subset (List.mem_cons_of_mem _ hv)
  | commit x =>
    simp only [Db.step, Option.map_eq_some_iff] at hs
    obtain ⟨txn, hx, hs⟩ := hs
    split at hs
    · rename_i db'' hok
      subst hs; exact h.commit hx hok
    · subst hs; exact h.close
  | rollback x =>
    simp only [Db.step, Option.map_eq_some_iff] at hs
    obtain ⟨txn, hx, rfl⟩ := hs
    exact h.close

/-- Only a `COMMIT` that passes the deferred check changes the committed tables. -/
theorem Db.step_tables {sch : Schema} {db db' : Db} {cmd : Cmd} (hs : db.step sch cmd = some db') :
    db'.tables = db.tables ∨ ∃ x txn, cmd = .commit x ∧ db.txns x = some txn ∧ txn.aborted = false ∧
      db.deferred txn = .ok () ∧ db'.tables = txn.work.overlay db.tables := by
  cases cmd with
  | begin now => cases hs; exact Or.inl rfl
  | stmt x s =>
    simp only [Db.step, Option.bind_eq_some_iff] at hs
    obtain ⟨txn, -, hs⟩ := hs
    split at hs
    · cases hs; exact Or.inl rfl
    · split at hs <;> cases hs <;> exact Or.inl rfl
  | fail x | rollback x =>
    simp only [Db.step, Option.map_eq_some_iff] at hs
    obtain ⟨txn, -, rfl⟩ := hs
    exact Or.inl rfl
  | savepoint x name =>
    simp only [Db.step, Option.bind_eq_some_iff] at hs
    obtain ⟨txn, -, hs⟩ := hs
    split at hs <;> cases hs
    exact Or.inl rfl
  | rollbackTo x name =>
    simp only [Db.step, Option.bind_eq_some_iff] at hs
    obtain ⟨txn, -, hs⟩ := hs
    split at hs <;> cases hs <;> exact Or.inl rfl
  | release x name =>
    simp only [Db.step, Option.bind_eq_some_iff] at hs
    obtain ⟨txn, -, hs⟩ := hs
    split at hs
    · cases hs
    · split at hs <;> cases hs <;> exact Or.inl rfl
  | commit x =>
    obtain ⟨txn, hx, rfl | ⟨hab, hd, rfl⟩⟩ := Db.step_commit hs
    · exact Or.inl rfl
    · exact Or.inr ⟨x, txn, rfl, hx, hab, hd, rfl⟩

end Ledger
