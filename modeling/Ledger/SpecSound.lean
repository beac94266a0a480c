import Ledger.Lib.Bind
import Ledger.Lib.Keyed
import Ledger.Lib.Runs
import Ledger.Spec

/-!
# The sequential ledger, step by step

`transfer_iff` says what an accepted transfer needs and leaves behind. From it: the
log of record is the committed transfers in order, every balance is what its entries
add up to, and no account without the flag goes below zero.
-/

namespace Ledger

namespace Spec

open Keyed Runs

variable {sha256 : List UInt8 → Vector UInt8 32} {dec : Decode} {t t' : Tables}

/-! ## Accepting a transfer -/

/-- All checks passed, on the sender's and the receiver's rows. -/
structure Admits (t : Tables) (i : TransferIntent) (s r : Row.Account) : Prop where
  distinct : i.fromAccountId ≠ i.toAccountId
  positive : i.amount.isPositive = true
  sender : findAccount t i.fromAccountId = some s
  receiver : findAccount t i.toAccountId = some r
  senderCurrency : s.currency = i.amount.currency.code
  receiverCurrency : r.currency = i.amount.currency.code
  funds : s.allowsNegativeBalance = true ∨ s.balance.val.lt (.num i.units) = false

theorem refuses_none {i : TransferIntent} {s r : Row.Account} : refuses i s r = none ↔
    s.currency = i.amount.currency.code ∧ r.currency = i.amount.currency.code ∧
      (s.allowsNegativeBalance = true ∨ s.balance.val.lt (.num i.units) = false) := by
  unfold refuses
  by_cases hs : s.currency = i.amount.currency.code
  · by_cases hr : r.currency = i.amount.currency.code
    · cases s.allowsNegativeBalance <;> cases hb : s.balance.val.lt (.num i.units) <;> simp [hs, hr]
    · simp [hs, hr]
  · simp [hs]

theorem refusal_none {i : TransferIntent} : refusal t i = none ↔ ∃ s r, Admits t i s r := by
  unfold refusal
  constructor
  · intro h
    split at h
    · cases h
    split at h
    · cases h
    rename_i hne hpos
    split at h
    · rename_i s r hs hr
      obtain ⟨h1, h2, h3⟩ := refuses_none.mp h
      exact ⟨s, r, hne, by simpa using hpos, hs, hr, h1, h2, h3⟩
    all_goals cases h
  · rintro ⟨s, r, h⟩
    simp only [h.distinct, h.positive, h.sender, h.receiver, if_false, Bool.not_true, Bool.false_eq_true]
    exact refuses_none.mpr ⟨h.senderCurrency, h.receiverCurrency, h.funds⟩

theorem verdict_accepted {key : String} {i : TransferIntent} : verdict sha256 dec t key i = .accepted ↔
    (∀ r ∈ t.transactions, r.idempotencyKey ≠ key) ∧ ∃ s r, Admits t i s r := by
  unfold verdict
  rw [← refusal_none]
  cases hf : t.transactions.find? (·.idempotencyKey = key) with
  | some r =>
    have hk : r.idempotencyKey = key := by simpa using List.find?_some hf
    have hm := List.mem_of_find?_eq_some hf
    constructor
    · intro h
      dsimp only at h
      split at h <;> cases h
    · rintro ⟨h, -⟩
      exact absurd hk (h r hm)
  | none =>
    have hk : ∀ r ∈ t.transactions, r.idempotencyKey ≠ key := by
      simpa using List.find?_eq_none.mp hf
    cases refusal t i with
    | some e => simp
    | none => exact ⟨fun _ => ⟨hk, rfl⟩, fun _ => rfl⟩

/-- The accounts after a transfer: the two rows replaced, the others as they were. -/
def settle (s' r' a : Row.Account) : Row.Account :=
  if a.id = s'.id then s' else if a.id = r'.id then r' else a

def settled (sha256 : List UInt8 → Vector UInt8 32) (t : Tables) (tr : Transfer) (s' r' : Row.Account) :
    Tables where
  accounts := t.accounts.map (settle s' r')
  transactions := t.transactions ++ [tr.row sha256]
  entries := t.entries ++ [tr.credit, tr.debit]

theorem shift_some {a a' : Row.Account} {delta : ℤ} : shift a delta = some a' ↔
    a'.terms = a.terms ∧ a'.balance.val = a.balance.val + .num delta := by
  unfold shift Row.Account.terms
  constructor
  · intro h
    split at h
    · cases h; exact ⟨rfl, rfl⟩
    · cases h
  · rintro ⟨ht, hb⟩
    have hr : (a.balance.val + .num delta).inRange = true := hb ▸ a'.balance.range
    rw [dif_pos hr]
    obtain ⟨id', name', currency', ⟨v, hv⟩, flag', at'⟩ := a'
    simp only [Prod.mk.injEq] at ht hb
    subst hb
    simp [ht]

theorem shift_id {a a' : Row.Account} {delta : ℤ} (h : shift a delta = some a') : a'.id = a.id :=
  congrArg (·.1) (shift_some.mp h).1

section
variable {i : TransferIntent} {s r : Row.Account} (ha : Admits t i s r)
include ha

theorem Admits.move_some (hd : Distinct (·.id) t.accounts) {s' r' : Row.Account} (hs : shift s (-i.units) = some s')
    (hr : shift r i.units = some r') : t.accounts.mapM (move i) = some (t.accounts.map (settle s' r')) := by
  obtain ⟨hsm, hsid⟩ := findAccount_some ha.sender
  obtain ⟨hrm, hrid⟩ := findAccount_some ha.receiver
  have hs' : s'.id = i.fromAccountId := (shift_id hs).trans hsid
  have hr' : r'.id = i.toAccountId := (shift_id hr).trans hrid
  refine Bind.mapM_some fun a hm => ?_
  unfold move settle
  rw [hs', hr']
  by_cases h1 : a.id = i.fromAccountId
  · rw [if_pos h1, if_pos h1, hd.eq hm hsm (h1.trans hsid.symm), hs]
  · by_cases h2 : a.id = i.toAccountId
    · rw [if_neg h1, if_neg h1, if_pos h2, if_pos h2, hd.eq hm hrm (h2.trans hrid.symm), hr]
    · rw [if_neg h1, if_neg h1, if_neg h2, if_neg h2]

theorem Admits.shifts {accounts : List Row.Account} (h : t.accounts.mapM (move i) = some accounts) :
    ∃ s' r', shift s (-i.units) = some s' ∧ shift r i.units = some r' := by
  obtain ⟨hsm, hsid⟩ := findAccount_some ha.sender
  obtain ⟨hrm, hrid⟩ := findAccount_some ha.receiver
  obtain ⟨s', hs⟩ := Bind.mapM_defined h s hsm
  obtain ⟨r', hr⟩ := Bind.mapM_defined h r hrm
  rw [move, if_pos hsid] at hs
  rw [move, if_neg (hrid ▸ ha.distinct.symm), if_pos hrid] at hr
  exact ⟨s', r', hs, hr⟩

end

theorem transfer_iff (hd : Distinct (·.id) t.accounts) {tr : Transfer} : transfer sha256 dec t tr = some t' ↔
    (∀ r ∈ t.transactions, r.idempotencyKey ≠ tr.key) ∧ ∃ s r s' r', Admits t tr.intent s r ∧
      shift s (-tr.intent.units) = some s' ∧ shift r tr.intent.units = some r' ∧
      t' = settled sha256 t tr s' r' := by
  unfold transfer
  constructor
  · intro h
    split at h
    · rename_i hv
      obtain ⟨hk, s, r, ha⟩ := verdict_accepted.mp hv
      obtain ⟨accounts, hm, rfl⟩ := Option.map_eq_some_iff.mp h
      obtain ⟨s', r', hs, hr⟩ := ha.shifts hm
      rw [ha.move_some hd hs hr, Option.some.injEq] at hm
      exact ⟨hk, s, r, s', r', ha, hs, hr, by rw [← hm]; rfl⟩
    · cases h
  · rintro ⟨hk, s, r, s', r', ha, hs, hr, rfl⟩
    rw [verdict_accepted.mpr ⟨hk, s, r, ha⟩]
    simp only [ha.move_some hd hs hr, Option.map_some]
    rfl

/-! ## The log of record -/

def transfers (log : List Event) : List Transfer :=
  log.filterMap fun
    | .transfer tr => some tr
    | .account _ => none

theorem mem_transfers {log : List Event} {tr : Transfer} : tr ∈ transfers log ↔ .transfer tr ∈ log := by
  simp only [transfers, List.mem_filterMap]
  constructor
  · rintro ⟨ev, hm, he⟩
    cases ev with
    | account row => cases he
    | transfer tr' => cases he; exact hm
  · intro h
    exact ⟨_, h, rfl⟩

theorem transfers_append (log log' : List Event) : transfers (log ++ log') = transfers log ++ transfers log' :=
  List.filterMap_append ..

def Transfer.entries (tr : Transfer) : List Row.Entry := [tr.credit, tr.debit]

theorem step_log {ev : Event} (h : step sha256 dec t ev = some t') :
    t'.transactions = t.transactions ++ (transfers [ev]).map (·.row sha256) ∧
      t'.entries = t.entries ++ (transfers [ev]).flatMap (·.entries) := by
  cases ev with
  | account row =>
    simp only [step, openAccount] at h
    split at h
    · cases h; simp [transfers]
    · cases h
  | transfer tr =>
    simp only [step, transfer] at h
    split at h
    · obtain ⟨accounts, -, rfl⟩ := Option.map_eq_some_iff.mp h
      simp [transfers, Transfer.entries]
    · cases h

/-- The two tables of the log are the transfers in the order they were committed. -/
theorem exec_log : ∀ {log : List Event} {t t' : Tables}, exec (step sha256 dec) t log = some t' →
    t'.transactions = t.transactions ++ (transfers log).map (·.row sha256) ∧
      t'.entries = t.entries ++ (transfers log).flatMap (·.entries)
  | [], t, t', h => by
    cases h; simp [transfers]
  | ev :: log, t, t', h => by
    simp only [exec, Option.bind_eq_some_iff] at h
    obtain ⟨t₁, h1, h2⟩ := h
    obtain ⟨a1, b1⟩ := step_log h1
    obtain ⟨a2, b2⟩ := exec_log h2
    have hsplit : transfers (ev :: log) = transfers [ev] ++ transfers log := transfers_append [ev] log
    rw [hsplit, a2, b2, a1, b1]
    simp only [List.map_append, List.flatMap_append, List.append_assoc, and_self]

theorem row_transfer {log : List Event} (h : exec (step sha256 dec) {} log = some t) {r : Row.Transaction}
    (hr : r ∈ t.transactions) : ∃ tr ∈ transfers log, r = tr.row sha256 := by
  rw [(exec_log h).1, List.nil_append] at hr
  obtain ⟨tr, htr, rfl⟩ := List.mem_map.mp hr
  exact ⟨tr, htr, rfl⟩

/-! ## The invariant -/

structure LedgerInv (t : Tables) : Prop where
  ids : Distinct (·.id) t.accounts
  balance : ∀ a ∈ t.accounts, a.balance.val = ((t.entries.filter fun e => e.accountId = a.id).map (·.signed)).sum
  finite : ∀ a ∈ t.accounts, ∃ u, a.balance.val = .num u
  nonneg : ∀ a ∈ t.accounts, a.allowsNegativeBalance = false → a.balance.val.lt (.num 0) = false
  account : ∀ e ∈ t.entries, ∃ a ∈ t.accounts, a.id = e.accountId ∧ a.currency = e.currency

theorem LedgerInv.empty : LedgerInv {} where
  ids := distinct_nil _
  balance a ha := by cases ha
  finite a ha := by cases ha
  nonneg a ha := by cases ha
  account e he := by cases he

theorem LedgerInv.openAccount {row : Row.Account} (h : LedgerInv t) (hs : openAccount t row = some t') :
    LedgerInv t' := by
  unfold Spec.openAccount at hs
  split at hs
  · rename_i hrow
    cases hs
    obtain ⟨hzero, hnew⟩ := hrow
    have hnone : (t.entries.filter fun e => e.accountId = row.id) = [] := by
      rw [List.filter_eq_nil_iff]
      intro e he heq
      obtain ⟨a, ha, hid, -⟩ := h.account e he
      exact hnew a ha (hid.trans (by simpa using heq))
    have old : ∀ {P : Row.Account → Prop}, (∀ a ∈ t.accounts, P a) → P row → ∀ a ∈ t.accounts ++ [row], P a := by
      intro P hP hr a ha
      rcases List.mem_append.mp ha with ha | ha
      · exact hP a ha
      · rw [List.mem_singleton.mp ha]; exact hr
    refine ⟨distinct_concat h.ids hnew, old h.balance ?_, old h.finite ⟨0, ?_⟩, old h.nonneg fun _ => ?_, ?_⟩
    · rw [hnone, hzero]; rfl
    · rw [hzero]; rfl
    · rw [hzero]; rfl
    · intro e he
      obtain ⟨a, ha, h1⟩ := h.account e he
      exact ⟨a, List.mem_append_left _ ha, h1⟩
  · cases hs

end Spec

theorem TransferIntent.units_pos {i : TransferIntent} (h : i.amount.isPositive = true) : 0 < i.units :=
  i.valid.units_pos_iff.mpr ((Money.isPositive_iff _).mp h)

namespace Spec

open Keyed Runs

variable {sha256 : List UInt8 → Vector UInt8 32} {dec : Decode} {t t' : Tables}

theorem Transfer.credit_signed (tr : Transfer) : tr.credit.signed = .num (-tr.intent.units) := rfl

theorem Transfer.debit_signed (tr : Transfer) : tr.debit.signed = .num tr.intent.units := rfl

theorem sender_nonneg {i : TransferIntent} {s r s' : Row.Account} (h : LedgerInv t) (ha : Admits t i s r)
    (hs : shift s (-i.units) = some s') :
    s.allowsNegativeBalance = true ∨ s'.balance.val.lt (.num 0) = false := by
  obtain ⟨u, hu⟩ := h.finite s (findAccount_some ha.sender).1
  refine ha.funds.imp_right fun hf => ?_
  rw [hu] at hf
  rw [(shift_some.mp hs).2, hu]
  simp only [Numeric.lt, Numeric.num_add, decide_eq_false_iff_not] at hf ⊢
  omega

theorem receiver_nonneg {i : TransferIntent} {s r r' : Row.Account} (h : LedgerInv t) (ha : Admits t i s r)
    (hr : shift r i.units = some r') :
    r.allowsNegativeBalance = true ∨ r'.balance.val.lt (.num 0) = false := by
  have hm := (findAccount_some ha.receiver).1
  obtain ⟨u, hu⟩ := h.finite r hm
  have hpos := TransferIntent.units_pos ha.positive
  cases hflag : r.allowsNegativeBalance with
  | true => exact Or.inl rfl
  | false =>
    right
    have hge := h.nonneg r hm hflag
    rw [hu] at hge
    rw [(shift_some.mp hr).2, hu]
    simp only [Numeric.lt, Numeric.num_add, decide_eq_false_iff_not] at hge ⊢
    omega

section
variable {tr : Transfer} {s r s' r' : Row.Account} (h : LedgerInv t) (ha : Admits t tr.intent s r)
  (hs : shift s (-tr.intent.units) = some s') (hr : shift r tr.intent.units = some r')
include h ha hs hr

theorem settle_cases {a : Row.Account} (hm : a ∈ t.accounts) :
    (a = s ∧ settle s' r' a = s') ∨ (a = r ∧ settle s' r' a = r') ∨
      (a.id ≠ tr.intent.fromAccountId ∧ a.id ≠ tr.intent.toAccountId ∧ settle s' r' a = a) := by
  obtain ⟨hsm, hsid⟩ := findAccount_some ha.sender
  obtain ⟨hrm, hrid⟩ := findAccount_some ha.receiver
  have hs' : s'.id = tr.intent.fromAccountId := (shift_id hs).trans hsid
  have hr' : r'.id = tr.intent.toAccountId := (shift_id hr).trans hrid
  unfold settle
  rw [hs', hr']
  by_cases h1 : a.id = tr.intent.fromAccountId
  · exact Or.inl ⟨h.ids.eq hm hsm (h1.trans hsid.symm), if_pos h1⟩
  · by_cases h2 : a.id = tr.intent.toAccountId
    · exact Or.inr (Or.inl ⟨h.ids.eq hm hrm (h2.trans hrid.symm), by rw [if_neg h1, if_pos h2]⟩)
    · exact Or.inr (Or.inr ⟨h1, h2, by rw [if_neg h1, if_neg h2]⟩)

theorem settle_terms {a : Row.Account} (hm : a ∈ t.accounts) : (settle s' r' a).terms = a.terms := by
  rcases settle_cases h ha hs hr hm with ⟨rfl, he⟩ | ⟨rfl, he⟩ | ⟨-, -, he⟩
  · rw [he]; exact (shift_some.mp hs).1
  · rw [he]; exact (shift_some.mp hr).1
  · rw [he]

theorem settle_id {a : Row.Account} (hm : a ∈ t.accounts) : (settle s' r' a).id = a.id :=
  congrArg (·.1) (settle_terms h ha hs hr hm)

theorem settled_balance {a : Row.Account} (hm : a ∈ t.accounts) :
    (settle s' r' a).balance.val =
      (((t.entries ++ tr.entries).filter fun e => e.accountId = a.id).map (·.signed)).sum := by
  have hc : tr.credit.accountId = tr.intent.fromAccountId := rfl
  have hd : tr.debit.accountId = tr.intent.toAccountId := rfl
  rw [List.filter_append, List.map_append, List.sum_append, ← h.balance a hm]
  rcases settle_cases h ha hs hr hm with ⟨rfl, he⟩ | ⟨rfl, he⟩ | ⟨h1, h2, he⟩
  · have hid := (findAccount_some ha.sender).2
    rw [he, (shift_some.mp hs).2, hid]
    simp [Transfer.entries, hc, hd, ha.distinct.symm, Transfer.credit_signed]
  · have hid := (findAccount_some ha.receiver).2
    rw [he, (shift_some.mp hr).2, hid]
    simp [Transfer.entries, hc, hd, ha.distinct, Transfer.debit_signed]
  · rw [he]
    simp [Transfer.entries, hc, hd, h1.symm, h2.symm]

theorem settled_nonneg {a : Row.Account} (hm : a ∈ t.accounts)
    (hf : (settle s' r' a).allowsNegativeBalance = false) : (settle s' r' a).balance.val.lt (.num 0) = false := by
  have hflag : a.allowsNegativeBalance = false := by
    rw [← hf]
    exact (congrArg (·.2.2.2.1) (settle_terms h ha hs hr hm)).symm
  rcases settle_cases h ha hs hr hm with ⟨rfl, he⟩ | ⟨rfl, he⟩ | ⟨-, -, he⟩
  · rw [he]
    exact (sender_nonneg h ha hs).resolve_left (by simp [hflag])
  · rw [he]
    exact (receiver_nonneg h ha hr).resolve_left (by simp [hflag])
  · rw [he]; exact h.nonneg a hm hflag

theorem LedgerInv.settled : LedgerInv (settled sha256 t tr s' r') := by
  have hid := fun {a} => settle_id h ha hs hr (a := a)
  have each : ∀ {P : Row.Account → Prop}, (∀ a ∈ t.accounts, P (settle s' r' a)) →
      ∀ b ∈ t.accounts.map (settle s' r'), P b := by
    intro P hP b hb
    obtain ⟨a, ha, rfl⟩ := List.mem_map.mp hb
    exact hP a ha
  refine ⟨h.ids.map fun a hm => hid hm, each fun a hm => ?_, each fun a hm => ?_, each fun a hm => ?_, ?_⟩
  · rw [settled_balance h ha hs hr hm, hid hm]; rfl
  · obtain ⟨u, hu⟩ := h.finite a hm
    rcases settle_cases h ha hs hr hm with ⟨rfl, he⟩ | ⟨rfl, he⟩ | ⟨-, -, he⟩
    · exact ⟨_, by rw [he, (shift_some.mp hs).2, hu]; rfl⟩
    · exact ⟨_, by rw [he, (shift_some.mp hr).2, hu]; rfl⟩
    · exact ⟨u, by rw [he, hu]⟩
  · exact settled_nonneg h ha hs hr hm
  · have kept : ∀ a ∈ t.accounts, ∃ b ∈ t.accounts.map (settle s' r'), b.id = a.id ∧ b.currency = a.currency := by
      intro a hm
      exact ⟨_, List.mem_map_of_mem hm, hid hm, congrArg (·.2.2.1) (settle_terms h ha hs hr hm)⟩
    intro e he
    rcases List.mem_append.mp he with he | he
    · obtain ⟨a, hm, h1, h2⟩ := h.account e he
      obtain ⟨b, hb, h3, h4⟩ := kept a hm
      exact ⟨b, hb, h3.trans h1, h4.trans h2⟩
    · simp only [List.mem_cons, List.not_mem_nil, or_false] at he
      rcases he with rfl | rfl
      · obtain ⟨hm, h1⟩ := findAccount_some ha.sender
        obtain ⟨b, hb, h3, h4⟩ := kept s hm
        exact ⟨b, hb, h3.trans h1, h4.trans ha.senderCurrency⟩
      · obtain ⟨hm, h1⟩ := findAccount_some ha.receiver
        obtain ⟨b, hb, h3, h4⟩ := kept r hm
        exact ⟨b, hb, h3.trans h1, h4.trans ha.receiverCurrency⟩

end

theorem LedgerInv.step {ev : Event} (h : LedgerInv t) (hs : step sha256 dec t ev = some t') : LedgerInv t' := by
  cases ev with
  | account row => exact h.openAccount hs
  | transfer tr =>
    obtain ⟨-, s, r, s', r', ha, hs', hr', rfl⟩ := (transfer_iff h.ids).mp hs
    exact h.settled ha hs' hr'

theorem exec_inv {log : List Event} (h : exec (step sha256 dec) {} log = some t) : LedgerInv t := by
  have hr : Reach (step sha256 dec) (fun _ _ => True) {} t := reach_of_exec (fun _ _ _ => trivial) h
  exact hr.invariant (fun _ _ _ hi _ hs => hi.step hs) LedgerInv.empty

end Spec

end Ledger
