import Ledger.Balance
import Ledger.SweepSound

/-!
# Reading accounts and transactions

`GET /accounts/{id}` answers from a materialised balance and `GET /transactions/{id}`
from two statements that may see two states. Neither shows: an account reads as its
history adds up, and a transaction reads whole or not at all.
-/

namespace Ledger

open Keyed Runs

namespace Spec

def Transfer.share (tr : Transfer) (id : Uuid) : ℤ :=
  (if tr.intent.toAccountId = id then tr.intent.units else 0) -
    if tr.intent.fromAccountId = id then tr.intent.units else 0

def net (trs : List Transfer) (id : Uuid) : ℤ := (trs.map fun tr => tr.share id).sum

theorem transfers_net_append (trs trs' : List Transfer) (id : Uuid) :
    net (trs ++ trs') id = net trs id + net trs' id := by
  simp only [net, List.map_append, List.sum_append]

theorem Transfer.signed_share (tr : Transfer) (id : Uuid) :
    ((tr.entries.filter fun e => e.accountId = id).map (·.signed)).sum = .num (tr.share id) := by
  have hc : tr.credit.accountId = tr.intent.fromAccountId := rfl
  have hd : tr.debit.accountId = tr.intent.toAccountId := rfl
  unfold Transfer.share
  by_cases hf : tr.intent.fromAccountId = id <;> by_cases ht : tr.intent.toAccountId = id <;>
    simp [Transfer.entries, hc, hd, hf, ht, Transfer.credit_signed, Transfer.debit_signed, Numeric.zero_def,
      add_comm]

theorem signed_net (id : Uuid) : ∀ trs : List Transfer,
    (((trs.flatMap (·.entries)).filter fun e => e.accountId = id).map (·.signed)).sum = .num (net trs id)
  | [] => rfl
  | tr :: trs => by
    rw [List.flatMap_cons, List.filter_append, List.map_append, List.sum_append, signed_net id trs, tr.signed_share,
      Numeric.num_add]
    rfl

section
variable {sha256 : List UInt8 → Vector UInt8 32} {dec : Decode} {t t' : Tables}

theorem balance_net {log : List Event} (h : exec (step sha256 dec) {} log = some t) {a : Row.Account}
    (ha : a ∈ t.accounts) : a.balance.val = .num (net (transfers log) a.id) := by
  rw [(exec_inv h).balance a ha, (exec_log h).2, List.nil_append]
  exact signed_net a.id (transfers log)

theorem account_terms {ev : Event} (h : LedgerInv t) (hs : step sha256 dec t ev = some t') {a : Row.Account}
    (ha : a ∈ t.accounts) : ∃ b ∈ t'.accounts, b.terms = a.terms := by
  cases ev with
  | account row =>
    simp only [step, openAccount] at hs
    split at hs
    · cases hs
      exact ⟨a, List.mem_append_left _ ha, rfl⟩
    · cases hs
  | transfer tr =>
    obtain ⟨-, s, r, s', r', had, hs', hr', rfl⟩ := (transfer_iff h.ids).mp hs
    exact ⟨_, List.mem_map_of_mem ha, settle_terms h had hs' hr' ha⟩

theorem account_terms_exec {log : List Event} (h : LedgerInv t) (hs : exec (step sha256 dec) t log = some t')
    {a : Row.Account} (ha : a ∈ t.accounts) : ∃ b ∈ t'.accounts, b.terms = a.terms := by
  have hr : Reach (step sha256 dec) (fun _ _ => True) t t' := reach_of_exec (fun _ _ _ => trivial) hs
  refine (hr.invariant (P := fun v => LedgerInv v ∧ ∃ b ∈ v.accounts, b.terms = a.terms) ?_ ⟨h, a, ha, rfl⟩).2
  rintro v ev v' ⟨hv, b, hb, hbt⟩ - hstep
  obtain ⟨b', hb', he⟩ := account_terms hv hstep hb
  exact ⟨hv.step hstep, b', hb', he.trans hbt⟩

end

theorem Transfer.detail_balances (sha256 : List UInt8 → Vector UInt8 32) (tr : Transfer) (m : Money) :
    Balances (tr.detail sha256 m).entries := by
  have hc : (readEntry m tr.credit).signedAmount.val = -m.amount.val := Decimal.val_negate _
  have hd : (readEntry m tr.debit).signedAmount.val = m.amount.val := rfl
  unfold Transfer.detail
  rcases tr.sorted with h | h <;> rw [h] <;> refine ⟨Nat.le_refl 2, ?_, ?_⟩
  · simp [readEntry]
  · simp [hc, hd]
  · simp [readEntry]
  · simp [hc, hd]

end Spec

/-! ## Accounts -/

/-- The account as its row has it, with the balance in units of `10⁻⁸`. -/
structure Account.Shows (account : Account) (row : Row.Account) (balance : ℤ) : Prop where
  id : account.id = row.id
  name : account.name = row.name
  currency : account.balance.currency = ⟨row.currency⟩
  allowsNegativeBalance : account.allowsNegativeBalance = row.allowsNegativeBalance
  createdAt : account.createdAt = row.createdAt
  balance : account.balance.amount.val = balance * 10 ^ 20

theorem Account.Shows.of_terms {account : Account} {a b : Row.Account} {u : ℤ} (h : account.Shows b u)
    (ht : b.terms = a.terms) : account.Shows a u := by
  simp only [Row.Account.terms, Prod.mk.injEq] at ht
  obtain ⟨hid, hname, hcur, hflag, hat⟩ := ht
  exact ⟨h.id.trans hid, h.name.trans hname, h.currency.trans (congrArg _ hcur),
    h.allowsNegativeBalance.trans hflag, h.createdAt.trans hat, h.balance⟩

theorem Account.of_row (dec : Decode) {a : Row.Account} {u : ℤ} (hu : a.balance.val = .num u) :
    ∃ row account, AccountRow.decode dec a = .ok row ∧ Account.tryFrom row = .ok account ∧ account.Shows a u := by
  have hrange : |u| < 10 ^ 20 := by
    have := a.balance.range
    rw [hu] at this
    exact of_decide_eq_true this
  have hv := dec.exact u hrange
  obtain ⟨m, hm⟩ := Money.new_of_units hv hrange ⟨a.currency⟩
  obtain ⟨hcur, hval, -, -⟩ := Money.new_ok hm
  refine ⟨⟨a.id, a.name, ⟨a.currency⟩, dec.decimal u, a.allowsNegativeBalance, a.createdAt⟩,
    ⟨a.id, a.name, m, a.allowsNegativeBalance, a.createdAt⟩, ?_, ?_, rfl, rfl, hcur, rfl, rfl, hval.trans hv⟩
  · simp only [AccountRow.decode, Decode.num20, hu]
    rfl
  · simp only [Account.tryFrom, hm]

namespace Accounts

variable {dec : Decode} {t : Tables}

theorem get_missing {id : Uuid} (h : ∀ a ∈ t.accounts, a.id ≠ id) :
    get dec t id = .error (.accountNotFound id) := by
  have hnone : t.accounts.find? (fun a => decide (a.id = id)) = none :=
    List.find?_eq_none.mpr fun a ha => by simpa using h a ha
  simp only [get, fetch, hnone]
  rfl

theorem get_found (hd : Distinct (·.id) t.accounts) {a : Row.Account} (ha : a ∈ t.accounts) {row : AccountRow}
    (hrow : AccountRow.decode dec a = .ok row) : get dec t a.id = Account.tryFrom row := by
  have hfind : t.accounts.find? (fun b => decide (b.id = a.id)) = some a := hd.find ha rfl
  simp only [get, fetch, hfind, hrow]
  rfl

theorem get_row (hd : Distinct (·.id) t.accounts) {a : Row.Account} (ha : a ∈ t.accounts) {u : ℤ}
    (hu : a.balance.val = .num u) : ∃ account, get dec t a.id = .ok account ∧ account.Shows a u := by
  obtain ⟨row, account, hrow, haccount, hshows⟩ := Account.of_row dec hu
  exact ⟨account, (get_found hd ha hrow).trans haccount, hshows⟩

end Accounts

theorem Inv.get_account {cfg : Config} {w : World} (h : Inv cfg w) {a : Row.Account}
    (ha : a ∈ w.db.tables.accounts) : ∃ account, Accounts.get cfg.decode w.db.tables a.id = .ok account ∧
      account.Shows a (Spec.net (Spec.transfers w.log) a.id) :=
  Accounts.get_row h.ledger.ids ha (Spec.balance_net h.spec ha)

/-- **An account reads as its history adds up.** When the database answers the statement, in
whatever state of whatever run, an account that is not there is a 404, and one that is there
reads without error, with what it was opened with and a balance that is the sum of the
transfers committed so far, not negative unless it funds the ledger. Later reads differ from
it by the transfers committed in between and in nothing else. -/
theorem account_reads (cfg : Config) {w : World} (hr : World.Leads cfg World.init w) (id : Uuid) :
    (Accounts.get cfg.decode w.db.tables id = .error (.accountNotFound id) ∧
      ∀ a ∈ w.db.tables.accounts, a.id ≠ id) ∨
    ∃ a ∈ w.db.tables.accounts, a.id = id ∧
      (∃ account, Accounts.get cfg.decode w.db.tables id = .ok account ∧
        account.Shows a (Spec.net (Spec.transfers w.log) id)) ∧
      (a.allowsNegativeBalance = false → 0 ≤ Spec.net (Spec.transfers w.log) id) ∧
      ∀ w', World.Leads cfg w w' → ∃ evs account', w'.log = w.log ++ evs ∧
        Accounts.get cfg.decode w'.db.tables id = .ok account' ∧
        account'.Shows a (Spec.net (Spec.transfers w.log) id + Spec.net (Spec.transfers evs) id) := by
  have h := Inv.reach hr
  by_cases hex : ∃ a ∈ w.db.tables.accounts, a.id = id
  · right
    obtain ⟨a, ha, rfl⟩ := hex
    refine ⟨a, ha, rfl, h.get_account ha, fun hf => ?_, fun w' hl => ?_⟩
    · have hge := h.ledger.nonneg a ha hf
      rw [Spec.balance_net h.spec ha] at hge
      simpa only [Numeric.lt, decide_eq_false_iff_not, not_lt] using hge
    · have h' := hl.inv h
      obtain ⟨evs, hlog⟩ := hl.log
      have hexec := h'.spec
      rw [hlog, exec_append, h.spec, Option.bind_some] at hexec
      obtain ⟨b, hb, hterms⟩ := Spec.account_terms_exec h.ledger hexec ha
      have hid : b.id = a.id := congrArg (·.1) hterms
      obtain ⟨account', hget, hshows⟩ := h'.get_account hb
      rw [hid] at hget hshows
      rw [hlog, Spec.transfers_append, Spec.transfers_net_append] at hshows
      exact ⟨evs, account', hlog, hget, hshows.of_terms hterms⟩
  · left
    have hne : ∀ a ∈ w.db.tables.accounts, a.id ≠ id := fun a ha he => hex ⟨a, ha, he⟩
    exact ⟨Accounts.get_missing hne, hne⟩

theorem account_reads_sampleRun : ∃ w account, World.Leads (sample true) World.init w ∧
    Accounts.get Decode.driver w.db.tables 2 = .ok account ∧ account.name = "landlord" ∧
    account.balance.amount.val = 5 * 10 ^ 28 := by
  have h : (exec (World.step (sample true)) World.init sampleRun).any (fun w => decide (
      Spec.net (Spec.transfers w.log) 2 = 500000000 ∧
      w.db.tables.accounts.map (fun a => (a.id, a.name)) = [(1, "bank"), (2, "landlord")])) = true := by
    decide +kernel
  obtain ⟨w, hw, h⟩ := (Option.any_eq_true _ _).mp h
  obtain ⟨hnet, haccounts⟩ := of_decide_eq_true h
  have hr : World.Leads (sample true) World.init w := reach_of_exec (fun _ _ _ => trivial) hw
  rcases account_reads (sample true) hr 2 with ⟨-, hne⟩ | ⟨a, ha, hid, ⟨account, hget, hshows⟩, -⟩
  · have hm : ((2 : Uuid), "landlord") ∈ w.db.tables.accounts.map fun a => (a.id, a.name) := by
      rw [haccounts]; simp
    obtain ⟨a, ha, he⟩ := List.mem_map.mp hm
    exact absurd (congrArg (·.1) he) (hne a ha)
  · have hm := List.mem_map_of_mem (f := fun a : Row.Account => (a.id, a.name)) ha
    rw [haccounts, hid] at hm
    have hname : a.name = "landlord" := by simpa using hm
    exact ⟨w, account, hr, hget, hshows.name.trans hname, by rw [hshows.balance, hnet]; norm_num⟩

/-! ## Transactions -/

theorem Spec.Transfer.mem_detail {sha256 : List UInt8 → Vector UInt8 32} {tr : Spec.Transfer} {m : Money}
    {e : Entry} (h : e ∈ (tr.detail sha256 m).entries) : ∃ row ∈ tr.entries, e = readEntry m row := by
  obtain ⟨row, hrow, rfl⟩ := List.mem_map.mp h
  exact ⟨row, (List.mem_insertionSort _).mp hrow, rfl⟩

theorem Transactions.get_missing {dec : Decode} {t t' : Tables} {id : Uuid} (hne : ∀ r ∈ t.transactions, r.id ≠ id)
    {scan : List Row.Entry} {answer : Except LedgerError TransactionDetail}
    (hg : get dec t t' scan id = some answer) : answer = .error (.transactionNotFound id) := by
  have hnone : t.transactions.find? (fun r => decide (r.id = id)) = none :=
    List.find?_eq_none.mpr fun r hr => by simpa using hne r hr
  simp only [get, fetchTransaction, hnone, Option.map_none, Option.some.injEq] at hg
  exact hg.symm

section
variable {cfg : Config} {w : World} (h : Inv cfg w)
include h

theorem Inv.get_transfer {v v' : World} (hv : World.Leads cfg w v) (hv' : World.Leads cfg v v') {tr : Spec.Transfer}
    (htr : tr ∈ Spec.transfers w.log) {m : Money}
    (hm : Money.new (cfg.decode.decimal tr.intent.units) tr.intent.amount.currency = .ok m) {scan : List Row.Entry}
    {answer : Except LedgerError TransactionDetail}
    (hg : Transactions.get cfg.decode v.db.tables v'.db.tables scan tr.id = some answer) :
    answer = .ok (tr.detail cfg.sha256 m) := by
  have hperm : scan.Perm (Transactions.entriesOf v'.db.tables tr.id) := by
    by_contra hn
    have i := hv.inv h
    have hfind : v.db.tables.transactions.find? (fun r => decide (r.id = tr.id)) = some (tr.row cfg.sha256) :=
      i.keys.transactionIds.find (i.row_mem (hv.transfers htr)) rfl
    simp only [Transactions.get, Transactions.fetchTransaction, hfind, Option.map_some, if_neg hn] at hg
    cases hg
  rw [h.get_ok hv hv' htr hm hperm, Option.some.injEq] at hg
  exact hg.symm

theorem Inv.entry_account {tr : Spec.Transfer} (htr : tr ∈ Spec.transfers w.log) {row : Row.Entry}
    (hrow : row ∈ tr.entries) : ∃ account, Accounts.get cfg.decode w.db.tables row.accountId = .ok account ∧
      account.balance.currency = ⟨row.currency⟩ := by
  have hin : row ∈ w.db.tables.entries := by
    rw [(Spec.exec_log h.spec).2, List.nil_append]
    exact List.mem_flatMap_of_mem htr hrow
  obtain ⟨a, ha, hid, hcur⟩ := h.ledger.account row hin
  obtain ⟨account, hget, hshows⟩ := h.get_account ha
  exact ⟨account, hid ▸ hget, by rw [hshows.currency, hcur]⟩

end

/-- **A transaction reads whole, balanced and always the same.** When the database answers
its two statements, whatever states they see and whatever order the rows come in, a read of
a transaction is a 404 if the first statement did not find it, or else two positive entries
in one currency that balance, each of an account that can be read and is in that currency;
and every later read gives the same. -/
theorem transaction_reads (lib : FixedWidth) (cfg : Config) {w w' : World} (hr : World.Leads cfg World.init w)
    (hl : World.Leads cfg w w') {id : Uuid} {scan : List Row.Entry} {answer : Except LedgerError TransactionDetail}
    (hg : Transactions.get cfg.decode w.db.tables w'.db.tables scan id = some answer) :
    (answer = .error (.transactionNotFound id) ∧ ∀ r ∈ w.db.tables.transactions, r.id ≠ id) ∨
    ∃ detail, answer = .ok detail ∧
      (∃ r ∈ w.db.tables.transactions, r.id = id ∧ detail.transaction = Transaction.ofRow r) ∧
      detail.isBalanced lib = some true ∧ detail.entries.length = 2 ∧
      (∀ e ∈ detail.entries, e.transactionId = id ∧ 0 < e.amount.amount.val ∧
        ∃ account, Accounts.get cfg.decode w'.db.tables e.accountId = .ok account ∧
          account.balance.currency = e.amount.currency) ∧
      ∀ v v', World.Leads cfg w v → World.Leads cfg v v' → ∀ scan' answer',
        Transactions.get cfg.decode v.db.tables v'.db.tables scan' id = some answer' → answer' = answer := by
  have h := Inv.reach hr
  by_cases hex : ∃ r ∈ w.db.tables.transactions, r.id = id
  · right
    obtain ⟨r, hrm, rfl⟩ := hex
    obtain ⟨tr, htr, rfl⟩ := Spec.row_transfer h.spec hrm
    obtain ⟨m, hm, hval, hcur⟩ := Spec.money_ok cfg.decode tr.intent
    have hlen : (tr.detail cfg.sha256 m).entries.length = 2 := by
      unfold Spec.Transfer.detail
      rw [List.length_map, List.length_insertionSort]
      rfl
    have hpos : 0 < m.amount.val := hval ▸ (Money.isPositive_iff _).mp (Spec.exec_admitted h.spec tr htr).2
    have hanswer := h.get_transfer Reach.refl hl htr hm hg
    refine ⟨_, hanswer, ⟨_, hrm, rfl, rfl⟩, ?_, hlen, fun e he => ?_, fun v v' hv hv' scan' answer' hget => ?_⟩
    · obtain ⟨b, hb, hiff⟩ := (tr.detail cfg.sha256 m).isBalanced_iff lib
        (fun e he => by obtain ⟨row, -, rfl⟩ := Spec.Transfer.mem_detail he; exact ⟨_, _, hm⟩)
        (by rw [hlen]; norm_num)
      rw [hb, hiff.mpr (tr.detail_balances cfg.sha256 m)]
    · obtain ⟨row, hrow, rfl⟩ := Spec.Transfer.mem_detail he
      obtain ⟨account, hget, hacur⟩ := (hl.inv h).entry_account (hl.transfers htr) hrow
      refine ⟨Spec.Transfer.entries_id hrow, hpos, account, hget, ?_⟩
      rw [hacur, Spec.Transfer.entries_currency hrow]
      exact hcur.symm
    · rw [h.get_transfer hv hv' htr hm hget, hanswer]
  · left
    have hne : ∀ r ∈ w.db.tables.transactions, r.id ≠ id := fun r hrm he => hex ⟨r, hrm, he⟩
    exact ⟨Transactions.get_missing hne hg, hne⟩

theorem transaction_reads_sampleRun : ∃ w, World.Leads (sample true) World.init w ∧
    Transactions.get Decode.driver w.db.tables w.db.tables [rentPaid.credit, rentPaid.debit] 3 =
      some (.ok rentDetail) ∧ rentDetail.isBalanced (.of fun _ _ => none) = some true := by
  have h : (exec (World.step (sample true)) World.init sampleRun).any (fun w => decide (
      Transactions.get Decode.driver w.db.tables w.db.tables [rentPaid.credit, rentPaid.debit] 3 =
        some (.ok rentDetail))) = true := by decide +kernel
  obtain ⟨w, hw, h⟩ := (Option.any_eq_true _ _).mp h
  have hget := of_decide_eq_true h
  have hr : World.Leads (sample true) World.init w := reach_of_exec (fun _ _ _ => trivial) hw
  refine ⟨w, hr, hget, ?_⟩
  rcases transaction_reads (.of fun _ _ => none) (sample true) hr Reach.refl hget with
    ⟨he, -⟩ | ⟨detail, he, -, hb, -⟩
  · cases he
  · cases he
    exact hb

end Ledger
