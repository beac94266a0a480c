import Ledger.Lib.Keyed
import Ledger.StmtSound
import Ledger.Sweep

/-!
# What the sweep vouches for

Tables of any content that fits the schema, however they came about. If the sweep
passes them, every currency is conserved on its own, although no query looks at one;
and no change of a single row goes by unnoticed.
-/

namespace Ledger

open Keyed

structure Tables.Checked (t : Tables) : Prop where
  accounts : ∀ a ∈ t.accounts, a.checks {} = .ok a
  requestHash : ∀ r ∈ t.transactions, r.requestHash.length = 32
  amount : ∀ e ∈ t.entries, (Numeric.num 0).lt e.amount.val = true
  parent : ∀ e ∈ t.entries, ∃ r ∈ t.transactions, r.id = e.transactionId
  account : ∀ e ∈ t.entries, ∃ a ∈ t.accounts, a.id = e.accountId ∧ a.currency = e.currency

structure Tables.WellFormed (t : Tables) : Prop extends t.Checked where
  accountIds : Distinct (·.id) t.accounts
  transactionIds : Distinct (·.id) t.transactions
  entryIds : Distinct (·.id) t.entries

namespace Sweep

variable {t t' : Tables}

/-- `check_invariants`, with nothing committed between its queries. -/
def checkInvariants (t : Tables) : Except SqlxError (List InvariantCheck) := queries.mapM fun q => q t

def Passes (t : Tables) : Prop := ∃ rows, checkInvariants t = .ok rows ∧ ∀ row ∈ rows, row.ok = true

/-! ## The seven queries -/

theorem counting_ok {α : Type*} {invariant what : String} {bad : List α} :
    (counting invariant bad.length what).ok = true ↔ bad = [] := by
  simp [counting]

theorem globalSumZero_ok : (globalSumZero t).ok = true ↔ net t.entries = 0 := by
  simp [globalSumZero]

theorem mem_groups {id : Uuid} : id ∈ groups t ↔ ∃ e ∈ t.entries, e.transactionId = id := by
  simp [groups]

theorem perTransactionBalanced_ok : (perTransactionBalanced t).ok = true ↔
    ∀ e ∈ t.entries, net (Transactions.entriesOf t e.transactionId) = 0 := by
  unfold perTransactionBalanced
  simp only [counting_ok, List.filter_eq_nil_iff, mem_groups, decide_eq_true_eq, not_not]
  exact ⟨fun h e he => h _ ⟨e, he, rfl⟩, fun h _ ⟨e, he, hid⟩ => hid ▸ h e he⟩

theorem mem_entriesOf {id : Uuid} {e : Row.Entry} :
    e ∈ Transactions.entriesOf t id ↔ e ∈ t.entries ∧ e.transactionId = id := by
  simp [Transactions.entriesOf]

theorem one_currency {e : Row.Entry} (he : e ∈ t.entries) :
    ((Transactions.entriesOf t e.transactionId).map (·.currency)).dedup.length = 1 ↔
      ∀ e' ∈ t.entries, e'.transactionId = e.transactionId → e'.currency = e.currency := by
  rw [dedup_length_one (List.mem_map_of_mem (mem_entriesOf.mpr ⟨he, rfl⟩))]
  simp only [List.forall_mem_map, mem_entriesOf, and_imp]

theorem transactionShape_ok : (transactionShape t).ok = true ↔
    ∀ e ∈ t.entries, 2 ≤ (Transactions.entriesOf t e.transactionId).length ∧
      ∀ e' ∈ t.entries, e'.transactionId = e.transactionId → e'.currency = e.currency := by
  unfold transactionShape
  simp only [counting_ok, List.filter_eq_nil_iff, mem_groups, decide_eq_true_eq, not_or, not_lt, not_not]
  constructor
  · intro h e he
    obtain ⟨hlen, hcur⟩ := h _ ⟨e, he, rfl⟩
    exact ⟨hlen, (one_currency he).mp hcur⟩
  · rintro h _ ⟨e, he, rfl⟩
    exact ⟨(h e he).1, (one_currency he).mpr (h e he).2⟩

theorem noEmptyTransactions_ok : (noEmptyTransactions t).ok = true ↔
    ∀ r ∈ t.transactions, Transactions.entriesOf t r.id ≠ [] := by
  unfold noEmptyTransactions
  simp only [counting_ok, List.filter_eq_nil_iff, decide_eq_true_eq]

theorem noUnauthorizedNegativeBalance_ok : (noUnauthorizedNegativeBalance t).ok = true ↔
    ∀ a ∈ t.accounts, a.allowsNegativeBalance = false → a.balance.val.lt (.num 0) = false := by
  unfold noUnauthorizedNegativeBalance
  simp only [counting_ok, List.filter_eq_nil_iff]
  refine forall₂_congr fun a _ => ?_
  cases a.allowsNegativeBalance <;> simp

theorem idempotencyKeysUnique_ok : (idempotencyKeysUnique t).ok = true ↔
    ∀ key, (t.transactions.filter fun r => r.idempotencyKey = key).length ≤ 1 := by
  unfold idempotencyKeysUnique
  simp only [counting_ok, List.filter_eq_nil_iff, List.mem_dedup, decide_eq_true_eq, not_lt]
  refine ⟨fun h key => ?_, fun h key _ => h key⟩
  by_cases hk : key ∈ t.transactions.map (·.idempotencyKey)
  · exact h key hk
  · have : (t.transactions.filter fun r => r.idempotencyKey = key) = [] := by
      rw [List.filter_eq_nil_iff]
      intro r hr he
      exact hk (List.mem_map.mpr ⟨r, hr, by simpa using he⟩)
    rw [this]
    exact Nat.zero_le _

theorem toNum20_range (n : Num20) : n.val.toNum20 = .ok n := dif_pos n.range

theorem toNum20_val {n : Numeric} {v : Num20} (h : n.toNum20 = .ok v) : v.val = n := by
  unfold Numeric.toNum20 at h
  split at h
  · cases h; rfl
  · cases h

def Cached (t : Tables) : Prop :=
  ∀ a ∈ t.accounts, net (t.entries.filter fun e => e.accountId = a.id) = a.balance.val

theorem cached_of_materialized {row : InvariantCheck} (h : materializedBalanceMatchesEntries t = .ok row)
    (hrow : row.ok = true) : Cached t := by
  intro a ha
  unfold materializedBalanceMatchesEntries at h
  cases hd : accountBalancesDerived t with
  | error e => rw [hd] at h; cases h
  | ok derived =>
    rw [hd] at h
    cases h
    obtain ⟨d, hdm, hda⟩ := Bind.mapM_image hd a ha
    cases hn : (net (t.entries.filter fun e => e.accountId = a.id)).toNum20 with
    | error e => rw [hn] at hda; cases hda
    | ok v =>
      rw [hn] at hda
      cases hda
      have hnil := List.filter_eq_nil_iff.mp (List.flatMap_eq_nil_iff.mp (counting_ok.mp hrow) a ha) _ hdm
      simp only [true_and, decide_eq_true_eq, not_not] at hnil
      rw [hnil, toNum20_val hn]

theorem materialized_of_cached (hd : Distinct (·.id) t.accounts) (h : Cached t) :
    ∃ row, materializedBalanceMatchesEntries t = .ok row ∧ row.ok = true ∧
      row.invariant = "materialized_balance_matches_entries" := by
  have hder : accountBalancesDerived t =
      .ok (t.accounts.map fun a => { accountId := a.id, currency := a.currency, balance := a.balance }) := by
    refine Bind.mapM_ok fun a ha => ?_
    rw [h a ha, toNum20_range]
    rfl
  refine ⟨_, by rw [materializedBalanceMatchesEntries, hder]; rfl, counting_ok.mpr ?_, rfl⟩
  refine List.flatMap_eq_nil_iff.mpr fun a ha => List.filter_eq_nil_iff.mpr fun d hdm => ?_
  obtain ⟨b, hb, rfl⟩ := List.mem_map.mp hdm
  rw [decide_eq_true_eq]
  rintro ⟨hid, hne⟩
  exact hne (by rw [hd.eq hb ha hid])

theorem net_selected (hb : ∀ e ∈ t.entries, net (Transactions.entriesOf t e.transactionId) = 0)
    (hs : ∀ e ∈ t.entries, 2 ≤ (Transactions.entriesOf t e.transactionId).length ∧
      ∀ e' ∈ t.entries, e'.transactionId = e.transactionId → e'.currency = e.currency)
    (p : String → Bool) : net (t.entries.filter fun e => p e.currency) = 0 :=
  sum_filter_eq_zero Row.Entry.transactionId Row.Entry.signed
    (fun a ha b hb hab => by rw [(hs b hb).2 a ha hab]) hb

theorem net_entries (hb : ∀ e ∈ t.entries, net (Transactions.entriesOf t e.transactionId) = 0)
    (hs : ∀ e ∈ t.entries, 2 ≤ (Transactions.entriesOf t e.transactionId).length ∧
      ∀ e' ∈ t.entries, e'.transactionId = e.transactionId → e'.currency = e.currency) : net t.entries = 0 := by
  have := net_selected hb hs fun _ => true
  rwa [List.filter_eq_self.mpr fun _ _ => rfl] at this

/-- What seven rows that are ok say about the tables. -/
structure Reconciled (t : Tables) : Prop where
  global : net t.entries = 0
  balanced : ∀ e ∈ t.entries, net (Transactions.entriesOf t e.transactionId) = 0
  shape : ∀ e ∈ t.entries, 2 ≤ (Transactions.entriesOf t e.transactionId).length ∧
    ∀ e' ∈ t.entries, e'.transactionId = e.transactionId → e'.currency = e.currency
  nonempty : ∀ r ∈ t.transactions, Transactions.entriesOf t r.id ≠ []
  cached : Cached t
  nonneg : ∀ a ∈ t.accounts, a.allowsNegativeBalance = false → a.balance.val.lt (.num 0) = false
  keys : ∀ key, (t.transactions.filter fun r => r.idempotencyKey = key).length ≤ 1

theorem Reconciled.currency_balance (h : Reconciled t) (hd : Distinct (·.id) t.accounts)
    (ha : ∀ e ∈ t.entries, ∃ a ∈ t.accounts, a.id = e.accountId ∧ a.currency = e.currency) (currency : String) :
    ((t.accounts.filter fun a => a.currency = currency).map (·.balance.val)).sum = 0 := by
  have hsum := hd.sum_labelled Row.Entry.accountId Row.Entry.signed (fun c => decide (c = currency)) ha
  rw [← net_selected h.balanced h.shape fun c => decide (c = currency), net, ← hsum]
  congr 1
  refine List.map_congr_left fun a hm => ?_
  exact (h.cached a (List.mem_filter.mp hm).1).symm

theorem Passes.reconciled (h : Passes t) : Reconciled t := by
  obtain ⟨rows, hrows, hall⟩ := h
  have ok : ∀ q ∈ queries, ∃ row, q t = .ok row ∧ row.ok = true := by
    intro q hq
    obtain ⟨row, hm, hrow⟩ := Bind.mapM_image hrows q hq
    exact ⟨row, hrow, hall row hm⟩
  have pure_ok : ∀ check : Tables → InvariantCheck, (fun t => .ok (check t)) ∈ queries → (check t).ok = true := by
    intro check hc
    obtain ⟨row, hrow, hok⟩ := ok _ hc
    cases hrow
    exact hok
  obtain ⟨row, hrow, hok⟩ := ok materializedBalanceMatchesEntries (by simp [queries])
  exact {
    global := globalSumZero_ok.mp (pure_ok _ (by simp [queries]))
    balanced := perTransactionBalanced_ok.mp (pure_ok _ (by simp [queries]))
    shape := transactionShape_ok.mp (pure_ok _ (by simp [queries]))
    nonempty := noEmptyTransactions_ok.mp (pure_ok _ (by simp [queries]))
    cached := cached_of_materialized hrow hok
    nonneg := noUnauthorizedNegativeBalance_ok.mp (pure_ok _ (by simp [queries]))
    keys := idempotencyKeysUnique_ok.mp (pure_ok _ (by simp [queries])) }

theorem Reconciled.passes (hd : Distinct (·.id) t.accounts) (h : Reconciled t) : Passes t := by
  obtain ⟨row, hrow, hok, -⟩ := materialized_of_cached hd h.cached
  refine ⟨[globalSumZero t, perTransactionBalanced t, transactionShape t, noEmptyTransactions t, row,
    noUnauthorizedNegativeBalance t, idempotencyKeysUnique t], ?_, ?_⟩
  · simp only [checkInvariants, queries, List.mapM_cons, List.mapM_nil, hrow]
    rfl
  · simp only [List.forall_mem_cons, List.not_mem_nil, false_implies, implies_true, and_true]
    exact ⟨globalSumZero_ok.mpr h.global, perTransactionBalanced_ok.mpr h.balanced, transactionShape_ok.mpr h.shape,
      noEmptyTransactions_ok.mpr h.nonempty, hok, noUnauthorizedNegativeBalance_ok.mpr h.nonneg,
      idempotencyKeysUnique_ok.mpr h.keys⟩

end Sweep

/-! ## Conservation -/

theorem sum_funding : ∀ l : List Row.Account, (l.map (·.balance.val)).sum =
    ((l.filter fun a => a.allowsNegativeBalance ∧ a.balance.val.lt (.num 0)).map (·.balance.val)).sum +
      (((l.filter fun a => !a.allowsNegativeBalance).map (·.balance.val)).sum +
        ((l.filter fun a => a.allowsNegativeBalance ∧ (Numeric.num 0).lt a.balance.val).map (·.balance.val)).sum)
  | [] => rfl
  | a :: l => by
    rw [List.map_cons, List.sum_cons, sum_funding l]
    by_cases hf : a.allowsNegativeBalance = true
    · by_cases hneg : a.balance.val.lt (.num 0) = true
      · have hpos : (Numeric.num 0).lt a.balance.val = false := by
          cases hb : a.balance.val with
          | nan => simp [hb, Numeric.lt] at hneg
          | num u =>
            simp only [hb, Numeric.lt, decide_eq_true_eq] at hneg
            simp only [Numeric.lt, decide_eq_false_iff_not]
            omega
        simp [hf, hneg, hpos, add_assoc]
      · by_cases hpos : (Numeric.num 0).lt a.balance.val = true
        · simp [hf, hneg, hpos, add_left_comm]
        · have hzero : a.balance.val = 0 := by
            cases hb : a.balance.val with
            | nan => simp [hb, Numeric.lt] at hpos
            | num u =>
              simp only [hb, Numeric.lt, decide_eq_true_eq] at hneg hpos
              rw [Numeric.zero_def, show u = 0 by omega]
          have hlt : (Numeric.lt 0 (.num 0)) = false := rfl
          have hgt : (Numeric.num 0).lt 0 = false := rfl
          simp [hf, hzero, hlt, hgt]
    · simp [hf, add_assoc, add_left_comm]

theorem Numeric.opposite {a b : Numeric} (h : a + b = 0) : ∃ u : ℤ, -a = .num u ∧ b = .num u := by
  cases a with
  | nan => cases h
  | num n =>
    cases b with
    | nan => cases h
    | num m =>
      rw [num_add, zero_def, num.injEq] at h
      exact ⟨m, by rw [neg_num, show -n = m by omega], rfl⟩

/-- **The sweep vouches for each currency.** If all seven rows are ok, the entries of a
currency net to zero, its balances add up to zero, and its funding accounts owe exactly
what the others and the funding accounts in credit hold. -/
theorem sweep_conserves_currency {t : Tables} (hw : t.WellFormed) (hp : Sweep.Passes t) (c : String) :
    Sweep.net (t.entries.filter fun e => e.currency = c) = 0 ∧
    ((t.accounts.filter fun a => a.currency = c).map (·.balance.val)).sum = 0 ∧
    ∃ u : ℤ,
      -((t.accounts.filter fun a => a.currency = c ∧ a.allowsNegativeBalance ∧ a.balance.val.lt (.num 0)).map
        (·.balance.val)).sum = .num u ∧
      ((t.accounts.filter fun a => a.currency = c ∧ !a.allowsNegativeBalance).map (·.balance.val)).sum +
        ((t.accounts.filter fun a =>
            a.currency = c ∧ a.allowsNegativeBalance ∧ (Numeric.num 0).lt a.balance.val).map
          (·.balance.val)).sum = .num u := by
  have h := hp.reconciled
  have hsum := h.currency_balance hw.accountIds hw.account c
  refine ⟨Sweep.net_selected h.balanced h.shape fun d => decide (d = c), hsum, ?_⟩
  rw [sum_funding, List.filter_filter, List.filter_filter, List.filter_filter] at hsum
  have hopp := Numeric.opposite hsum
  simpa only [Bool.decide_and, Bool.and_comm, Bool.decide_eq_true] using hopp

def rentSettled : Tables where
  accounts :=
    [{ id := 1, name := "bank", currency := "EUR", balance := ⟨.num (-500000000), by decide⟩
       allowsNegativeBalance := true, createdAt := 0 },
      { id := 2, name := "landlord", currency := "EUR", balance := ⟨.num 500000000, by decide⟩
        allowsNegativeBalance := false, createdAt := 0 }]
  transactions :=
    [{ id := 3, idempotencyKey := "rent-1", requestHash := List.replicate 32 0, description := "rent"
       createdXid := 0, createdAt := 0, xmin := 0 }]
  entries :=
    [{ id := 4, transactionId := 3, accountId := 1, direction := .credit, amount := ⟨.num 500000000, by decide⟩
       currency := "EUR", createdAt := 0, xmin := 0 },
      { id := 5, transactionId := 3, accountId := 2, direction := .debit, amount := ⟨.num 500000000, by decide⟩
        currency := "EUR", createdAt := 0, xmin := 0 }]

theorem rentSettled_wellFormed : rentSettled.WellFormed where
  accounts := by decide +kernel
  requestHash := by decide
  amount := by decide
  parent := by decide
  account := by decide
  accountIds := by simp [rentSettled, Distinct]
  transactionIds := by simp [rentSettled, Distinct]
  entryIds := by simp [rentSettled, Distinct]

theorem rentSettled_passes : Sweep.Passes rentSettled := by
  refine Sweep.Reconciled.passes rentSettled_wellFormed.accountIds ?_
  exact {
    global := by decide
    balanced := by decide
    shape := by decide
    nonempty := by decide
    cached := by unfold Sweep.Cached; decide
    nonneg := by decide
    keys := fun key => List.length_filter_le _ rentSettled.transactions }

theorem sweep_conserves_currency_rentSettled : rentSettled.WellFormed ∧ Sweep.Passes rentSettled ∧
    ((rentSettled.accounts.filter fun a => a.currency = "EUR").map (·.balance.val)).sum = 0 :=
  ⟨rentSettled_wellFormed, rentSettled_passes,
    (sweep_conserves_currency rentSettled_wellFormed rentSettled_passes "EUR").2.1⟩

/-! ## Corruption -/

/-- One row changed behind the ledger's back. A moved entry may take on the currency of
the account it is moved to. -/
inductive Corruption (t : Tables) : Tables → Prop
  | amount {l r : List Row.Entry} {e : Row.Entry} {v : Num20} : t.entries = l ++ e :: r → v ≠ e.amount →
    Corruption t { t with entries := l ++ { e with amount := v } :: r }
  | direction {l r : List Row.Entry} {e : Row.Entry} {d : Direction} : t.entries = l ++ e :: r → d ≠ e.direction →
    Corruption t { t with entries := l ++ { e with direction := d } :: r }
  | account {l r : List Row.Entry} {e : Row.Entry} {id : Uuid} {currency : String} : t.entries = l ++ e :: r →
    id ≠ e.accountId → Corruption t { t with entries := l ++ { e with accountId := id, currency } :: r }
  | transaction {l r : List Row.Entry} {e : Row.Entry} {id : Uuid} : t.entries = l ++ e :: r →
    id ≠ e.transactionId → Corruption t { t with entries := l ++ { e with transactionId := id } :: r }
  | delete {l r : List Row.Entry} {e : Row.Entry} : t.entries = l ++ e :: r →
    Corruption t { t with entries := l ++ r }
  | insert {l r : List Row.Entry} {e : Row.Entry} : t.entries = l ++ r →
    Corruption t { t with entries := l ++ e :: r }
  | balance {l r : List Row.Account} {a : Row.Account} {v : Num20} : t.accounts = l ++ a :: r → v ≠ a.balance →
    Corruption t { t with accounts := l ++ { a with balance := v } :: r }

theorem net_insert (l r : List Row.Entry) (e : Row.Entry) :
    Sweep.net (l ++ e :: r) = e.signed + Sweep.net (l ++ r) := by
  simp [Sweep.net, add_left_comm]

theorem net_filter_num : ∀ {es : List Row.Entry} {u : ℤ}, Sweep.net es = .num u → ∀ p : Row.Entry → Bool,
    ∃ v : ℤ, Sweep.net (es.filter p) = .num v
  | [], _, _, _ => ⟨0, rfl⟩
  | e :: es, u, h, p => by
    have hcons : ∀ l, Sweep.net (e :: l) = e.signed + Sweep.net l := fun l => by simp [Sweep.net]
    rw [hcons] at h
    cases hn : Sweep.net es with
    | nan => rw [hn, Numeric.add_nan] at h; cases h
    | num n =>
      obtain ⟨v, hv⟩ := net_filter_num hn p
      by_cases hp : p e = true
      · rw [List.filter_cons_of_pos hp, hcons, hv]
        cases hs : e.signed with
        | nan => rw [hs, Numeric.nan_add] at h; cases h
        | num s => exact ⟨s + v, rfl⟩
      · exact ⟨v, by rw [List.filter_cons_of_neg hp, hv]⟩

theorem Numeric.cancel {a b c : Numeric} {u : ℤ} (h : a + c = .num u) (h' : b + c = .num u) : a = b := by
  cases a with
  | nan => cases h
  | num a =>
    cases c with
    | nan => cases h
    | num c =>
      cases b with
      | nan => cases h'
      | num b =>
        rw [num_add, num.injEq] at h h'
        rw [num.injEq]
        omega

/-- A finite signed amount determines the side and the amount, as amounts are positive. -/
theorem Row.Entry.signed_inj {e e' : Row.Entry} {u : ℤ} (h : (Numeric.num 0).lt e.amount.val = true)
    (h' : (Numeric.num 0).lt e'.amount.val = true) (hu : e.signed = .num u) (hs : e'.signed = e.signed) :
    e'.direction = e.direction ∧ e'.amount = e.amount := by
  rw [hu] at hs
  unfold Row.Entry.signed at hu hs
  cases hv : e.amount.val with
  | nan => rw [hv] at hu; cases hd : e.direction <;> rw [hd] at hu <;> cases hu
  | num n =>
    cases hv' : e'.amount.val with
    | nan => rw [hv'] at hs; cases hd : e'.direction <;> rw [hd] at hs <;> cases hs
    | num n' =>
      rw [hv, Numeric.lt, decide_eq_true_eq] at h
      rw [hv', Numeric.lt, decide_eq_true_eq] at h'
      rw [hv] at hu
      rw [hv'] at hs
      have hval : e'.direction = e.direction ∧ n' = n := by
        cases hd : e.direction <;> cases hd' : e'.direction <;>
          simp only [hd, hd', Numeric.neg_num, Numeric.num.injEq] at hu hs <;>
          simp only [reduceCtorEq, false_and, true_and] <;> omega
      exact ⟨hval.1, Num20.ext (by rw [hv, hv', hval.2])⟩

theorem Row.Entry.signed_ne_zero {e : Row.Entry} (h : (Numeric.num 0).lt e.amount.val = true) : e.signed ≠ 0 := by
  intro hz
  unfold Row.Entry.signed at hz
  cases hv : e.amount.val with
  | nan => rw [hv] at hz; cases hd : e.direction <;> rw [hd] at hz <;> cases hz
  | num u =>
    rw [hv, Numeric.lt, decide_eq_true_eq] at h
    rw [hv] at hz
    cases hd : e.direction <;> simp only [hd, Numeric.neg_num, Numeric.zero_def, Numeric.num.injEq] at hz <;> omega

section
variable {t t' : Tables} (hr : Sweep.Reconciled t) (hr' : Sweep.Reconciled t') {l r : List Row.Entry}
  {e : Row.Entry}
  (he : t.entries = l ++ e :: r) (ht : t.Checked)
include hr hr' he ht

theorem amount_kept (ht' : t'.Checked) {e' : Row.Entry} (he' : t'.entries = l ++ e' :: r) :
    e'.direction = e.direction ∧ e'.amount = e.amount := by
  have h := hr.global
  have h' := hr'.global
  rw [he, net_insert] at h
  rw [he', net_insert] at h'
  have hs : e'.signed = e.signed := Numeric.cancel h' h
  cases hu : e.signed with
  | nan => rw [hu, Numeric.nan_add] at h; cases h
  | num u =>
    exact Row.Entry.signed_inj (ht.amount e (by rw [he]; simp)) (ht'.amount e' (by rw [he']; simp)) hu hs

theorem account_kept (hacc : t'.accounts = t.accounts) {e' : Row.Entry}
    (he' : t'.entries = l ++ e' :: r) : e'.accountId = e.accountId := by
  by_contra hne
  have hm : e ∈ t.entries := by rw [he]; simp
  obtain ⟨a, ha, hid, -⟩ := ht.account e hm
  have h := hr.cached a ha
  have h' := hr'.cached a (hacc ▸ ha)
  obtain ⟨u, hu⟩ := net_filter_num hr.global fun e => decide (e.accountId = a.id)
  have hfin : a.balance.val = .num u := h.symm.trans hu
  rw [he, List.filter_append, List.filter_cons_of_pos (by simp [hid]), net_insert, hfin] at h
  rw [he', List.filter_append, List.filter_cons_of_neg (by simpa [hid] using hne), hfin] at h'
  have hz : e.signed = 0 := Numeric.cancel h (by rw [zero_add]; exact h')
  exact Row.Entry.signed_ne_zero (ht.amount e hm) hz

/-- The sum of each transaction keeps an entry's parent. The group it leaves is still
there, since it had two entries. -/
theorem parent_kept {e' : Row.Entry} (he' : t'.entries = l ++ e' :: r) :
    e'.transactionId = e.transactionId := by
  by_contra hne
  have hm : e ∈ t.entries := by rw [he]; simp
  have h := hr.balanced e hm
  have hlen := (hr.shape e hm).1
  unfold Transactions.entriesOf at h hlen
  rw [he, List.filter_append, List.filter_cons_of_pos (by simp)] at h hlen
  rw [net_insert, ← List.filter_append] at h
  rw [List.length_append, List.length_cons] at hlen
  have hleft : ∃ e₂ ∈ l ++ r, e₂.transactionId = e.transactionId := by
    have hpos : 0 < ((l ++ r).filter fun e₂ => e₂.transactionId = e.transactionId).length := by
      rw [List.filter_append, List.length_append]; omega
    obtain ⟨e₂, he₂⟩ := List.exists_mem_of_length_pos hpos
    obtain ⟨he₂, hid⟩ := List.mem_filter.mp he₂
    exact ⟨e₂, he₂, by simpa using hid⟩
  obtain ⟨e₂, he₂, hid⟩ := hleft
  have hm₂ : e₂ ∈ t'.entries := by
    rw [he']
    rcases List.mem_append.mp he₂ with h₂ | h₂ <;> simp [h₂]
  have h' := hr'.balanced e₂ hm₂
  unfold Transactions.entriesOf at h'
  rw [he', hid, List.filter_append, List.filter_cons_of_neg (by simpa using hne), ← List.filter_append] at h'
  rw [h', add_zero] at h
  exact Row.Entry.signed_ne_zero (ht.amount e hm) h

theorem entry_missed : t'.entries ≠ l ++ r := by
  intro he'
  have h := hr.global
  have h' := hr'.global
  rw [he, net_insert] at h
  rw [he'] at h'
  rw [h', add_zero] at h
  exact Row.Entry.signed_ne_zero (ht.amount e (by rw [he]; simp)) h

end

/-- **The sweep detects every single-row corruption**: on the changed tables it fails or
returns a row that is not ok. -/
theorem sweep_detects {t t' : Tables} (ht : t.Checked) (hp : Sweep.Passes t) (hc : Corruption t t')
    (ht' : t'.Checked) {rows : List InvariantCheck} (hrows : Sweep.checkInvariants t' = .ok rows) :
    ∃ row ∈ rows, row.ok = false := by
  by_contra hnone
  have hr := hp.reconciled
  have hr' : Sweep.Reconciled t' := Sweep.Passes.reconciled ⟨rows, hrows, by simpa using hnone⟩
  cases hc with
  | amount he hv => exact hv (amount_kept hr hr' he ht ht' rfl).2
  | direction he hd => exact hd (amount_kept hr hr' he ht ht' rfl).1
  | account he hid => exact hid (account_kept hr hr' he ht rfl rfl)
  | transaction he hid => exact hid (parent_kept hr hr' he ht rfl)
  | delete he => exact entry_missed hr hr' he ht rfl
  | insert he => exact entry_missed hr' hr rfl ht' he
  | @balance l r a v ha hv =>
    have h := hr.cached a (by rw [ha]; simp)
    have h' := hr'.cached { a with balance := v } (by simp)
    exact hv (Num20.ext (h'.symm.trans h))

def rentSkimmed : Tables where
  accounts := rentSettled.accounts
  transactions := rentSettled.transactions
  entries := rentSettled.entries.map fun e =>
    if e.id = 4 then { e with amount := ⟨.num 501000000, by decide⟩ } else e

theorem sweep_detects_rentSkimmed : Corruption rentSettled rentSkimmed ∧ rentSkimmed.Checked ∧
    ∃ rows, Sweep.checkInvariants rentSkimmed = .ok rows ∧ ∃ row ∈ rows, row.ok = false := by
  have hc : Corruption rentSettled rentSkimmed :=
    Corruption.amount (l := []) (v := ⟨.num 501000000, by decide⟩) rfl (by decide)
  have hk : rentSkimmed.Checked :=
    { rentSettled_wellFormed with amount := by decide, parent := by decide, account := by decide }
  have hrun : (Sweep.checkInvariants rentSkimmed).isOk = true := by decide +kernel
  cases hrows : Sweep.checkInvariants rentSkimmed with
  | error e => rw [hrows] at hrun; cases hrun
  | ok rows =>
    exact ⟨hc, hk, rows, rfl, sweep_detects rentSettled_wellFormed.toChecked rentSettled_passes hc hk hrows⟩

end Ledger
