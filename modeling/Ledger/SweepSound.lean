import Ledger.Answers
import Ledger.Reconcile

/-!
# The ledger's invariant

In every committed state the cached balances are what the entries add up to, every
transaction is one credit and one debit, and each currency nets to zero. The sweep
finds nothing wrong, whatever is committed between its queries.
-/

namespace Ledger

open Keyed Runs Transfers

namespace Spec

variable {sha256 : List UInt8 → Vector UInt8 32} {dec : Decode} {t : Tables}

theorem exec_admitted : ∀ {log : List Event} {t t' : Tables}, exec (step sha256 dec) t log = some t' →
    ∀ tr ∈ transfers log, tr.intent.fromAccountId ≠ tr.intent.toAccountId ∧ tr.intent.amount.isPositive = true
  | [], _, _, _, tr, htr => by cases htr
  | ev :: log, t, t', h, tr, htr => by
    simp only [exec, Option.bind_eq_some_iff] at h
    obtain ⟨t₁, h1, h2⟩ := h
    rcases List.mem_cons.mp (mem_transfers.mp htr) with rfl | hm
    · simp only [step, transfer] at h1
      split at h1
      · rename_i hv
        obtain ⟨-, s, r, ha⟩ := verdict_accepted.mp hv
        exact ⟨ha.distinct, ha.positive⟩
      · cases h1
    · exact exec_admitted h2 tr (mem_transfers.mpr hm)

theorem Transfer.net_entries (tr : Transfer) : Sweep.net tr.entries = 0 := by
  simp [Sweep.net, Transfer.entries, Transfer.credit_signed, Transfer.debit_signed, Numeric.zero_def]

section
variable {log : List Event} (h : exec (step sha256 dec) {} log = some t)
include h

theorem entry_transfer {e : Row.Entry} (he : e ∈ t.entries) : ∃ tr ∈ transfers log, e ∈ tr.entries := by
  rw [(exec_log h).2, List.nil_append] at he
  exact List.mem_flatMap.mp he

theorem entriesOf_entry (hk : Keys t) {e : Row.Entry} (he : e ∈ t.entries) :
    ∃ tr : Transfer, Transactions.entriesOf t e.transactionId = tr.entries := by
  obtain ⟨tr, htr, hm⟩ := entry_transfer h he
  exact ⟨tr, by rw [Transfer.entries_id hm, entriesOf_transfer h hk htr]⟩

theorem reconciled (hk : Keys t) : Sweep.Reconciled t := by
  have hb : ∀ e ∈ t.entries, Sweep.net (Transactions.entriesOf t e.transactionId) = 0 := by
    intro e he
    obtain ⟨tr, htr⟩ := entriesOf_entry h hk he
    rw [htr, tr.net_entries]
  have hs : ∀ e ∈ t.entries, 2 ≤ (Transactions.entriesOf t e.transactionId).length ∧
      ∀ e' ∈ t.entries, e'.transactionId = e.transactionId → e'.currency = e.currency := by
    intro e he
    obtain ⟨tr, htr⟩ := entriesOf_entry h hk he
    have currency : ∀ e' ∈ t.entries, e'.transactionId = e.transactionId →
        e'.currency = tr.intent.amount.currency.code := by
      intro e' he' hid
      exact Transfer.entries_currency (htr ▸ Sweep.mem_entriesOf.mpr ⟨he', hid⟩)
    refine ⟨by rw [htr]; exact Nat.le_refl 2, fun e' he' hid => ?_⟩
    rw [currency e' he' hid, currency e he rfl]
  have hn : ∀ r ∈ t.transactions, Transactions.entriesOf t r.id ≠ [] := by
    intro r hr
    obtain ⟨tr, htr, rfl⟩ := row_transfer h hr
    have : Transactions.entriesOf t (tr.row sha256).id = tr.entries := entriesOf_transfer h hk htr
    rw [this]
    exact List.cons_ne_nil _ _
  exact {
    global := Sweep.net_entries hb hs
    balanced := hb
    shape := hs
    nonempty := hn
    cached := fun a ha => ((exec_inv h).balance a ha).symm
    nonneg := (exec_inv h).nonneg
    keys := hk.keys.filter_le_one }

end

/-! ## Balances -/

def total (t : Tables) (id : Uuid) (direction : Direction) : Numeric :=
  ((t.entries.filter fun e => e.accountId = id ∧ e.direction = direction).map (·.amount.val)).sum

theorem net_eq_totals (id : Uuid) : ∀ es : List Row.Entry, Sweep.net (es.filter fun e => e.accountId = id) =
    ((es.filter fun e => e.accountId = id ∧ e.direction = .debit).map (·.amount.val)).sum +
      -((es.filter fun e => e.accountId = id ∧ e.direction = .credit).map (·.amount.val)).sum
  | [] => rfl
  | e :: es => by
    have ih := net_eq_totals id es
    unfold Sweep.net at ih ⊢
    by_cases hid : e.accountId = id
    · rw [List.filter_cons_of_pos (by simpa using hid), List.map_cons, List.sum_cons, ih]
      cases hd : e.direction with
      | debit =>
        have hs : e.signed = e.amount.val := by rw [Row.Entry.signed, hd]
        rw [List.filter_cons_of_pos (by simp [hid, hd]), List.filter_cons_of_neg (by simp [hd]), List.map_cons,
          List.sum_cons, hs, add_assoc]
      | credit =>
        have hs : e.signed = -e.amount.val := by rw [Row.Entry.signed, hd]
        rw [List.filter_cons_of_neg (by simp [hd]), List.filter_cons_of_pos (by simp [hid, hd]), List.map_cons,
          List.sum_cons, hs, Numeric.neg_add, add_left_comm]
    · rw [List.filter_cons_of_neg (by simpa using hid), List.filter_cons_of_neg (by simp [hid]),
        List.filter_cons_of_neg (by simp [hid]), ih]

theorem zero_of_sum_zero : ∀ {l : List Numeric}, (∀ x ∈ l, ∃ u : ℤ, 0 ≤ u ∧ x = .num u) →
    (∃ s : ℤ, 0 ≤ s ∧ l.sum = .num s) ∧ (l.sum = 0 → ∀ x ∈ l, x = 0)
  | [], _ => ⟨⟨0, le_refl _, rfl⟩, fun _ x hx => by cases hx⟩
  | x :: l, h => by
    obtain ⟨u, hu, rfl⟩ := h x (List.mem_cons_self ..)
    obtain ⟨⟨s, hs, hsum⟩, hall⟩ := zero_of_sum_zero fun y hy => h y (List.mem_cons_of_mem _ hy)
    rw [List.sum_cons, hsum]
    refine ⟨⟨u + s, by omega, rfl⟩, fun hz y hy => ?_⟩
    rw [Numeric.num_add, Numeric.zero_def, Numeric.num.injEq] at hz
    rcases List.mem_cons.mp hy with rfl | hy
    · rw [Numeric.zero_def, show u = 0 by omega]
    · exact hall (by rw [hsum, Numeric.zero_def, show s = 0 by omega]) y hy

section
variable {log : List Event} (h : exec (step sha256 dec) {} log = some t)
include h

theorem balance_totals {a : Row.Account} (ha : a ∈ t.accounts) :
    a.balance.val = total t a.id .debit + -total t a.id .credit :=
  ((exec_inv h).balance a ha).trans (net_eq_totals a.id t.entries)

theorem currency_balance (hk : Keys t) (currency : String) :
    ((t.accounts.filter fun a => a.currency = currency).map (·.balance.val)).sum = 0 :=
  (reconciled h hk).currency_balance (exec_inv h).ids (exec_inv h).account currency

theorem currency_unfunded (hk : Keys t) {currency : String}
    (hf : ∀ a ∈ t.accounts, a.currency = currency → a.allowsNegativeBalance = false) :
    ∀ a ∈ t.accounts, a.currency = currency → a.balance = Num20.zero := by
  intro a ha hc
  have hi := exec_inv h
  have hnonneg : ∀ x ∈ (t.accounts.filter fun a => a.currency = currency).map (·.balance.val),
      ∃ u : ℤ, 0 ≤ u ∧ x = .num u := by
    intro x hx
    obtain ⟨b, hb, rfl⟩ := List.mem_map.mp hx
    obtain ⟨hb, hbc⟩ := List.mem_filter.mp hb
    obtain ⟨u, hu⟩ := hi.finite b hb
    have := hi.nonneg b hb (hf b hb (by simpa using hbc))
    rw [hu, Numeric.lt, decide_eq_false_iff_not] at this
    exact ⟨u, by omega, hu⟩
  have hz := (zero_of_sum_zero hnonneg).2 (currency_balance h hk currency) a.balance.val
    (List.mem_map_of_mem (List.mem_filter.mpr ⟨ha, by simpa using hc⟩))
  exact Num20.ext hz

/-- One credit and one debit of the same positive amount, on two accounts of its currency. -/
theorem entries_shape (hk : Keys t) {r : Row.Transaction} (hr : r ∈ t.transactions) :
    ∃ credit debit : Row.Entry, Transactions.entriesOf t r.id = [credit, debit] ∧
      credit.direction = .credit ∧ debit.direction = .debit ∧ (∃ u : ℤ, 0 < u ∧ credit.amount.val = .num u) ∧
      debit.amount = credit.amount ∧ debit.currency = credit.currency ∧ credit.accountId ≠ debit.accountId ∧
      ∀ e ∈ [credit, debit], ∃ a ∈ t.accounts, a.id = e.accountId ∧ a.currency = credit.currency := by
  obtain ⟨tr, htr, rfl⟩ := row_transfer h hr
  obtain ⟨hne, hpos⟩ := exec_admitted h tr htr
  refine ⟨tr.credit, tr.debit, entriesOf_transfer h hk htr, rfl, rfl,
    ⟨tr.intent.units, TransferIntent.units_pos hpos, rfl⟩, rfl, rfl, hne, ?_⟩
  intro e he
  have hm : e ∈ t.entries := by
    have : e ∈ Transactions.entriesOf t tr.id := by rw [entriesOf_transfer h hk htr]; exact he
    exact (List.mem_filter.mp this).1
  obtain ⟨a, ha, hid, hc⟩ := (exec_inv h).account e hm
  exact ⟨a, ha, hid, hc.trans (Transfer.entries_currency he)⟩

end

end Spec

/-! ## The seven checks -/

namespace Sweep

variable {sha256 : List UInt8 → Vector UInt8 32} {dec : Decode} {t : Tables} {log : List Spec.Event}

def names : List String :=
  ["global_sum_zero", "per_transaction_balanced", "transaction_shape", "no_empty_transactions",
    "materialized_balance_matches_entries", "no_unauthorized_negative_balance", "idempotency_keys_unique"]

theorem query_ok (h : exec (Spec.step sha256 dec) {} log = some t) (hk : Spec.Keys t) {n : Nat}
    {q : Tables → Except SqlxError InvariantCheck} (hq : queries[n]? = some q) :
    ∃ row, q t = .ok row ∧ row.ok = true ∧ names[n]? = some row.invariant := by
  have hn : n < 7 := by
    obtain ⟨hn, -⟩ := List.getElem?_eq_some_iff.mp hq
    exact hn
  have hr := Spec.reconciled h hk
  interval_cases n <;> cases hq
  · exact ⟨_, rfl, globalSumZero_ok.mpr hr.global, rfl⟩
  · exact ⟨_, rfl, perTransactionBalanced_ok.mpr hr.balanced, rfl⟩
  · exact ⟨_, rfl, transactionShape_ok.mpr hr.shape, rfl⟩
  · exact ⟨_, rfl, noEmptyTransactions_ok.mpr hr.nonempty, rfl⟩
  · obtain ⟨row, hrow, hok, hname⟩ := materialized_of_cached (Spec.exec_inv h).ids hr.cached
    exact ⟨row, hrow, hok, by rw [hname]; rfl⟩
  · exact ⟨_, rfl, noUnauthorizedNegativeBalance_ok.mpr hr.nonneg, rfl⟩
  · exact ⟨_, rfl, idempotencyKeysUnique_ok.mpr hr.keys, rfl⟩

structure Clean (cfg : Config) (s : Sweep) : Prop where
  inv : Inv cfg s.world
  rows : ∃ rows, s.rows = .ok rows ∧ (∀ row ∈ rows, row.ok = true) ∧ rows.map (·.invariant) = names.take rows.length

theorem Clean.step {cfg : Config} {s s' : Sweep} {l : Label} (h : Clean cfg s) (hs : s.step cfg l = some s') :
    Clean cfg s' := by
  obtain ⟨rows, hrows, hok, hnames⟩ := h.rows
  cases l with
  | service l =>
    obtain ⟨w, hw, rfl⟩ := Option.map_eq_some_iff.mp hs
    exact ⟨h.inv.step hw, rows, hrows, hok, hnames⟩
  | query =>
    simp only [Sweep.step, query, hrows] at hs
    obtain ⟨q, hq, rfl⟩ := Option.map_eq_some_iff.mp hs
    obtain ⟨row, hrow, hrok, hname⟩ := query_ok h.inv.spec h.inv.keys hq
    refine ⟨h.inv, rows ++ [row], ?_, ?_, ?_⟩
    · simp only [hrow]; rfl
    · intro r hr
      rcases List.mem_append.mp hr with hr | hr
      · exact hok r hr
      · rw [List.mem_singleton.mp hr]; exact hrok
    · rw [List.map_append, hnames, List.length_append, List.length_singleton, List.take_add_one, hname]
      rfl

theorem Clean.query_iff {cfg : Config} {s : Sweep} (h : Clean cfg s) {rows : List InvariantCheck}
    (hrows : s.rows = .ok rows) : s.step cfg .query = none ↔ rows.length = 7 := by
  obtain ⟨rows', hrows', -, hnames⟩ := h.rows
  have he : rows' = rows := by rw [hrows] at hrows'; cases hrows'; rfl
  have hle : rows.length ≤ 7 := by
    rw [he] at hnames
    have := congrArg List.length hnames
    rw [List.length_map, List.length_take] at this
    have hl : names.length = 7 := rfl
    omega
  have hq : queries.length = 7 := rfl
  simp only [Sweep.step, query, hrows, Option.map_eq_none_iff, List.getElem?_eq_none_iff, hq]
  omega

end Sweep

/-- **The ledger's invariant.** In every committed state of every run: a balance is the
debits minus the credits of its account; a transaction has one credit and one debit of the
same positive amount on two accounts of its currency; every currency sums to zero, and
holds nothing without a funding account. A sweep started there returns seven rows that
are all in order, whatever the service does between its queries. -/
theorem ledger_invariant (cfg : Config) {w : World} (hr : World.Leads cfg World.init w) :
    (∀ a ∈ w.db.tables.accounts,
      a.balance.val = Spec.total w.db.tables a.id .debit + -Spec.total w.db.tables a.id .credit) ∧
    (∀ r ∈ w.db.tables.transactions, ∃ credit debit : Row.Entry,
      Transactions.entriesOf w.db.tables r.id = [credit, debit] ∧
      credit.direction = .credit ∧ debit.direction = .debit ∧ (∃ u : ℤ, 0 < u ∧ credit.amount.val = .num u) ∧
      debit.amount = credit.amount ∧ debit.currency = credit.currency ∧ credit.accountId ≠ debit.accountId ∧
      ∀ e ∈ [credit, debit], ∃ a ∈ w.db.tables.accounts, a.id = e.accountId ∧ a.currency = credit.currency) ∧
    (∀ currency, ((w.db.tables.accounts.filter fun a => a.currency = currency).map (·.balance.val)).sum = 0 ∧
      ((∀ a ∈ w.db.tables.accounts, a.currency = currency → a.allowsNegativeBalance = false) →
        ∀ a ∈ w.db.tables.accounts, a.currency = currency → a.balance = Num20.zero)) ∧
    ∀ s, Reach (Sweep.step cfg) (fun _ _ => True) (Sweep.begin w) s →
      ∃ rows, s.rows = .ok rows ∧ (∀ row ∈ rows, row.ok = true) ∧
        rows.map (·.invariant) = Sweep.names.take rows.length ∧ (s.step cfg .query = none ↔ rows.length = 7) := by
  have h := Inv.reach hr
  refine ⟨fun a ha => Spec.balance_totals h.spec ha, fun r hm => Spec.entries_shape h.spec h.keys hm,
    fun currency => ⟨Spec.currency_balance h.spec h.keys currency, Spec.currency_unfunded h.spec h.keys⟩, ?_⟩
  intro s hs
  have hclean : Sweep.Clean cfg s :=
    hs.invariant (P := Sweep.Clean cfg) (fun _ _ _ hc _ hq => hc.step hq)
      ⟨h, [], rfl, List.forall_mem_nil _, rfl⟩
  obtain ⟨rows, hrows, hok, hnames⟩ := hclean.rows
  exact ⟨rows, hrows, hok, hnames, hclean.query_iff hrows⟩

def sampleSweep : List Sweep.Label :=
  [.query] ++ (sampleRun.take 12).map .service ++ [.query, .query] ++ (sampleRun.drop 12).map .service ++
    List.replicate 4 .query

theorem ledger_invariant_sampleSweep : (∃ w, World.Leads (sample true) World.init w ∧
      w.calls 0 = some (answered "rent-1" rent (.ok ⟨.created, rentDetail⟩)) ∧
      ((w.db.tables.accounts.filter fun a => a.currency = "EUR").map (·.balance.val)).sum = 0) ∧
    ∃ s rows, Reach (Sweep.step (sample true)) (fun _ _ => True) (Sweep.begin World.init) s ∧
      s.rows = .ok rows ∧ rows.length = 7 ∧ ∀ row ∈ rows, row.ok = true := by
  constructor
  · obtain ⟨w, hr, h0, -⟩ := sampleRun_leads true
    exact ⟨w, hr, h0, ((ledger_invariant (sample true) hr).2.2.1 "EUR").1⟩
  · have h : (exec (Sweep.step (sample true)) (Sweep.begin World.init) sampleSweep).any (fun s =>
        decide (s.rows.toOption.map (·.length) = some 7)) = true := by decide +kernel
    obtain ⟨s, hs, h⟩ := (Option.any_eq_true _ _).mp h
    have hs : Reach (Sweep.step (sample true)) (fun _ _ => True) (Sweep.begin World.init) s :=
      reach_of_exec (fun _ _ _ => trivial) hs
    obtain ⟨rows, hrows, hok, -⟩ := (ledger_invariant (sample true) Reach.refl).2.2.2 s hs
    refine ⟨s, rows, hs, hrows, ?_, hok⟩
    rw [decide_eq_true_eq, hrows] at h
    exact Option.some.inj h

end Ledger
