import Ledger.Amounts
import Ledger.FixedWidth

/-!
# The balance check of the domain and of the database

`is_balanced` adds fixed-width decimals of mixed scales and compares each currency with
the first entry's; the trigger aggregates the rows. They agree as long as the partial
sums keep within the coefficient.
-/

namespace Ledger

def Direction.signed (direction : Direction) (amount : Decimal) : Decimal :=
  match direction with
  | .debit => amount
  | .credit => amount.negate

def Entry.signedAmount (e : Entry) : Decimal := e.direction.signed e.amount.amount

def FixedWidth.sum (lib : FixedWidth) (l : List Decimal) : Option Decimal := l.foldlM lib.add Decimal.zero

/-- The three conjuncts from left to right, each looked at only if those before it hold.
`none` is a panic: an index out of range, or an overflow of the sum. -/
def TransactionDetail.isBalanced (lib : FixedWidth) (d : TransactionDetail) : Option Bool :=
  if 2 ≤ d.entries.length then do
    let same ← d.entries.allM fun e => do
      let first ← d.entries[0]?
      return decide (e.amount.currency = first.amount.currency)
    if same then
      let net ← lib.sum (d.entries.map Entry.signedAmount)
      return lib.cmp net Decimal.zero == .eq
    else return false
  else some false

def Entry.row (x : Xid) (e : Entry) : Except SqlxError Row.Entry := do
  let amount ← (Literal.ofDecimal e.amount.amount).cast
  return {
    id := e.id
    transactionId := e.transactionId
    accountId := e.accountId
    direction := e.direction
    amount := amount
    currency := e.amount.currency.code
    createdAt := e.createdAt
    xmin := x }

/-- The rule both sides enforce. -/
structure Balances (entries : List Entry) : Prop where
  two : 2 ≤ entries.length
  currency : ∀ e ∈ entries, ∀ e' ∈ entries, e.amount.currency = e'.amount.currency
  net : (entries.map fun e => e.signedAmount.val).sum = 0

theorem Balances.perm {l m : List Entry} (h : Balances l) (hp : l.Perm m) : Balances m where
  two := hp.length_eq ▸ h.two
  currency e he e' he' := h.currency e (hp.mem_iff.mpr he) e' (hp.mem_iff.mpr he')
  net := by rw [← (hp.map fun e => e.signedAmount.val).sum_eq, h.net]

/-! ## The sum -/

theorem Direction.signed_scale (direction : Direction) (d : Decimal) : (direction.signed d).scale = d.scale := by
  cases direction <;> rfl

theorem Direction.signed_val (direction : Direction) (d : Decimal) :
    (direction.signed d).val = match direction with
      | .debit => d.val
      | .credit => -d.val := by
  cases direction with
  | debit => rfl
  | credit => exact d.val_negate

theorem Direction.abs_signed (direction : Direction) (d : Decimal) : |(direction.signed d).val| = |d.val| := by
  rw [Direction.signed_val]
  cases direction with
  | debit => rfl
  | credit => exact abs_neg _

theorem FixedWidth.foldlM_add (lib : FixedWidth) {n : Nat} (hn : (n : ℤ) * 10 ^ 40 < 2 ^ 96 * 10 ^ 20)
    (l : List Decimal) (acc : Decimal) (k : Nat) (hl : ∀ d ∈ l, d.scale ≤ 8 ∧ |d.val| < 10 ^ 40)
    (hs : acc.scale ≤ 8) (hacc : |acc.val| ≤ k * 10 ^ 40) (hk : k + l.length ≤ n) :
    ∃ c, l.foldlM lib.add acc = some c ∧ c.val = acc.val + (l.map Decimal.val).sum := by
  induction l generalizing acc k with
  | nil => exact ⟨acc, rfl, by simp⟩
  | cons d l ih =>
    obtain ⟨hds, hdv⟩ := hl d (List.mem_cons_self ..)
    rw [List.length_cons] at hk
    have hsum := abs_add_le acc.val d.val
    obtain ⟨c, hc, hcs, hcv⟩ := lib.add_computes.of_scale .add hs hds (by omega) (by omega) (by omega)
    have hbound : |c.val| ≤ (k + 1 : Nat) * 10 ^ 40 := by
      rw [hcv]
      push_cast
      omega
    obtain ⟨r, hr, hrv⟩ := ih c (k + 1) (fun e he => hl e (List.mem_cons_of_mem _ he)) hcs hbound (by omega)
    refine ⟨r, ?_, ?_⟩
    · rw [List.foldlM_cons, hc]
      exact hr
    · rw [hrv, hcv, List.map_cons, List.sum_cons, add_assoc]

theorem FixedWidth.sum_exact (lib : FixedWidth) {l : List Decimal} (hl : ∀ d ∈ l, d.scale ≤ 8 ∧ |d.val| < 10 ^ 40)
    (hlen : l.length < 7 * 10 ^ 8) : ∃ c, lib.sum l = some c ∧ c.val = (l.map Decimal.val).sum := by
  obtain ⟨c, hc, hv⟩ := lib.foldlM_add (n := 7 * 10 ^ 8) (by norm_num) l Decimal.zero 0 hl (Nat.zero_le _)
    (by rw [Decimal.val_zero, abs_zero]; positivity) (by omega)
  exact ⟨c, hc, by rw [hv, Decimal.val_zero, zero_add]⟩

/-! ## The domain -/

theorem signedAmount_storable {entries : List Entry} (hnew : ∀ e ∈ entries, ∃ d c, Money.new d c = .ok e.amount) :
    ∀ d ∈ entries.map Entry.signedAmount, d.scale ≤ 8 ∧ |d.val| < 10 ^ 40 := by
  intro d hd
  obtain ⟨e, he, rfl⟩ := List.mem_map.mp hd
  obtain ⟨d', c, hok⟩ := hnew e he
  obtain ⟨-, -, hs, hm⟩ := Money.new_ok hok
  rw [Money.maxMagnitude_val] at hm
  exact ⟨by rw [Entry.signedAmount, Direction.signed_scale]; exact hs,
    by rw [Entry.signedAmount, Direction.abs_signed]; exact hm⟩

theorem allM_first (first : Entry) (rest : List Entry) :
    ((first :: rest).allM fun e => do
      let first ← (first :: rest)[0]?
      return decide (e.amount.currency = first.amount.currency)) =
    some ((first :: rest).all fun e => decide (e.amount.currency = first.amount.currency)) :=
  List.allM_pure

theorem all_first {first : Entry} {rest : List Entry} :
    ((first :: rest).all fun e => decide (e.amount.currency = first.amount.currency)) = true ↔
      ∀ e ∈ first :: rest, ∀ e' ∈ first :: rest, e.amount.currency = e'.amount.currency := by
  rw [List.all_eq_true]
  simp only [decide_eq_true_eq]
  exact ⟨fun h e he e' he' => (h e he).trans (h e' he').symm, fun h e he => h e he first (List.mem_cons_self ..)⟩

theorem TransactionDetail.isBalanced_iff (lib : FixedWidth) (d : TransactionDetail)
    (hnew : ∀ e ∈ d.entries, ∃ amount c, Money.new amount c = .ok e.amount) (hlen : d.entries.length < 7 * 10 ^ 8) :
    ∃ b, d.isBalanced lib = some b ∧ (b = true ↔ Balances d.entries) := by
  obtain ⟨net, hsum, hnet⟩ := lib.sum_exact (signedAmount_storable hnew) (by rw [List.length_map]; exact hlen)
  rw [List.map_map] at hnet
  unfold isBalanced
  cases hd : d.entries with
  | nil => exact ⟨false, rfl, fun h => absurd h (by decide), fun h => absurd h.two (by decide)⟩
  | cons first rest =>
    rw [hd] at hsum hnet
    by_cases htwo : 2 ≤ (first :: rest).length
    · rw [if_pos htwo, allM_first]
      cases hall : (first :: rest).all fun e => decide (e.amount.currency = first.amount.currency) with
      | false =>
        refine ⟨false, rfl, fun h => absurd h (by decide), fun h => ?_⟩
        rw [all_first.mpr h.currency] at hall
        cases hall
      | true =>
        refine ⟨lib.cmp net Decimal.zero == .eq, ?_, ?_⟩
        · simp only [hsum, Option.bind_eq_bind, Option.bind_some, if_true, pure]
        · rw [lib.cmp_zero, hnet]
          exact ⟨fun h => ⟨htwo, all_first.mp hall, h⟩, fun h => h.net⟩
    · rw [if_neg htwo]
      exact ⟨false, rfl, fun h => absurd h (by decide), fun h => absurd h.two htwo⟩

/-! ## The trigger -/

theorem Currency.code_inj {c d : Currency} : c.code = d.code ↔ c = d := by
  cases c; cases d; simp

theorem Numeric.sum_num {α : Type} (f : α → ℤ) (l : List α) :
    (l.map fun a => num (f a)).sum = num (l.map f).sum := by
  induction l with
  | nil => rfl
  | cons a l ih => rw [List.map_cons, List.sum_cons, ih, num_add, List.map_cons, List.sum_cons]

theorem Entry.row_ok {e : Entry} {d : Decimal} {c : Currency} (h : Money.new d c = .ok e.amount) (x : Xid) :
    ∃ r, e.row x = .ok r ∧ r.currency = e.amount.currency.code ∧ r.signed = .num e.signedAmount.units := by
  obtain ⟨-, -, hs, -⟩ := Money.new_ok h
  obtain ⟨n, hcast, -⟩ := Money.new_stored h
  have hn : n.val = .num e.amount.amount.units := by
    rw [Literal.cast_ofDecimal hs] at hcast
    unfold Numeric.toNum20 at hcast
    split at hcast
    · cases hcast; rfl
    · cases hcast
  refine ⟨_, by rw [Entry.row, hcast]; rfl, rfl, ?_⟩
  unfold Row.Entry.signed Entry.signedAmount Direction.signed
  cases e.direction with
  | debit => exact hn
  | credit =>
    simp only
    rw [hn, Decimal.units_negate, Numeric.neg_num]

theorem rows_ok (x : Xid) : ∀ {entries : List Entry}, (∀ e ∈ entries, ∃ d c, Money.new d c = .ok e.amount) →
    ∃ rows, entries.mapM (Entry.row x) = .ok rows ∧ rows.length = entries.length ∧
      rows.map (·.currency) = entries.map (·.amount.currency.code) ∧
      rows.map (·.signed) = entries.map fun e => .num e.signedAmount.units
  | [], _ => ⟨[], rfl, rfl, rfl, rfl⟩
  | e :: entries, hnew => by
    obtain ⟨d, c, h⟩ := hnew e (List.mem_cons_self ..)
    obtain ⟨r, hr, hcur, hsigned⟩ := Entry.row_ok h x
    obtain ⟨rows, hrows, hlen, hcurs, hsigneds⟩ := rows_ok x fun e he => hnew e (List.mem_cons_of_mem _ he)
    refine ⟨r :: rows, ?_, congrArg (· + 1) hlen, ?_, ?_⟩
    · rw [List.mapM_cons, hr, hrows]; rfl
    · rw [List.map_cons, List.map_cons, hcur, hcurs]
    · rw [List.map_cons, List.map_cons, hsigned, hsigneds]

theorem rows_filter {x : Xid} {id : Uuid} {entries : List Entry} {rows : List Row.Entry}
    (hrows : entries.mapM (Entry.row x) = .ok rows) (hid : ∀ e ∈ entries, e.transactionId = id) :
    (rows.filter fun r => r.transactionId = id) = rows := by
  refine List.filter_eq_self.mpr fun r hr => ?_
  obtain ⟨e, he, hrow⟩ := Bind.mapM_mem hrows r hr
  obtain ⟨n, -, h⟩ := Bind.ok.mp hrow
  cases h
  exact decide_eq_true (hid e he)

/-- The aggregates do not depend on the order in which the query finds the rows. -/
theorem trigger_iff {x : Xid} {entries : List Entry} {rows table : List Row.Entry} {id : Uuid}
    (hnew : ∀ e ∈ entries, ∃ d c, Money.new d c = .ok e.amount) (hrows : entries.mapM (Entry.row x) = .ok rows)
    (htable : (table.filter fun r => r.transactionId = id).Perm rows) :
    assertTransactionBalanced table id = .ok () ↔ Balances entries := by
  obtain ⟨rows', hrows', hlen, hcur, hsigned⟩ := rows_ok x hnew
  rw [hrows] at hrows'
  cases hrows'
  have hunits : (entries.map fun e => e.signedAmount.val).sum =
      (entries.map fun e => e.signedAmount.units).sum * 10 ^ 20 := by
    rw [← List.sum_map_mul_right]
    refine congrArg List.sum (List.map_congr_left fun e he => ?_)
    exact Decimal.val_eq_units _ (signedAmount_storable hnew _ (List.mem_map_of_mem he)).1
  have hnet : ((table.filter fun r => r.transactionId = id).map (·.signed)).sum = 0 ↔
      (entries.map fun e => e.signedAmount.val).sum = 0 := by
    rw [(htable.map _).sum_eq, hsigned, Numeric.sum_num, Numeric.zero_def, Numeric.num.injEq, hunits]
    omega
  rw [assertTransactionBalanced_ok, htable.length_eq, hlen, hnet, (htable.map _).dedup.length_eq, hcur]
  have hone : 2 ≤ entries.length → ((entries.map (·.amount.currency.code)).dedup.length = 1 ↔
      ∀ e ∈ entries, ∀ e' ∈ entries, e.amount.currency = e'.amount.currency) := by
    intro htwo
    obtain ⟨first, hfirst⟩ := List.exists_mem_of_length_pos (Nat.lt_of_lt_of_le Nat.zero_lt_two htwo)
    rw [Keyed.dedup_length_one (List.mem_map_of_mem hfirst)]
    simp only [List.forall_mem_map, Currency.code_inj]
    exact ⟨fun h e he e' he' => (h e he).trans (h e' he').symm, fun h e he => h e he first hfirst⟩
  constructor
  · rintro ⟨htwo, hcur, hnet⟩
    exact ⟨htwo, (hone htwo).mp hcur, hnet⟩
  · intro h
    exact ⟨h.two, (hone h.two).mpr h.currency, h.net⟩

/-- **The domain and the trigger agree on what is balanced.** For fewer than `7 · 10⁸` entries
with amounts from `Money.new`, in whatever scales, `is_balanced` neither overflows nor indexes
out of range; its answer does not depend on the order of the entries, and it is `true` exactly
when the trigger lets the rows of these entries pass. -/
theorem is_balanced_agrees (lib : FixedWidth) (d : TransactionDetail)
    (hnew : ∀ e ∈ d.entries, ∃ amount c, Money.new amount c = .ok e.amount) (hlen : d.entries.length < 7 * 10 ^ 8) :
    ∃ balanced, d.isBalanced lib = some balanced ∧
      (∀ d' : TransactionDetail, d'.entries.Perm d.entries → d'.isBalanced lib = some balanced) ∧
      ∀ x : Xid, ∃ rows, d.entries.mapM (Entry.row x) = .ok rows ∧
        ∀ table : List Row.Entry, (table.filter fun r => r.transactionId = d.transaction.id).Perm rows →
          (balanced = true ↔ assertTransactionBalanced table d.transaction.id = .ok ()) := by
  obtain ⟨balanced, hb, hiff⟩ := d.isBalanced_iff lib hnew hlen
  refine ⟨balanced, hb, fun d' hp => ?_, fun x => ?_⟩
  · obtain ⟨b', hb', hiff'⟩ := d'.isBalanced_iff lib (fun e he => hnew e (hp.mem_iff.mp he))
      (by rw [hp.length_eq]; exact hlen)
    have hsame : b' = true ↔ balanced = true :=
      hiff'.trans (Iff.trans ⟨fun h => h.perm hp, fun h => h.perm hp.symm⟩ hiff.symm)
    rw [hb', Bool.eq_iff_iff.mpr hsame]
  · obtain ⟨rows, hrows, -⟩ := rows_ok x hnew
    exact ⟨rows, hrows, fun table htable => hiff.trans (trigger_iff hnew hrows htable).symm⟩

theorem Decimal.fits_hundred : Decimal.Fits 100 := by decide

theorem Decimal.fits_thousand : Decimal.Fits 1000 := by decide

theorem Decimal.two_places : 2 ≤ 28 := by omega

def mixedScales : TransactionDetail where
  transaction := ⟨9, "k", "d", 0⟩
  entries :=
    [⟨21, 9, 1, .credit, ⟨Decimal.ofAligned 100 Decimal.one_place Decimal.fits_hundred, ⟨"USD"⟩⟩, 0⟩,
      ⟨22, 9, 2, .debit, ⟨Decimal.ofAligned 1000 Decimal.two_places Decimal.fits_thousand, ⟨"USD"⟩⟩, 0⟩]

theorem new_mixedScales : ∀ e ∈ mixedScales.entries, ∃ amount c, Money.new amount c = .ok e.amount := by
  intro e he
  refine ⟨e.amount.amount, e.amount.currency, ?_⟩
  have hs : ∀ e ∈ mixedScales.entries,
      e.amount.amount.scale ≤ 8 ∧ |e.amount.amount.val| < Money.maxMagnitude.val := by
    decide +kernel
  rw [Money.new_of_scale (hs e he).1, if_neg (not_le.mpr (hs e he).2)]

theorem is_balanced_agrees_mixedScales :
    mixedScales.isBalanced (.of fun _ _ => none) = some true ∧
    ∃ rows, mixedScales.entries.mapM (Entry.row 7) = .ok rows ∧
      assertTransactionBalanced rows mixedScales.transaction.id = .ok () := by
  have htrue : mixedScales.isBalanced (.of fun _ _ => none) = some true := by decide +kernel
  obtain ⟨b, hb, -, h⟩ := is_balanced_agrees (.of fun _ _ => none) mixedScales new_mixedScales (by decide)
  obtain ⟨rows, hrows, htable⟩ := h 7
  rw [htrue] at hb
  cases hb
  have hown : (rows.filter fun r => r.transactionId = mixedScales.transaction.id) = rows :=
    rows_filter hrows (by decide)
  exact ⟨htrue, rows, hrows, (htable rows (by rw [hown])).mp rfl⟩

end Ledger
