import Ledger.SpecSound

/-!
# Reading a committed transfer back

The two entries of a committed transfer convert back into `Money` without error, and
`ORDER BY created_at, id` puts them in one order, whichever way the rows are found.
-/

namespace Ledger

open Keyed Runs

/-! ## The order of entries -/

instance : Std.Total Row.Entry.before where
  total a b := by
    unfold Row.Entry.before
    rcases Nat.lt_trichotomy a.createdAt b.createdAt with h | h | h
    · exact Or.inl (Or.inl h)
    · exact (le_total a.id b.id).imp (fun hid => Or.inr ⟨h, hid⟩) fun hid => Or.inr ⟨h.symm, hid⟩
    · exact Or.inr (Or.inl h)

instance : IsTrans Row.Entry Row.Entry.before where
  trans a b c := by
    unfold Row.Entry.before
    rintro (h | ⟨h, h'⟩) (k | ⟨k, k'⟩)
    · exact Or.inl (Nat.lt_trans h k)
    · exact Or.inl (k ▸ h)
    · exact Or.inl (h ▸ k)
    · exact Or.inr ⟨h.trans k, le_trans h' k'⟩

theorem sort_perm {scan rows : List Row.Entry} (hd : Distinct (·.id) rows) (hp : scan.Perm rows) :
    scan.insertionSort Row.Entry.before = rows.insertionSort Row.Entry.before := by
  have h1 := List.perm_insertionSort Row.Entry.before scan
  have h2 := List.perm_insertionSort Row.Entry.before rows
  refine List.Perm.eq_of_pairwise ?_ (List.pairwise_insertionSort Row.Entry.before scan)
    (List.pairwise_insertionSort Row.Entry.before rows) ((h1.trans hp).trans h2.symm)
  intro a b ha hb hab hba
  refine hd.eq (hp.subset (h1.subset ha)) (h2.subset hb) ?_
  rcases hab with h | ⟨h, hle⟩ <;> rcases hba with k | ⟨k, hle'⟩
  · exact absurd k (Nat.lt_asymm h)
  · exact absurd k.symm h.ne
  · exact absurd h.symm k.ne
  · exact le_antisymm hle hle'

namespace Spec

variable {sha256 : List UInt8 → Vector UInt8 32} {dec : Decode} {t : Tables}

/-! ## The entries of one transfer -/

/-- The keys of the log of record, as the database's indexes guarantee them. -/
structure Keys (t : Tables) : Prop where
  transactionIds : Distinct (·.id) t.transactions
  keys : Distinct (·.idempotencyKey) t.transactions
  entryIds : Distinct (·.id) t.entries

theorem Transfer.entries_id {tr : Transfer} {e : Row.Entry} (h : e ∈ tr.entries) : e.transactionId = tr.id := by
  simp only [Transfer.entries, List.mem_cons, List.not_mem_nil, or_false] at h
  rcases h with rfl | rfl <;> rfl

theorem Transfer.entries_currency {tr : Transfer} {e : Row.Entry} (h : e ∈ tr.entries) :
    e.currency = tr.intent.amount.currency.code := by
  simp only [Transfer.entries, List.mem_cons, List.not_mem_nil, or_false] at h
  rcases h with rfl | rfl <;> rfl

section
variable {log : List Event} (h : exec (step sha256 dec) {} log = some t) (hk : Keys t)
include h hk

theorem transfer_ids : Distinct (·.id) (transfers log) := by
  have hd := hk.transactionIds
  rw [(exec_log h).1, List.nil_append] at hd
  exact (distinct_map (g := Transfer.row sha256)).mp hd

theorem transfers_nodup : (transfers log).Nodup :=
  List.Pairwise.imp (fun hne he => hne (congrArg _ he)) (transfer_ids h hk)

/-- A committed transaction has exactly the two entries written with it. -/
theorem entriesOf_transfer {tr : Transfer} (htr : tr ∈ transfers log) :
    Transactions.entriesOf t tr.id = tr.entries := by
  unfold Transactions.entriesOf
  rw [(exec_log h).2, List.nil_append]
  refine filter_flatMap (transfers_nodup h hk) htr ?_ ?_
  · intro e he
    exact decide_eq_true (Transfer.entries_id he)
  · intro c hc hne e he
    exact decide_eq_false fun heq => hne ((transfer_ids h hk).eq hc htr ((Transfer.entries_id he).symm.trans heq))

theorem entries_distinct {tr : Transfer} (htr : tr ∈ transfers log) : Distinct (·.id) tr.entries := by
  rw [← entriesOf_transfer h hk htr]
  exact List.Pairwise.sublist List.filter_sublist hk.entryIds

end

/-! ## Conversions -/

def Transfer.readEntry (m : Money) (e : Row.Entry) : Entry where
  id := e.id
  transactionId := e.transactionId
  accountId := e.accountId
  direction := e.direction
  amount := m
  createdAt := e.createdAt

/-- The answer to reading the transfer back, given its amount as read. -/
def Transfer.detail (sha256 : List UInt8 → Vector UInt8 32) (tr : Transfer) (m : Money) : TransactionDetail where
  transaction := Transaction.ofRow (tr.row sha256)
  entries := (tr.entries.insertionSort Row.Entry.before).map (readEntry m)

theorem money_ok (dec : Decode) (i : TransferIntent) :
    ∃ m, Money.new (dec.decimal i.units) i.amount.currency = .ok m ∧
    m.amount.val = i.amount.amount.val ∧ m.currency = i.amount.currency := by
  have hv := dec.exact i.units i.valid.units_lt
  obtain ⟨m, hm⟩ := Money.new_of_units hv i.valid.units_lt i.amount.currency
  obtain ⟨hc, hval, -, -⟩ := Money.new_ok hm
  exact ⟨m, hm, by rw [hval, hv, i.valid.val_eq]; rfl, hc⟩

theorem detail_ok {tr : Transfer} {m : Money} (hm : Money.new (dec.decimal tr.intent.units)
    tr.intent.amount.currency = .ok m) (hd : Distinct (·.id) tr.entries) {scan : List Row.Entry}
    (hp : scan.Perm tr.entries) :
    Transactions.detail (Transaction.ofRow (tr.row sha256)) (Transactions.fetchEntries dec scan) =
      .ok (tr.detail sha256 m) := by
  have hmem : ∀ e ∈ tr.entries.insertionSort Row.Entry.before,
      e.amount = tr.intent.num20 ∧ e.currency = tr.intent.amount.currency.code := by
    intro e he
    have := (List.mem_insertionSort _).mp he
    simp only [Transfer.entries, List.mem_cons, List.not_mem_nil, or_false] at this
    rcases this with rfl | rfl <;> exact ⟨rfl, rfl⟩
  have hrows : Transactions.fetchEntries dec scan = .ok ((tr.entries.insertionSort Row.Entry.before).map
      fun e => ⟨e.id, e.transactionId, e.accountId, e.direction, dec.decimal tr.intent.units, ⟨e.currency⟩,
        e.createdAt⟩) := by
    unfold Transactions.fetchEntries
    rw [sort_perm hd hp]
    refine Bind.mapM_ok fun e he => ?_
    simp only [EntryRow.decode, Decode.num20, (hmem e he).1, TransferIntent.num20]
    rfl
  have hentries : ((tr.entries.insertionSort Row.Entry.before).map fun e => (⟨e.id, e.transactionId, e.accountId,
      e.direction, dec.decimal tr.intent.units, ⟨e.currency⟩, e.createdAt⟩ : EntryRow)).mapM Entry.tryFrom =
      .ok ((tr.entries.insertionSort Row.Entry.before).map (Transfer.readEntry m)) := by
    rw [List.mapM_map]
    refine Bind.mapM_ok fun e he => ?_
    simp only [Function.comp, Entry.tryFrom, (hmem e he).2]
    rw [show (⟨tr.intent.amount.currency.code⟩ : Currency) = tr.intent.amount.currency from rfl, hm]
    rfl
  simp only [Transactions.detail, hrows, Except.mapError, bind, Except.bind, hentries]
  rfl

end Spec

end Ledger
