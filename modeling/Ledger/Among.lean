import Ledger.Amounts
import Ledger.Interference
import Ledger.OpenTransfer
import Ledger.Responses

/-!
# The service among other clients

The service does not own its database: other sessions may run whatever the schema lets
them, on the same rows and at any moment. What still holds of every call, its open
transaction and the transfers it has committed, and that each step keeps it.
-/

namespace Ledger

open Keyed Runs Transfers

/-! ## What the ledger has for a call -/

/-- A committed transfer of the service, as the tables have it. -/
structure Spec.Landed (sha256 : List UInt8 → Vector UInt8 32) (t : Tables) (tr : Spec.Transfer) : Prop where
  row : tr.row sha256 ∈ t.transactions
  entries : Transactions.entriesOf t tr.id = tr.entries

theorem Spec.Landed.ages {sha256 : List UInt8 → Vector UInt8 32} {t t' : Tables} {tr : Spec.Transfer}
    (h : Landed sha256 t tr) (ht : t.Ages t') : Landed sha256 t' tr where
  row := ht.transactions _ h.row
  entries := (ht.entries tr.id (by rw [h.entries]; exact List.cons_ne_nil _ _)).trans h.entries

theorem Spec.Landed.new {sha256 : List UInt8 → Vector UInt8 32} {dec : Decode} {t t' : Tables} {tr : Spec.Transfer}
    (ht : TablesInv t) (ht' : TablesInv t') (hs : Spec.step sha256 dec t (.transfer tr) = some t') :
    Landed sha256 t' tr := by
  obtain ⟨htx, hen⟩ := step_log hs
  have hen' : t'.entries = t.entries ++ tr.entries := hen
  have hrow : tr.row sha256 ∈ t'.transactions := by
    rw [htx]; exact List.mem_append_right _ (List.mem_singleton.mpr rfl)
  have hnew : ∀ r ∈ t.transactions, r.id ≠ tr.id := by
    have hd := ht'.transactionIds
    rw [htx] at hd
    exact fun r hr => (distinct_append.mp hd).2.2 r hr _ (List.mem_singleton.mpr rfl)
  refine ⟨hrow, ?_⟩
  have hnil : t.entries.filter (fun e => decide (e.transactionId = tr.id)) = [] := by
    refine List.filter_eq_nil_iff.mpr fun e he hid => ?_
    obtain ⟨r, hr, hrid, -⟩ := ht.parent e he
    exact hnew r hr (hrid.trans (of_decide_eq_true hid))
  have hall : tr.entries.filter (fun e => decide (e.transactionId = tr.id)) = tr.entries :=
    List.filter_eq_self.mpr fun e he => decide_eq_true (Transfer.entries_id he)
  rw [Transactions.entriesOf, hen', List.filter_append, hnil, hall, List.nil_append]

/-- What a read of the transaction `r` has answered: its entries, or none if another
client has committed it without entries. -/
def Spec.ReadAs (sha256 : List UInt8 → Vector UInt8 32) (dec : Decode) (t : Tables) (log : List Spec.Event)
    (r : Row.Transaction) (detail : TransactionDetail) : Prop :=
  Spec.replay dec t r = .ok detail ∨ detail = ⟨Transaction.ofRow r, []⟩ ∧ ∀ tr ∈ transfers log, tr.row sha256 ≠ r

/-- What may happen to the tables and the log while a call looks elsewhere. -/
structure Spec.Grows (sha256 : List UInt8 → Vector UInt8 32) (t t' : Tables) (log evs : List Spec.Event) :
    Prop where
  ages : t.Ages t'
  landed : ∀ tr ∈ transfers log, Landed sha256 t tr
  fresh : ∀ tr ∈ transfers evs, ∀ q ∈ t.transactions, q.idempotencyKey ≠ tr.key

theorem Spec.ReadAs.mono {sha256 : List UInt8 → Vector UInt8 32} {dec : Decode} {t t' : Tables}
    {log evs : List Spec.Event} {r : Row.Transaction} {detail : TransactionDetail}
    (h : ReadAs sha256 dec t log r detail)
    (hr : r ∈ t.transactions) (hg : Grows sha256 t t' log evs) : ReadAs sha256 dec t' (log ++ evs) r detail := by
  have other : (∀ tr ∈ transfers log, tr.row sha256 ≠ r) → ∀ tr ∈ transfers (log ++ evs), tr.row sha256 ≠ r := by
    intro hold tr htr he
    rw [transfers_append] at htr
    rcases List.mem_append.mp htr with htr | htr
    · exact hold tr htr he
    · exact hg.fresh tr htr r hr (congrArg Row.Transaction.idempotencyKey he.symm)
  rcases h with h | ⟨h, hold⟩
  · by_cases hne : Transactions.entriesOf t r.id = []
    · refine Or.inr ⟨?_, other fun tr htr he => ?_⟩
      · simp only [replay, hne] at h
        cases h
        rfl
      · have hen := (hg.landed tr htr).entries
        rw [← he] at hne
        exact List.cons_ne_nil _ _ (hen.symm.trans hne)
    · left
      rw [← h]
      simp only [replay, hg.ages.entries r.id hne]
  · exact Or.inr ⟨h, other hold⟩

/-- The transaction that a call is about to read, or has read. -/
structure Transfers.Found (cfg : Config) (t : Tables) (log : List Spec.Event) (c : Nat) (call : Call)
    (outcome : TransferOutcome) (r : Row.Transaction) : Prop where
  mem : r ∈ t.transactions
  key : r.idempotencyKey = call.key
  hash : r.requestHash = (call.intent.requestHash cfg.sha256).toList
  own : outcome = .created → ∃ tr ∈ Spec.transfers log, tr.call = c ∧ tr.row cfg.sha256 = r

/-- What holds of a call at the point it has reached, whoever else uses the database. -/
def Transfers.Call.Met (cfg : Config) (t : Tables) (log : List Spec.Event) (c : Nat) (call : Call) : Prop :=
  match call.pc with
  | .lookup | .cancelled => True
  | .rollback _ | .relookup => ∃ r ∈ t.transactions, r.idempotencyKey = call.key
  | .getTransaction outcome id => ∃ r, Found cfg t log c call outcome r ∧ r.id = id
  | .getEntries outcome id transaction =>
      ∃ r, Found cfg t log c call outcome r ∧ r.id = id ∧ transaction = Transaction.ofRow r
  | .done (.ok res) => ∃ r, Found cfg t log c call res.outcome r ∧
      Spec.ReadAs cfg.sha256 cfg.decode t log r res.detail
  | .done (.error e) => e.typed = true → e.refusal = true
  | .panicked => False
  | _ => Validated call.intent

section
variable {cfg : Config} {t t' : Tables} {log evs : List Spec.Event} {c : Nat} {call : Call}

theorem Transfers.Found.mono {outcome : TransferOutcome} {r : Row.Transaction}
    (h : Found cfg t log c call outcome r) (ht : t.Ages t') : Found cfg t' (log ++ evs) c call outcome r where
  mem := ht.transactions r h.mem
  key := h.key
  hash := h.hash
  own ho := by
    obtain ⟨tr, htr, hc, hr⟩ := h.own ho
    exact ⟨tr, by rw [Spec.transfers_append]; exact List.mem_append_left _ htr, hc, hr⟩

theorem Transfers.Call.Met.mono (h : call.Met cfg t log c) (hg : Spec.Grows cfg.sha256 t t' log evs) :
    call.Met cfg t' (log ++ evs) c := by
  unfold Call.Met at h ⊢
  cases hpc : call.pc with
  | rollback | relookup =>
    rw [hpc] at h
    obtain ⟨r, hr, hk⟩ := h
    exact ⟨r, hg.ages.transactions r hr, hk⟩
  | getTransaction | getEntries =>
    rw [hpc] at h
    obtain ⟨r, hf, hid⟩ := h
    exact ⟨r, hf.mono hg.ages, hid⟩
  | done r =>
    rw [hpc] at h
    cases r with
    | ok res =>
      obtain ⟨r, hf, hread⟩ := h
      exact ⟨r, hf.mono hg.ages, hread.mono hf.mem hg⟩
    | error e => exact h
  | _ =>
    rw [hpc] at h
    exact h

end

/-! ## The invariant -/

structure Among (cfg : Config) (w : World) : Prop where
  db : DbInv w.db
  stored : w.db.Stored
  session : ∀ c call x, w.calls c = some call → call.pc.session = some x →
    ∃ txn, w.db.txns x = some txn ∧ txn.savepoints = [] ∧ SessionOk cfg w.db.tables call x txn
  owner : ∀ c c' call call' x, w.calls c = some call → w.calls c' = some call' → call.pc.session = some x →
    call'.pc.session = some x → c = c'
  met : ∀ c call, w.calls c = some call → call.Met cfg w.db.tables w.log c
  landed : ∀ tr ∈ Spec.transfers w.log, Spec.Landed cfg.sha256 w.db.tables tr
  once : Distinct (·.key) (Spec.transfers w.log)
  author : ∀ tr ∈ Spec.transfers w.log, ∃ call, w.calls tr.call = some call ∧ call.key = tr.key ∧
    call.intent = tr.intent ∧ call.Late cfg tr

/-- A move of one call, whoever else uses the database. -/
structure Goes (cfg : Config) (w : World) (c : Nat) (call call' : Call) (db : Db) (evs : List Spec.Event) :
    Prop where
  key : call'.key = call.key
  intent : call'.intent = call.intent
  leads : Db.Leads cfg.schema (fun x => call.pc.session = some x) w.db db
  spec : exec (Spec.step cfg.sha256 cfg.decode) w.db.tables evs = some db.tables
  events : evs = [] ∨ ∃ tr, evs = [.transfer tr] ∧ tr.call = c ∧ tr.key = call.key ∧ tr.intent = call.intent
  session : ∀ x, call'.pc.session = some x → (call.pc.session = some x ∨ w.db.txns x = none) ∧
    ∃ txn, db.txns x = some txn ∧ txn.savepoints = [] ∧ SessionOk cfg db.tables call' x txn
  met : call'.Met cfg db.tables (w.log ++ evs) c
  late : ∀ tr ∈ Spec.transfers (w.log ++ evs), tr.call = c → call'.Late cfg tr

namespace Among

variable {cfg : Config} {w : World} (h : Among cfg w)
include h

theorem spared {db : Db} {evs : List Spec.Event} {mine : Xid → Prop} (hs : Db.Spares mine w.db db)
    (hmine : ∀ c call x, w.calls c = some call → call.pc.session = some x → ¬ mine x)
    (hevs : Spec.transfers evs = []) : Among cfg { w with db, log := w.log ++ evs } := by
  have hlog : Spec.transfers (w.log ++ evs) = Spec.transfers w.log := by
    rw [Spec.transfers_append, hevs, List.append_nil]
  have hgrows : Spec.Grows cfg.sha256 w.db.tables db.tables w.log evs :=
    ⟨hs.ages, h.landed, fun tr htr => by rw [hevs] at htr; cases htr⟩
  refine ⟨hs.inv, hs.stored, ?_, h.owner, fun c call hc => (h.met c call hc).mono hgrows, ?_, ?_, ?_⟩
  · intro c call x hc hx
    obtain ⟨txn, ht, hsp, hok⟩ := h.session c call x hc hx
    obtain ⟨ht', hf⟩ := hs.frame x txn (hmine c call x hc hx) ht
    exact ⟨txn, ht', hsp, hok.frame hf⟩
  · intro tr htr
    rw [hlog] at htr
    exact (h.landed tr htr).ages hs.ages
  · exact hlog.symm ▸ h.once
  · intro tr htr
    rw [hlog] at htr
    exact h.author tr htr

theorem keys_new {tr : Spec.Transfer} {db : Db}
    (hs : Spec.step cfg.sha256 cfg.decode w.db.tables (.transfer tr) = some db.tables) :
    ∀ tr' ∈ Spec.transfers w.log, tr'.key ≠ tr.key := by
  obtain ⟨hnew, -⟩ := (Spec.transfer_iff h.db.tables.accountIds).mp hs
  exact fun tr' htr' => hnew _ (h.landed tr' htr').row

theorem goes {c : Nat} {call call' : Call} {db : Db} {evs : List Spec.Event} (hc : w.calls c = some call)
    (g : Goes cfg w c call call' db evs) : Among cfg (w.moveTo c call' db (w.log ++ evs)) := by
  have hsp := g.leads.spares h.db h.stored
  have calls_self : (w.moveTo c call' db (w.log ++ evs)).calls c = some call' := Function.update_self ..
  have calls_ne : ∀ c', c' ≠ c → (w.moveTo c call' db (w.log ++ evs)).calls c' = w.calls c' :=
    fun c' hne => Function.update_of_ne hne ..
  have foreign : ∀ {c' : Nat} {call₁ : Call} {x : Xid}, c' ≠ c → w.calls c' = some call₁ →
      call₁.pc.session = some x → call.pc.session ≠ some x :=
    fun hne hc₁ hx he => hne (h.owner _ c _ call _ hc₁ hc hx he)
  have apart : ∀ {c' : Nat} {call₁ : Call} {x : Xid}, c' ≠ c → w.calls c' = some call₁ →
      call₁.pc.session = some x → call'.pc.session ≠ some x := by
    intro c' call₁ x hne hc₁ hx he
    rcases (g.session x he).1 with h1 | h1
    · exact foreign hne hc₁ hx h1
    · obtain ⟨txn, ht, -⟩ := h.session c' call₁ x hc₁ hx
      rw [h1] at ht; cases ht
  have htransfers : Spec.transfers (w.log ++ evs) = Spec.transfers w.log ++ Spec.transfers evs :=
    Spec.transfers_append _ _
  have own : ∀ tr ∈ Spec.transfers evs, evs = [.transfer tr] ∧ tr.call = c ∧ tr.key = call.key ∧
      tr.intent = call.intent := by
    intro tr htr
    rcases g.events with rfl | ⟨tr', rfl, h1, h2, h3⟩
    · cases htr
    · cases List.mem_singleton.mp (show tr ∈ [tr'] from htr)
      exact ⟨rfl, h1, h2, h3⟩
  have stepped : ∀ tr ∈ Spec.transfers evs,
      Spec.step cfg.sha256 cfg.decode w.db.tables (.transfer tr) = some db.tables := by
    intro tr htr
    have hspec := g.spec
    rw [(own tr htr).1] at hspec
    simpa only [exec, Option.bind_eq_some_iff, Option.some.injEq, exists_eq_right] using hspec
  refine ⟨hsp.inv, hsp.stored, ?_, ?_, ?_, ?_, ?_, ?_⟩
  · intro c' call₁ x hc₁ hx
    by_cases hne : c' = c
    · subst hne
      rw [calls_self, Option.some.injEq] at hc₁
      subst hc₁
      exact (g.session x hx).2
    · rw [calls_ne c' hne] at hc₁
      obtain ⟨txn, ht, hsv, hok⟩ := h.session c' call₁ x hc₁ hx
      obtain ⟨ht', hf⟩ := hsp.frame x txn (foreign hne hc₁ hx) ht
      exact ⟨txn, ht', hsv, hok.frame hf⟩
  · intro c₁ c₂ call₁ call₂ x h1 h2 hx1 hx2
    by_cases e1 : c₁ = c <;> by_cases e2 : c₂ = c
    · rw [e1, e2]
    · subst e1
      rw [calls_self, Option.some.injEq] at h1
      rw [calls_ne c₂ e2] at h2
      subst h1
      exact absurd hx1 (apart e2 h2 hx2)
    · subst e2
      rw [calls_self, Option.some.injEq] at h2
      rw [calls_ne c₁ e1] at h1
      subst h2
      exact absurd hx2 (apart e1 h1 hx1)
    · rw [calls_ne c₁ e1] at h1
      rw [calls_ne c₂ e2] at h2
      exact h.owner c₁ c₂ call₁ call₂ x h1 h2 hx1 hx2
  · intro c' call₁ hc₁
    by_cases hne : c' = c
    · subst hne
      rw [calls_self, Option.some.injEq] at hc₁
      exact hc₁ ▸ g.met
    · rw [calls_ne c' hne] at hc₁
      refine (h.met c' call₁ hc₁).mono ⟨hsp.ages, h.landed, fun tr htr => ?_⟩
      exact ((Spec.transfer_iff h.db.tables.accountIds).mp (stepped tr htr)).1
  · intro tr htr
    rcases List.mem_append.mp (htransfers ▸ htr) with htr | htr
    · exact (h.landed tr htr).ages hsp.ages
    · exact Spec.Landed.new h.db.tables hsp.inv.tables (stepped tr htr)
  · show Distinct (·.key) (Spec.transfers (w.log ++ evs))
    rw [htransfers]
    rcases g.events with rfl | ⟨tr, rfl, -⟩
    · rw [show Spec.transfers [] = [] from rfl, List.append_nil]
      exact h.once
    · exact distinct_concat h.once (h.keys_new (stepped tr (List.mem_singleton.mpr rfl)))
  · intro tr htr
    by_cases hne : tr.call = c
    · refine ⟨call', hne ▸ calls_self, ?_, ?_, g.late tr htr hne⟩ <;>
        rcases List.mem_append.mp (htransfers ▸ htr) with htr | htr
      · obtain ⟨call₁, h1, h2, -⟩ := h.author tr htr
        rw [hne, hc, Option.some.injEq] at h1
        exact g.key.trans (h1 ▸ h2)
      · exact g.key.trans (own tr htr).2.2.1.symm
      · obtain ⟨call₁, h1, -, h3, -⟩ := h.author tr htr
        rw [hne, hc, Option.some.injEq] at h1
        exact g.intent.trans (h1 ▸ h3)
      · exact g.intent.trans (own tr htr).2.2.2.symm
    · rcases List.mem_append.mp (htransfers ▸ htr) with htr | htr
      · obtain ⟨call₁, h1, h2⟩ := h.author tr htr
        exact ⟨call₁, (calls_ne _ hne).trans h1, h2⟩
      · exact absurd (own tr htr).2.1 hne

end Among

/-! ## A step of the path -/

namespace Transfers

def Next.Met (cfg : Config) (t : Tables) (log : List Spec.Event) (c : Nat) (call : Call) : Next → Prop
  | .goto pc => { call with pc }.Met cfg t log c
  | .ret r => { call with pc := .done r }.Met cfg t log c
  | .panic => False

def Next.Late (cfg : Config) (tr : Spec.Transfer) (call : Call) : Next → Prop
  | .goto pc => { call with pc }.Late cfg tr
  | .ret r => { call with pc := .done r }.Late cfg tr
  | .panic => False

section
variable {cfg : Config} (hfast : cfg.fastPath = true) {t : Tables} {log : List Spec.Event} {c : Nat} {call : Call}

include hfast in
theorem finish_cases (call : Call) (r : Except LedgerError TransferResult) :
    (call.finish cfg r).pc = .lookup ∨ (call.finish cfg r).pc = .done r := by
  unfold Call.finish
  split
  · split
    · left
      simp only [startPc, start, hfast, if_true]
    · exact Or.inr rfl
  · exact Or.inr rfl

include hfast in
theorem Next.Met.follow {next : Next} (h : next.Met cfg t log c call) : (call.follow cfg next).Met cfg t log c := by
  cases next with
  | goto pc => exact h
  | panic => exact h.elim
  | ret r =>
    have hsame : (call.finish cfg r).key = call.key ∧ (call.finish cfg r).intent = call.intent := call.finish_same r
    obtain ⟨hk, hi⟩ := hsame
    unfold Next.Met Call.Met at h
    unfold Call.follow Call.Met
    rcases finish_cases hfast call r with hpc | hpc
    · rw [hpc]; trivial
    · rw [hpc]
      cases r with
      | error e => exact h
      | ok res =>
        obtain ⟨r, hf, hread⟩ := h
        exact ⟨r, ⟨hf.mem, hk ▸ hf.key, hi ▸ hf.hash, hf.own⟩, hread⟩

include hfast in
theorem Next.Late.follow {tr : Spec.Transfer} {next : Next} (h : next.Late cfg tr call) :
    (call.follow cfg next).Late cfg tr := by
  cases next with
  | goto pc => exact h
  | panic => exact h.elim
  | ret r =>
    have hsame : (call.finish cfg r).key = call.key ∧ (call.finish cfg r).intent = call.intent := call.finish_same r
    obtain ⟨hk, hi⟩ := hsame
    unfold Next.Late Call.Late at h
    unfold Call.follow Call.Late
    rcases finish_cases hfast call r with hpc | hpc
    · rw [hpc]; trivial
    · rw [hpc]
      cases r with
      | ok res => trivial
      | error e =>
        rcases h with h | ⟨he, hne⟩
        · exact Or.inl h
        · exact Or.inr ⟨hk ▸ he, hi ▸ hne⟩

theorem Onward.met {x : Xid} {txn : Txn} {next : Next} (hv : Validated call.intent)
    (h : Onward cfg t call x txn next) : next.Met cfg t log c call := by
  cases next with
  | goto pc =>
    obtain ⟨hs, -, hroll⟩ := h
    unfold Next.Met Call.Met
    cases pc
    case rollback y => exact hroll y rfl
    case claim | lock | adjustFrom | adjustTo | insertCredit | insertDebit | commit => exact hv
    all_goals cases hs
  | ret r =>
    cases r with
    | ok res => exact h.elim
    | error e => exact h
  | panic => exact h.elim

theorem refused_met {e : LedgerError} (he : e.typed = true → e.refusal = true) :
    Next.Met cfg t log c call (.ret (.error e)) := he

end

theorem decode_read {dec : Decode} {row : Row.Entry} {r : EntryRow} (h : EntryRow.decode dec row = .ok r) :
    ∃ entry, Entry.tryFrom r = .ok entry := by
  cases hv : row.amount.val with
  | nan =>
    simp only [EntryRow.decode, Decode.num20, hv] at h
    cases h
  | num u =>
    obtain ⟨r', entry, hr', hentry, -⟩ := Entry.read dec hv
    rw [h, Except.ok.injEq] at hr'
    exact ⟨entry, hr'.symm ▸ hentry⟩

theorem detail_untyped {dec : Decode} {tx : Transaction} {scan : List Row.Entry} {e : LedgerError}
    (h : Transactions.detail tx (Transactions.fetchEntries dec scan) = .error e) : e.typed = false := by
  rcases Bind.error.mp h with h | ⟨rows, hrows, h⟩
  · obtain ⟨err, rfl⟩ := Bind.mapError_error h
    rfl
  · rcases Bind.error.mp h with h | ⟨_, -, h⟩
    · obtain ⟨r, hr, herr⟩ := Bind.mapM_error h
      cases hfetch : Transactions.fetchEntries dec scan with
      | error err => rw [hfetch] at hrows; cases hrows
      | ok rows' =>
        rw [hfetch] at hrows
        cases hrows
        obtain ⟨row, -, hdec⟩ := Bind.mapM_mem hfetch r hr
        obtain ⟨entry, hentry⟩ := decode_read hdec
        rw [hentry] at herr
        cases herr
    · cases h

theorem find_some {t : Tables} {record : IdempotencyRecord} {key : String}
    (hf : Transactions.findByIdempotencyKey t key = some record) :
    ∃ r ∈ t.transactions, r.idempotencyKey = key ∧ record = ⟨r.id, r.requestHash⟩ := by
  obtain ⟨r, hr, rfl⟩ := Option.map_eq_some_iff.mp hf
  exact ⟨r, List.mem_of_find?_eq_some hr, by simpa using List.find?_some hr, rfl⟩

theorem replay_met {cfg : Config} {t : Tables} {log : List Spec.Event} {c : Nat} {call : Call} {r : Row.Transaction}
    (hr : r ∈ t.transactions) (hk : r.idempotencyKey = call.key) :
    (replay cfg call.key call.intent ⟨r.id, r.requestHash⟩).Met cfg t log c call := by
  unfold replay
  split
  · exact fun _ => rfl
  · rename_i hne
    exact ⟨r, ⟨hr, hk, not_not.mp hne, fun ho => by cases ho⟩, rfl⟩

theorem lookup_met {cfg : Config} {t : Tables} {log : List Spec.Event} {c : Nat} {call : Call} :
    (afterLookup cfg call.key call.intent (Transactions.findByIdempotencyKey t call.key)).Met cfg t log c call := by
  cases hf : Transactions.findByIdempotencyKey t call.key with
  | some record =>
    obtain ⟨r, hr, hk, rfl⟩ := find_some hf
    exact replay_met hr hk
  | none =>
    simp only [afterLookup, validate]
    split
    · exact fun _ => rfl
    · rename_i hself
      split
      · exact fun _ => rfl
      · rename_i hpos
        exact ⟨hself, by simpa using hpos⟩

end Transfers

namespace Among

variable {cfg : Config} {w : World} (h : Among cfg w) {c : Nat} {call : Call} (hc : w.calls c = some call)

include h hc in
theorem own_late {tr : Spec.Transfer} (htr : tr ∈ Spec.transfers w.log) (he : tr.call = c) :
    call.key = tr.key ∧ call.intent = tr.intent ∧ call.Late cfg tr := by
  obtain ⟨call', h1, h2⟩ := h.author tr htr
  rw [he, hc, Option.some.injEq] at h1
  exact h1 ▸ h2

include h in
theorem find_key {r : Row.Transaction} (hr : r ∈ w.db.tables.transactions) {key : String}
    (hk : r.idempotencyKey = key) :
    Transactions.findByIdempotencyKey w.db.tables key = some ⟨r.id, r.requestHash⟩ := by
  have hfind : w.db.tables.transactions.find? (fun q => decide (q.idempotencyKey = key)) = some r :=
    h.db.tables.keys.find hr hk
  simp only [Transactions.findByIdempotencyKey, hfind, Option.map_some]

include h hc in
theorem relookup_met (hpc : call.pc = .relookup) : (afterRelookup cfg call.key call.intent
    (Transactions.findByIdempotencyKey w.db.tables call.key)).Met cfg w.db.tables w.log c call := by
  have hmet := h.met c call hc
  unfold Call.Met at hmet
  rw [hpc] at hmet
  obtain ⟨r, hr, hk⟩ := hmet
  rw [h.find_key hr hk]
  exact replay_met hr hk

include h hc in
theorem getTransaction_met {outcome : TransferOutcome} {id : Uuid} (hpc : call.pc = .getTransaction outcome id) :
    (match Transactions.fetchTransaction w.db.tables id with
      | none => Next.ret (.error (.transactionNotFound id))
      | some transaction => .goto (.getEntries outcome id transaction)).Met cfg w.db.tables w.log c call := by
  have hmet := h.met c call hc
  unfold Call.Met at hmet
  rw [hpc] at hmet
  obtain ⟨r, hf, hid⟩ := hmet
  have hfind : w.db.tables.transactions.find? (fun q => decide (q.id = id)) = some r :=
    h.db.tables.transactionIds.find hf.mem hid
  simp only [Transactions.fetchTransaction, hfind, Option.map_some]
  exact ⟨r, ⟨hf.mem, hf.key, hf.hash, hf.own⟩, hid, rfl⟩

include h hc in
theorem getEntries_met {outcome : TransferOutcome} {id : Uuid} {transaction : Transaction} {scan : List Row.Entry}
    (hpc : call.pc = .getEntries outcome id transaction)
    (hscan : scan.Perm (Transactions.entriesOf w.db.tables id)) :
    (Next.ret ((Transactions.detail transaction (Transactions.fetchEntries cfg.decode scan)).map
      fun detail => { outcome, detail })).Met cfg w.db.tables w.log c call := by
  have hmet := h.met c call hc
  unfold Call.Met at hmet
  rw [hpc] at hmet
  obtain ⟨r, hf, rfl, rfl⟩ := hmet
  cases hd : Transactions.detail (Transaction.ofRow r) (Transactions.fetchEntries cfg.decode scan) with
  | error e =>
    intro he
    rw [detail_untyped hd] at he
    cases he
  | ok detail =>
    refine ⟨r, ⟨hf.mem, hf.key, hf.hash, hf.own⟩, Or.inl ?_⟩
    -- the rows come in one order, whichever way they are found
    have hsort : scan.insertionSort Row.Entry.before =
        (Transactions.entriesOf w.db.tables r.id).insertionSort Row.Entry.before :=
      sort_perm (h.db.tables.entryIds.sublist List.filter_sublist) hscan
    rw [← hd]
    simp only [Spec.replay, Transactions.fetchEntries, hsort]

structure Proceeds (cfg : Config) (w : World) (c : Nat) (call : Call) (db : Db) (next : Next) : Prop where
  tables : db.tables = w.db.tables
  met : next.Met cfg w.db.tables w.log c call
  session : ∀ pc x, next = .goto pc → pc.session = some x → (call.pc.session = some x ∨ w.db.txns x = none) ∧
    ∃ txn, db.txns x = some txn ∧ txn.savepoints = [] ∧ SessionOk cfg w.db.tables { call with pc } x txn
  late : ∀ tr ∈ Spec.transfers w.log, tr.call = c → next.Late cfg tr call

include h hc in
theorem proceeds_onward {x : Xid} {db : Db} {next : Next} (hs : call.pc.session = some x)
    (hv : Validated call.intent)
    (ho : ∃ txn', db = w.db.put x txn' ∧ txn'.savepoints = [] ∧ Onward cfg w.db.tables call x txn' next) :
    Proceeds cfg w c call db next := by
  obtain ⟨txn, rfl, hsp, ho⟩ := ho
  refine ⟨rfl, ho.met hv, ?_, fun tr htr he => ?_⟩
  · rintro pc y rfl hy
    obtain ⟨hx, hok, -⟩ := ho
    rw [hx, Option.some.injEq] at hy
    subst hy
    exact ⟨Or.inl hs, txn, Function.update_self .., hsp, hok⟩
  · have hnone := (h.own_late hc htr he).2.2.session
    rw [hs] at hnone
    cases hnone

theorem proceeds_outside {db : Db} {next : Next} (ht : db.tables = w.db.tables)
    (hm : next.Met cfg w.db.tables w.log c call)
    (hn : ∀ pc, next = .goto pc → pc.session = none)
    (hl : ∀ tr ∈ Spec.transfers w.log, tr.call = c → next.Late cfg tr call) : Proceeds cfg w c call db next := by
  refine ⟨ht, hm, ?_, hl⟩
  rintro pc x rfl hx
  rw [hn pc rfl] at hx
  cases hx

theorem replay_outside {cfg : Config} {key : String} {i : TransferIntent} {record : IdempotencyRecord} :
    ∀ pc, replay cfg key i record = .goto pc → pc.session = none := by
  unfold replay
  split
  · intro pc he; cases he
  · rintro pc he; cases he; rfl

include h hc in
theorem lookup_proceeds : Proceeds cfg w c call w.db
    (afterLookup cfg call.key call.intent (Transactions.findByIdempotencyKey w.db.tables call.key)) := by
  refine proceeds_outside rfl lookup_met ?_ fun tr htr he => ?_
  · cases Transactions.findByIdempotencyKey w.db.tables call.key with
    | some record => exact replay_outside
    | none =>
      simp only [afterLookup, validate]
      split
      · rintro pc he; cases he
      · split
        · rintro pc he; cases he
        · rintro pc he; cases he; rfl
  · obtain ⟨hk, hi, -⟩ := h.own_late hc htr he
    rw [h.find_key (h.landed tr htr).row hk.symm]
    simp only [afterLookup, replay]
    rw [if_neg (not_not.mpr (by rw [hi]; rfl))]
    trivial

include h hc in
theorem relookup_proceeds (hpc : call.pc = .relookup) : Proceeds cfg w c call w.db
    (afterRelookup cfg call.key call.intent (Transactions.findByIdempotencyKey w.db.tables call.key)) := by
  refine proceeds_outside rfl (h.relookup_met hc hpc) ?_ fun tr htr he => ?_
  · cases Transactions.findByIdempotencyKey w.db.tables call.key with
    | some record => exact replay_outside
    | none => intro pc he; cases he
  · have hl := (h.own_late hc htr he).2.2
    unfold Call.Late at hl
    rw [hpc] at hl
    exact hl.elim

include h hc in
theorem getTransaction_proceeds {outcome : TransferOutcome} {id : Uuid}
    (hpc : call.pc = .getTransaction outcome id) :
    Proceeds cfg w c call w.db (match Transactions.fetchTransaction w.db.tables id with
      | none => .ret (.error (.transactionNotFound id))
      | some transaction => .goto (.getEntries outcome id transaction)) := by
  have hm := h.getTransaction_met hc hpc
  cases hf : Transactions.fetchTransaction w.db.tables id with
  | none => rw [hf] at hm; cases hm rfl
  | some transaction =>
    rw [hf] at hm
    exact proceeds_outside rfl hm (fun pc he => by cases he; rfl) fun _ _ _ => trivial

include h hc in
theorem getEntries_proceeds {outcome : TransferOutcome} {id : Uuid} {transaction : Transaction}
    {scan : List Row.Entry} (hpc : call.pc = .getEntries outcome id transaction)
    (hscan : scan.Perm (Transactions.entriesOf w.db.tables id)) :
    Proceeds cfg w c call w.db
      (.ret ((Transactions.detail transaction (Transactions.fetchEntries cfg.decode scan)).map
        fun detail => { outcome, detail })) := by
  refine proceeds_outside rfl (h.getEntries_met hc hpc hscan) (fun pc he => by cases he) fun tr _ _ => ?_
  cases hd : Transactions.detail transaction (Transactions.fetchEntries cfg.decode scan) with
  | ok detail => trivial
  | error e => exact Or.inl (LedgerError.untyped (detail_untyped hd))

include h hc in
theorem validated (hpc : call.pc.session.isSome = true ∨ call.pc = .begin) (hr : ∀ x, call.pc ≠ .rollback x) :
    Validated call.intent := by
  have hmet := h.met c call hc
  unfold Call.Met at hmet
  cases hp : call.pc <;> rw [hp] at hmet hpc
  case rollback x => exact absurd hp (hr x)
  case begin | claim | lock | adjustFrom | adjustTo | insertCredit | insertDebit | commit => exact hmet
  all_goals rcases hpc with hpc | hpc <;> cases hpc

include h hc in
theorem begin_proceeds (hpc : call.pc = .begin) (now : Timestamp) (id : Uuid) :
    Proceeds cfg w c call (w.db.begin now) (.goto (.claim w.db.nextXid id)) := by
  have hv := h.validated hc (Or.inr hpc) (by simp [hpc])
  refine ⟨rfl, hv, ?_, fun tr htr he => ?_⟩
  · rintro pc x he hx
    cases he
    cases hx
    exact ⟨Or.inr (h.db.bounded _ (Nat.le_refl _)), { now }, Function.update_self .., rfl, rfl, Work.Shape.empty⟩
  · have hl := (h.own_late hc htr he).2.2
    unfold Call.Late at hl
    rw [hpc] at hl
    exact hl.elim

include h hc in
theorem rollback_proceeds {x : Xid} (hpc : call.pc = .rollback x) :
    Proceeds cfg w c call (w.db.close x) (.goto .relookup) := by
  have hmet := h.met c call hc
  unfold Call.Met at hmet
  rw [hpc] at hmet
  refine proceeds_outside rfl hmet (fun pc he => by cases he; rfl) fun tr htr he => ?_
  have hl := (h.own_late hc htr he).2.2
  unfold Call.Late at hl
  rw [hpc] at hl
  exact hl.elim

include h hc in
/-- **Inversion.** Every step that is not a `COMMIT` leaves the committed tables and
leads on. -/
theorem proceeds {env : Env} {db : Db} {next : Next} (hr : call.run cfg w.db env = some (db, next))
    (hne : ∀ x id s r cid did, call.pc ≠ .commit x id s r cid did) : Proceeds cfg w c call db next := by
  have inside : ∀ {x : Xid}, call.pc.session = some x → (∀ y, call.pc ≠ .rollback y) → Validated call.intent ∧
      ∃ txn, w.db.txns x = some txn ∧ txn.savepoints = [] ∧ SessionOk cfg w.db.tables call x txn := by
    intro x hs hroll
    exact ⟨h.validated hc (Or.inl (by rw [hs]; rfl)) hroll, h.session c call x hc hs⟩
  cases hpc : call.pc with
  | lookup =>
    simp only [Call.run, hpc, Option.some.injEq, Prod.mk.injEq] at hr
    obtain ⟨rfl, rfl⟩ := hr
    exact h.lookup_proceeds hc
  | begin =>
    simp only [Call.run, hpc, Option.some.injEq, Prod.mk.injEq] at hr
    obtain ⟨rfl, rfl⟩ := hr
    exact h.begin_proceeds hc hpc _ _
  | claim x id =>
    simp only [Call.run, hpc] at hr
    obtain ⟨hv, txn, hx, hsp, hok⟩ := inside (x := x) (by rw [hpc]; rfl) (by simp [hpc])
    exact h.proceeds_onward hc (by rw [hpc]; rfl) hv (claim_onward h.db hx hpc hsp hok (hpc ▸ hr))
  | rollback x =>
    simp only [Call.run, hpc, Option.some.injEq, Prod.mk.injEq] at hr
    obtain ⟨rfl, rfl⟩ := hr
    exact h.rollback_proceeds hc hpc
  | relookup =>
    simp only [Call.run, hpc, Option.some.injEq, Prod.mk.injEq] at hr
    obtain ⟨rfl, rfl⟩ := hr
    exact h.relookup_proceeds hc hpc
  | lock x id todo locked =>
    obtain ⟨hv, txn, hx, hsp, hok⟩ := inside (x := x) (by rw [hpc]; rfl) (by simp [hpc])
    cases todo with
    | nil =>
      -- the loop is left as soon as nothing is to be locked
      simp only [SessionOk, hpc] at hok
      exact absurd rfl hok.2.2.2.1
    | cons accountId todo =>
      simp only [Call.run, hpc] at hr
      exact h.proceeds_onward hc (by rw [hpc]; rfl) hv (lock_onward h.db hx hpc hv hsp hok (hpc ▸ hr))
  | adjustFrom x id sender receiver =>
    simp only [Call.run, hpc] at hr
    obtain ⟨hv, txn, hx, hsp, hok⟩ := inside (x := x) (by rw [hpc]; rfl) (by simp [hpc])
    exact h.proceeds_onward hc (by rw [hpc]; rfl) hv
      (adjustFrom_onward h.db hx h.stored.committed hpc hsp hok (hpc ▸ hr))
  | adjustTo x id sender receiver =>
    simp only [Call.run, hpc] at hr
    obtain ⟨hv, txn, hx, hsp, hok⟩ := inside (x := x) (by rw [hpc]; rfl) (by simp [hpc])
    exact h.proceeds_onward hc (by rw [hpc]; rfl) hv
      (adjustTo_onward h.db hx h.stored.committed hpc hsp hok (hpc ▸ hr))
  | insertCredit x id sender receiver cid =>
    simp only [Call.run, hpc] at hr
    obtain ⟨hv, txn, hx, hsp, hok⟩ := inside (x := x) (by rw [hpc]; rfl) (by simp [hpc])
    exact h.proceeds_onward hc (by rw [hpc]; rfl) hv (insertCredit_onward h.db hx hpc hv hsp hok (hpc ▸ hr))
  | insertDebit x id sender receiver cid did =>
    simp only [Call.run, hpc] at hr
    obtain ⟨hv, txn, hx, hsp, hok⟩ := inside (x := x) (by rw [hpc]; rfl) (by simp [hpc])
    exact h.proceeds_onward hc (by rw [hpc]; rfl) hv (insertDebit_onward h.db hx hpc hv hsp hok (hpc ▸ hr))
  | commit x id s r cid did => exact absurd hpc (hne x id s r cid did)
  | getTransaction outcome id =>
    simp only [Call.run, hpc, Option.some.injEq, Prod.mk.injEq] at hr
    obtain ⟨rfl, rfl⟩ := hr
    exact h.getTransaction_proceeds hc hpc
  | getEntries outcome id transaction =>
    simp only [Call.run, hpc] at hr
    split at hr
    · rename_i hscan
      cases hr
      exact h.getEntries_proceeds hc hpc hscan
    · cases hr
  | done | cancelled | panicked =>
    simp only [Call.run, hpc] at hr
    cases hr

theorem leave_tables (db : Db) (pc : Pc) (next : Next) : (World.leave db pc next).tables = db.tables := by
  have hdrop : (World.drop db pc).tables = db.tables := by
    unfold World.drop
    split <;> rfl
  cases next with
  | goto pc' => rfl
  | ret r => exact hdrop
  | panic => exact hdrop

include h in
theorem live : w.Live := by
  intro c call hc x hx
  obtain ⟨txn, ht, -, hok⟩ := h.session c call x hc hx
  exact ⟨txn, ht, hok.live hx⟩

include h hc in
theorem not_late {x : Xid} (hs : call.pc.session = some x) : ∀ tr ∈ Spec.transfers w.log, tr.call ≠ c := by
  intro tr htr he
  have hnone := (h.own_late hc htr he).2.2.session
  rw [hs] at hnone
  cases hnone

include h hc in
theorem lands {db : Db} {ev : Spec.Event} (hl : World.landing w.db c call = some (db, ev)) {call' : Call}
    (hk : call'.key = call.key) (hi : call'.intent = call.intent) (hs' : call'.pc.session = none)
    (hm : call'.Met cfg db.tables (w.log ++ [ev]) c) (hlate : ∀ tr, call'.Late cfg tr) :
    Goes cfg w c call call' db [ev] := by
  obtain ⟨x, id, sender, receiver, cid, did, txn, hpc, hx, hcm, rfl⟩ := Inv.landing_commit hl
  have hs : call.pc.session = some x := by rw [hpc]; rfl
  obtain ⟨txn', hx', -, hok⟩ := h.session c call x hc hs
  rw [hx, Option.some.injEq] at hx'
  subst hx'
  refine ⟨hk, hi, Db.leads_commit hs (by simp only [Db.step, hx, Option.map_some, hcm]), ?_,
    Or.inr ⟨_, rfl, rfl, rfl, rfl⟩, fun y hy => ?_, hm, fun tr _ _ => hlate tr⟩
  · rw [exec, (commit_step h.db hx hpc hok hcm c).2]
    rfl
  · rw [hs'] at hy; cases hy

theorem landed_found {db : Db} {ev : Spec.Event} (hl : World.landing w.db c call = some (db, ev))
    (hs : Spec.step cfg.sha256 cfg.decode w.db.tables ev = some db.tables) : ∃ x id s r cid did,
      call.pc = .commit x id s r cid did ∧
      { call with pc := .getTransaction .created id }.Met cfg db.tables (w.log ++ [ev]) c := by
  obtain ⟨x, id, sender, receiver, cid, did, txn, hpc, -, -, rfl⟩ := Inv.landing_commit hl
  refine ⟨x, id, sender, receiver, cid, did, hpc, (call.transfer c x id cid did txn.now).row cfg.sha256,
    ⟨?_, rfl, rfl, fun _ => ⟨_, ?_, rfl, rfl⟩⟩, rfl⟩
  · have htx := (Spec.step_log hs).1
    rw [htx]
    exact List.mem_append_right _ (List.mem_singleton.mpr rfl)
  · rw [Spec.transfers_append]
    exact List.mem_append_right _ (List.mem_singleton.mpr rfl)

theorem proceeds_goes (hfast : cfg.fastPath = true) {db : Db} {next : Next} (hp : Proceeds cfg w c call db next)
    (hleads : Db.Leads cfg.schema (fun x => call.pc.session = some x) w.db (World.leave db call.pc next)) :
    Goes cfg w c call (call.follow cfg next) (World.leave db call.pc next) [] := by
  have hsame : (call.follow cfg next).key = call.key ∧ (call.follow cfg next).intent = call.intent :=
    call.follow_same next
  obtain ⟨hk, hi⟩ := hsame
  have ht : (World.leave db call.pc next).tables = w.db.tables := (leave_tables _ _ _).trans hp.tables
  refine ⟨hk, hi, hleads, congrArg some ht.symm, Or.inl rfl, fun x hx => ?_, ?_, fun tr htr he => ?_⟩
  · obtain ⟨pc, rfl, hpc⟩ := Call.follow_session hx
    obtain ⟨hopen, txn, htxn, hsp, hok⟩ := hp.session pc x rfl hpc
    exact ⟨hopen, txn, htxn, hsp, ht.symm ▸ hok⟩
  · rw [ht, List.append_nil]
    exact hp.met.follow hfast
  · rw [List.append_nil] at htr
    exact (hp.late tr htr he).follow hfast

include h hc in
theorem run_goes (hfast : cfg.fastPath = true) {env : Env} {db : Db} {next : Next}
    (hr : call.run cfg w.db env = some (db, next)) :
    Goes cfg w c call (call.follow cfg next) (World.leave db call.pc next)
      ((World.landing w.db c call).map (·.2)).toList := by
  have hleads := Call.run_leads (h.live c call hc) hr
  by_cases hcommit : ∃ x id s r cid did, call.pc = .commit x id s r cid did
  · obtain ⟨x, id, s, r, cid, did, hpc⟩ := hcommit
    have hs : call.pc.session = some x := by rw [hpc]; rfl
    have hr' := hr
    simp only [Call.run, hpc] at hr'
    obtain ⟨txn, hx, hr'⟩ := Option.map_eq_some_iff.mp hr'
    split at hr'
    · rename_i db₁ hcm
      cases hr'
      have hl : World.landing w.db c call = some (db, .transfer (call.transfer c x id cid did txn.now)) := by
        simp only [World.landing, hpc, hx, Option.bind_some, hcm]
      obtain ⟨txn', hx', -, hok⟩ := h.session c call x hc hs
      rw [hx, Option.some.injEq] at hx'
      subst hx'
      obtain ⟨x', id', _, _, _, _, hpc', hm⟩ := landed_found hl (commit_step h.db hx hpc hok hcm c).2
      cases hpc.symm.trans hpc'
      rw [hl]
      exact h.lands hc hl rfl rfl rfl hm fun _ => trivial
    · rename_i err hcm
      cases hr'
      have hl : World.landing w.db c call = none := by
        simp only [World.landing, hpc, hx, Option.bind_some, hcm]
      rw [hl]
      have hclaim : ∀ y i, Pc.commit x id s r cid did ≠ .claim y i := by simp
      obtain ⟨e, herr, hkind⟩ := onError_refusal hclaim err
      refine proceeds_goes hfast (proceeds_outside rfl ?_ ?_ fun tr htr he => ?_) hleads
      · rw [herr]
        exact hkind
      · intro pc he
        rw [herr] at he
        cases he
      · exact absurd he (h.not_late hc hs tr htr)
  · have hl : World.landing w.db c call = none := by
      unfold World.landing
      split
      · rename_i hpc; exact absurd ⟨_, _, _, _, _, _, hpc⟩ hcommit
      · rfl
    rw [hl]
    refine proceeds_goes hfast (h.proceeds hc hr ?_) hleads
    intro x id s r cid did hpc
    exact hcommit ⟨x, id, s, r, cid, did, hpc⟩

theorem broke_proceeds (err : SqlxError) : Proceeds cfg w c call w.db (.ret (.error (.database err))) := by
  refine proceeds_outside rfl (refused_met (by intro he; cases he)) (fun pc he => by cases he) fun tr _ _ => ?_
  exact Or.inl ⟨err, rfl⟩

include h hc in
theorem left_leads (next : Next) :
    Db.Leads cfg.schema (fun x => call.pc.session = some x) w.db (World.leave w.db call.pc next) := by
  refine leave_leads (fun x hx => ?_) next
  obtain ⟨txn, ht, -⟩ := h.live c call hc x hx
  rw [ht]; rfl

include h hc in
theorem broke_goes (hfast : cfg.fastPath = true) (err : SqlxError) :
    Goes cfg w c call (call.finish cfg (.error (.database err))) (World.drop w.db call.pc) [] :=
  proceeds_goes hfast (broke_proceeds err) (h.left_leads hc (.ret (.error (.database err))))

include h hc in
theorem left_goes : Goes cfg w c call { call with pc := .cancelled } (World.drop w.db call.pc) [] := by
  have ht : (World.drop w.db call.pc).tables = w.db.tables := leave_tables w.db call.pc .panic
  exact ⟨rfl, rfl, h.left_leads hc .panic, congrArg some ht.symm, Or.inl rfl, fun x hx => (by cases hx), trivial,
    fun _ _ _ => trivial⟩

include h in
theorem invoked (hfast : cfg.fastPath = true) {key : String} {intent : TransferIntent} (hnone : w.calls c = none) :
    Among cfg { w with calls := Function.update w.calls c (some ⟨key, intent, 0, startPc cfg intent⟩) } := by
  have hpc : startPc cfg intent = .lookup := by simp only [startPc, start, hfast, if_true]
  have new : ∀ {c' : Nat} {call' : Call},
      Function.update w.calls c (some ⟨key, intent, 0, startPc cfg intent⟩) c' = some call' →
      call'.pc = .lookup ∨ w.calls c' = some call' := by
    intro c' call' hc'
    by_cases hne : c' = c
    · subst hne
      rw [Function.update_self, Option.some.injEq] at hc'
      exact Or.inl (hc' ▸ hpc)
    · rw [Function.update_of_ne hne] at hc'
      exact Or.inr hc'
  have sess : ∀ {c' : Nat} {call' : Call} {x : Xid},
      Function.update w.calls c (some ⟨key, intent, 0, startPc cfg intent⟩) c' = some call' →
      call'.pc.session = some x → w.calls c' = some call' := by
    intro c' call' x hc' hx
    rcases new hc' with hp | hc'
    · rw [hp] at hx; cases hx
    · exact hc'
  refine ⟨h.db, h.stored, fun c' call' x hc' hx => h.session c' call' x (sess hc' hx) hx, ?_, ?_, h.landed,
    h.once, ?_⟩
  · intro c₁ c₂ call₁ call₂ x h1 h2 hx1 hx2
    exact h.owner c₁ c₂ call₁ call₂ x (sess h1 hx1) (sess h2 hx2) hx1 hx2
  · intro c' call' hc'
    rcases new hc' with hp | hc'
    · unfold Call.Met
      rw [hp]
      trivial
    · exact h.met c' call' hc'
  · intro tr htr
    obtain ⟨call', h1, h2⟩ := h.author tr htr
    have hne : tr.call ≠ c := fun e => by rw [e, hnone] at h1; cases h1
    exact ⟨call', (Function.update_of_ne hne ..).trans h1, h2⟩

end Among

theorem Accounts.create_spec {sch : Schema} {dec : Decode} {db db' : Db} {id : Uuid} {now : Timestamp}
    {name : String} {currency : Currency} {flag : Bool} {rows : List Row.Account}
    {answer : Except LedgerError Account} (hi : DbInv db)
    (h : Accounts.create sch dec db id now name currency flag = some (db', rows, answer))
    (sha256 : List UInt8 → Vector UInt8 32) :
    exec (Spec.step sha256 dec) db.tables (rows.map .account) = some db'.tables := by
  simp only [Accounts.create] at h
  split at h
  · cases h
  · cases h; rfl
  · rename_i work row hex
    obtain ⟨a, hzero, -, hid, rfl⟩ := create_exec (hi.begin now).bounded hex
    split at h
    · cases h; rfl
    · rename_i db₁ hcm
      cases h
      rcases Db.commit_ok hcm with ⟨hab, -⟩ | ⟨-, -, rfl⟩
      · cases hab
      have hover := Work.overlay_opened db.tables [a]
      have hnew : ∀ b ∈ db.tables.accounts, b.id ≠ a.id := by
        intro b hb
        refine hid b ?_
        have hempty := Work.overlay_opened db.tables []
        show b ∈ (({ accounts := [] } : Work).overlay db.tables).accounts
        rw [hempty]
        exact List.mem_append_left _ hb
      simp only [List.nil_append, List.map_cons, List.map_nil, exec, Spec.step, Spec.openAccount,
        if_pos (And.intro hzero hnew), Option.bind_some]
      exact congrArg some hover.symm

end Ledger
