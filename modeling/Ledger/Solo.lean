import Ledger.Deadlock
import Ledger.Http
import Ledger.SweepSound

/-!
# A transfer on its own

What `execute` answers when nothing else is going on, as a function of the committed
tables, the key and the intent. There are two ways to fail with an opaque error: text
the database cannot store, and a balance that outgrows its column.
-/

namespace Ledger

open Keyed Runs Transfers

/-- The answer is known before anything is written. -/
def Decided (cfg : Config) (t : Tables) (key : String) (i : TransferIntent) : Prop :=
  ¬ Validated i ∨ (cfg.fastPath = true ∧ ∃ r ∈ t.transactions, r.idempotencyKey = key)

def Unused (t : Tables) (key : String) : Prop := ∀ r ∈ t.transactions, r.idempotencyKey ≠ key

def unstorableText : SqlxError := .database .characterNotInRepertoire none

/-- The possible ends: the answer, and the tables that are committed then. -/
inductive Outcome (cfg : Config) (t : Tables) (key : String) (i : TransferIntent) :
    Except LedgerError TransferResult → Tables → Prop
  | replays {detail : TransactionDetail} (hn : Decided cfg t key i ∨ hasNul i.description = false)
      (hv : Spec.verdict cfg.sha256 cfg.decode t key i = .replayed (.ok detail)) :
      Outcome cfg t key i (.ok ⟨.replayed, detail⟩) t
  | refuses {err : LedgerError} (hn : Decided cfg t key i ∨ hasNul i.description = false)
      (hv : Spec.verdict cfg.sha256 cfg.decode t key i = .rejected err) (ht : err.typed = true) :
      Outcome cfg t key i (.error err) t
  | unstorable (hd : ¬ Decided cfg t key i) (hn : hasNul i.description = true) :
      Outcome cfg t key i (.error (.database unstorableText)) t
  | overflows {s r : Row.Account} (hu : Unused t key) (hn : hasNul i.description = false) (ha : Spec.Admits t i s r)
      (ho : Spec.shift s (-i.units) = none ∨ Spec.shift r i.units = none) :
      Outcome cfg t key i (.error (.database outOfRange)) t
  | creates {detail : TransactionDetail} {tr : Spec.Transfer} {s r s' r' : Row.Account} (hu : Unused t key)
      (hn : hasNul i.description = false) (ha : Spec.Admits t i s r) (hs : Spec.shift s (-i.units) = some s')
      (hr : Spec.shift r i.units = some r') (hk : tr.key = key) (hi : tr.intent = i) :
      Outcome cfg t key i (.ok ⟨.created, detail⟩) (Spec.settled cfg.sha256 t tr s' r')

def Settles (cfg : Config) (t : Tables) (key : String) (i : TransferIntent) (outcome : TransferOutcome)
    (tables : Tables) : Prop :=
  match outcome with
  | .replayed => tables = t ∧ (Decided cfg t key i ∨ hasNul i.description = false)
  | .created => Unused t key ∧ hasNul i.description = false ∧ ∃ tr s r s' r', Spec.Admits t i s r ∧
      Spec.shift s (-i.units) = some s' ∧ Spec.shift r i.units = some r' ∧ tr.key = key ∧ tr.intent = i ∧
      tables = Spec.settled cfg.sha256 t tr s' r'

/-- What a call on its own has found out by the time it is at a point. -/
def Path (cfg : Config) (t : Tables) (key : String) (i : TransferIntent) (pc : Pc) (tables : Tables) : Prop :=
  let plain := hasNul i.description = false
  match pc with
  | .lookup => tables = t
  | .begin => tables = t ∧ ¬ Decided cfg t key i
  | .claim _ id => tables = t ∧ ¬ Decided cfg t key i ∧ ∀ r ∈ t.transactions, r.id ≠ id
  | .rollback _ | .relookup => tables = t ∧ plain
  | .lock _ id .. | .adjustFrom _ id .. | .adjustTo _ id .. =>
    tables = t ∧ plain ∧ Unused t key ∧ ∀ r ∈ t.transactions, r.id ≠ id
  | .insertCredit _ id _ _ cid =>
    tables = t ∧ plain ∧ Unused t key ∧ (∀ r ∈ t.transactions, r.id ≠ id) ∧ ∀ e ∈ t.entries, e.id ≠ cid
  | .insertDebit _ id _ _ cid did =>
    tables = t ∧ plain ∧ Unused t key ∧ (∀ r ∈ t.transactions, r.id ≠ id) ∧ (∀ e ∈ t.entries, e.id ≠ did) ∧
    cid ≠ did
  | .commit _ id .. => tables = t ∧ plain ∧ Unused t key ∧ ∀ r ∈ t.transactions, r.id ≠ id
  | .getTransaction outcome _ | .getEntries outcome .. => Settles cfg t key i outcome tables
  | .done r => Outcome cfg t key i r tables
  | .cancelled | .panicked => False

namespace Transfers

def Pc.left : Pc → Nat
  | lookup => 15
  | begin => 14
  | claim .. => 13
  | lock _ _ todo _ => 10 + todo.length
  | adjustFrom .. => 10
  | adjustTo .. => 9
  | insertCredit .. => 8
  | insertDebit .. => 7
  | commit .. => 6
  | rollback _ => 5
  | relookup => 4
  | getTransaction .. => 2
  | getEntries .. => 1
  | done _ | cancelled | panicked => 0

theorem Call.finish_final {cfg : Config} {call : Call} {r : Except LedgerError TransferResult}
    (h : ∀ err, r = .error (.database err) → isRetryableConflict err = false) :
    (call.finish cfg r).pc = .done r := by
  unfold Call.finish
  split
  · rename_i err
    rw [h err rfl]
    rfl
  · rfl

end Transfers

def Advances (cfg : Config) (t : Tables) (call : Call) (next : Next) (tables : Tables) : Prop :=
  Path cfg t call.key call.intent (call.follow cfg next).pc tables ∧ (call.follow cfg next).pc.left < call.pc.left

theorem Advances.ret {cfg : Config} {t : Tables} {call : Call} {r : Except LedgerError TransferResult}
    {tables : Tables}
    (hrun : 0 < call.pc.left) (hr : ∀ err, r = .error (.database err) → isRetryableConflict err = false)
    (ho : Outcome cfg t call.key call.intent r tables) : Advances cfg t call (.ret r) tables := by
  have hpc : (call.follow cfg (.ret r)).pc = .done r := Call.finish_final hr
  unfold Advances
  rw [hpc]
  exact ⟨ho, hrun⟩

theorem Advances.goto {cfg : Config} {t : Tables} {call : Call} {pc : Pc} {tables : Tables}
    (hp : Path cfg t call.key call.intent pc tables) (hl : pc.left < call.pc.left) :
    Advances cfg t call (.goto pc) tables := ⟨hp, hl⟩

theorem outOfRange_final (r : LedgerError)
    (h : r = .database outOfRange ∨ r = .database unstorableText ∨ r.typed = true) :
    ∀ err, (Except.error r : Except LedgerError TransferResult) = .error (.database err) →
      isRetryableConflict err = false := by
  intro err he
  cases he
  rcases h with h | h | h <;> cases h <;> rfl

/-! ## Step by step -/

namespace Inv

variable {cfg : Config} {w : World} (h : Inv cfg w) {c : Nat} {call : Call} (hc : w.calls c = some call)
  (ho : ∀ c' call', c' ≠ c → w.calls c' = some call' → call'.pc.session = none)

section
include h hc ho

theorem alone {x y : Xid} {ty : Txn} (hs : call.pc.session = some x) (hy : w.db.txns y = some ty) : y = x := by
  obtain ⟨c', call', hc', hs'⟩ := h.owned y ty hy
  by_cases hcc : c' = c
  · subst hcc
    rw [hc, Option.some.injEq] at hc'
    rw [← hc', hs, Option.some.injEq] at hs'
    exact hs'.symm
  · rw [ho c' call' hcc hc'] at hs'
    cases hs'

theorem alone_await {x : Xid} (hs : call.pc.session = some x) (p : Work → Bool) : w.db.await x p = .ok () :=
  Db.await_ok fun _ _ hy hty => absurd (h.alone hc ho hs hty) hy

theorem alone_unique {x : Xid} (hs : call.pc.session = some x) (con : Constraint) {dup : Bool} (hd : dup = false)
    (p : Work → Bool) : w.db.unique x con dup p = .ok () := by
  unfold Db.unique
  rw [hd]
  exact h.alone_await hc ho hs p

end

section
variable {t : Tables} {db : Db} {next : Next} {env : Env}

omit h ho in
theorem replay_advances (hl : 2 < call.pc.left) (hn : Decided cfg t call.key call.intent ∨
    hasNul call.intent.description = false) {record : IdempotencyRecord}
    (hf : Transactions.findByIdempotencyKey t call.key = some record) :
    Advances cfg t call (replay cfg call.key call.intent record) t := by
  obtain ⟨r, hr, rfl⟩ := Option.map_eq_some_iff.mp hf
  unfold Transfers.replay
  split
  · rename_i hne
    refine .ret (by omega) (outOfRange_final _ (Or.inr (Or.inr rfl))) (.refuses hn ?_ rfl)
    simp only [Spec.verdict, hr]
    rw [if_pos hne]
  · exact .goto ⟨rfl, hn⟩ hl

include h hc

omit ho in
theorem lookup_advances (hpc : call.pc = .lookup) (hp : Path cfg t call.key call.intent call.pc w.db.tables) :
    Advances cfg t call
      (afterLookup cfg call.key call.intent (Transactions.findByIdempotencyKey w.db.tables call.key)) t := by
  rw [hpc] at hp
  have ht : w.db.tables = t := hp
  have hfast : cfg.fastPath = true := by
    have := h.call c call hc
    simpa only [CallOk, hpc] using this
  rw [ht]
  cases hf : Transactions.findByIdempotencyKey t call.key with
  | some record =>
    have hused := Transactions.findByIdempotencyKey_some.mp ⟨record, hf⟩
    exact replay_advances (by simp [hpc, Pc.left]) (Or.inl (Or.inr ⟨hfast, hused⟩)) hf
  | none =>
    have hu : Unused t call.key := Transactions.findByIdempotencyKey_none.mp hf
    have refused : ∀ err, ¬ Validated call.intent → Spec.refusal t call.intent = some err → err.typed = true →
        Advances cfg t call (.ret (.error err)) t := fun err hnv hr hty =>
      .ret (by simp [hpc, Pc.left]) (outOfRange_final _ (Or.inr (Or.inr hty)))
        (.refuses (Or.inl (Or.inl hnv)) (verdict_of_refusal hu hr) hty)
    unfold afterLookup validate
    by_cases hself : call.intent.fromAccountId = call.intent.toAccountId
    · rw [if_pos hself]
      exact refused _ (fun hv => hv.1 hself) (by simp only [Spec.refusal, hself, if_true]) rfl
    · rw [if_neg hself]
      by_cases hpos : call.intent.amount.isPositive = true
      · rw [if_neg (by simp [hpos])]
        refine .goto ⟨rfl, ?_⟩ (by simp [hpc, Pc.left])
        rintro (hnv | ⟨-, r, hr, hk⟩)
        · exact hnv ⟨hself, hpos⟩
        · exact hu r hr hk
      · rw [if_pos (by simp [hpos])]
        exact refused _ (fun hv => hpos hv.2) (by simp [Spec.refusal, hself, hpos]) rfl

omit ho in
theorem relookup_advances (hpc : call.pc = .relookup) (hp : Path cfg t call.key call.intent call.pc w.db.tables) :
    Advances cfg t call
      (afterRelookup cfg call.key call.intent (Transactions.findByIdempotencyKey w.db.tables call.key)) t := by
  rw [hpc] at hp
  obtain ⟨ht, hn⟩ := hp
  have hok := h.call c call hc
  simp only [CallOk, hpc] at hok
  obtain ⟨-, tr, htr, hk⟩ := hok
  cases hf : Transactions.findByIdempotencyKey w.db.tables call.key with
  | some record => exact replay_advances (by simp [hpc, Pc.left]) (Or.inr hn) (ht ▸ hf)
  | none =>
    exact absurd hk (Transactions.findByIdempotencyKey_none.mp hf _ (h.row_mem htr))

include ho

theorem claim_advances {x : Xid} {id : Uuid} (hpc : call.pc = .claim x id)
    (hp : Path cfg t call.key call.intent call.pc w.db.tables) (hkey : hasNul call.key = false)
    (hr : statement cfg w.db call.pc x (claimStmt cfg.sha256 id call.key call.intent)
      (fun _ => .goto (.lock x id (lockOrder call.intent) [])) = some (db, next)) :
    Advances cfg t call next db.tables := by
  have hs : call.pc.session = some x := by rw [hpc]; rfl
  rw [hpc] at hp
  obtain ⟨ht, hd, hid⟩ := hp
  obtain ⟨hv, txn, work, hx, -, -, -, hout⟩ := h.claim_outcome hc hpc
  have hnew : (w.db.tables.transactions.any fun r => decide (r.id = id)) = false := by
    rw [List.any_eq_false, ht]
    intro r hr
    simpa using hid r hr
  rw [hkey, Bool.false_or, h.alone_unique hc ho hs _ hnew] at hout
  cases hnul : hasNul call.intent.description with
  | true =>
    rw [hnul, if_pos rfl] at hout
    rcases statement_some hx hr with ⟨_, _, hex, -, -⟩ | ⟨err, hex, rfl, rfl⟩
    · cases hex.symm.trans hout
    · cases hex.symm.trans hout
      rw [hpc]
      refine .ret (by simp [hpc, Pc.left]) (outOfRange_final _ (Or.inr (Or.inl rfl))) ?_
      rw [show (w.db.fail x txn).tables = t from ht]
      exact .unstorable hd hnul
  | false =>
    rw [hnul, if_neg (by decide), Res.ok_bind] at hout
    cases hany : w.db.tables.transactions.any (fun r => decide (r.idempotencyKey = call.key)) with
    | true =>
      rw [hany] at hout
      rcases statement_some hx hr with ⟨_, _, hex, -, -⟩ | ⟨err, hex, rfl, rfl⟩
      · cases hex.symm.trans hout
      · cases hex.symm.trans hout
        rw [hpc]
        exact .goto ⟨ht, hnul⟩ (by simp [hpc, Pc.left])
    | false =>
      rw [h.alone_unique hc ho hs _ hany] at hout
      have hu : Unused t call.key := by
        intro r hr
        rw [← ht] at hr
        simpa using List.any_eq_false.mp hany r hr
      rcases statement_some hx hr with ⟨_, _, hex, rfl, rfl⟩ | ⟨err, hex, -, -⟩
      · have hlen : (lockOrder call.intent).length = 2 := by unfold lockOrder; split <;> rfl
        exact .goto ⟨ht, hnul, hu, hid⟩ (by simp [hpc, Pc.left, hlen])
      · cases hex.symm.trans hout

omit hc ho in
theorem decodes {a : Row.Account} (ha : a ∈ w.db.tables.accounts) :
    ∃ row, AccountRow.decode cfg.decode a = .ok row := by
  obtain ⟨u, hu⟩ := h.ledger.finite a ha
  unfold AccountRow.decode Decode.num20
  rw [hu]
  exact ⟨_, rfl⟩

theorem lock_advances {x : Xid} {id accountId : Uuid} {todo : List Uuid} {locked : List AccountRow}
    (hpc : call.pc = .lock x id (accountId :: todo) locked)
    (hp : Path cfg t call.key call.intent call.pc w.db.tables)
    (hr : statement cfg w.db call.pc x (Accounts.fetchForUpdate accountId)
      (afterLock cfg call.intent x id accountId todo locked) = some (db, next)) :
    Advances cfg t call next db.tables := by
  have hs : call.pc.session = some x := by rw [hpc]; rfl
  have hran := h.ran_lock hc hpc hr
  rw [hpc] at hp
  obtain ⟨ht, hn, hu, hid⟩ := hp
  obtain ⟨-, txn, hx, -, -, -, -, -, hout⟩ := h.lock_outcome hc hpc
  -- the statement succeeds, whether or not there is a row
  have hnext : db.tables = t ∧ ((∃ err, next = .ret (.error err) ∧ err.typed = true) ∨
      (∃ todo' locked', next = .goto (.lock x id todo' locked') ∧ todo'.length ≤ todo.length) ∨
      (∃ s r, next = .goto (.adjustFrom x id s r)) ∨ next = .panic) := by
    cases ha : Spec.findAccount w.db.tables accountId with
    | none =>
      rw [ha] at hout
      rcases statement_some hx hr with ⟨work, row, hex, rfl, rfl⟩ | ⟨err, hex, -, -⟩
      · cases hex.symm.trans hout
        exact ⟨ht, Or.inl ⟨_, rfl, rfl⟩⟩
      · cases hex.symm.trans hout
    | some a =>
      rw [ha] at hout
      simp only [h.alone_await hc ho hs, Res.ok_bind] at hout
      rcases statement_some hx hr with ⟨work, row, hex, rfl, rfl⟩ | ⟨err, hex, -, -⟩
      · cases hex.symm.trans hout
        refine ⟨ht, ?_⟩
        obtain ⟨b, hb⟩ := h.decodes (Spec.findAccount_some ha).1
        simp only [afterLock, hb, nextLock]
        cases todo with
        | cons i todo => exact Or.inr (Or.inl ⟨_, _, rfl, Nat.le_refl _⟩)
        | nil =>
          simp only [afterLocks]
          split
          · split
            · exact Or.inl ⟨_, rfl, rfl⟩
            · split
              · exact Or.inl ⟨_, rfl, rfl⟩
              · exact Or.inr (Or.inr (Or.inl ⟨_, _, rfl⟩))
          · exact Or.inr (Or.inr (Or.inr rfl))
      · cases hex.symm.trans hout
  obtain ⟨htab, hnext⟩ := hnext
  rw [htab]
  rcases hnext with ⟨err, rfl, hty⟩ | ⟨todo', locked', rfl, hlen⟩ | ⟨s, r, rfl⟩ | rfl
  · refine .ret (by simp [hpc, Pc.left]) (outOfRange_final _ (Or.inr (Or.inr hty))) ?_
    cases hran with
    | breaks => cases hty
    | refuses _ _ _ hv => exact .refuses (Or.inr hn) (ht ▸ hv) hty
  · refine .goto ⟨rfl, hn, hu, hid⟩ ?_
    simp only [hpc, Pc.left, List.length_cons]
    omega
  · refine .goto ⟨rfl, hn, hu, hid⟩ ?_
    simp only [hpc, Pc.left, List.length_cons]
    omega
  · cases hran

omit ho in
theorem adjustFrom_advances {x : Xid} {id : Uuid} {sender receiver : AccountRow}
    (hpc : call.pc = .adjustFrom x id sender receiver)
    (hp : Path cfg t call.key call.intent call.pc w.db.tables)
    (hr : statement cfg w.db call.pc x (adjustBalance sender.id call.intent.amount.amount.negate)
      (fun _ => .goto (.adjustTo x id sender receiver)) = some (db, next)) :
    Advances cfg t call next db.tables := by
  rw [hpc] at hp
  obtain ⟨ht, hn, hu, hid⟩ := hp
  obtain ⟨-, txn, s, r, hx, -, -, hun, hout⟩ := h.adjustFrom_outcome hc hpc
  rcases hout with ⟨s', work, -, -, hout⟩ | ⟨hsh, hout⟩
  · rcases statement_some hx hr with ⟨_, _, hex, rfl, rfl⟩ | ⟨err, hex, -, -⟩
    · exact .goto ⟨ht, hn, hu, hid⟩ (by simp [hpc, Pc.left])
    · cases hex.symm.trans hout
  · rcases statement_some hx hr with ⟨_, _, hex, -, -⟩ | ⟨err, hex, rfl, rfl⟩
    · cases hex.symm.trans hout
    · cases hex.symm.trans hout
      rw [hpc]
      refine .ret (by simp [hpc, Pc.left]) (outOfRange_final _ (Or.inl rfl)) ?_
      rw [show (w.db.fail x txn).tables = t from ht]
      exact .overflows hu hn (ht ▸ hun.admits) (Or.inl hsh)

omit ho in
theorem adjustTo_advances {x : Xid} {id cid : Uuid} {sender receiver : AccountRow}
    (hpc : call.pc = .adjustTo x id sender receiver)
    (hp : Path cfg t call.key call.intent call.pc w.db.tables) (hnew : w.New cid)
    (hr : statement cfg w.db call.pc x (adjustBalance receiver.id call.intent.amount.amount)
      (fun _ => .goto (.insertCredit x id sender receiver cid)) = some (db, next)) :
    Advances cfg t call next db.tables := by
  rw [hpc] at hp
  obtain ⟨ht, hn, hu, hid⟩ := hp
  obtain ⟨-, txn, s, r, s', hx, -, -, hun, -, hout⟩ := h.adjustTo_outcome hc hpc
  rcases hout with ⟨r', work, -, -, hout⟩ | ⟨hsh, hout⟩
  · rcases statement_some hx hr with ⟨_, _, hex, rfl, rfl⟩ | ⟨err, hex, -, -⟩
    · exact .goto ⟨ht, hn, hu, hid, ht ▸ hnew.2.2⟩ (by simp [hpc, Pc.left])
    · cases hex.symm.trans hout
  · rcases statement_some hx hr with ⟨_, _, hex, -, -⟩ | ⟨err, hex, rfl, rfl⟩
    · cases hex.symm.trans hout
    · cases hex.symm.trans hout
      rw [hpc]
      refine .ret (by simp [hpc, Pc.left]) (outOfRange_final _ (Or.inl rfl)) ?_
      rw [show (w.db.fail x txn).tables = t from ht]
      exact .overflows hu hn (ht ▸ hun.admits) (Or.inr hsh)

theorem insertCredit_advances {x : Xid} {id cid did : Uuid} {sender receiver : AccountRow}
    (hpc : call.pc = .insertCredit x id sender receiver cid)
    (hp : Path cfg t call.key call.intent call.pc w.db.tables) (hnew : w.New did)
    (hr : statement cfg w.db call.pc x (insertEntry cid id sender.id .credit call.intent.amount.amount
      call.intent.amount.currency) (fun _ => .goto (.insertDebit x id sender receiver cid did)) = some (db, next)) :
    Advances cfg t call next db.tables := by
  have hs : call.pc.session = some x := by rw [hpc]; rfl
  have hne : cid ≠ did := by
    rintro rfl
    exact hnew.1 c call hc (by rw [hpc]; simp [Pc.generated])
  rw [hpc] at hp
  obtain ⟨ht, hn, hu, hid, hcid⟩ := hp
  obtain ⟨-, txn, s, r, s', r', work, hx, -, -, -, -, -, -, hout⟩ := h.insertCredit_outcome hc hpc
  have hany : (w.db.tables.entries.any fun e => decide (e.id = cid)) = false := by
    rw [List.any_eq_false, ht]
    intro e he
    simpa using hcid e he
  rw [h.alone_unique hc ho hs _ hany] at hout
  rcases statement_some hx hr with ⟨_, _, hex, rfl, rfl⟩ | ⟨err, hex, -, -⟩
  · exact .goto ⟨ht, hn, hu, hid, ht ▸ hnew.2.2, hne⟩ (by simp [hpc, Pc.left])
  · cases hex.symm.trans hout

theorem insertDebit_advances {x : Xid} {id cid did : Uuid} {sender receiver : AccountRow}
    (hpc : call.pc = .insertDebit x id sender receiver cid did)
    (hp : Path cfg t call.key call.intent call.pc w.db.tables)
    (hr : statement cfg w.db call.pc x (insertEntry did id receiver.id .debit call.intent.amount.amount
      call.intent.amount.currency) (fun _ => .goto (.commit x id sender receiver cid did)) = some (db, next)) :
    Advances cfg t call next db.tables := by
  have hs : call.pc.session = some x := by rw [hpc]; rfl
  rw [hpc] at hp
  obtain ⟨ht, hn, hu, hid, hdid, hne⟩ := hp
  obtain ⟨-, txn, s, r, s', r', work, hx, -, -, -, -, -, -, hout⟩ := h.insertDebit_outcome hc hpc
  have hany : ((w.db.tables.entries ++ [(call.transfer 0 x id cid cid txn.now).credit]).any
      fun e => decide (e.id = did)) = false := by
    rw [List.any_eq_false, ht]
    intro e he
    rcases List.mem_append.mp he with he | he
    · simpa using hdid e he
    · rw [List.mem_singleton.mp he]
      exact fun hd => hne (of_decide_eq_true hd)
  rw [h.alone_unique hc ho hs _ hany] at hout
  rcases statement_some hx hr with ⟨_, _, hex, rfl, rfl⟩ | ⟨err, hex, -, -⟩
  · exact .goto ⟨ht, hn, hu, hid⟩ (by simp [hpc, Pc.left])
  · cases hex.symm.trans hout

omit hc ho in
theorem entriesOf_new {id : Uuid} (hid : ∀ r ∈ w.db.tables.transactions, r.id ≠ id) :
    (w.db.tables.entries.filter fun e => e.transactionId = id) = [] := by
  rw [List.filter_eq_nil_iff]
  intro e he heq
  obtain ⟨tr, htr, hm⟩ := Spec.entry_transfer h.spec he
  exact hid _ (h.row_mem htr) ((Spec.Transfer.entries_id hm).symm.trans (by simpa using heq))

omit hc ho in
theorem deferred_ok {x : Xid} {txn : Txn} (hx : w.db.txns x = some txn) (tr : Spec.Transfer)
    {ups : List Row.Account} {is : List Uuid} (hsh : txn.work.Shape [tr.row cfg.sha256] ups tr.entries is)
    (hid : ∀ r ∈ w.db.tables.transactions, r.id ≠ tr.id) : w.db.deferred txn = .ok () := by
  have hview : (txn.work.overlay w.db.tables).entries = w.db.tables.entries ++ tr.entries := by
    rw [Work.overlay_entries (h.db.work hx).untruncated, hsh.entries]
  unfold Db.deferred
  rw [hview, hsh.entries]
  refine Bind.forM_ok.mpr fun e he => ?_
  rw [Spec.Transfer.entries_id he]
  have hown : (tr.entries.filter fun e => e.transactionId = tr.id) = tr.entries :=
    List.filter_eq_self.mpr fun e he => decide_eq_true (Spec.Transfer.entries_id he)
  have hrows : ((w.db.tables.entries ++ tr.entries).filter fun e => e.transactionId = tr.id) = tr.entries := by
    rw [List.filter_append, h.entriesOf_new hid, hown, List.nil_append]
  have hcur : tr.entries.map (·.currency) = [tr.credit.currency, tr.credit.currency] := rfl
  have hlen : tr.entries.length = 2 := rfl
  have hsum : (tr.entries.map (·.signed)).sum = 0 := tr.net_entries
  refine assertTransactionBalanced_ok.mpr ?_
  rw [hrows, hcur, hlen, hsum]
  exact ⟨le_refl 2, by simp, rfl⟩

omit ho in
theorem commit_advances {x : Xid} {id cid did : Uuid} {sender receiver : AccountRow}
    (hpc : call.pc = .commit x id sender receiver cid did)
    (hp : Path cfg t call.key call.intent call.pc w.db.tables)
    (hr : ((w.db.txns x).map fun txn =>
      match w.db.commit x txn with
      | .ok db' => (db', Next.goto (.getTransaction .created id))
      | .error err => (w.db.close x, call.pc.onError err)) = some (db, next)) :
    Advances cfg t call next db.tables := by
  have hs : call.pc.session = some x := by rw [hpc]; rfl
  obtain ⟨txn, hx, -, hok⟩ := h.session c call x hc hs
  simp only [SessionOk, hpc] at hok
  obtain ⟨hab, s, r, s', r', hun, h1, h2, hsh⟩ := hok
  rw [hpc] at hp
  obtain ⟨ht, hn, hu, hid⟩ := hp
  have hdef := h.deferred_ok hx (call.transfer 0 x id cid did txn.now) hsh (ht ▸ hid)
  have hcm : w.db.commit x txn = .ok { w.db.close x with tables := txn.work.overlay w.db.tables } := by
    simp only [Db.commit, hab, hdef]
    rfl
  rw [hx, Option.map_some, hcm, Option.some.injEq, Prod.mk.injEq] at hr
  obtain ⟨rfl, rfl⟩ := hr
  have hne : s'.id ≠ r'.id := by
    rw [Spec.shift_id h1, Spec.shift_id h2, (Spec.findAccount_some hun.admits.sender).2,
      (Spec.findAccount_some hun.admits.receiver).2]
    exact hun.admits.distinct
  refine .goto ⟨hu, hn, call.transfer 0 x id cid did txn.now, s, r, s', r', ht ▸ hun.admits, h1, h2, rfl, rfl, ?_⟩
    (by simp [hpc, Pc.left])
  have hover : txn.work.overlay w.db.tables = Spec.settled cfg.sha256 w.db.tables
      (call.transfer 0 x id cid did txn.now) s' r' := hsh.settled (h.db.work hx).untruncated hne
  rw [← ht]
  exact hover

omit ho in
theorem getTransaction_advances {outcome : TransferOutcome} {id : Uuid} (hpc : call.pc = .getTransaction outcome id)
    (hp : Path cfg t call.key call.intent call.pc w.db.tables) :
    Advances cfg t call (match Transactions.fetchTransaction w.db.tables id with
      | none => .ret (.error (.transactionNotFound id))
      | some transaction => .goto (.getEntries outcome id transaction)) w.db.tables := by
  have hok := h.call c call hc
  simp only [CallOk, hpc] at hok
  obtain ⟨-, tr, hst, hid⟩ := hok
  have hfind : w.db.tables.transactions.find? (fun r => decide (r.id = id)) = some (tr.row cfg.sha256) :=
    h.keys.transactionIds.find (h.row_mem hst.mem) hid
  rw [hpc] at hp
  simp only [Transactions.fetchTransaction, hfind, Option.map_some]
  exact .goto hp (by simp [hpc, Pc.left])

omit ho in
theorem getEntries_advances {outcome : TransferOutcome} {id : Uuid} {transaction : Transaction}
    {scan : List Row.Entry} (hpc : call.pc = .getEntries outcome id transaction)
    (hp : Path cfg t call.key call.intent call.pc w.db.tables)
    (hscan : scan.Perm (Transactions.entriesOf w.db.tables id)) :
    Advances cfg t call (.ret ((Transactions.detail transaction (Transactions.fetchEntries cfg.decode scan)).map
      fun detail => { outcome, detail })) w.db.tables := by
  obtain ⟨detail, hd, -, hv⟩ := h.getEntries_outcome hc hpc hscan
  rw [hpc] at hp
  rw [hd]
  refine .ret (by simp [hpc, Pc.left]) (fun err he => by cases he) ?_
  cases outcome with
  | replayed =>
    obtain ⟨ht, hn⟩ := hp
    rw [ht]
    exact .replays hn (ht ▸ hv)
  | created =>
    obtain ⟨hu, hn, tr, s, r, s', r', ha, h1, h2, hk, hi, ht⟩ := hp
    rw [ht]
    exact .creates hu hn ha h1 h2 hk hi

theorem advances (hkey : hasNul call.key = false) (hp : Path cfg t call.key call.intent call.pc w.db.tables)
    (hnew : call.pc.generates = true → w.New env.id) (hr : call.run cfg w.db env = some (db, next)) :
    Advances cfg t call next db.tables := by
  cases hpc : call.pc with
  | lookup =>
    simp only [Call.run, hpc, Option.some.injEq, Prod.mk.injEq] at hr
    obtain ⟨rfl, rfl⟩ := hr
    have ht : w.db.tables = t := by rw [hpc] at hp; exact hp
    have hadv := h.lookup_advances hc hpc hp
    rw [ht] at hadv ⊢
    exact hadv
  | begin =>
    simp only [Call.run, hpc, Option.some.injEq, Prod.mk.injEq] at hr
    obtain ⟨rfl, rfl⟩ := hr
    have hid := (hnew (by rw [hpc]; rfl)).2.1
    rw [hpc] at hp
    obtain ⟨ht, hd⟩ := hp
    exact .goto ⟨ht, hd, ht ▸ hid⟩ (by simp [hpc, Pc.left])
  | claim x id =>
    simp only [Call.run, hpc] at hr
    exact h.claim_advances hc ho hpc hp hkey (hpc ▸ hr)
  | rollback x =>
    simp only [Call.run, hpc, Option.some.injEq, Prod.mk.injEq] at hr
    obtain ⟨rfl, rfl⟩ := hr
    rw [hpc] at hp
    exact .goto hp (by simp [hpc, Pc.left])
  | relookup =>
    simp only [Call.run, hpc, Option.some.injEq, Prod.mk.injEq] at hr
    obtain ⟨rfl, rfl⟩ := hr
    have ht : w.db.tables = t := by rw [hpc] at hp; exact hp.1
    have hadv := h.relookup_advances hc hpc hp
    rw [ht] at hadv ⊢
    exact hadv
  | lock x id todo locked =>
    cases todo with
    | nil =>
      obtain ⟨txn, -, -, hok⟩ := h.session c call x hc (by rw [hpc]; rfl)
      simp only [SessionOk, hpc] at hok
      exact absurd rfl hok.2.2.2.1
    | cons accountId todo =>
      simp only [Call.run, hpc] at hr
      exact h.lock_advances hc ho hpc hp (hpc ▸ hr)
  | adjustFrom x id sender receiver =>
    simp only [Call.run, hpc] at hr
    exact h.adjustFrom_advances hc hpc hp (hpc ▸ hr)
  | adjustTo x id sender receiver =>
    simp only [Call.run, hpc] at hr
    exact h.adjustTo_advances hc hpc hp (hnew (by rw [hpc]; rfl)) (hpc ▸ hr)
  | insertCredit x id sender receiver cid =>
    simp only [Call.run, hpc] at hr
    exact h.insertCredit_advances hc ho hpc hp (hnew (by rw [hpc]; rfl)) (hpc ▸ hr)
  | insertDebit x id sender receiver cid did =>
    simp only [Call.run, hpc] at hr
    exact h.insertDebit_advances hc ho hpc hp (hpc ▸ hr)
  | commit x id sender receiver cid did =>
    simp only [Call.run, hpc] at hr
    exact h.commit_advances hc hpc hp (hpc ▸ hr)
  | getTransaction outcome id =>
    simp only [Call.run, hpc, Option.some.injEq, Prod.mk.injEq] at hr
    obtain ⟨rfl, rfl⟩ := hr
    exact h.getTransaction_advances hc hpc hp
  | getEntries outcome id transaction =>
    simp only [Call.run, hpc] at hr
    split at hr
    · rename_i hscan
      cases hr
      exact h.getEntries_advances hc hpc hp hscan
    · cases hr
  | done | cancelled | panicked =>
    simp only [Call.run, hpc] at hr
    cases hr

end

end Inv

/-! ## The whole run -/

/-- A step of the call `c`, with fresh ids; nothing fails and nobody else moves. -/
def World.Alone (c : Nat) (w : World) (l : Label) : Prop :=
  (l = .acquire c ∨ ∃ env, l = .run c env) ∧ w.Fresh l

theorem World.leave_tables (db : Db) (pc : Pc) (next : Next) : (World.leave db pc next).tables = db.tables := by
  have hdrop : (World.drop db pc).tables = db.tables := by
    unfold World.drop
    split <;> rfl
  cases next with
  | goto => rfl
  | ret | panic => exact hdrop

/-- The state of a run in which only `c` has moved since `w₀`. -/
structure Solo (cfg : Config) (w₀ : World) (c : Nat) (key : String) (i : TransferIntent) (w : World) : Prop where
  inv : Inv cfg w
  same : ∀ c', c' ≠ c → w.calls c' = w₀.calls c'
  held : w.held = w₀.held ∨ w.held = c :: w₀.held
  call : ∃ call, w.calls c = some call ∧ call.key = key ∧ call.intent = i ∧
    Path cfg w₀.db.tables key i call.pc w.db.tables

namespace Solo

variable {cfg : Config} {w₀ w w' : World} {c : Nat} {key : String} {i : TransferIntent}
  (hquiet : ∀ c' call', w₀.calls c' = some call' → call'.pc.session = none) (hheld : c ∉ w₀.held)
  (hkey : hasNul key = false)

include hquiet in
theorem others (h : Solo cfg w₀ c key i w) :
    ∀ c' call', c' ≠ c → w.calls c' = some call' → call'.pc.session = none :=
  fun c' call' hne hc' => hquiet c' call' (h.same c' hne ▸ hc')

include hheld in
theorem held_iff (h : Solo cfg w₀ c key i w) : c ∈ w.held ↔ w.held = c :: w₀.held := by
  constructor
  · intro hm
    rcases h.held with he | he
    · exact absurd (he ▸ hm) hheld
    · exact he
  · intro he
    rw [he]
    exact List.mem_cons_self ..

theorem acquire (h : Solo cfg w₀ c key i w) (hs : w.step cfg (.acquire c) = some w') : Solo cfg w₀ c key i w' := by
  have hinv := h.inv.step hs
  obtain ⟨call, -, -, -, hm, -, rfl⟩ := World.step_acquire hs
  refine ⟨hinv, h.same, ?_, h.call⟩
  rcases h.held with he | he
  · exact Or.inr (by rw [he])
  · exact absurd (he ▸ List.mem_cons_self ..) hm

include hquiet hheld hkey in
theorem run (h : Solo cfg w₀ c key i w) {call : Call} (hc : w.calls c = some call) {env : Env}
    (hnew : call.pc.generates = true → w.New env.id) (hs : w.step cfg (.run c env) = some w') :
    Solo cfg w₀ c key i w' ∧ ∃ call', w'.calls c = some call' ∧ call'.pc.left < call.pc.left := by
  have hinv := h.inv.step hs
  obtain ⟨call₁, hc₁, rfl, rfl, hp⟩ := h.call
  rw [hc, Option.some.injEq] at hc₁
  subst hc₁
  obtain ⟨call₂, db, next, hc₂, hm, hr, rfl⟩ := World.step_run hs
  rw [hc, Option.some.injEq] at hc₂
  subst hc₂
  obtain ⟨hpath, hleft⟩ := h.inv.advances hc (h.others hquiet) hkey hp hnew hr
  obtain ⟨hk, hi⟩ : (call.follow cfg next).key = call.key ∧ (call.follow cfg next).intent = call.intent :=
    call.follow_same next
  refine ⟨⟨hinv, ?_, ?_, ?_⟩, call.follow cfg next, Function.update_self .., hleft⟩
  · intro c' hne
    exact (Function.update_of_ne hne ..).trans (h.same c' hne)
  · have he := (h.held_iff hheld).mp hm
    simp only [World.moveTo]
    split
    · exact Or.inr he
    · refine Or.inl ?_
      rw [he, List.filter_cons_of_neg (by simp), List.filter_eq_self]
      intro c' hc'
      simpa using fun e : c' = c => hheld (e ▸ hc')
  · refine ⟨call.follow cfg next, Function.update_self .., hk, hi, ?_⟩
    have : (World.leave db call.pc next).tables = db.tables := World.leave_tables db call.pc next
    simp only [World.moveTo, this]
    exact hpath

include hquiet hheld hkey in
theorem step (h : Solo cfg w₀ c key i w) {l : Label} (ha : w.Alone c l) (hs : w.step cfg l = some w') :
    Solo cfg w₀ c key i w' := by
  obtain ⟨rfl | ⟨env, rfl⟩, hf⟩ := ha
  · exact h.acquire hs
  · obtain ⟨call, -, -, hc, -⟩ := World.step_run hs
    exact (h.run hquiet hheld hkey hc (hf c env call rfl hc) hs).1

include hquiet hheld hkey in
theorem reach (h : Solo cfg w₀ c key i w) (hr : Reach (World.step cfg) (World.Alone c) w w') :
    Solo cfg w₀ c key i w' :=
  hr.invariant (fun _ _ _ hs ha hst => hs.step hquiet hheld hkey ha hst) h

/-! ### It comes to an end -/

include hquiet in
theorem apart (h : Solo cfg w₀ c key i w) : w.Apart := by
  have none : ∀ c' call', c' ≠ c → w.calls c' = some call' → call'.pc.generated = [] := by
    intro c' call' hne hc'
    have hs := h.others hquiet c' call' hne hc'
    cases hpc : call'.pc <;> rw [hpc] at hs <;> first | rfl | cases hs
  intro c₁ c₂ call₁ call₂ h1 h2 hne id hid
  by_cases e1 : c₁ = c
  · rw [none c₂ call₂ (fun e => hne (e1.trans e.symm)) h2]
    exact List.not_mem_nil
  · rw [none c₁ call₁ e1 h1] at hid
    cases hid

theorem new_id (h : Solo cfg w₀ c key i w) {call : Call} (hc : w.calls c = some call) {ids : List Uuid}
    (hnd : ids.Nodup) (hlen : 3 ≤ ids.length) (hnew : ∀ id ∈ ids, w₀.New id) (hg : call.pc.generates = true) :
    ∃ id, w.New id := by
  obtain ⟨call₁, hc₁, rfl, rfl, hp⟩ := h.call
  rw [hc, Option.some.injEq] at hc₁
  subst hc₁
  have hfacts : call.pc.generated.length < 3 ∧ w.db.tables = w₀.db.tables := by
    cases hpc : call.pc <;> rw [hpc] at hg hp
    case begin | adjustTo | insertCredit => exact ⟨by simp [Pc.generated], hp.1⟩
    all_goals cases hg
  obtain ⟨id, hid, hout⟩ : ∃ id ∈ ids, id ∉ call.pc.generated := by
    by_contra hall
    have hsub : ids ⊆ call.pc.generated := by
      intro id hid
      by_contra hn
      exact hall ⟨id, hid, hn⟩
    have := (hnd.subperm hsub).length_le
    omega
  obtain ⟨hcalls, htx, hen⟩ := hnew id hid
  refine ⟨id, ?_, hfacts.2 ▸ htx, hfacts.2 ▸ hen⟩
  intro c' call' hc'
  by_cases hcc : c' = c
  · subst hcc
    rw [hc, Option.some.injEq] at hc'
    exact hc' ▸ hout
  · exact hcalls c' call' (h.same c' hcc ▸ hc')

theorem answered (h : Solo cfg w₀ c key i w) {call : Call} (hc : w.calls c = some call)
    (hrun : call.pc.running = false) : ∃ r, call.pc = .done r := by
  obtain ⟨call₁, hc₁, rfl, rfl, hp⟩ := h.call
  rw [hc, Option.some.injEq] at hc₁
  subst hc₁
  cases hpc : call.pc <;> rw [hpc] at hrun hp
  case done r => exact ⟨r, rfl⟩
  case cancelled | panicked => exact hp.elim
  all_goals cases hrun

def weight (w : World) (c : Nat) (call : Call) : Nat := 2 * call.pc.left + if c ∈ w.held then 0 else 1

section
variable (hfree : w₀.free cfg (cfg.process c) = true) {ids : List Uuid} (hnd : ids.Nodup) (hlen : 3 ≤ ids.length)
  (hnew : ∀ id ∈ ids, w₀.New id)
include hquiet hheld hkey hfree hnd hlen hnew

theorem moves (h : Solo cfg w₀ c key i w) {call : Call} (hc : w.calls c = some call)
    (hrun : call.pc.running = true) :
    ∃ l w' call', w.Alone c l ∧ w.step cfg l = some w' ∧ Solo cfg w₀ c key i w' ∧ w'.calls c = some call' ∧
      weight w' c call' < weight w c call := by
  by_cases hm : c ∈ w.held
  · obtain ⟨id, hid⟩ : ∃ id, call.pc.generates = true → w.New id := by
      by_cases hg : call.pc.generates = true
      · obtain ⟨id, hid⟩ := h.new_id hc hnd hlen hnew hg
        exact ⟨id, fun _ => hid⟩
      · exact ⟨0, fun hg' => absurd hg' hg⟩
    have hb : call.blockers cfg w.db = [] := by
      rw [List.eq_nil_iff_forall_not_mem]
      intro y hy
      obtain ⟨x, ty, hs, hne, hty, -⟩ := h.inv.blocked (h.apart hquiet) hc hy
      exact hne (h.inv.alone hc (h.others hquiet) hs hty)
    obtain ⟨scan, hsome⟩ := h.inv.runs (h.apart hquiet) hc hrun hb id 0
    obtain ⟨⟨db, next⟩, hr⟩ := Option.isSome_iff_exists.mp hsome
    have hstep : ∃ w', w.run cfg c call { id, now := 0, scan } = some w' := by
      unfold World.run
      rw [if_pos hm, hr]
      exact ⟨_, rfl⟩
    obtain ⟨w', hw'⟩ := hstep
    have hs : w.step cfg (.run c { id, now := 0, scan }) = some w' := by
      simp only [World.step, hc, Option.bind_some, hw']
    obtain ⟨hsolo, call', hc', hleft⟩ := h.run hquiet hheld hkey hc hid hs
    refine ⟨_, w', call', ⟨Or.inr ⟨_, rfl⟩, ?_⟩, hs, hsolo, hc', ?_⟩
    · rintro c₁ env call₁ he hc₁ hg
      cases he
      rw [hc, Option.some.injEq] at hc₁
      exact hid (hc₁ ▸ hg)
    · unfold weight
      rw [if_pos hm]
      split <;> omega
  · have hs : call.pc.session = none := by
      by_contra hs
      exact hm (h.inv.held c call hc (Option.isSome_iff_ne_none.mpr hs))
    have he : w.held = w₀.held := h.held.resolve_right fun he => hm (he ▸ List.mem_cons_self ..)
    have hf : w.free cfg (cfg.process c) = true := by
      rw [← hfree]
      unfold World.free
      rw [he]
    have hstep : w.step cfg (.acquire c) = some { w with held := c :: w.held } := by
      simp only [World.step, hc, Option.bind_some, World.acquire, hrun, hs, hm, hf, not_false_eq_true, and_self,
        if_true]
    have ha : w.Alone c (.acquire c) := ⟨Or.inl rfl, fun _ _ _ hl => by cases hl⟩
    refine ⟨_, _, call, ha, hstep, h.step hquiet hheld hkey ha hstep, hc, ?_⟩
    unfold weight
    rw [if_neg hm, if_pos (List.mem_cons_self ..)]
    omega

theorem finishes (h : Solo cfg w₀ c key i w) {call : Call} (hc : w.calls c = some call) :
    ∃ w' call' r, Reach (World.step cfg) (World.Alone c) w w' ∧ w'.calls c = some call' ∧ call'.pc = .done r := by
  induction hn : weight w c call using Nat.strongRecOn generalizing w call with
  | _ n ih =>
    cases hrun : call.pc.running with
    | true =>
      obtain ⟨l, w', call', ha, hs, h', hc', hlt⟩ := h.moves hquiet hheld hkey hfree hnd hlen hnew hc hrun
      obtain ⟨w₂, call₂, r, hr, hc₂, hd⟩ := ih _ (hn ▸ hlt) h' hc' rfl
      exact ⟨w₂, call₂, r, (Reach.one l ha hs).trans hr, hc₂, hd⟩
    | false =>
      obtain ⟨r, hd⟩ := h.answered hc hrun
      exact ⟨w, call, r, Reach.refl, hc, hd⟩

end

end Solo

/-! ## Typed outcomes -/

/-- The answer says what it should: it is not an opaque error, and a transfer that
passes every check under a new key is committed. -/
def Proper (t : Tables) (key : String) (i : TransferIntent) (r : Except LedgerError TransferResult)
    (tables : Tables) : Prop :=
  (∀ err, r = .error err → err.typed = true) ∧
    (Unused t key → ∀ s s', Spec.Admits t i s s' →
      (∃ detail, r = .ok ⟨.created, detail⟩) ∧ ∃ row ∈ tables.transactions, row.idempotencyKey = key)

/-- The key was used, or the request needs no look at the accounts to be refused, or its
description can be stored and both balances stay in range if all checks pass. -/
def Fits (t : Tables) (key : String) (i : TransferIntent) : Prop :=
  (∃ r ∈ t.transactions, r.idempotencyKey = key) ∨ i.fromAccountId = i.toAccountId ∨ i.amount.isPositive = false ∨
    hasNul i.description = false ∧ ∀ s r, Spec.Admits t i s r →
      (s.balance.val + .num (-i.units)).inRange = true ∧ (r.balance.val + .num i.units).inRange = true

theorem Spec.shift_none {a : Row.Account} {delta : ℤ} :
    Spec.shift a delta = none ↔ (a.balance.val + .num delta).inRange = false := by
  unfold Spec.shift
  by_cases h : (a.balance.val + .num delta).inRange = true
  · simp [h]
  · simp [h]

theorem Outcome.proper_iff {cfg : Config} {t tables : Tables} {key : String} {i : TransferIntent}
    {r : Except LedgerError TransferResult} (h : Outcome cfg t key i r tables) (hfast : cfg.fastPath = true) :
    Proper t key i r tables ↔ Fits t key i := by
  have accepted : Unused t key → ∀ {s s'}, Spec.Admits t i s s' →
      Spec.verdict cfg.sha256 cfg.decode t key i = .accepted :=
    fun hu s s' ha => Spec.verdict_accepted.mpr ⟨hu, s, s', ha⟩
  -- an answer that needs no room in the database
  have easy : ∀ {v : Spec.Verdict}, v ≠ .accepted → Spec.verdict cfg.sha256 cfg.decode t key i = v →
      Decided cfg t key i ∨ hasNul i.description = false → Fits t key i := by
    intro v hne hv hn
    by_cases hu : Unused t key
    · rcases hn with (hnv | ⟨-, hused⟩) | hn
      · by_cases hself : i.fromAccountId = i.toAccountId
        · exact Or.inr (Or.inl hself)
        · refine Or.inr (Or.inr (Or.inl ?_))
          by_contra hpos
          exact hnv ⟨hself, by simpa using hpos⟩
      · exact Or.inl hused
      · exact Or.inr (Or.inr (Or.inr ⟨hn, fun s s' ha => absurd (hv.symm.trans (accepted hu ha)) hne⟩))
    · simp only [Unused, not_forall, not_not] at hu
      obtain ⟨q, hq, hk⟩ := hu
      exact Or.inl ⟨q, hq, hk⟩
  -- a transfer that comes to the point where its rows are written
  have hard : Unused t key → Validated i → Fits t key i → hasNul i.description = false ∧
      ∀ s r, Spec.Admits t i s r →
      (s.balance.val + .num (-i.units)).inRange = true ∧ (r.balance.val + .num i.units).inRange = true := by
    rintro hu hv (⟨q, hq, hk⟩ | hself | hpos | hfit)
    · exact absurd hk (hu q hq)
    · exact absurd hself hv.1
    · rw [hv.2] at hpos; cases hpos
    · exact hfit
  cases h with
  | replays hn hv =>
    refine ⟨fun _ => easy (by simp) hv hn, fun _ => ⟨fun err he => (by cases he), fun hu s s' ha => ?_⟩⟩
    cases hv.symm.trans (accepted hu ha)
  | refuses hn hv ht =>
    refine ⟨fun _ => easy (by simp) hv hn, fun _ => ⟨fun err he => (by cases he; exact ht), fun hu s s' ha => ?_⟩⟩
    cases hv.symm.trans (accepted hu ha)
  | unstorable hd hn =>
    have hv : Validated i := by
      by_contra hnv
      exact hd (Or.inl hnv)
    have hu : Unused t key := fun q hq hk => hd (Or.inr ⟨hfast, q, hq, hk⟩)
    refine ⟨fun hp => absurd (hp.1 _ rfl) (by decide), fun hf => ?_⟩
    rw [(hard hu hv hf).1] at hn
    cases hn
  | overflows hu hn ha ho =>
    refine ⟨fun hp => absurd (hp.1 _ rfl) (by decide), fun hf => ?_⟩
    obtain ⟨h1, h2⟩ := (hard hu ⟨ha.distinct, ha.positive⟩ hf).2 _ _ ha
    rcases ho with ho | ho
    · rw [Spec.shift_none.mp ho] at h1; cases h1
    · rw [Spec.shift_none.mp ho] at h2; cases h2
  | @creates detail tr s r s' r' hu hn ha hs hr hk hi =>
    constructor
    · intro _
      refine Or.inr (Or.inr (Or.inr ⟨hn, fun s₂ r₂ ha₂ => ?_⟩))
      cases ha.sender.symm.trans ha₂.sender
      cases ha.receiver.symm.trans ha₂.receiver
      constructor
      · by_contra hf
        rw [Spec.shift_none.mpr (by simpa using hf)] at hs; cases hs
      · by_contra hf
        rw [Spec.shift_none.mpr (by simpa using hf)] at hr; cases hr
    · intro _
      refine ⟨fun err he => (by cases he), fun _ _ _ _ => ⟨⟨detail, rfl⟩, tr.row cfg.sha256, ?_, hk⟩⟩
      exact List.mem_append_right _ (List.mem_singleton.mpr rfl)

theorem visible_plain {header : Option (List UInt8)} {key : String}
    (h : Http.extractIdempotencyKey header = .ok key) : hasNul key = false := by
  have visible : ∀ n : Fin 127, 9 ≤ n.val → Char.ofNat 0 ≠ Char.ofNat n.val := by decide +kernel
  unfold hasNul
  rw [Bool.eq_false_iff]
  intro hc
  obtain ⟨b, hb, he⟩ := Http.extractIdempotencyKey_visible h _ (by simpa using hc)
  have hrange : 9 ≤ b.toNat ∧ b.toNat < 127 := by
    simp only [Http.isVisibleAscii, Bool.or_eq_true, Bool.and_eq_true, decide_eq_true_eq, UInt8.le_iff_toNat_le,
      UInt8.lt_iff_toNat_lt] at hb
    rcases hb with hb | rfl
    · simp at hb; omega
    · decide
  exact visible ⟨b.toNat, hrange.2⟩ hrange.1 he

theorem Solo.start {cfg : Config} {w w₁ : World} (hi : Inv cfg w) (hquiet : ∀ x, w.db.txns x = none) {c : Nat}
    {key : String} {i : TransferIntent} (hv : cfg.fastPath = true ∨ Validated i)
    (hs : w.step cfg (.invoke c key i) = some w₁) :
    (∀ c' call', w.calls c' = some call' → call'.pc.session = none) ∧ c ∉ w.held ∧ Solo cfg w c key i w₁ := by
  have hinv := hi.step hs
  simp only [World.step, World.invoke] at hs
  split at hs
  · cases hs
  rename_i hnone
  refine ⟨fun c' call' hc' => ?_, fun hm => ?_, ?_⟩
  · cases hse : call'.pc.session with
    | none => rfl
    | some x =>
      obtain ⟨txn, hx, -⟩ := hi.session c' call' x hc' hse
      rw [hquiet x] at hx; cases hx
  · obtain ⟨call, hc, -⟩ := hi.running c hm
    rw [hnone] at hc; cases hc
  · cases hs
    refine ⟨hinv, fun c' hne => Function.update_of_ne hne .., Or.inl rfl, _, Function.update_self .., rfl, rfl, ?_⟩
    cases hfast : cfg.fastPath with
    | true => simp [startPc, Transfers.start, hfast, Path]
    | false =>
      have hvalid : Validated i := hv.resolve_left fun h => by rw [hfast] at h; cases h
      have hnd : ¬ Decided cfg w.db.tables key i := by
        rintro (hn | ⟨hf, -⟩)
        · exact hn hvalid
        · rw [hfast] at hf; cases hf
      simpa [startPc, Transfers.start, hfast, validate, hvalid.1, hvalid.2, Path] using hnd

theorem Solo.commits {cfg : Config} {w w₁ : World} {c : Nat} {key : String} {i : TransferIntent}
    (h : Solo cfg w c key i w₁) (hquiet : ∀ c' call', w.calls c' = some call' → call'.pc.session = none)
    (hheld : c ∉ w.held) (hkey : hasNul key = false) (hfree : w.free cfg (cfg.process c) = true) {ids : List Uuid}
    (hnd : ids.Nodup) (hlen : 3 ≤ ids.length) (hnew : ∀ id ∈ ids, w.New id) (hfast : cfg.fastPath = true)
    (hfits : Fits w.db.tables key i) (hu : Unused w.db.tables key) {s r : Row.Account}
    (ha : Spec.Admits w.db.tables i s r) :
    ∃ w₂ call detail, Reach (World.step cfg) (World.Alone c) w₁ w₂ ∧ w₂.calls c = some call ∧ call.key = key ∧
      call.intent = i ∧ call.pc = .done (.ok ⟨.created, detail⟩) := by
  obtain ⟨call₁, hc₁, -⟩ := h.call
  obtain ⟨w₂, call, a, hrun, hc, hd⟩ := h.finishes hquiet hheld hkey hfree hnd hlen hnew hc₁
  obtain ⟨call', hc', hk, hi, hp⟩ := (h.reach hquiet hheld hkey hrun).call
  rw [hc, Option.some.injEq] at hc'
  subst hc'
  rw [hd] at hp
  obtain ⟨⟨detail, rfl⟩, -⟩ := ((Outcome.proper_iff hp hfast).mpr hfits).2 hu s r ha
  exact ⟨w₂, call, detail, hrun, hc, hk, hi, hd⟩

/-- **When a refused transfer is a typed outcome.** A request that the edge lets through,
alone on a ledger in any reachable state, is answered; and the answer is what it should
be exactly if the request fits what the database can store. -/
theorem typed_outcome_iff (cfg : Config) {w w₁ : World} (hr : World.Leads cfg.asWritten World.init w)
    (hquiet : ∀ x, w.db.txns x = none) {header : Option (List UInt8)} {payload : Except String Http.TransferRequest}
    {key : String} {i : TransferIntent} (hedge : Http.create header payload = .ok (key, i)) {c : Nat}
    (hfree : w.free cfg.asWritten (cfg.process c) = true) (hs : w.step cfg.asWritten (.invoke c key i) = some w₁) :
    (∀ ids : List Uuid, ids.Nodup → 3 ≤ ids.length → (∀ id ∈ ids, w.New id) →
      ∃ w₂ call r, Reach (World.step cfg.asWritten) (World.Alone c) w₁ w₂ ∧ w₂.calls c = some call ∧
        call.pc = .done r) ∧
    ∀ w₂ call r, Reach (World.step cfg.asWritten) (World.Alone c) w₁ w₂ → w₂.calls c = some call →
      call.pc = .done r → (Proper w.db.tables key i r w₂.db.tables ↔ Fits w.db.tables key i) := by
  have hkey := visible_plain (Http.create_ok hedge).choose_spec.2.1
  obtain ⟨hquiet', hheld, hsolo⟩ := Solo.start (Inv.reach hr) hquiet (Or.inl rfl) hs
  constructor
  · intro ids hnd hlen hnew
    obtain ⟨call, hc, -⟩ := hsolo.call
    exact hsolo.finishes hquiet' hheld hkey hfree hnd hlen hnew hc
  · intro w₂ call r hrun hc hd
    obtain ⟨call', hc', -, -, hp⟩ := (hsolo.reach hquiet' hheld hkey hrun).call
    rw [hc, Option.some.injEq] at hc'
    rw [← hc', hd] at hp
    exact Outcome.proper_iff hp rfl

/-! ### Two requests -/

def twoAccounts : List Label :=
  [.create 0 (sampleEnv 1) "bank" ⟨"EUR"⟩ true, .create 0 (sampleEnv 2) "landlord" ⟨"EUR"⟩ false]

def rentRequest (description : String) : Http.TransferRequest where
  fromAccountId := 1
  toAccountId := 2
  amount := five
  currency := ⟨"EUR"⟩
  description := description
  known := by decide +kernel

/-- `rent-1` -/
def rentHeader : List UInt8 := [114, 101, 110, 116, 45, 49]

theorem rentRequest_edge : Http.create (some rentHeader) (.ok (rentRequest "rent")) = .ok ("rent-1", rent) := by
  decide +kernel

theorem twoAccounts_quiet {cfg : Config} {w : World}
    (h : exec (World.freshStep cfg 0) World.init twoAccounts = some w) :
    World.Leads cfg World.init w ∧ (∀ c, w.calls c = none) ∧ ∀ x, w.db.txns x = none := by
  obtain ⟨hcalls, hr⟩ := World.reach_fresh (fun _ => True) (fun _ _ => rfl) (fun _ _ => trivial) h
  have hleads : World.Leads cfg World.init w :=
    hr.mono (P := fun _ => True) (fun _ _ _ _ _ _ => trivial) (fun _ _ _ _ => trivial) trivial
  refine ⟨hleads, fun c => hcalls c (Nat.zero_le c), fun x => ?_⟩
  cases hx : w.db.txns x with
  | none => rfl
  | some txn =>
    obtain ⟨c, call, hc, -⟩ := (Inv.reach hleads).owned x txn hx
    rw [hcalls c (Nat.zero_le c)] at hc
    cases hc

theorem twoAccounts_open : ∃ w s r, exec (World.freshStep (sample true) 0) World.init twoAccounts = some w ∧
    w.free (sample true) 0 = true ∧ w.db.tables.transactions = [] ∧ w.db.tables.entries = [] ∧
    Spec.findAccount w.db.tables 1 = some s ∧ s.currency = "EUR" ∧ s.balance = Num20.zero ∧
    s.allowsNegativeBalance = true ∧ Spec.findAccount w.db.tables 2 = some r ∧ r.currency = "EUR" ∧
    r.balance = Num20.zero := by
  have h : (exec (World.freshStep (sample true) 0) World.init twoAccounts).any (fun w =>
      (Spec.findAccount w.db.tables 1).any fun s => (Spec.findAccount w.db.tables 2).any fun r => decide (
        w.free (sample true) 0 = true ∧ w.db.tables.transactions = [] ∧ w.db.tables.entries = [] ∧
        s.currency = "EUR" ∧ s.balance = Num20.zero ∧ s.allowsNegativeBalance = true ∧ r.currency = "EUR" ∧
        r.balance = Num20.zero)) = true := by decide +kernel
  obtain ⟨w, hw, h⟩ := (Option.any_eq_true _ _).mp h
  obtain ⟨s, hs, h⟩ := (Option.any_eq_true _ _).mp h
  obtain ⟨r, hr, h⟩ := (Option.any_eq_true _ _).mp h
  obtain ⟨hfree, htx, hen, h1, h2, h3, h4, h5⟩ := of_decide_eq_true h
  exact ⟨w, s, r, hw, hfree, htx, hen, hs, h1, h2, h3, hr, h4, h5⟩

theorem new_of_empty {w : World} (hcalls : ∀ c, w.calls c = none) (htx : w.db.tables.transactions = [])
    (hen : w.db.tables.entries = []) (id : Uuid) : w.New id := by
  refine ⟨fun c call hc => ?_, ?_, ?_⟩
  · rw [hcalls c] at hc; cases hc
  · rw [htx]; exact List.forall_mem_nil _
  · rw [hen]; exact List.forall_mem_nil _

theorem typed_outcome_iff_rent : ∃ w w₁ w₂ call r, World.Leads (sample true) World.init w ∧
    Http.create (some rentHeader) (.ok (rentRequest "rent")) = .ok ("rent-1", rent) ∧
    w.step (sample true) (.invoke 0 "rent-1" rent) = some w₁ ∧ Fits w.db.tables "rent-1" rent ∧
    Reach (World.step (sample true)) (World.Alone 0) w₁ w₂ ∧ w₂.calls 0 = some call ∧ call.pc = .done r ∧
    Proper w.db.tables "rent-1" rent r w₂.db.tables := by
  obtain ⟨w, s, r, hw, hfree, htx, hen, hs, -, hsb, -, hr, -, hrb⟩ := twoAccounts_open
  obtain ⟨hleads, hcalls, hquiet⟩ := twoAccounts_quiet hw
  have hstep : w.step (sample true) (.invoke 0 "rent-1" rent) = some
      { w with calls := Function.update w.calls 0 (some ⟨"rent-1", rent, 0, startPc (sample true) rent⟩) } := by
    simp only [World.step, World.invoke, hcalls 0]
  have hfits : Fits w.db.tables "rent-1" rent := by
    refine Or.inr (Or.inr (Or.inr ⟨by decide +kernel, fun s' r' ha => ⟨?_, ?_⟩⟩))
    · cases hs.symm.trans ha.sender
      rw [hsb]; decide +kernel
    · cases hr.symm.trans ha.receiver
      rw [hrb]; decide +kernel
  have hall := typed_outcome_iff (sample true) hleads hquiet rentRequest_edge hfree hstep
  obtain ⟨w₂, call, a, hrun, hc, hd⟩ :=
    hall.1 [3, 4, 5] (by decide) (by decide) fun id _ => new_of_empty hcalls htx hen id
  exact ⟨w, _, w₂, call, a, hleads, rentRequest_edge, hstep, hfits, hrun, hc, hd,
    (hall.2 w₂ call a hrun hc hd).mpr hfits⟩

def brokenRent : TransferIntent where
  fromAccountId := 1
  toAccountId := 2
  amount := rent.amount
  description := "re\x00nt"
  valid := rent.valid

/-- SHA-256 on the encoding of `brokenRent`. -/
def brokenSample : Config :=
  { sample true with
    sha256 := fun _ =>
      ⟨#[125, 220, 51, 220, 221, 128, 120, 239, 170, 0, 33, 201, 213, 162, 110, 8, 10, 48, 243, 165, 99, 254,
        28, 157, 217, 39, 206, 228, 73, 247, 91, 127], rfl⟩ }

/-- A description with `U+0000` in it passes the edge. Nothing else is wrong with the
transfer, and it ends in an opaque error. -/
theorem broken_description_is_opaque : ∃ w w₁ w₂, World.Leads brokenSample World.init w ∧
    (∀ x, w.db.txns x = none) ∧
    Http.create (some rentHeader) (.ok (rentRequest "re\x00nt")) = .ok ("rent-1", brokenRent) ∧
    w.free brokenSample 0 = true ∧ w.step brokenSample (.invoke 0 "rent-1" brokenRent) = some w₁ ∧
    Reach (World.step brokenSample) (World.Alone 0) w₁ w₂ ∧
    w₂.calls 0 = some (answered "rent-1" brokenRent (.error (.database unstorableText))) ∧
    Http.status (.error (.database unstorableText)) = 500 ∧
    (Spec.verdict brokenSample.sha256 brokenSample.decode w.db.tables "rent-1" brokenRent = .accepted ∧
      ¬ Proper w.db.tables "rent-1" brokenRent (.error (.database unstorableText)) w₂.db.tables) := by
  have h : (exec (World.freshStep brokenSample 0) World.init twoAccounts).any (fun w =>
      (w.step brokenSample (.invoke 0 "rent-1" brokenRent)).any fun w₁ =>
        (exec (World.freshStep brokenSample 1) w₁
            (onPool 0 0 ++ onPool 0 3 ++ [.run 0 (sampleEnv 0)])).any fun w₂ =>
          decide (w.free brokenSample 0 = true ∧ Spec.refusal w.db.tables brokenRent = none ∧
            w.db.tables.transactions = [] ∧
            w₂.calls 0 = some (answered "rent-1" brokenRent (.error (.database unstorableText))))) = true := by
    decide +kernel
  obtain ⟨w, hw, h⟩ := (Option.any_eq_true _ _).mp h
  obtain ⟨w₁, hw₁, h⟩ := (Option.any_eq_true _ _).mp h
  obtain ⟨w₂, hw₂, h⟩ := (Option.any_eq_true _ _).mp h
  obtain ⟨hfree, hrefusal, htx, hanswer⟩ := of_decide_eq_true h
  obtain ⟨hleads, hcalls, hquiet⟩ := twoAccounts_quiet hw
  have hbelow : ∀ c, 1 ≤ c → w₁.calls c = none := by
    intro c hc
    have hfw : w.freshStep brokenSample 1 (.invoke 0 "rent-1" brokenRent) = some w₁ := hw₁
    exact World.freshStep_below (fun c _ => hcalls c) hfw c hc
  have hrun : Reach (World.step brokenSample) (World.Alone 0) w₁ w₂ :=
    (World.reach_fresh (fun l => l = .acquire 0 ∨ ∃ env, l = .run 0 env) hbelow (by simp [onPool]) hw₂).2
  refine ⟨w, w₁, w₂, hleads, hquiet, by decide +kernel, hfree, hw₁, hrun, hanswer, rfl, ?_, ?_⟩
  · rw [Spec.verdict_accepted, htx]
    exact ⟨List.forall_mem_nil _, Spec.refusal_none.mp hrefusal⟩
  · intro hp
    exact absurd (hp.1 _ rfl) (by decide)

end Ledger
