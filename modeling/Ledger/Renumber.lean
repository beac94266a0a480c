import Ledger.Constraints

/-!
# The numbers of database transactions

A call that is refused by the unique index has used up a transaction number. Nothing
the program does or answers depends on these numbers: what a step leads to is the same
in two databases whose rows agree but for the columns that hold them.
-/

namespace Ledger

open Keyed Runs Transfers

/-! ## Rows without numbers -/

def Row.Transaction.erase (r : Row.Transaction) : Row.Transaction := { r with createdXid := 0, xmin := 0 }

def Row.Entry.erase (e : Row.Entry) : Row.Entry := { e with xmin := 0 }

/-- The tables without the numbers of the transactions that wrote them. -/
def Tables.erase (t : Tables) : Tables where
  accounts := t.accounts
  transactions := t.transactions.map Row.Transaction.erase
  entries := t.entries.map Row.Entry.erase

namespace Tables

theorem erase_findByIdempotencyKey (t : Tables) (key : String) :
    Transactions.findByIdempotencyKey t.erase key = Transactions.findByIdempotencyKey t key := by
  simp only [Transactions.findByIdempotencyKey, erase, List.find?_map, Option.map_map]
  rfl

theorem erase_fetchTransaction (t : Tables) (id : Uuid) :
    Transactions.fetchTransaction t.erase id = Transactions.fetchTransaction t id := by
  simp only [Transactions.fetchTransaction, erase, List.find?_map, Option.map_map]
  rfl

theorem erase_entriesOf (t : Tables) (id : Uuid) :
    Transactions.entriesOf t.erase id = (Transactions.entriesOf t id).map Row.Entry.erase := by
  simp only [Transactions.entriesOf, erase, List.filter_map]
  rfl

theorem erase_fetchEntries (dec : Decode) (rows : List Row.Entry) :
    Transactions.fetchEntries dec (rows.map Row.Entry.erase) = Transactions.fetchEntries dec rows := by
  unfold Transactions.fetchEntries
  rw [← List.map_insertionSort Row.Entry.before Row.Entry.before Row.Entry.erase rows (fun a _ b _ => Iff.rfl),
    List.mapM_map]
  rfl

section
variable {t t' : Tables} (h : t.erase = t'.erase)
include h

theorem erase_accounts : t.accounts = t'.accounts := by
  have he := congrArg Tables.accounts h
  exact he

theorem same_record (key : String) :
    Transactions.findByIdempotencyKey t key = Transactions.findByIdempotencyKey t' key := by
  rw [← t.erase_findByIdempotencyKey, ← t'.erase_findByIdempotencyKey, h]

theorem same_transaction (id : Uuid) :
    Transactions.fetchTransaction t id = Transactions.fetchTransaction t' id := by
  rw [← t.erase_fetchTransaction, ← t'.erase_fetchTransaction, h]

theorem same_account (id : Uuid) : Spec.findAccount t id = Spec.findAccount t' id := by
  unfold Spec.findAccount
  rw [erase_accounts h]

theorem same_entries (dec : Decode) (id : Uuid) :
    Transactions.fetchEntries dec (Transactions.entriesOf t id) =
      Transactions.fetchEntries dec (Transactions.entriesOf t' id) := by
  rw [← erase_fetchEntries, ← t.erase_entriesOf, h, t'.erase_entriesOf, erase_fetchEntries]

theorem same_transactionIds (id : Uuid) :
    (t.transactions.any fun r => decide (r.id = id)) = t'.transactions.any fun r => decide (r.id = id) := by
  have he := congrArg (fun s : Tables => s.transactions.any fun r => decide (r.id = id)) h
  simp only [erase, List.any_map] at he
  exact he

theorem same_keys (key : String) : (t.transactions.any fun r => decide (r.idempotencyKey = key)) =
    t'.transactions.any fun r => decide (r.idempotencyKey = key) := by
  have he := congrArg (fun s : Tables => s.transactions.any fun r => decide (r.idempotencyKey = key)) h
  simp only [erase, List.any_map] at he
  exact he

theorem same_entryIds (id : Uuid) :
    (t.entries.any fun e => decide (e.id = id)) = t'.entries.any fun e => decide (e.id = id) := by
  have he := congrArg (fun s : Tables => s.entries.any fun e => decide (e.id = id)) h
  simp only [erase, List.any_map] at he
  exact he

end

end Tables

/-! ## Calls on another transaction -/

namespace Transfers

def Pc.on (y : Xid) : Pc → Pc
  | claim _ id => claim y id
  | rollback _ => rollback y
  | lock _ id todo locked => lock y id todo locked
  | adjustFrom _ id sender receiver => adjustFrom y id sender receiver
  | adjustTo _ id sender receiver => adjustTo y id sender receiver
  | insertCredit _ id sender receiver creditId => insertCredit y id sender receiver creditId
  | insertDebit _ id sender receiver creditId debitId => insertDebit y id sender receiver creditId debitId
  | commit _ id sender receiver creditId debitId => commit y id sender receiver creditId debitId
  | pc => pc

def Call.on (y : Xid) (call : Call) : Call := { call with pc := call.pc.on y }

def Next.on (y : Xid) : Next → Next
  | goto pc => goto (pc.on y)
  | ret r => ret r
  | panic => panic

namespace Pc

@[simp] theorem on_session (y : Xid) (pc : Pc) : (pc.on y).session = pc.session.map fun _ => y := by
  cases pc <;> rfl

@[simp] theorem on_running (y : Xid) (pc : Pc) : (pc.on y).running = pc.running := by cases pc <;> rfl

@[simp] theorem on_generated (y : Xid) (pc : Pc) : (pc.on y).generated = pc.generated := by cases pc <;> rfl

@[simp] theorem on_generates (y : Xid) (pc : Pc) : (pc.on y).generates = pc.generates := by cases pc <;> rfl

theorem on_onError (y : Xid) (err : SqlxError) (pc : Pc) : (pc.on y).onError err = (pc.onError err).on y := by
  cases pc with
  | claim x id => simp only [on, onError]; split <;> rfl
  | _ => rfl

theorem on_begin {y : Xid} {pc : Pc} (h : pc.on y = .begin) : pc = .begin := by
  cases pc with
  | begin => rfl
  | _ => cases h

theorem on_commit {x y : Xid} {pc : Pc} {id cid did : Uuid} {sender receiver : AccountRow}
    (h : pc.on y = .commit x id sender receiver cid did) : ∃ z, pc = .commit z id sender receiver cid did := by
  cases pc with
  | commit z => cases h; exact ⟨z, rfl⟩
  | _ => cases h

end Pc

theorem afterLocks_on (i : TransferIntent) (x y : Xid) (id : Uuid) (locked : List AccountRow) :
    afterLocks i y id locked = (afterLocks i x id locked).on y := by
  unfold afterLocks
  split
  · split
    · rfl
    · split <;> rfl
  · rfl

theorem afterLock_on (cfg : Config) (i : TransferIntent) (x y : Xid) (id accountId : Uuid) (todo : List Uuid)
    (locked : List AccountRow) (row : Option Row.Account) :
    afterLock cfg i y id accountId todo locked row = (afterLock cfg i x id accountId todo locked row).on y := by
  cases row with
  | none => rfl
  | some row =>
    simp only [afterLock]
    split
    · rfl
    · cases todo with
      | nil => exact afterLocks_on i x y id _
      | cons => rfl

theorem replay_on (cfg : Config) (key : String) (i : TransferIntent) (record : IdempotencyRecord) (y : Xid) :
    (replay cfg key i record).on y = replay cfg key i record := by
  unfold replay
  split <;> rfl

end Transfers

/-! ## What others have to wait for -/

/-- Two transactions keep out the same statements. -/
structure Work.Alike (v w : Work) : Prop where
  transactions : (v.transactions.map fun r => (r.id, r.idempotencyKey)) =
    w.transactions.map fun r => (r.id, r.idempotencyKey)
  entries : (v.entries.map fun e => e.id) = w.entries.map fun e => e.id
  locked : ∀ id, v.locked id .update = w.locked id .update

namespace Work.Alike

variable {v w : Work} (h : v.Alike w)
include h

theorem transactionIds (id : Uuid) :
    (v.transactions.any fun r => decide (r.id = id)) = w.transactions.any fun r => decide (r.id = id) := by
  have he := congrArg (fun l : List (Uuid × String) => l.any fun k => decide (k.1 = id)) h.transactions
  simp only [List.any_map] at he
  exact he

theorem keys (key : String) : (v.transactions.any fun r => decide (r.idempotencyKey = key)) =
    w.transactions.any fun r => decide (r.idempotencyKey = key) := by
  have he := congrArg (fun l : List (Uuid × String) => l.any fun k => decide (k.2 = key)) h.transactions
  simp only [List.any_map] at he
  exact he

theorem entryIds (id : Uuid) :
    (v.entries.any fun e => decide (e.id = id)) = w.entries.any fun e => decide (e.id = id) := by
  have he := congrArg (fun l : List Uuid => l.any fun k => decide (k = id)) h.entries
  simp only [List.any_map] at he
  exact he

end Work.Alike

theorem Work.Shape.locked_iff {w : Work} {txs : List Row.Transaction} {ups : List Row.Account} {es : List Row.Entry}
    {is : List Uuid} (h : w.Shape txs ups es is) (id : Uuid) : w.locked id .update = true ↔ id ∈ is := by
  constructor
  · intro hl
    obtain ⟨l, hm, rfl⟩ := Work.locked_mem hl
    exact h.only l hm
  · intro hid
    unfold Work.locked
    rw [List.any_eq_true]
    exact ⟨_, h.locked id hid, by simp [LockMode.conflicts]⟩

theorem Work.Shape.alike {v w : Work} {txs txs' : List Row.Transaction} {ups ups' : List Row.Account}
    {es es' : List Row.Entry} {is : List Uuid} (hv : v.Shape txs ups es is) (hw : w.Shape txs' ups' es' is)
    (ht : (txs.map fun r => (r.id, r.idempotencyKey)) = txs'.map fun r => (r.id, r.idempotencyKey))
    (he : (es.map fun e => e.id) = es'.map fun e => e.id) : v.Alike w where
  transactions := by rw [hv.transactions, hw.transactions, ht]
  entries := by rw [hv.entries, hw.entries, he]
  locked id := by rw [Bool.eq_iff_iff, hv.locked_iff, hw.locked_iff]

namespace Transfers

theorem SessionOk.alike {cfg cfg' : Config} {t t' : Tables} {call : Call} {x y : Xid} {tx ty : Txn}
    (hx : call.pc.session = some x) (h : SessionOk cfg t call x tx) (h' : SessionOk cfg' t' (call.on y) y ty) :
    tx.work.Alike ty.work := by
  have hy : (call.on y).pc.session = some y := by rw [Call.on, Pc.on_session, hx]; rfl
  obtain ⟨ups, hsh⟩ := h.wrote hx
  obtain ⟨ups', hsh'⟩ := h'.wrote hy
  have hlocked : (call.on y).locked = call.locked := by
    unfold Call.locked Call.on
    cases call.pc <;> rfl
  rw [hlocked] at hsh'
  refine hsh.alike hsh' ?_ ?_
  · unfold Call.rows Call.on
    cases call.pc <;> rfl
  · unfold Call.entries Call.on
    cases call.pc <;> rfl

end Transfers

/-! ## One statement in both databases -/

/-- The second outcome is the first one, unless that one is to wait. -/
def Res.Agree {α β : Type} (rel : α → β → Prop) : Res α → Res β → Prop
  | .ok a, .ok b => rel a b
  | .ok _, _ => False
  | .error e, r => r = .error e
  | .wait _, _ => True

theorem Res.Agree.bind {α β γ δ : Type} {rel : α → β → Prop} {rel' : γ → δ → Prop} {r : Res α} {r' : Res β}
    {f : α → Res γ} {g : β → Res δ} (h : r.Agree rel r') (hf : ∀ a b, rel a b → (f a).Agree rel' (g b)) :
    (r >>= f).Agree rel' (r' >>= g) := by
  cases r with
  | ok a =>
    cases r' with
    | ok b => exact hf a b h
    | error e => cases h
    | wait ys => cases h
  | error e =>
    cases h
    rfl
  | wait ys => trivial

theorem Res.Agree.of_eq {α β : Type} {rel : α → β → Prop} {r s : Res α} {r' s' : Res β} (h : r = s) (h' : r' = s')
    (hs : s.Agree rel s') : r.Agree rel r' := by
  rw [h, h']
  exact hs

theorem Res.Agree.of_shift {o : Option Row.Account} {e : SqlxError} {r r' : Res (Work × Option Row.Account)}
    (h : (∃ work, o.isSome = true ∧ r = .ok (work, none)) ∨ (o = none ∧ r = .error e))
    (h' : (∃ work, o.isSome = true ∧ r' = .ok (work, none)) ∨ (o = none ∧ r' = .error e)) :
    r.Agree (fun u v => u.2 = v.2) r' := by
  rcases h with ⟨work, ho, rfl⟩ | ⟨rfl, rfl⟩
  · rcases h' with ⟨work', -, rfl⟩ | ⟨rfl, -⟩
    · rfl
    · cases ho
  · rcases h' with ⟨work', ho, -⟩ | ⟨-, rfl⟩
    · cases ho
    · rfl

theorem Db.await_agree {db db' : Db} {x y : Xid} {pred : Work → Bool}
    (h : db.await x pred = .ok () → db'.await y pred = .ok ()) :
    (db.await x pred).Agree (fun _ _ => True) (db'.await y pred) := by
  cases hw : db.await x pred with
  | ok u => rw [h hw]; trivial
  | error e => exact absurd hw await_error
  | wait ys => trivial

theorem Db.unique_agree {db db' : Db} {x y : Xid} {con : Constraint} {dup dup' : Bool} {pred : Work → Bool}
    (hd : dup = dup') (h : db.await x pred = .ok () → db'.await y pred = .ok ()) :
    (db.unique x con dup pred).Agree (fun _ _ => True) (db'.unique y con dup' pred) := by
  subst hd
  cases dup with
  | true => rfl
  | false => exact await_agree h

/-- The service with or without the first lookup of `execute_once`. -/
def Config.variant (cfg : Config) (lookup : Bool) : Config := { cfg with fastPath := lookup }

/-- The second world has the same rows up to the numbers, and every transaction open in
it is open in the first one, at the same point of the same call. -/
structure Shadow (cfg : Config) (p q : Bool) (a b : World) : Prop where
  left : Inv (cfg.variant p) a
  right : Inv (cfg.variant q) b
  tables : a.db.tables.erase = b.db.tables.erase
  sessions : ∀ c call y, b.calls c = some call → call.pc.session = some y →
    ∃ call', a.calls c = some call' ∧ call'.pc.session.isSome = true ∧ call = call'.on y

namespace Shadow

variable {cfg : Config} {p q : Bool} {a b : World} (h : Shadow cfg p q a b)
include h

theorem await {c : Nat} {call : Call} {x y : Xid} (hc : a.calls c = some call) (hx : call.pc.session = some x)
    (hc' : b.calls c = some (call.on y)) {pred : Work → Bool}
    (hp : ∀ v w : Work, v.Alike w → pred v = pred w) (hw : a.db.await x pred = .ok ()) :
    b.db.await y pred = .ok () := by
  apply Db.await_ok
  intro z tz hz htz
  obtain ⟨d, other, hd, hs, hok⟩ := h.right.behind htz
  obtain ⟨other', hd', hs', rfl⟩ := h.sessions d other z hd hs
  obtain ⟨z', hz'⟩ := Option.isSome_iff_exists.mp hs'
  obtain ⟨tz', htz', -, hok'⟩ := h.left.session d other' z' hd' hz'
  have hne : z' ≠ x := by
    rintro rfl
    have he := h.left.owner d c other' call z' hd' hc hz' hx
    rw [he, hc', Option.some.injEq] at hd
    have hy : (call.on y).pc.session = some y := by rw [Call.on, Pc.on_session, hx]; rfl
    rw [hd, hs, Option.some.injEq] at hy
    exact hz hy
  rw [← hp _ _ (hok'.alike hz' hok)]
  exact Db.others_of_await h.left.db.bounded hw z' tz' hne htz'

theorem same_rows {i : TransferIntent} {s s' r r' : Row.Account} (ha : Spec.Admits a.db.tables i s r)
    (hb : Spec.Admits b.db.tables i s' r') : s = s' ∧ r = r' := by
  have hs := ha.sender
  have hr := ha.receiver
  rw [Tables.same_account h.tables, hb.sender, Option.some.injEq] at hs
  rw [Tables.same_account h.tables, hb.receiver, Option.some.injEq] at hr
  exact ⟨hs.symm, hr.symm⟩

section
variable {c : Nat} {call : Call} {x y : Xid} {tx ty : Txn} (hc : a.calls c = some call)
  (hc' : b.calls c = some (call.on y)) (hx : a.db.txns x = some tx) (hy : b.db.txns y = some ty)
include hc hc' hx hy

theorem exec_claim {id : Uuid} (hpc : call.pc = .claim x id) :
    (a.db.exec cfg.schema x tx (claimStmt cfg.sha256 id call.key call.intent)).Agree (fun u v => u.2 = v.2)
      (b.db.exec cfg.schema y ty (claimStmt cfg.sha256 id call.key call.intent)) := by
  have hs : call.pc.session = some x := by rw [hpc]; rfl
  obtain ⟨-, txn, work, hx', -, -, -, he⟩ := h.left.claim_outcome hc hpc
  have hpc' : (call.on y).pc = .claim y id := by rw [Call.on, hpc]; rfl
  obtain ⟨-, txn', work', hy', -, -, -, he'⟩ := h.right.claim_outcome hc' hpc'
  rw [hx, Option.some.injEq] at hx'
  rw [hy, Option.some.injEq] at hy'
  subst hx' hy'
  refine Res.Agree.of_eq he he' ?_
  by_cases hn : (hasNul call.key || hasNul call.intent.description) = true
  · rw [if_pos hn, if_pos (by exact hn)]
    rfl
  · rw [if_neg hn, if_neg (by exact hn)]
    refine Res.Agree.bind (Db.unique_agree (Tables.same_transactionIds h.tables id)
      (h.await hc hs hc' fun v w hv => hv.transactionIds id)) fun _ _ _ => ?_
    refine Res.Agree.bind (Db.unique_agree (Tables.same_keys h.tables call.key)
      (h.await hc hs hc' fun v w hv => hv.keys call.key)) fun _ _ _ => ?_
    rfl

theorem exec_lock {id accountId : Uuid} {todo : List Uuid} {locked : List AccountRow}
    (hpc : call.pc = .lock x id (accountId :: todo) locked) :
    (a.db.exec cfg.schema x tx (Accounts.fetchForUpdate accountId)).Agree (fun u v => u.2 = v.2)
      (b.db.exec cfg.schema y ty (Accounts.fetchForUpdate accountId)) := by
  have hs : call.pc.session = some x := by rw [hpc]; rfl
  obtain ⟨-, txn, hx', -, -, -, -, -, he⟩ := h.left.lock_outcome hc hpc
  have hpc' : (call.on y).pc = .lock y id (accountId :: todo) locked := by rw [Call.on, hpc]; rfl
  obtain ⟨-, txn', hy', -, -, -, -, -, he'⟩ := h.right.lock_outcome hc' hpc'
  rw [hx, Option.some.injEq] at hx'
  rw [hy, Option.some.injEq] at hy'
  subst hx' hy'
  refine Res.Agree.of_eq he he' ?_
  rw [← Tables.same_account h.tables accountId]
  cases Spec.findAccount a.db.tables accountId with
  | none => rfl
  | some row =>
    refine Res.Agree.bind (Db.await_agree (h.await hc hs hc' fun v w hv => hv.locked accountId)) fun _ _ _ => ?_
    rfl

theorem exec_adjustFrom {id : Uuid} {sender receiver : AccountRow}
    (hpc : call.pc = .adjustFrom x id sender receiver) :
    (a.db.exec cfg.schema x tx (adjustBalance sender.id call.intent.amount.amount.negate)).Agree
      (fun u v => u.2 = v.2)
      (b.db.exec cfg.schema y ty (adjustBalance sender.id call.intent.amount.amount.negate)) := by
  obtain ⟨-, txn, s, r, hx', -, -, hu, ho⟩ := h.left.adjustFrom_outcome hc hpc
  have hpc' : (call.on y).pc = .adjustFrom y id sender receiver := by rw [Call.on, hpc]; rfl
  obtain ⟨-, txn', s', r', hy', -, -, hu', ho'⟩ := h.right.adjustFrom_outcome hc' hpc'
  rw [hx, Option.some.injEq] at hx'
  rw [hy, Option.some.injEq] at hy'
  subst hx' hy'
  obtain ⟨rfl, -⟩ := h.same_rows hu.admits hu'.admits
  exact Res.Agree.of_shift (ho.imp (fun ⟨_, work, hs, _, he⟩ => ⟨work, Option.isSome_of_eq_some hs, he⟩) fun h => h)
    (ho'.imp (fun ⟨_, work, hs, _, he⟩ => ⟨work, Option.isSome_of_eq_some hs, he⟩) fun h => h)

theorem exec_adjustTo {id : Uuid} {sender receiver : AccountRow} (hpc : call.pc = .adjustTo x id sender receiver) :
    (a.db.exec cfg.schema x tx (adjustBalance receiver.id call.intent.amount.amount)).Agree (fun u v => u.2 = v.2)
      (b.db.exec cfg.schema y ty (adjustBalance receiver.id call.intent.amount.amount)) := by
  obtain ⟨-, txn, s, r, _, hx', -, -, hu, -, ho⟩ := h.left.adjustTo_outcome hc hpc
  have hpc' : (call.on y).pc = .adjustTo y id sender receiver := by rw [Call.on, hpc]; rfl
  obtain ⟨-, txn', s', r', _, hy', -, -, hu', -, ho'⟩ := h.right.adjustTo_outcome hc' hpc'
  rw [hx, Option.some.injEq] at hx'
  rw [hy, Option.some.injEq] at hy'
  subst hx' hy'
  obtain ⟨-, rfl⟩ := h.same_rows hu.admits hu'.admits
  exact Res.Agree.of_shift (ho.imp (fun ⟨_, work, hs, _, he⟩ => ⟨work, Option.isSome_of_eq_some hs, he⟩) fun h => h)
    (ho'.imp (fun ⟨_, work, hs, _, he⟩ => ⟨work, Option.isSome_of_eq_some hs, he⟩) fun h => h)

theorem exec_insertCredit {id cid : Uuid} {sender receiver : AccountRow}
    (hpc : call.pc = .insertCredit x id sender receiver cid) :
    (a.db.exec cfg.schema x tx (insertEntry cid id sender.id .credit call.intent.amount.amount
      call.intent.amount.currency)).Agree (fun u v => u.2 = v.2)
      (b.db.exec cfg.schema y ty (insertEntry cid id sender.id .credit call.intent.amount.amount
        call.intent.amount.currency)) := by
  have hs : call.pc.session = some x := by rw [hpc]; rfl
  obtain ⟨-, txn, _, _, _, _, work, hx', -, -, -, -, -, -, he⟩ := h.left.insertCredit_outcome hc hpc
  have hpc' : (call.on y).pc = .insertCredit y id sender receiver cid := by rw [Call.on, hpc]; rfl
  obtain ⟨-, txn', _, _, _, _, work', hy', -, -, -, -, -, -, he'⟩ := h.right.insertCredit_outcome hc' hpc'
  rw [hx, Option.some.injEq] at hx'
  rw [hy, Option.some.injEq] at hy'
  subst hx' hy'
  refine Res.Agree.of_eq he he' (Res.Agree.bind (Db.unique_agree (Tables.same_entryIds h.tables cid)
    (h.await hc hs hc' fun v w hv => hv.entryIds cid)) fun _ _ _ => ?_)
  rfl

theorem exec_insertDebit {id cid did : Uuid} {sender receiver : AccountRow}
    (hpc : call.pc = .insertDebit x id sender receiver cid did) :
    (a.db.exec cfg.schema x tx (insertEntry did id receiver.id .debit call.intent.amount.amount
      call.intent.amount.currency)).Agree (fun u v => u.2 = v.2)
      (b.db.exec cfg.schema y ty (insertEntry did id receiver.id .debit call.intent.amount.amount
        call.intent.amount.currency)) := by
  have hs : call.pc.session = some x := by rw [hpc]; rfl
  obtain ⟨-, txn, _, _, _, _, work, hx', -, -, -, -, -, -, he⟩ := h.left.insertDebit_outcome hc hpc
  have hpc' : (call.on y).pc = .insertDebit y id sender receiver cid did := by rw [Call.on, hpc]; rfl
  obtain ⟨-, txn', _, _, _, _, work', hy', -, -, -, -, -, -, he'⟩ := h.right.insertDebit_outcome hc' hpc'
  rw [hx, Option.some.injEq] at hx'
  rw [hy, Option.some.injEq] at hy'
  subst hx' hy'
  refine Res.Agree.of_eq he he' (Res.Agree.bind (Db.unique_agree ?_
    (h.await hc hs hc' fun v w hv => hv.entryIds did)) fun _ _ _ => ?_)
  · rw [List.any_append, List.any_append, Tables.same_entryIds h.tables did]
    rfl
  · rfl

end

omit h in
theorem statement_on {cfg cfg' : Config} {db db' db₁ : Db} {pc : Pc} {x y : Xid} {tx ty : Txn} {st : Stmt}
    {k k' : Option Row.Account → Next} {next : Next} (hx : db.txns x = some tx) (hy : db'.txns y = some ty)
    (hk : ∀ row, k' row = (k row).on y)
    (ha : (db.exec cfg.schema x tx st).Agree (fun u v => u.2 = v.2) (db'.exec cfg'.schema y ty st))
    (hr : statement cfg db pc x st k = some (db₁, next)) :
    ∃ db₂, statement cfg' db' (pc.on y) y st k' = some (db₂, next.on y) := by
  unfold statement
  rw [hy, Option.bind_some]
  rcases statement_some hx hr with ⟨work, row, he, -, rfl⟩ | ⟨err, he, -, rfl⟩
  · rw [he] at ha
    cases he' : db'.exec cfg'.schema y ty st with
    | ok u =>
      obtain ⟨work', row'⟩ := u
      rw [he'] at ha
      obtain rfl : row = row' := ha
      exact ⟨db'.install y ty work', congrArg (fun n => some (_, n)) (hk row)⟩
    | error e => rw [he'] at ha; cases ha
    | wait ys => rw [he'] at ha; cases ha
  · rw [he] at ha
    obtain ha : db'.exec cfg'.schema y ty st = .error err := ha
    rw [ha, ← Pc.on_onError]
    exact ⟨_, rfl⟩

/-- **A step leads to the same point in both worlds**, if it is not the one that opens the
transaction. -/
theorem run {c : Nat} {call : Call} {y : Xid} (hc : a.calls c = some call) (hc' : b.calls c = some (call.on y))
    {env : Env} {db : Db} {next : Next} (hb : call.pc ≠ .begin)
    (hr : call.run (cfg.variant p) a.db env = some (db, next)) :
    ∃ scan db', (call.on y).run (cfg.variant q) b.db { env with scan } = some (db', next.on y) := by
  have sessions : ∀ {x : Xid}, call.pc.session = some x →
      ∃ tx ty, a.db.txns x = some tx ∧ b.db.txns y = some ty := by
    intro x hs
    obtain ⟨tx, hx, -⟩ := h.left.session c call x hc hs
    obtain ⟨ty, hy, -⟩ := h.right.session c (call.on y) y hc' (by rw [Call.on, Pc.on_session, hs]; rfl)
    exact ⟨tx, ty, hx, hy⟩
  cases hpc : call.pc with
  | lookup =>
    simp only [Call.run, hpc, Option.some.injEq, Prod.mk.injEq] at hr
    obtain ⟨rfl, rfl⟩ := hr
    refine ⟨env.scan, b.db, ?_⟩
    simp only [Call.run, Call.on, Pc.on, hpc]
    rw [← Tables.same_record h.tables call.key]
    cases Transactions.findByIdempotencyKey a.db.tables call.key with
    | none =>
      simp only [afterLookup, validate]
      split
      · rfl
      · split <;> rfl
    | some record => exact congrArg (fun n => some (b.db, n)) (replay_on _ _ _ _ _).symm
  | begin => exact absurd hpc hb
  | claim x id =>
    obtain ⟨tx, ty, hx, hy⟩ := sessions (by rw [hpc]; rfl)
    simp only [Call.run, hpc] at hr
    obtain ⟨db', he⟩ := statement_on hx hy (fun _ => rfl) (h.exec_claim hc hc' hx hy hpc) hr
    exact ⟨env.scan, db', by simp only [Call.run, Call.on, Pc.on, hpc]; exact he⟩
  | rollback x =>
    simp only [Call.run, hpc, Option.some.injEq, Prod.mk.injEq] at hr
    obtain ⟨rfl, rfl⟩ := hr
    exact ⟨env.scan, b.db.close y, by simp only [Call.run, Call.on, Pc.on, hpc]; rfl⟩
  | relookup =>
    simp only [Call.run, hpc, Option.some.injEq, Prod.mk.injEq] at hr
    obtain ⟨rfl, rfl⟩ := hr
    refine ⟨env.scan, b.db, ?_⟩
    simp only [Call.run, Call.on, Pc.on, hpc]
    rw [← Tables.same_record h.tables call.key]
    cases Transactions.findByIdempotencyKey a.db.tables call.key with
    | none => rfl
    | some record => exact congrArg (fun n => some (b.db, n)) (replay_on _ _ _ _ _).symm
  | lock x id todo locked =>
    obtain ⟨tx, ty, hx, hy⟩ := sessions (by rw [hpc]; rfl)
    cases todo with
    | nil =>
      simp only [Call.run, hpc, Option.some.injEq, Prod.mk.injEq] at hr
      obtain ⟨rfl, rfl⟩ := hr
      exact ⟨env.scan, b.db, by simp only [Call.run, Call.on, Pc.on, hpc]; rw [← afterLocks_on]⟩
    | cons accountId todo =>
      simp only [Call.run, hpc] at hr
      obtain ⟨db', he⟩ :=
        statement_on hx hy
          (fun row => afterLock_on (cfg.variant p) call.intent x y id accountId todo locked row)
          (h.exec_lock hc hc' hx hy hpc) hr
      exact ⟨env.scan, db', by simp only [Call.run, Call.on, Pc.on, hpc]; exact he⟩
  | adjustFrom x id sender receiver =>
    obtain ⟨tx, ty, hx, hy⟩ := sessions (by rw [hpc]; rfl)
    simp only [Call.run, hpc] at hr
    obtain ⟨db', he⟩ := statement_on hx hy (fun _ => rfl) (h.exec_adjustFrom hc hc' hx hy hpc) hr
    exact ⟨env.scan, db', by simp only [Call.run, Call.on, Pc.on, hpc]; exact he⟩
  | adjustTo x id sender receiver =>
    obtain ⟨tx, ty, hx, hy⟩ := sessions (by rw [hpc]; rfl)
    simp only [Call.run, hpc] at hr
    obtain ⟨db', he⟩ := statement_on hx hy (fun _ => rfl) (h.exec_adjustTo hc hc' hx hy hpc) hr
    exact ⟨env.scan, db', by simp only [Call.run, Call.on, Pc.on, hpc]; exact he⟩
  | insertCredit x id sender receiver cid =>
    obtain ⟨tx, ty, hx, hy⟩ := sessions (by rw [hpc]; rfl)
    simp only [Call.run, hpc] at hr
    obtain ⟨db', he⟩ := statement_on hx hy (fun _ => rfl) (h.exec_insertCredit hc hc' hx hy hpc) hr
    exact ⟨env.scan, db', by simp only [Call.run, Call.on, Pc.on, hpc]; exact he⟩
  | insertDebit x id sender receiver cid did =>
    obtain ⟨tx, ty, hx, hy⟩ := sessions (by rw [hpc]; rfl)
    simp only [Call.run, hpc] at hr
    obtain ⟨db', he⟩ := statement_on hx hy (fun _ => rfl) (h.exec_insertDebit hc hc' hx hy hpc) hr
    exact ⟨env.scan, db', by simp only [Call.run, Call.on, Pc.on, hpc]; exact he⟩
  | commit x id sender receiver cid did =>
    obtain ⟨tx, ty, hx, hy⟩ := sessions (by rw [hpc]; rfl)
    have hpc' : (call.on y).pc = .commit y id sender receiver cid did := by rw [Call.on, hpc]; rfl
    simp only [Call.run, hpc, hx, Option.map_some, h.left.commit_accepted hc hpc hx, Option.some.injEq,
      Prod.mk.injEq] at hr
    obtain ⟨rfl, rfl⟩ := hr
    refine ⟨env.scan, { b.db.close y with tables := ty.work.overlay b.db.tables }, ?_⟩
    simp only [Call.run, hpc', hy, Option.map_some, h.right.commit_accepted hc' hpc' hy]
    rfl
  | getTransaction outcome id =>
    simp only [Call.run, hpc, Option.some.injEq, Prod.mk.injEq] at hr
    obtain ⟨rfl, rfl⟩ := hr
    refine ⟨env.scan, b.db, ?_⟩
    simp only [Call.run, Call.on, Pc.on, hpc]
    rw [← Tables.same_transaction h.tables id]
    cases Transactions.fetchTransaction a.db.tables id with
    | none => rfl
    | some transaction => rfl
  | getEntries outcome id transaction =>
    simp only [Call.run, hpc] at hr
    split at hr
    · rename_i hscan
      simp only [Option.some.injEq, Prod.mk.injEq] at hr
      obtain ⟨rfl, rfl⟩ := hr
      refine ⟨Transactions.entriesOf b.db.tables id, b.db, ?_⟩
      simp only [Call.run, Call.on, Pc.on, hpc, List.Perm.refl, if_true]
      rw [← Tables.same_entries h.tables]
      have he : Transactions.fetchEntries (cfg.variant p).decode env.scan =
          Transactions.fetchEntries (cfg.variant p).decode (Transactions.entriesOf a.db.tables id) := by
        have hd : Distinct (·.id) (Transactions.entriesOf a.db.tables id) :=
          List.Pairwise.sublist List.filter_sublist h.left.keys.entryIds
        unfold Transactions.fetchEntries
        rw [sort_perm hd hscan]
      rw [he]
      rfl
    · cases hr
  | done | cancelled | panicked => simp only [Call.run, hpc] at hr; cases hr

end Shadow

end Ledger
