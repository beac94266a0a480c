import Ledger.Answers
import Ledger.Lib.WaitFor

/-!
# Who waits for whom

A call waits for a connection, for another call's uncommitted claim of its key, or for
a row that another call has locked, and acquires them in this order, the rows by
ascending id. Generated ids are fresh, so no insert ever waits for a duplicate id.
-/

namespace Ledger

open Keyed Runs Transfers

namespace Transfers

/-- The ids a call has generated for rows it has not committed. -/
def Pc.generated : Pc → List Uuid
  | claim _ id | lock _ id .. | adjustFrom _ id .. | adjustTo _ id .. => [id]
  | insertCredit _ id _ _ creditId => [id, creditId]
  | insertDebit _ id _ _ creditId debitId | commit _ id _ _ creditId debitId => [id, creditId, debitId]
  | _ => []

def Pc.generates : Pc → Bool
  | begin | adjustTo .. | insertCredit .. => true
  | _ => false

/-- The statement a call is waiting for an answer to, inside its database transaction. -/
def Call.stmt (cfg : Config) (call : Call) : Option (Xid × Stmt) :=
  let amount := call.intent.amount.amount
  let currency := call.intent.amount.currency
  match call.pc with
  | .claim x id => some (x, claimStmt cfg.sha256 id call.key call.intent)
  | .lock x _ (accountId :: _) _ => some (x, Accounts.fetchForUpdate accountId)
  | .adjustFrom x _ sender _ => some (x, adjustBalance sender.id amount.negate)
  | .adjustTo x _ _ receiver => some (x, adjustBalance receiver.id amount)
  | .insertCredit x id sender _ creditId => some (x, insertEntry creditId id sender.id .credit amount currency)
  | .insertDebit x id _ receiver _ debitId => some (x, insertEntry debitId id receiver.id .debit amount currency)
  | _ => none

theorem Call.stmt_session {cfg : Config} {call : Call} {x : Xid} {s : Stmt} (h : call.stmt cfg = some (x, s)) :
    call.pc.session = some x := by
  unfold Call.stmt at h
  cases hpc : call.pc with
  | lock y id todo locked => cases todo <;> simp only [hpc] at h <;> cases h; rfl
  | _ => simp only [hpc] at h; cases h <;> rfl

def Call.blockers (cfg : Config) (db : Db) (call : Call) : List Xid :=
  match call.stmt cfg with
  | none => []
  | some (x, s) => match (db.txns x).map fun txn => db.exec cfg.schema x txn s with
    | some (.wait ys) => ys
    | _ => []

def Call.Wants (call : Call) (work : Work) : Prop :=
  match call.pc with
  | .claim _ _ => ∃ r ∈ work.transactions, r.idempotencyKey = call.key
  | .lock _ _ (accountId :: _) _ => work.locked accountId .update = true
  | _ => False

end Transfers

def World.New (w : World) (id : Uuid) : Prop :=
  (∀ c call, w.calls c = some call → id ∉ call.pc.generated) ∧
    (∀ r ∈ w.db.tables.transactions, r.id ≠ id) ∧ ∀ e ∈ w.db.tables.entries, e.id ≠ id

/-- Where a step generates an id, it is a new one. -/
def World.Fresh (w : World) (l : Label) : Prop :=
  ∀ c env call, l = .run c env → w.calls c = some call → call.pc.generates = true → w.New env.id

def World.NeedsConnection (w : World) (c : Nat) (call : Call) : Prop :=
  call.pc.running = true ∧ call.pc.session = none ∧ c ∉ w.held

/-- The call `c` cannot go on before `c'` has: a statement waits for the other's
transaction, or every connection of its pool is taken and `c'` has one of them. -/
inductive WaitsFor (cfg : Config) (w : World) (c c' : Nat) : Prop
  | statement {call call' : Call} {y : Xid} (hc : w.calls c = some call) (hy : y ∈ call.blockers cfg w.db)
      (hc' : w.calls c' = some call') (hs : call'.pc.session = some y)
  | pool {call : Call} (hc : w.calls c = some call) (hn : w.NeedsConnection c call)
      (hfull : w.free cfg (cfg.process c) = false) (hm : c' ∈ w.held) (hp : cfg.process c' = cfg.process c)

/-! ## Generated ids -/

def World.Apart (w : World) : Prop :=
  ∀ c c' call call', w.calls c = some call → w.calls c' = some call' → c ≠ c' →
    ∀ id ∈ call.pc.generated, id ∉ call'.pc.generated

namespace Transfers

variable {cfg : Config}

def Next.generated : Next → List Uuid
  | .goto pc => pc.generated
  | .ret _ | .panic => []

theorem startPc_generated (i : TransferIntent) : (startPc cfg i).generated = [] := by
  unfold startPc start validate
  split <;> rename_i heq
  · split at heq
    · cases heq; rfl
    · split at heq
      · cases heq
      · split at heq <;> cases heq
        rfl
  · rfl
  · rfl

theorem Call.finish_generated (call : Call) (r : Except LedgerError TransferResult) :
    (call.finish cfg r).pc.generated = [] := by
  unfold Call.finish
  split
  · split
    · exact startPc_generated _
    · rfl
  · rfl

theorem Call.follow_generated (call : Call) (next : Next) :
    (call.follow cfg next).pc.generated = next.generated := by
  cases next with
  | goto pc => rfl
  | ret r => exact call.finish_generated r
  | panic => rfl

theorem Pc.onError_generated (err : SqlxError) (pc : Pc) : (pc.onError err).generated = [] := by
  unfold Pc.onError
  split
  · split <;> rfl
  all_goals rfl

theorem replay_generated (key : String) (i : TransferIntent) (record : IdempotencyRecord) :
    (replay cfg key i record).generated = [] := by
  unfold replay
  split <;> rfl

theorem afterLocks_generated (i : TransferIntent) (x : Xid) (id : Uuid) (locked : List AccountRow) :
    (afterLocks i x id locked).generated ⊆ [id] := by
  unfold afterLocks
  split
  · split
    · exact List.nil_subset _
    · split
      · exact List.nil_subset _
      · exact List.Subset.refl _
  · exact List.nil_subset _

theorem afterLock_generated (i : TransferIntent) (x : Xid) (id accountId : Uuid) (todo : List Uuid)
    (locked : List AccountRow) (row : Option Row.Account) :
    (afterLock cfg i x id accountId todo locked row).generated ⊆ [id] := by
  unfold afterLock
  split
  · exact List.nil_subset _
  · split
    · exact List.nil_subset _
    · unfold nextLock
      split
      · exact afterLocks_generated ..
      · exact List.Subset.refl _

theorem statement_generated {db db' : Db} {pc : Pc} {x : Xid} {s : Stmt} {k : Option Row.Account → Next}
    {next : Next} {ids : List Uuid} (hk : ∀ row, (k row).generated ⊆ ids)
    (h : statement cfg db pc x s k = some (db', next)) : next.generated ⊆ ids := by
  obtain ⟨txn, -, h⟩ := Option.bind_eq_some_iff.mp h
  split at h
  · cases h; exact hk _
  · cases h
    rw [Pc.onError_generated]
    exact List.nil_subset _
  · cases h

theorem Call.run_generated {call : Call} {db db' : Db} {env : Env} {next : Next}
    (h : call.run cfg db env = some (db', next)) {id : Uuid} (hid : id ∈ next.generated) :
    id ∈ call.pc.generated ∨ (call.pc.generates = true ∧ id = env.id) := by
  have keeps : next.generated ⊆ call.pc.generated → id ∈ call.pc.generated ∨
      (call.pc.generates = true ∧ id = env.id) := fun hs => Or.inl (hs hid)
  have adds : call.pc.generates = true → next.generated ⊆ env.id :: call.pc.generated →
      id ∈ call.pc.generated ∨ (call.pc.generates = true ∧ id = env.id) := by
    intro hg hs
    rcases List.mem_cons.mp (hs hid) with he | hm
    · exact Or.inr ⟨hg, he⟩
    · exact Or.inl hm
  cases hpc : call.pc with
  | lookup =>
    simp only [Call.run, hpc, Option.some.injEq, Prod.mk.injEq] at h
    obtain ⟨-, rfl⟩ := h
    refine absurd hid ?_
    unfold afterLookup validate
    split
    · rw [replay_generated]; exact List.not_mem_nil
    · split
      · exact List.not_mem_nil
      · split <;> exact List.not_mem_nil
  | relookup =>
    simp only [Call.run, hpc, Option.some.injEq, Prod.mk.injEq] at h
    obtain ⟨-, rfl⟩ := h
    refine absurd hid ?_
    unfold afterRelookup
    split
    · rw [replay_generated]; exact List.not_mem_nil
    · exact List.not_mem_nil
  | begin =>
    simp only [Call.run, hpc, Option.some.injEq, Prod.mk.injEq] at h
    obtain ⟨-, rfl⟩ := h
    rw [← hpc]
    exact adds (by rw [hpc]; rfl) (by rw [hpc]; exact List.Subset.refl _)
  | claim x tid =>
    simp only [Call.run, hpc] at h
    rw [← hpc]
    exact keeps (by rw [hpc]; exact statement_generated (fun _ => List.Subset.refl _) h)
  | lock x tid todo locked =>
    rw [← hpc]
    cases todo with
    | nil =>
      simp only [Call.run, hpc, Option.some.injEq, Prod.mk.injEq] at h
      obtain ⟨-, rfl⟩ := h
      exact keeps (by rw [hpc]; exact afterLocks_generated ..)
    | cons a todo =>
      simp only [Call.run, hpc] at h
      exact keeps (by rw [hpc]; exact statement_generated (fun _ => afterLock_generated ..) h)
  | adjustFrom | insertDebit =>
    simp only [Call.run, hpc] at h
    rw [← hpc]
    exact keeps (by rw [hpc]; exact statement_generated (fun _ => List.Subset.refl _) h)
  | adjustTo | insertCredit =>
    simp only [Call.run, hpc] at h
    rw [← hpc]
    refine adds (by rw [hpc]; rfl) ?_
    rw [hpc]
    refine statement_generated (fun _ => ?_) h
    simp [Next.generated, Pc.generated]
  | rollback =>
    simp only [Call.run, hpc, Option.some.injEq, Prod.mk.injEq] at h
    obtain ⟨-, rfl⟩ := h
    exact absurd hid List.not_mem_nil
  | commit x tid sender receiver creditId debitId =>
    simp only [Call.run, hpc] at h
    obtain ⟨txn, -, h⟩ := Option.map_eq_some_iff.mp h
    refine absurd hid ?_
    split at h
    · cases h; exact List.not_mem_nil
    · cases h
      rw [Pc.onError_generated]
      exact List.not_mem_nil
  | getTransaction outcome tid =>
    simp only [Call.run, hpc, Option.some.injEq, Prod.mk.injEq] at h
    obtain ⟨-, rfl⟩ := h
    refine absurd hid ?_
    split <;> exact List.not_mem_nil
  | getEntries outcome tid transaction =>
    simp only [Call.run, hpc] at h
    split at h
    · cases h; exact absurd hid List.not_mem_nil
    · cases h
  | done | cancelled | panicked =>
    simp only [Call.run, hpc] at h
    cases h

end Transfers

section
variable {cfg : Config} {w w' : World} {l : Label}

theorem World.Apart.update (h : w.Apart) {c : Nat} {call' : Call}
    (hnew : ∀ id ∈ call'.pc.generated, (∃ call, w.calls c = some call ∧ id ∈ call.pc.generated) ∨
      ∀ c₁ call₁, w.calls c₁ = some call₁ → id ∉ call₁.pc.generated)
    (hw : w'.calls = Function.update w.calls c (some call')) : w'.Apart := by
  have hother : ∀ c₁ call₁, c₁ ≠ c → w.calls c₁ = some call₁ → ∀ id ∈ call'.pc.generated,
      id ∉ call₁.pc.generated := by
    intro c₁ call₁ hne hc₁ id hid
    rcases hnew id hid with ⟨call, hc, hm⟩ | hn
    · exact h c c₁ call call₁ hc hc₁ (Ne.symm hne) id hm
    · exact hn c₁ call₁ hc₁
  intro c₁ c₂ call₁ call₂ h1 h2 hne id hid
  rw [hw] at h1 h2
  by_cases e1 : c₁ = c
  · have e2 : c₂ ≠ c := fun e => hne (e1.trans e.symm)
    rw [e1, Function.update_self, Option.some.injEq] at h1
    rw [Function.update_of_ne e2] at h2
    exact hother c₂ call₂ e2 h2 id (h1 ▸ hid)
  · rw [Function.update_of_ne e1] at h1
    by_cases e2 : c₂ = c
    · rw [e2, Function.update_self, Option.some.injEq] at h2
      exact fun hm => hother c₁ call₁ e1 h1 id (h2 ▸ hm) hid
    · rw [Function.update_of_ne e2] at h2
      exact h c₁ c₂ call₁ call₂ h1 h2 hne id hid

theorem World.Apart.step (h : w.Apart) (hf : w.Fresh l) (hs : w.step cfg l = some w') : w'.Apart := by
  rcases World.step_calls hs with ⟨c, call, -, -, hpc, he⟩ | ⟨c, call, call', hc, -, hwent, he⟩ | he
  · refine h.update (fun id hid => ?_) he
    rw [hpc, startPc_generated] at hid
    cases hid
  · refine h.update (fun id hid => ?_) he
    cases hwent with
    | @ran env db next hr =>
      rw [Call.follow_generated] at hid
      rcases Call.run_generated hr hid with hm | ⟨hg, rfl⟩
      · exact Or.inl ⟨call, hc, hm⟩
      · exact Or.inr (hf c env call rfl hc hg).1
    | broke => rw [Call.finish_generated] at hid; cases hid
    | left => cases hid
  · intro c₁ c₂ call₁ call₂ h1 h2
    rw [he] at h1 h2
    exact h c₁ c₂ call₁ call₂ h1 h2

theorem World.Apart.reach (hr : Reach (World.step cfg) World.Fresh World.init w) : w.Apart :=
  hr.invariant (fun _ _ _ h hf hs => h.step hf hs) fun _ _ _ _ hc => by cases hc

end

/-! ## Checking a run for freshness -/

section
variable {cfg : Config} {w w' : World} {l : Label}

def World.newBelow (w : World) (n : Nat) (id : Uuid) : Bool :=
  ((List.range n).all fun c => (w.calls c).all fun call => id ∉ call.pc.generated) &&
    (w.db.tables.transactions.all fun r => r.id ≠ id) && w.db.tables.entries.all fun e => e.id ≠ id

/-- A step of one of the calls below `n`, if the id it generates is not in use. -/
def World.freshStep (cfg : Config) (n : Nat) (w : World) (l : Label) : Option World :=
  match l with
  | .run c env =>
    if (w.calls c).all fun call => !call.pc.generates || w.newBelow n env.id then w.step cfg l else none
  | .invoke c _ _ => if c < n then w.step cfg l else none
  | l => w.step cfg l

theorem World.freshStep_step {n : Nat} (hs : w.freshStep cfg n l = some w') : w.step cfg l = some w' := by
  unfold World.freshStep at hs
  split at hs
  · split at hs
    · exact hs
    · cases hs
  · split at hs
    · exact hs
    · cases hs
  · exact hs

theorem World.freshStep_below {n : Nat} (hn : ∀ c, n ≤ c → w.calls c = none) (hs : w.freshStep cfg n l = some w') :
    ∀ c, n ≤ c → w'.calls c = none := by
  intro c hc
  have other : ∀ {c' : Nat} {call : Call}, c' < n → w'.calls = Function.update w.calls c' (some call) →
      w'.calls c = none := by
    intro c' call hlt he
    rw [he, Function.update_of_ne (by omega)]
    exact hn c hc
  rcases World.step_calls (World.freshStep_step hs) with
    ⟨c', call, rfl, -, -, he⟩ | ⟨c', call, call', hc', -, -, he⟩ | he
  · refine other ?_ he
    simp only [World.freshStep] at hs
    split at hs
    · assumption
    · cases hs
  · refine other ?_ he
    by_contra hge
    rw [hn c' (by omega)] at hc'
    cases hc'
  · rw [he]; exact hn c hc

theorem World.newBelow_new {n : Nat} (hn : ∀ c, n ≤ c → w.calls c = none) {id : Uuid} (h : w.newBelow n id = true) :
    w.New id := by
  simp only [World.newBelow, Bool.and_eq_true, List.all_eq_true, decide_eq_true_eq] at h
  refine ⟨fun c call hc => ?_, h.1.2, h.2⟩
  by_cases hlt : c < n
  · have := h.1.1 c (List.mem_range.mpr hlt)
    simpa only [hc, Option.all_some, decide_eq_true_eq] using this
  · rw [hn c (by omega)] at hc
    cases hc

theorem World.freshStep_fresh {n : Nat} (hn : ∀ c, n ≤ c → w.calls c = none) (hs : w.freshStep cfg n l = some w') :
    w.Fresh l := by
  rintro c env call rfl hc hg
  simp only [World.freshStep, hc] at hs
  split at hs
  · rename_i hnew
    simp only [Option.all_some, hg, Bool.not_true, Bool.false_or] at hnew
    exact World.newBelow_new hn hnew
  · cases hs

theorem World.reach_fresh {n : Nat} {ls : List Label} (ok : Label → Prop) (hn : ∀ c, n ≤ c → w.calls c = none)
    (hls : ∀ l ∈ ls, ok l) (h : exec (World.freshStep cfg n) w ls = some w') :
    (∀ c, n ≤ c → w'.calls c = none) ∧ Reach (World.step cfg) (fun v l => ok l ∧ v.Fresh l) w w' := by
  have hr : Reach (World.freshStep cfg n) (fun _ l => ok l) w w' := reach_of_exec (fun _ => hls) h
  exact hr.invariant
    (P := fun v => (∀ c, n ≤ c → v.calls c = none) ∧ Reach (World.step cfg) (fun v l => ok l ∧ v.Fresh l) w v)
    (fun _ l _ hp hl hs => ⟨World.freshStep_below hp.1 hs,
      Reach.snoc l hp.2 ⟨hl, World.freshStep_fresh hp.1 hs⟩ (World.freshStep_step hs)⟩)
    ⟨hn, Reach.refl⟩

end

/-! ## What a statement waits for -/

theorem Res.bind_wait {α β : Type} {r : Res α} {f : α → Res β} {ys : List Xid} :
    (r >>= f) = .wait ys ↔ r = .wait ys ∨ ∃ a, r = .ok a ∧ f a = .wait ys := by
  cases r <;> simp [bind, Res.bind]

theorem Db.await_wait {db : Db} {x : Xid} {p : Work → Bool} {ys : List Xid} (h : db.await x p = .wait ys) :
    ys ≠ [] ∧ ∀ y ∈ ys, y ≠ x ∧ ∃ ty, db.txns y = some ty ∧ p ty.work = true := by
  unfold Db.await at h
  split at h
  · cases h
  · rename_i hne
    cases h
    refine ⟨hne, fun y hy => ?_⟩
    have := (List.mem_filter.mp hy).2
    simpa only [Bool.and_eq_true, decide_eq_true_eq, Option.any_eq_true] using this

theorem Db.unique_wait {db : Db} {x : Xid} {con : Constraint} {dup : Bool} {p : Work → Bool} {ys : List Xid}
    (h : db.unique x con dup p = .wait ys) :
    ys ≠ [] ∧ ∀ y ∈ ys, y ≠ x ∧ ∃ ty, db.txns y = some ty ∧ p ty.work = true := by
  unfold Db.unique at h
  split at h
  · cases h
  · exact Db.await_wait h

theorem Transfers.Call.rows_generated {cfg : Config} {call : Call} {x : Xid} {now : Timestamp} {r : Row.Transaction}
    (hr : r ∈ call.rows cfg x now) : r.id ∈ call.pc.generated ∧ r.idempotencyKey = call.key := by
  cases hpc : call.pc with
  | lock | adjustFrom | adjustTo | insertCredit | insertDebit | commit =>
    simp only [Call.rows, hpc, List.mem_singleton] at hr
    rw [hr]
    exact ⟨List.mem_cons_self .., rfl⟩
  | _ =>
    simp only [Call.rows, hpc] at hr
    cases hr

theorem Transfers.Call.entries_generated {call : Call} {x : Xid} {now : Timestamp} {e : Row.Entry}
    (he : e ∈ call.entries x now) : e.id ∈ call.pc.generated := by
  cases hpc : call.pc with
  | insertDebit x' id sender receiver cid did =>
    simp only [Call.entries, hpc, List.mem_singleton] at he
    rw [he]
    exact List.mem_cons_of_mem _ (List.mem_cons_self ..)
  | commit x' id sender receiver cid did =>
    simp only [Call.entries, hpc, Spec.Transfer.entries, List.mem_cons, List.not_mem_nil, or_false] at he
    rcases he with rfl | rfl <;>
      simp [Pc.generated, Spec.Transfer.credit, Spec.Transfer.debit, Spec.Transfer.entry, Call.transfer]
  | _ =>
    simp only [Call.entries, hpc] at he
    cases he

theorem Transfers.SessionOk.generated {cfg : Config} {t : Tables} {call : Call} {x : Xid} {txn : Txn}
    (h : SessionOk cfg t call x txn) (hs : call.pc.session = some x) :
    (∀ r ∈ txn.work.transactions, r.id ∈ call.pc.generated ∧ r.idempotencyKey = call.key) ∧
      ∀ e ∈ txn.work.entries, e.id ∈ call.pc.generated := by
  obtain ⟨ups, hsh⟩ := h.wrote hs
  rw [hsh.transactions, hsh.entries]
  exact ⟨fun r hr => Call.rows_generated hr, fun e he => Call.entries_generated he⟩

section
variable {cfg : Config} {w : World} (h : Inv cfg w) (hap : w.Apart)
include h

theorem Inv.behind {y : Xid} {ty : Txn} (hy : w.db.txns y = some ty) :
    ∃ c call, w.calls c = some call ∧ call.pc.session = some y ∧ SessionOk cfg w.db.tables call y ty := by
  obtain ⟨c, call, hc, hs⟩ := h.owned y ty hy
  obtain ⟨ty', hy', -, hok⟩ := h.session c call y hc hs
  rw [hy, Option.some.injEq] at hy'
  exact ⟨c, call, hc, hs, hy' ▸ hok⟩

include hap

theorem Inv.apart {c : Nat} {call : Call} (hc : w.calls c = some call) {x y : Xid} {ty : Txn}
    (hs : call.pc.session = some x) (hne : y ≠ x) (hy : w.db.txns y = some ty) {id : Uuid}
    (hid : id ∈ call.pc.generated) :
    (∀ r ∈ ty.work.transactions, r.id ≠ id) ∧ ∀ e ∈ ty.work.entries, e.id ≠ id := by
  obtain ⟨c', call', hc', hs', hok⟩ := h.behind hy
  obtain ⟨htx, hen⟩ := hok.generated hs'
  have hcc : c ≠ c' := by
    rintro rfl
    rw [hc, Option.some.injEq] at hc'
    rw [← hc', hs, Option.some.injEq] at hs'
    exact hne hs'.symm
  have hout := hap c c' call call' hc hc' hcc id hid
  exact ⟨fun r hr he => hout (he ▸ (htx r hr).1), fun e he hee => hout (hee ▸ hen e he)⟩

theorem Inv.waiting {c : Nat} {call : Call} (hc : w.calls c = some call) {x : Xid} {txn : Txn} {st : Stmt}
    (hst : call.stmt cfg = some (x, st)) (hx : w.db.txns x = some txn) {ys : List Xid}
    (hex : w.db.exec cfg.schema x txn st = .wait ys) :
    ys ≠ [] ∧ ∀ y ∈ ys, y ≠ x ∧ ∃ ty, w.db.txns y = some ty ∧ call.Wants ty.work := by
  -- the insert of an entry would only wait for a duplicate of its id
  have entry : ∀ {id : Uuid} {dup : Bool} {work : Work}, call.pc.session = some x → id ∈ call.pc.generated →
      w.db.exec cfg.schema x txn st = (do
        w.db.unique x .entries_pkey dup fun w => w.entries.any (·.id = id)
        return (work, none)) → False := by
    intro id dup work hs hid hout
    rw [hout] at hex
    rcases Res.bind_wait.mp hex with hw | ⟨_, -, hw⟩
    · obtain ⟨hne, hall⟩ := Db.unique_wait hw
      obtain ⟨y, hy⟩ := List.exists_mem_of_ne_nil _ hne
      obtain ⟨hyx, ty, hty, hany⟩ := hall y hy
      obtain ⟨e, he, hee⟩ := List.any_eq_true.mp hany
      exact (h.apart hap hc hs hyx hty hid).2 e he (of_decide_eq_true hee)
    · cases hw
  cases hpc : call.pc with
  | claim x' id =>
    simp only [Call.stmt, hpc, Option.some.injEq, Prod.mk.injEq] at hst
    obtain ⟨rfl, rfl⟩ := hst
    obtain ⟨-, txn', work, hx', -, -, -, hout⟩ := h.claim_outcome hc hpc
    rw [hx, Option.some.injEq] at hx'
    subst hx'
    rw [hout] at hex
    split at hex
    · cases hex
    rcases Res.bind_wait.mp hex with hw | ⟨_, -, hex⟩
    · obtain ⟨hne, hall⟩ := Db.unique_wait hw
      obtain ⟨y, hy⟩ := List.exists_mem_of_ne_nil _ hne
      obtain ⟨hyx, ty, hty, hany⟩ := hall y hy
      obtain ⟨r, hr, hre⟩ := List.any_eq_true.mp hany
      exact absurd (of_decide_eq_true hre)
        ((h.apart hap hc (by rw [hpc]; rfl) hyx hty (by rw [hpc]; exact List.mem_cons_self ..)).1 r hr)
    rcases Res.bind_wait.mp hex with hw | ⟨_, -, hw⟩
    · obtain ⟨hne, hall⟩ := Db.unique_wait hw
      refine ⟨hne, fun y hy => ?_⟩
      obtain ⟨hyx, ty, hty, hany⟩ := hall y hy
      obtain ⟨r, hr, hre⟩ := List.any_eq_true.mp hany
      refine ⟨hyx, ty, hty, ?_⟩
      simp only [Call.Wants, hpc]
      exact ⟨r, hr, of_decide_eq_true hre⟩
    · cases hw
  | lock x' id todo locked =>
    cases todo with
    | nil => simp only [Call.stmt, hpc] at hst; cases hst
    | cons a todo =>
      simp only [Call.stmt, hpc, Option.some.injEq, Prod.mk.injEq] at hst
      obtain ⟨rfl, rfl⟩ := hst
      obtain ⟨-, txn', hx', -, -, -, -, -, hout⟩ := h.lock_outcome hc hpc
      rw [hx, Option.some.injEq] at hx'
      subst hx'
      rw [hout] at hex
      split at hex
      · cases hex
      rcases Res.bind_wait.mp hex with hw | ⟨_, -, hw⟩
      · obtain ⟨hne, hall⟩ := Db.await_wait hw
        refine ⟨hne, fun y hy => ?_⟩
        obtain ⟨hyx, ty, hty, hl⟩ := hall y hy
        refine ⟨hyx, ty, hty, ?_⟩
        simp only [Call.Wants, hpc]
        exact hl
      · cases hw
  | adjustFrom x' id sender receiver =>
    simp only [Call.stmt, hpc, Option.some.injEq, Prod.mk.injEq] at hst
    obtain ⟨rfl, rfl⟩ := hst
    obtain ⟨-, txn', s, r, hx', -, -, -, hout⟩ := h.adjustFrom_outcome hc hpc
    rw [hx, Option.some.injEq] at hx'
    subst hx'
    rcases hout with ⟨s', work, -, -, hout⟩ | ⟨-, hout⟩ <;> cases hout.symm.trans hex
  | adjustTo x' id sender receiver =>
    simp only [Call.stmt, hpc, Option.some.injEq, Prod.mk.injEq] at hst
    obtain ⟨rfl, rfl⟩ := hst
    obtain ⟨-, txn', s, r, s', hx', -, -, -, -, hout⟩ := h.adjustTo_outcome hc hpc
    rw [hx, Option.some.injEq] at hx'
    subst hx'
    rcases hout with ⟨r', work, -, -, hout⟩ | ⟨-, hout⟩ <;> cases hout.symm.trans hex
  | insertCredit x' id sender receiver cid =>
    simp only [Call.stmt, hpc, Option.some.injEq, Prod.mk.injEq] at hst
    obtain ⟨rfl, rfl⟩ := hst
    obtain ⟨-, txn', s, r, s', r', work, hx', -, -, -, -, -, -, hout⟩ := h.insertCredit_outcome hc hpc
    rw [hx, Option.some.injEq] at hx'
    subst hx'
    exact absurd hout fun hout => entry (by rw [hpc]; rfl) (by rw [hpc]; simp [Pc.generated]) hout
  | insertDebit x' id sender receiver cid did =>
    simp only [Call.stmt, hpc, Option.some.injEq, Prod.mk.injEq] at hst
    obtain ⟨rfl, rfl⟩ := hst
    obtain ⟨-, txn', s, r, s', r', work, hx', -, -, -, -, -, -, hout⟩ := h.insertDebit_outcome hc hpc
    rw [hx, Option.some.injEq] at hx'
    subst hx'
    exact absurd hout fun hout => entry (by rw [hpc]; rfl) (by rw [hpc]; simp [Pc.generated]) hout
  | lookup | begin | rollback | relookup | commit | getTransaction | getEntries | done | cancelled | panicked =>
    simp only [Call.stmt, hpc] at hst
    cases hst

theorem Inv.blocked {c : Nat} {call : Call} (hc : w.calls c = some call) {y : Xid}
    (hy : y ∈ call.blockers cfg w.db) : ∃ x ty, call.pc.session = some x ∧ y ≠ x ∧ w.db.txns y = some ty ∧
      call.Wants ty.work := by
  unfold Call.blockers at hy
  split at hy
  · cases hy
  · rename_i x st hst
    split at hy
    · rename_i ys hex
      obtain ⟨txn, hx, hex⟩ := Option.map_eq_some_iff.mp hex
      obtain ⟨hyx, ty, hty, hwants⟩ := (h.waiting hap hc hst hx hex).2 y hy
      exact ⟨x, ty, Call.stmt_session hst, hyx, hty, hwants⟩
    · cases hy

end

/-! ## The order of waiting -/

namespace Transfers

/-- Connections come before claims, claims before rows, and rows by ascending id. -/
def Call.rank (call : Call) (held : Bool) : Nat :=
  match call.pc with
  | .claim _ _ => 2 ^ 128 + 1
  | .lock _ _ (accountId :: _) _ => 2 ^ 128 - accountId.val
  | pc => if pc.session.isSome || held then 0 else 2 ^ 128 + 2

theorem Call.rank_le {call : Call} {held : Bool} (h : call.pc.session.isSome = true ∨ held = true) :
    call.rank held ≤ 2 ^ 128 + 1 := by
  unfold Call.rank
  split
  · exact Nat.le_refl _
  · omega
  · rw [if_pos (by simpa using h)]
    exact Nat.zero_le _

theorem Call.rank_pool {call : Call} (hs : call.pc.session = none) : call.rank false = 2 ^ 128 + 2 := by
  unfold Call.rank
  split
  · rename_i hpc; rw [hpc] at hs; cases hs
  · rename_i hpc; rw [hpc] at hs; cases hs
  · rw [hs]; rfl

theorem lockOrder_ascending {i : TransferIntent} (h : i.fromAccountId ≠ i.toAccountId) :
    (lockOrder i).Pairwise (· < ·) := by
  unfold lockOrder
  split
  · rename_i hlt
    simpa using hlt
  · rename_i hge
    simpa using lt_of_le_of_ne (not_lt.mp hge) h

theorem Work.locked_mem {w : Work} {id : Uuid} {mode : LockMode} (h : w.locked id mode = true) :
    ∃ l ∈ w.locks, l.1 = id := by
  obtain ⟨l, hl, hc⟩ := List.any_eq_true.mp h
  rw [Bool.and_eq_true, decide_eq_true_eq] at hc
  exact ⟨l, hl, hc.1⟩

theorem Call.Wants.at {call : Call} {work : Work} (h : call.Wants work) :
    (call.rank true = 2 ^ 128 + 1 ∧ work.transactions ≠ []) ∨
      ∃ a : Uuid, call.rank true = 2 ^ 128 - a.val ∧ ∃ l ∈ work.locks, l.1 = a := by
  cases hpc : call.pc with
  | claim =>
    simp only [Call.Wants, hpc] at h
    obtain ⟨r, hr, -⟩ := h
    exact Or.inl ⟨by simp only [Call.rank, hpc], List.ne_nil_of_mem hr⟩
  | lock x id todo locked =>
    cases todo with
    | nil => simp only [Call.Wants, hpc] at h
    | cons a todo =>
      simp only [Call.Wants, hpc] at h
      exact Or.inr ⟨a, by simp only [Call.rank, hpc], Work.locked_mem h⟩
  | _ => simp only [Call.Wants, hpc] at h

/-- A call that others wait for has less to wait for than they have. -/
theorem SessionOk.rank_lt {cfg : Config} {t : Tables} {call call' : Call} {y : Xid} {ty : Txn}
    (hok : SessionOk cfg t call' y ty) (hv : Validated call'.intent) (hs' : call'.pc.session = some y)
    (hw : call.Wants ty.work) : call'.rank true < call.rank true := by
  have hat := hw.at
  -- someone who is still to claim holds nothing
  have early : ty.work.Shape [] [] [] [] → False := by
    intro hsh
    rcases hat with ⟨-, hne⟩ | ⟨a, -, l, hl, -⟩
    · exact hne hsh.transactions
    · exact absurd (hsh.only l hl) List.not_mem_nil
  have late : call'.rank true = 0 → call'.rank true < call.rank true := by
    intro h0
    rcases hat with ⟨hr, -⟩ | ⟨a, hr, -⟩
    · omega
    · have := a.isLt
      omega
  cases hpc' : call'.pc with
  | claim =>
    simp only [SessionOk, hpc'] at hok
    exact (early hok.2).elim
  | rollback =>
    simp only [SessionOk, hpc'] at hok
    exact (early hok).elim
  | lock y' id todo locked =>
    simp only [SessionOk, hpc'] at hok
    obtain ⟨-, hsh, ho, hne, -⟩ := hok
    cases todo with
    | nil => exact absurd rfl hne
    | cons b todo =>
      have hb := b.isLt
      have hrank : call'.rank true = 2 ^ 128 - b.val := by simp only [Call.rank, hpc']
      rcases hat with ⟨hr, -⟩ | ⟨a, hr, l, hl, rfl⟩
      · omega
      · -- the row it holds comes before the one it is about to lock
        have hm := List.mem_reverse.mpr (hsh.only l hl)
        have hasc := lockOrder_ascending hv.1
        rw [← ho] at hasc
        have hlt := (List.pairwise_append.mp hasc).2.2 _ hm b (List.mem_cons_self ..)
        rw [Fin.lt_def] at hlt
        omega
  | adjustFrom | adjustTo | insertCredit | insertDebit | commit =>
    exact late (by simp only [Call.rank, hpc']; rfl)
  | lookup | begin | relookup | getTransaction | getEntries | done | cancelled | panicked =>
    rw [hpc'] at hs'; cases hs'

end Transfers

section
variable {cfg : Config} {w : World} (h : Inv cfg w) (hap : w.Apart)

def World.rank (w : World) (c : Nat) : Nat :=
  match w.calls c with
  | none => 0
  | some call => call.rank (decide (c ∈ w.held))

include h

theorem Inv.validated_session {c : Nat} {call : Call} (hc : w.calls c = some call) {x : Xid}
    (hs : call.pc.session = some x) : Validated call.intent := by
  have hok := h.call c call hc
  cases hpc : call.pc with
  | rollback =>
    simp only [CallOk, hpc] at hok
    exact hok.1
  | claim | lock | adjustFrom | adjustTo | insertCredit | insertDebit | commit =>
    simpa only [CallOk, hpc] using hok
  | lookup | begin | relookup | getTransaction | getEntries | done | cancelled | panicked =>
    rw [hpc] at hs; cases hs

theorem Inv.rank_session {c : Nat} {call : Call} (hc : w.calls c = some call) {x : Xid}
    (hs : call.pc.session = some x) : w.rank c = call.rank true := by
  have hm := h.held c call hc (by rw [hs]; rfl)
  simp only [World.rank, hc, hm, decide_true]

include hap in
theorem Inv.rank_lt (c c' : Nat) (hw : WaitsFor cfg w c c') : w.rank c' < w.rank c := by
  cases hw with
  | @statement call call' y hc hy hc' hs' =>
    obtain ⟨x, ty, hs, -, hty, hwants⟩ := h.blocked hap hc hy
    obtain ⟨ty', hty', -, hok⟩ := h.session c' call' y hc' hs'
    rw [hty, Option.some.injEq] at hty'
    rw [h.rank_session hc hs, h.rank_session hc' hs']
    exact (hty' ▸ hok).rank_lt (h.validated_session hc' hs') hs' hwants
  | @pool call hc hn hfull hm hp =>
    obtain ⟨call', hc', -⟩ := h.running c' hm
    have h1 : w.rank c = 2 ^ 128 + 2 := by
      simp only [World.rank, hc, hn.2.2, decide_false]
      exact Call.rank_pool hn.2.1
    have h2 : w.rank c' ≤ 2 ^ 128 + 1 := by
      simp only [World.rank, hc', hm, decide_true]
      exact Call.rank_le (Or.inr rfl)
    omega

/-! ## Progress -/

include hap in
theorem Inv.runs {c : Nat} {call : Call} (hc : w.calls c = some call) (hrun : call.pc.running = true)
    (hb : call.blockers cfg w.db = []) (id : Uuid) (now : Timestamp) :
    ∃ scan, (call.run cfg w.db { id, now, scan }).isSome = true := by
  have stmt : ∀ {x : Xid} {st : Stmt} {k : Option Row.Account → Next}, call.stmt cfg = some (x, st) →
      (statement cfg w.db call.pc x st k).isSome = true := by
    intro x st k hst
    obtain ⟨txn, hx, -⟩ := h.session c call x hc (Call.stmt_session hst)
    simp only [statement, hx, Option.bind_some]
    split
    · rfl
    · rfl
    · rename_i ys hex
      have hne := (h.waiting hap hc hst hx hex).1
      simp only [Call.blockers, hst, hx, Option.map_some, hex] at hb
      exact absurd hb hne
  cases hpc : call.pc with
  | getEntries outcome id =>
    refine ⟨Transactions.entriesOf w.db.tables id, ?_⟩
    simp only [Call.run, hpc, List.Perm.refl, if_true]
    rfl
  | lookup | begin | rollback | relookup | getTransaction =>
    refine ⟨[], ?_⟩
    simp only [Call.run, hpc]
    rfl
  | claim | adjustFrom | adjustTo | insertCredit | insertDebit =>
    refine ⟨[], ?_⟩
    simp only [Call.run, hpc]
    rw [← hpc]
    exact stmt (by simp only [Call.stmt, hpc])
  | lock x id' todo locked =>
    refine ⟨[], ?_⟩
    cases todo with
    | nil => simp only [Call.run, hpc]; rfl
    | cons a todo =>
      simp only [Call.run, hpc]
      rw [← hpc]
      exact stmt (by simp only [Call.stmt, hpc])
  | commit x =>
    refine ⟨[], ?_⟩
    obtain ⟨txn, hx, -⟩ := h.session c call x hc (by rw [hpc]; rfl)
    simp only [Call.run, hpc, hx, Option.map_some]
    rfl
  | done | cancelled | panicked => rw [hpc] at hrun; cases hrun

def World.CanStep (cfg : Config) (w : World) (c : Nat) : Prop :=
  (w.step cfg (.acquire c)).isSome = true ∨
    ∀ id now, ∃ scan, (w.step cfg (.run c { id, now, scan })).isSome = true

include hap in
theorem Inv.steps_or_waits (hpool : ∀ p, 1 ≤ cfg.poolSize p) {c : Nat} {call : Call} (hc : w.calls c = some call)
    (hrun : call.pc.running = true) : w.CanStep cfg c ∨ ∃ c', WaitsFor cfg w c c' := by
  by_cases hm : c ∈ w.held
  · cases hb : call.blockers cfg w.db with
    | nil =>
      refine Or.inl (Or.inr fun id now => ?_)
      obtain ⟨scan, hs⟩ := h.runs hap hc hrun hb id now
      refine ⟨scan, ?_⟩
      simp only [World.step, hc, Option.bind_some, World.run, if_pos hm, Option.isSome_map, hs]
    | cons y ys =>
      have hy : y ∈ call.blockers cfg w.db := by rw [hb]; exact List.mem_cons_self ..
      obtain ⟨x, ty, -, -, hty, -⟩ := h.blocked hap hc hy
      obtain ⟨c', call', hc', hs'⟩ := h.owned y ty hty
      exact Or.inr ⟨c', .statement hc hy hc' hs'⟩
  · have hs : call.pc.session = none := by
      by_contra hs
      exact hm (h.held c call hc (Option.isSome_iff_ne_none.mpr hs))
    cases hf : w.free cfg (cfg.process c) with
    | true =>
      refine Or.inl (Or.inl ?_)
      simp only [World.step, hc, Option.bind_some, World.acquire, hrun, hs, hm, hf, not_false_eq_true, and_self,
        if_true, Option.isSome_some]
    | false =>
      have hfull : ¬ (w.held.filter fun c' => cfg.process c' = cfg.process c).length <
          cfg.poolSize (cfg.process c) := by
        simpa only [World.free, decide_eq_false_iff_not] using hf
      have hne : (w.held.filter fun c' => cfg.process c' = cfg.process c) ≠ [] := by
        intro hnil
        have := hpool (cfg.process c)
        rw [hnil] at hfull
        exact hfull this
      obtain ⟨c', hc'⟩ := List.exists_mem_of_ne_nil _ hne
      obtain ⟨hm', hp⟩ := List.mem_filter.mp hc'
      exact Or.inr ⟨c', .pool hc ⟨hrun, hs, hm⟩ hf hm' (of_decide_eq_true hp)⟩

end

def Transfers.Pc.writes : Pc → Bool
  | adjustFrom .. | adjustTo .. | insertCredit .. | insertDebit .. | commit .. => true
  | _ => false

/-- **Deadlock freedom.** In every state of a run in which generated ids are fresh: no
circle of calls wait for one another; whoever cannot take a step waits for someone, so as
long as a call is under way some call under way can take a step. A statement waits only
for another call's claim of the key or its lock on the row; the balance updates, the entry
inserts and the commit never wait; and a call that needs a connection has no transaction
open, so it holds no claim and no lock. -/
theorem deadlock_free (cfg : Config) (hpool : ∀ p, 1 ≤ cfg.poolSize p) {w : World}
    (hr : Reach (World.step cfg) World.Fresh World.init w) :
    (∀ c, ¬ Relation.TransGen (WaitsFor cfg w) c c) ∧
    (∀ c call, w.calls c = some call → call.pc.running = true →
      w.CanStep cfg c ∨ ∃ c', WaitsFor cfg w c c') ∧
    ((∃ c call, w.calls c = some call ∧ call.pc.running = true) →
      ∃ c call, w.calls c = some call ∧ call.pc.running = true ∧ w.CanStep cfg c) ∧
    (∀ c call y, w.calls c = some call → y ∈ call.blockers cfg w.db → ∃ c' call' ty, c' ≠ c ∧
      w.calls c' = some call' ∧ call'.pc.session = some y ∧ w.db.txns y = some ty ∧ call.Wants ty.work) ∧
    (∀ c call, w.calls c = some call → call.pc.writes = true → call.blockers cfg w.db = []) ∧
    ∀ c call, w.calls c = some call → w.NeedsConnection c call → ∀ x txn, w.db.txns x = some txn →
      ∃ c' call', c' ≠ c ∧ w.calls c' = some call' ∧ call'.pc.session = some x := by
  have h := Inv.reach hr
  have hap := World.Apart.reach hr
  refine ⟨WaitFor.acyclic (h.rank_lt hap), fun c call hc hrun => h.steps_or_waits hap hpool hc hrun, ?_, ?_, ?_, ?_⟩
  · rintro ⟨c, call, hc, hrun⟩
    have closed : ∀ c c', (∃ call, w.calls c = some call ∧ call.pc.running = true) → WaitsFor cfg w c c' →
        ∃ call, w.calls c' = some call ∧ call.pc.running = true := by
      rintro c c' - hw
      cases hw with
      | statement _ _ hc' hs' => exact ⟨_, hc', Pc.running_of_session (by rw [hs']; rfl)⟩
      | pool _ _ _ hm _ => exact h.running c' hm
    obtain ⟨b, ⟨callb, hcb, hrunb⟩, hfree⟩ := WaitFor.exists_free (h.rank_lt hap) closed ⟨call, hc, hrun⟩
    rcases h.steps_or_waits hap hpool hcb hrunb with hstep | ⟨c', hw⟩
    · exact ⟨b, callb, hcb, hrunb, hstep⟩
    · exact absurd hw (hfree c')
  · intro c call y hc hy
    obtain ⟨x, ty, hs, hne, hty, hwants⟩ := h.blocked hap hc hy
    obtain ⟨c', call', hc', hs'⟩ := h.owned y ty hty
    refine ⟨c', call', ty, ?_, hc', hs', hty, hwants⟩
    rintro rfl
    rw [hc, Option.some.injEq] at hc'
    rw [← hc', hs, Option.some.injEq] at hs'
    exact hne hs'.symm
  · intro c call hc hwr
    rw [List.eq_nil_iff_forall_not_mem]
    intro y hy
    obtain ⟨x, ty, -, -, -, hwants⟩ := h.blocked hap hc hy
    cases hpc : call.pc <;> simp only [Call.Wants, hpc] at hwants
    all_goals rw [hpc] at hwr; cases hwr
  · intro c call hc hn x txn hx
    obtain ⟨c', call', hc', hs'⟩ := h.owned x txn hx
    refine ⟨c', call', ?_, hc', hs'⟩
    rintro rfl
    rw [hc, Option.some.injEq] at hc'
    rw [← hc', hn.2.1] at hs'
    cases hs'

/-- Two processes with one connection each. -/
def crowded : Config := { sample true with process := fun c => c % 2 }

/-- Call 0 has claimed the key, call 1 is about to claim it too, and call 2 has no connection. -/
def crowdedRun : List Label :=
  [.create 0 (sampleEnv 1) "bank" ⟨"EUR"⟩ true, .create 0 (sampleEnv 2) "landlord" ⟨"EUR"⟩ false,
    .invoke 0 "rent-1" rent, .invoke 1 "rent-1" rent, .invoke 2 "rent-1" rent] ++
  onPool 0 0 ++ onPool 0 3 ++ onPool 1 0 ++ onPool 1 4 ++ [.run 0 (sampleEnv 0)]

theorem deadlock_free_crowdedRun : ∃ w, Reach (World.step crowded) World.Fresh World.init w ∧
    WaitsFor crowded w 1 0 ∧ WaitsFor crowded w 2 0 ∧ (∀ c, ¬ Relation.TransGen (WaitsFor crowded w) c c) ∧
    ∃ c call, w.calls c = some call ∧ call.pc.running = true ∧ w.CanStep crowded c := by
  have h : (exec (World.freshStep crowded 3) World.init crowdedRun).any (fun w => decide (
      ((w.calls 0).any fun call => call.pc.session = some 2) ∧ 0 ∈ w.held ∧
      ((w.calls 1).any fun call => 2 ∈ call.blockers crowded w.db) ∧
      ((w.calls 2).any fun call => call.pc.running ∧ call.pc.session = none) ∧ 2 ∉ w.held ∧
      w.free crowded 0 = false)) = true := by decide +kernel
  obtain ⟨w, hw, h⟩ := (Option.any_eq_true _ _).mp h
  obtain ⟨h0, hm, h1, h2, hn, hfull⟩ := of_decide_eq_true h
  obtain ⟨call₀, hc0, hs0⟩ := (Option.any_eq_true _ _).mp h0
  obtain ⟨call₁, hc1, hb1⟩ := (Option.any_eq_true _ _).mp h1
  obtain ⟨call₂, hc2, hr2⟩ := (Option.any_eq_true _ _).mp h2
  obtain ⟨hrun2, hs2⟩ := of_decide_eq_true hr2
  have hr : Reach (World.step crowded) World.Fresh World.init w :=
    (World.reach_fresh (fun _ => True) (fun _ _ => rfl) (fun _ _ => trivial) hw).2.mono (P := fun _ => True)
      (fun _ _ _ _ _ _ => trivial) (fun _ _ _ hf => hf.2) trivial
  have hd := deadlock_free crowded (fun _ => Nat.le_refl 1) hr
  exact ⟨w, hr, .statement hc1 (of_decide_eq_true hb1) hc0 (of_decide_eq_true hs0),
    .pool hc2 ⟨hrun2, hs2, hn⟩ hfull hm rfl, hd.1, hd.2.2.1 ⟨2, call₂, hc2, hrun2⟩⟩

end Ledger
