import Ledger.Solo

/-!
# The rules are checked before they are enforced

The schema states the ledger's rules once more, as `CHECK`s, foreign keys and
triggers. Under any interleaving `execute_once` trips none of them, and its `COMMIT`
is never refused: what the program has read under its locks still holds when the
database looks. So an overdraft is always found by the program's own check.
-/

namespace Ledger

open Keyed Runs Transfers

/-- What a `CHECK`, a foreign key or one of the triggers raises. -/
def SqlxError.ledgerRule : SqlxError → Bool
  | .database code _ => code = .checkViolation || code = .foreignKeyViolation || code = .restrictViolation
  | _ => false

theorem SqlxError.not_overdraft {err : SqlxError} (h : err.ledgerRule = false) :
    isOverdraftViolation err = false := by
  rw [Bool.eq_false_iff]
  intro ho
  rw [overdraft_iff.mp ho] at h
  cases h

theorem SqlxError.spontaneous_rule {err : SqlxError} (h : err.spontaneous = true) : err.ledgerRule = false := by
  cases err with
  | database code constraint => cases code <;> first | rfl | cases h
  | _ => rfl

namespace Transfers

/-- The errors a call may get back where it is: from its statement, from its `COMMIT`,
or from outside. -/
inductive Call.Meets (cfg : Config) (db : Db) (call : Call) : SqlxError → Prop
  | stmt {x : Xid} {s : Stmt} {txn : Txn} {err : SqlxError} (hst : call.stmt cfg = some (x, s))
      (hx : db.txns x = some txn) (he : db.exec cfg.schema x txn s = .error err) : Meets cfg db call err
  | commit {x : Xid} {id creditId debitId : Uuid} {sender receiver : AccountRow} {txn : Txn} {err : SqlxError}
      (hpc : call.pc = .commit x id sender receiver creditId debitId) (hx : db.txns x = some txn)
      (he : db.commit x txn = .error err) : Meets cfg db call err
  | outside {err : SqlxError} (he : err.spontaneous = true) : Meets cfg db call err

end Transfers

def SqlxError.data : SqlxError → Bool
  | .database code _ =>
      code = .uniqueViolation || code = .numericValueOutOfRange || code = .characterNotInRepertoire
  | _ => false

theorem SqlxError.data_rule {err : SqlxError} (h : err.data = true) :
    err.ledgerRule = false ∧ isRetryableConflict err = false := by
  cases err with
  | database code con => cases code <;> first | exact ⟨rfl, rfl⟩ | cases h
  | _ => cases h

theorem unique_data {db : Db} {x : Xid} {c : Constraint} {dup : Bool} {p : Work → Bool} {err : SqlxError}
    (h : db.unique x c dup p = .error err) : err.data = true := by
  rw [(Db.unique_error h).2]
  rfl

theorem await_error {db : Db} {x : Xid} {p : Work → Bool} {err : SqlxError} : db.await x p ≠ .error err := by
  unfold Db.await
  split <;> exact fun h => by cases h

namespace Inv

variable {cfg : Config} {w : World} (h : Inv cfg w) {c : Nat} {call : Call} (hc : w.calls c = some call)
include h hc

theorem stmt_data {x : Xid} {s : Stmt} {txn : Txn} {err : SqlxError} (hst : call.stmt cfg = some (x, s))
    (hx : w.db.txns x = some txn) (he : w.db.exec cfg.schema x txn s = .error err) : err.data = true := by
  unfold Call.stmt at hst
  cases hpc : call.pc with
  | claim y id =>
    rw [hpc] at hst
    cases hst
    obtain ⟨-, txn', work, hx', -, -, -, hout⟩ := h.claim_outcome hc hpc
    cases hx.symm.trans hx'
    rw [hout] at he
    split at he
    · cases he; rfl
    · rcases Res.bind_error.mp he with he | ⟨_, -, he⟩
      · exact unique_data he
      · rcases Res.bind_error.mp he with he | ⟨_, -, he⟩
        · exact unique_data he
        · cases he
  | lock y id todo locked =>
    cases todo with
    | nil => rw [hpc] at hst; cases hst
    | cons accountId todo =>
      rw [hpc] at hst
      cases hst
      obtain ⟨-, txn', hx', -, -, -, -, -, hout⟩ := h.lock_outcome hc hpc
      cases hx.symm.trans hx'
      rw [hout] at he
      split at he
      · cases he
      · rcases Res.bind_error.mp he with he | ⟨_, -, he⟩
        · exact absurd he await_error
        · cases he
  | adjustFrom y id sender receiver =>
    rw [hpc] at hst
    cases hst
    obtain ⟨-, txn', s, r, hx', -, -, -, ⟨_, _, -, -, hout⟩ | ⟨-, hout⟩⟩ := h.adjustFrom_outcome hc hpc
    · cases hx.symm.trans hx'
      cases he.symm.trans hout
    · cases hx.symm.trans hx'
      cases he.symm.trans hout
      rfl
  | adjustTo y id sender receiver =>
    rw [hpc] at hst
    cases hst
    obtain ⟨-, txn', s, r, s', hx', -, -, -, -, ⟨_, _, -, -, hout⟩ | ⟨-, hout⟩⟩ := h.adjustTo_outcome hc hpc
    · cases hx.symm.trans hx'
      cases he.symm.trans hout
    · cases hx.symm.trans hx'
      cases he.symm.trans hout
      rfl
  | insertCredit y id sender receiver cid =>
    rw [hpc] at hst
    cases hst
    obtain ⟨-, txn', s, r, s', r', work, hx', -, -, -, -, -, -, hout⟩ := h.insertCredit_outcome hc hpc
    cases hx.symm.trans hx'
    rcases Res.bind_error.mp (hout.symm.trans he) with he | ⟨_, -, he⟩
    · exact unique_data he
    · cases he
  | insertDebit y id sender receiver cid did =>
    rw [hpc] at hst
    cases hst
    obtain ⟨-, txn', s, r, s', r', work, hx', -, -, -, -, -, -, hout⟩ := h.insertDebit_outcome hc hpc
    cases hx.symm.trans hx'
    rcases Res.bind_error.mp (hout.symm.trans he) with he | ⟨_, -, he⟩
    · exact unique_data he
    · cases he
  | _ => rw [hpc] at hst; cases hst

/-- The claim's id is not in the committed tables, so the deferred check sees the two
entries just written and no others. -/
theorem commit_accepted {x : Xid} {id cid did : Uuid} {sender receiver : AccountRow} {txn : Txn}
    (hpc : call.pc = .commit x id sender receiver cid did) (hx : w.db.txns x = some txn) :
    w.db.commit x txn = .ok { w.db.close x with tables := txn.work.overlay w.db.tables } := by
  obtain ⟨txn', hx', -, hok⟩ := h.session c call x hc (by rw [hpc]; rfl)
  cases hx.symm.trans hx'
  simp only [SessionOk, hpc] at hok
  obtain ⟨hab, s, r, s', r', -, -, -, hsh⟩ := hok
  have hnew : ∀ q ∈ w.db.tables.transactions, q.id ≠ id := by
    intro q hq
    have hd := (distinct_append.mp (h.db.work hx).transactionIds).2.2 q hq
    exact hd (claimRow cfg call x id txn.now) (by rw [hsh.transactions]; exact List.mem_singleton.mpr rfl)
  have hdef := h.deferred_ok hx (call.transfer 0 x id cid did txn.now) hsh hnew
  simp only [Db.commit, hab, hdef]
  rfl

theorem meets_rule {err : SqlxError} (hm : call.Meets cfg w.db err) : err.ledgerRule = false := by
  cases hm with
  | stmt hst hx he => exact (SqlxError.data_rule (h.stmt_data hc hst hx he)).1
  | commit hpc hx he =>
    rw [h.commit_accepted hc hpc hx] at he
    cases he
  | outside he => exact SqlxError.spontaneous_rule he

end Inv

/-! ## Insufficient funds -/

namespace Spec

/-- Both accounts are there, in the transfer's currency; the sender is no funding account
and has less than the amount. -/
structure Short (t : Tables) (i : TransferIntent) (s r : Row.Account) : Prop where
  sender : findAccount t i.fromAccountId = some s
  receiver : findAccount t i.toAccountId = some r
  senderCurrency : s.currency = i.amount.currency.code
  receiverCurrency : r.currency = i.amount.currency.code
  plain : s.allowsNegativeBalance = false
  funds : s.balance.val.lt (.num i.units) = true

theorem refuses_short {i : TransferIntent} {s r : Row.Account} {a : Uuid}
    (h : refuses i s r = some (.insufficientFunds a)) : a = s.id ∧ s.currency = i.amount.currency.code ∧
      r.currency = i.amount.currency.code ∧ s.allowsNegativeBalance = false ∧
      s.balance.val.lt (.num i.units) = true := by
  unfold refuses at h
  by_cases hs : s.currency = i.amount.currency.code
  · by_cases hr : r.currency = i.amount.currency.code
    · cases hf : s.allowsNegativeBalance <;> cases hb : s.balance.val.lt (.num i.units) <;>
        simp [hs, hr, hf, hb] at h
      exact ⟨h.symm, hs, hr, rfl, rfl⟩
    · simp [hs, hr] at h
  · simp [hs] at h

theorem refusal_short {t : Tables} {i : TransferIntent} {a : Uuid} (h : refusal t i = some (.insufficientFunds a)) :
    a = i.fromAccountId ∧ ∃ s r, Short t i s r := by
  unfold refusal at h
  split at h
  · cases h
  split at h
  · cases h
  split at h
  · rename_i s r hs hr
    obtain ⟨ha, h1, h2, h3, h4⟩ := refuses_short h
    exact ⟨ha.trans (Spec.findAccount_some hs).2, s, r, hs, hr, h1, h2, h3, h4⟩
  all_goals cases h

theorem Short.refusal {t : Tables} {i : TransferIntent} {s r : Row.Account} (h : Short t i s r)
    (hv : Validated i) : refusal t i = some (.insufficientFunds i.fromAccountId) := by
  have hpos : (!i.amount.isPositive) = false := by rw [hv.2]; rfl
  simp only [Spec.refusal, hv.1, hpos, h.sender, h.receiver, if_false, Bool.false_eq_true]
  simp [refuses, h.senderCurrency, h.receiverCurrency, h.plain, h.funds, (Spec.findAccount_some h.sender).2]

end Spec

namespace Transfers

variable {cfg : Config} {a : Uuid}

theorem Pc.onError_funds {err : SqlxError} (h : isOverdraftViolation err = false) (pc : Pc) :
    pc.onError err ≠ .ret (.error (.insufficientFunds a)) := by
  cases pc with
  | claim x id =>
    simp only [Pc.onError]
    split <;> exact fun he => by cases he
  | _ => simp [Pc.onError, h]

theorem startPc_funds (intent : TransferIntent) : startPc cfg intent ≠ .done (.error (.insufficientFunds a)) := by
  unfold startPc start validate
  cases cfg.fastPath with
  | true => simp
  | false =>
    simp only [Bool.false_eq_true, if_false]
    split
    · rename_i hg
      split at hg
      · cases hg
      split at hg
      · cases hg
      · cases hg; exact fun he => by cases he
    · rename_i hg
      split at hg
      · cases hg; exact fun he => by cases he
      split at hg
      · cases hg; exact fun he => by cases he
      · cases hg
    · exact fun he => by cases he

theorem Call.finish_funds {call : Call} {r : Except LedgerError TransferResult}
    (h : (call.finish cfg r).pc = .done (.error (.insufficientFunds a))) : r = .error (.insufficientFunds a) := by
  unfold Call.finish at h
  split at h
  · split at h
    · exact absurd h (startPc_funds _)
    · cases h
  · simpa using h

theorem Ran.running {w : World} {c : Nat} {call : Call} {db : Db} {next : Next} {evs : List Spec.Event} {pc : Pc}
    (h : Ran cfg w c call db next evs) (hn : next = .goto pc) : pc.running = true := by
  cases h with
  | stays _ _ hrun => cases hn; exact hrun
  | leaves _ _ hrun => cases hn; exact hrun
  | writes _ hs' => cases hn; exact Pc.running_of_session (by rw [hs']; rfl)
  | opens => cases hn; rfl
  | commits => cases hn; rfl
  | breaks | refuses | answers => cases hn

def LockedBoth (cfg : Config) (db : Db) (intent : TransferIntent) (x : Xid) (accountId : Uuid) : Prop :=
  ∃ txn work row, db.txns x = some txn ∧
    db.exec cfg.schema x txn (Accounts.fetchForUpdate accountId) = .ok (work, some row) ∧
    (intent.fromAccountId, .update) ∈ work.locks ∧ (intent.toAccountId, .update) ∈ work.locks

end Transfers

namespace Inv

variable {cfg : Config} {w : World} (h : Inv cfg w) {c : Nat} {call : Call} (hc : w.calls c = some call)
include h hc

theorem last_lock {x : Xid} {id accountId : Uuid} {locked : List AccountRow} {env : Env} {db : Db} {next : Next}
    (hpc : call.pc = .lock x id [accountId] locked) (hr : call.run cfg w.db env = some (db, next)) :
    (Spec.findAccount w.db.tables accountId = none ∧ next = .ret (.error (.accountNotFound accountId))) ∨
    LockedBoth cfg w.db call.intent x accountId ∧
      ((∃ sender receiver s r, Under cfg w.db.tables call.intent sender receiver s r ∧
        next = .goto (.adjustFrom x id sender receiver)) ∨
      ∃ err, next = .ret (.error err) ∧ Spec.refusal w.db.tables call.intent = some err) := by
  obtain ⟨hv, txn, hx, hsp, hab, hsh, ho, hrows, hout⟩ := h.lock_outcome hc hpc
  simp only [Call.run, hpc] at hr
  rcases statement_some hx hr with ⟨work, row, hex, -, rfl⟩ | ⟨err, hex, -, -⟩
  · have hex' := hex
    rw [hout] at hex
    cases ha : Spec.findAccount w.db.tables accountId with
    | none =>
      rw [ha] at hex
      cases hex
      exact Or.inl ⟨rfl, rfl⟩
    | some a =>
      rw [ha] at hex
      obtain ⟨_, -, hex⟩ := Res.bind_ok.mp hex
      cases hex
      obtain ⟨b, hd⟩ := h.decodes (Spec.findAccount_some ha).1
      obtain ⟨hmem, hdec⟩ := h.locked_both hc hpc ha hd
      have hlocks : ∀ i ∈ ids call.intent, (i, .update) ∈ (accountId, .update) :: txn.work.locks := by
        intro i hi
        have hm := (hmem i).mpr hi
        rw [List.map_cons, (decode_ok hd).1.trans (Spec.findAccount_some ha).2] at hm
        rcases List.mem_cons.mp hm with rfl | hm
        · exact List.mem_cons_self ..
        · exact List.mem_cons_of_mem _ (hsh.locked i hm)
      refine Or.inr ⟨⟨txn, _, a, hx, hex', hlocks _ (by simp [ids]), hlocks _ (by simp [ids])⟩, ?_⟩
      simp only [afterLock, hd, nextLock]
      rcases hdec with ⟨sender, receiver, s, r, hu, he⟩ | ⟨err, he, href, -⟩
      · exact Or.inl ⟨sender, receiver, s, r, hu, he⟩
      · exact Or.inr ⟨err, he, href⟩
  · rw [hout] at hex
    split at hex
    · cases hex
    · rcases Res.bind_error.mp hex with hex | ⟨_, -, hex⟩
      · exact absurd hex await_error
      · cases hex

theorem run_funds {env : Env} {db : Db} {a : Uuid}
    (hr : call.run cfg w.db env = some (db, .ret (.error (.insufficientFunds a)))) :
    ∃ x id accountId locked, call.pc = .lock x id [accountId] locked := by
  have refuted : ∀ {x : Xid} {s : Stmt} {k : Option Row.Account → Next}, call.stmt cfg = some (x, s) →
      (∀ row, k row ≠ .ret (.error (.insufficientFunds a))) →
      statement cfg w.db call.pc x s k ≠ some (db, .ret (.error (.insufficientFunds a))) := by
    intro x s k hst hk hrun
    obtain ⟨txn, hx, -, -⟩ := h.session c call x hc (Call.stmt_session hst)
    rcases statement_some hx hrun with ⟨_, row, -, -, he⟩ | ⟨err, hex, -, he⟩
    · exact hk row he.symm
    · exact Pc.onError_funds (SqlxError.not_overdraft (SqlxError.data_rule (h.stmt_data hc hst hx hex)).1)
        call.pc he.symm
  have replayed : ∀ record, replay cfg call.key call.intent record ≠ .ret (.error (.insufficientFunds a)) := by
    intro record
    unfold replay
    split <;> exact fun he => by cases he
  cases hpc : call.pc with
  | lookup =>
    simp only [Call.run, hpc, Option.some.injEq, Prod.mk.injEq] at hr
    cases hf : Transactions.findByIdempotencyKey w.db.tables call.key with
    | some record => rw [hf] at hr; exact absurd hr.2 (replayed record)
    | none =>
      rw [hf, afterLookup, validate] at hr
      obtain ⟨-, hr⟩ := hr
      split at hr
      · cases hr
      split at hr <;> cases hr
  | relookup =>
    simp only [Call.run, hpc, Option.some.injEq, Prod.mk.injEq] at hr
    cases hf : Transactions.findByIdempotencyKey w.db.tables call.key with
    | some record => rw [hf] at hr; exact absurd hr.2 (replayed record)
    | none => rw [hf] at hr; cases hr.2
  | begin | rollback =>
    simp only [Call.run, hpc, Option.some.injEq, Prod.mk.injEq] at hr
    cases hr.2
  | claim x id | adjustFrom x id sender receiver | adjustTo x id sender receiver
  | insertCredit x id sender receiver cid | insertDebit x id sender receiver cid did =>
    simp only [Call.run, hpc] at hr
    exact absurd (hpc ▸ hr) (refuted (by rw [Call.stmt, hpc]) fun _ he => by cases he)
  | lock x id todo locked =>
    cases todo with
    | nil =>
      obtain ⟨txn, -, -, hok⟩ := h.session c call x hc (by rw [hpc]; rfl)
      simp only [SessionOk, hpc] at hok
      exact absurd rfl hok.2.2.2.1
    | cons accountId todo =>
      cases todo with
      | nil => exact ⟨x, id, accountId, locked, rfl⟩
      | cons next todo =>
        simp only [Call.run, hpc] at hr
        refine absurd (hpc ▸ hr) (refuted (by rw [Call.stmt, hpc]) fun row he => ?_)
        cases row with
        | none => cases he
        | some row =>
          simp only [afterLock] at he
          split at he <;> cases he
  | commit x id sender receiver cid did =>
    obtain ⟨txn, hx, -, -⟩ := h.session c call x hc (by rw [hpc]; rfl)
    simp only [Call.run, hpc, hx, h.commit_accepted hc hpc hx, Option.map_some, Option.some.injEq,
      Prod.mk.injEq] at hr
    cases hr.2
  | getTransaction outcome id =>
    simp only [Call.run, hpc, Option.some.injEq, Prod.mk.injEq] at hr
    obtain ⟨-, hr⟩ := hr
    split at hr <;> cases hr
  | getEntries outcome id transaction =>
    simp only [Call.run, hpc] at hr
    split at hr
    · rename_i hscan
      obtain ⟨detail, hd, -⟩ := h.getEntries_outcome hc hpc hscan
      rw [hd] at hr
      cases hr
    · cases hr
  | done | cancelled | panicked => simp only [Call.run, hpc] at hr; cases hr

theorem step_funds {l : Label} {w' : World} {a : Uuid} (hs : w.step cfg l = some w') (hrun : call.pc.running = true)
    (ha : (w'.calls c).map (·.pc) = some (.done (.error (.insufficientFunds a)))) :
    ∃ env db, l = .run c env ∧ call.run cfg w.db env = some (db, .ret (.error (.insufficientFunds a))) := by
  have still : w'.calls c ≠ some call := by
    intro he
    rw [he, Option.map_some, Option.some.injEq] at ha
    rw [ha] at hrun
    cases hrun
  rcases World.step_calls hs with ⟨c', call', -, hnone, -, he⟩ | ⟨c', call₁, call', hc', -, hwent, he⟩ | he
  · have hne : c ≠ c' := fun e => by rw [← e, hc] at hnone; cases hnone
    exact absurd (by rw [he, Function.update_of_ne hne, hc]) still
  · by_cases hcc : c = c'
    · subst hcc
      cases hc.symm.trans hc'
      rw [he, Function.update_self, Option.map_some, Option.some.injEq] at ha
      cases hwent with
      | @ran env db next hr =>
        refine ⟨env, db, rfl, ?_⟩
        cases next with
        | ret r =>
          rw [Call.finish_funds ha] at hr
          exact hr
        | panic => cases ha
        | goto pc =>
          -- the code never jumps to an answer
          have hp := (h.ran hc hr).running rfl
          rw [show pc = .done (.error (.insufficientFunds a)) from ha] at hp
          cases hp
      | broke => exact absurd (Call.finish_funds ha) (by simp)
      | left => cases ha
    · exact absurd (by rw [he, Function.update_of_ne hcc, hc]) still
  · exact absurd (he ▸ hc) still

end Inv

/-- **The service never trips the ledger's rules.** In every run, whatever error comes
back to a call is none of a `CHECK`, a foreign key or a trigger, and none that passes for
an overdraft; a `COMMIT` is accepted. An answer of insufficient funds is given under both
locks, for the sender, and exactly if the sender is no funding account and its locked
balance is below the amount. -/
theorem ledger_rules_never_trip (cfg : Config) {w : World} (hr : World.Leads cfg World.init w) {c : Nat}
    {call : Call} (hc : w.calls c = some call) :
    (∀ err, call.Meets cfg w.db err → err.ledgerRule = false ∧ isOverdraftViolation err = false) ∧
    (∀ x id sender receiver cid did txn, call.pc = .commit x id sender receiver cid did → w.db.txns x = some txn →
      ∃ db, w.db.commit x txn = .ok db) ∧
    (∀ l w' a, w.step cfg l = some w' → call.pc.running = true →
      (w'.calls c).map (·.pc) = some (.done (.error (.insufficientFunds a))) → a = call.intent.fromAccountId ∧
      ∃ env x id accountId locked, l = .run c env ∧ call.pc = .lock x id [accountId] locked ∧
        LockedBoth cfg w.db call.intent x accountId ∧ ∃ s r, Spec.Short w.db.tables call.intent s r) ∧
    ∀ env x id accountId locked w' s r, call.pc = .lock x id [accountId] locked →
      w.step cfg (.run c env) = some w' →
      Spec.findAccount w.db.tables call.intent.fromAccountId = some s →
      Spec.findAccount w.db.tables call.intent.toAccountId = some r →
      s.currency = call.intent.amount.currency.code → r.currency = call.intent.amount.currency.code →
      ((w'.calls c).map (·.pc) = some (.done (.error (.insufficientFunds call.intent.fromAccountId))) ↔
        s.allowsNegativeBalance = false ∧ s.balance.val.lt (.num call.intent.units) = true) := by
  have h := Inv.reach hr
  refine ⟨fun err hm => ?_, fun x id sender receiver cid did txn hpc hx => ⟨_, h.commit_accepted hc hpc hx⟩, ?_, ?_⟩
  · exact ⟨h.meets_rule hc hm, SqlxError.not_overdraft (h.meets_rule hc hm)⟩
  · intro l w' a hs hrun ha
    obtain ⟨env, db, rfl, hrn⟩ := h.step_funds hc hs hrun ha
    obtain ⟨x, id, accountId, locked, hpc⟩ := h.run_funds hc hrn
    rcases h.last_lock hc hpc hrn with ⟨-, he⟩ | ⟨hlocked, ⟨_, _, _, _, -, he⟩ | ⟨err, he, href⟩⟩
    · cases he
    · cases he
    · cases he
      obtain ⟨hfrom, hshort⟩ := Spec.refusal_short href
      exact ⟨hfrom, env, x, id, accountId, locked, rfl, hpc, hlocked, hshort⟩
  · intro env x id accountId locked w' s r hpc hs hsender hreceiver hsc hrc
    have hrun : call.pc.running = true := by rw [hpc]; rfl
    constructor
    · intro ha
      obtain ⟨env', db, he, hrn⟩ := h.step_funds hc hs hrun ha
      rcases h.last_lock hc hpc hrn with ⟨-, he⟩ | ⟨-, ⟨_, _, _, _, -, he⟩ | ⟨err, he, href⟩⟩
      · cases he
      · cases he
      · cases he
        obtain ⟨-, s', r', hshort⟩ := Spec.refusal_short href
        cases hsender.symm.trans hshort.sender
        exact ⟨hshort.plain, hshort.funds⟩
    · rintro ⟨hplain, hfunds⟩
      have hshort : Spec.Short w.db.tables call.intent s r := ⟨hsender, hreceiver, hsc, hrc, hplain, hfunds⟩
      obtain ⟨call₁, db, next, hc₁, -, hrn, rfl⟩ := World.step_run hs
      rw [hc, Option.some.injEq] at hc₁
      subst hc₁
      obtain ⟨hv, txn, -, -, -, -, ho, -, -⟩ := h.lock_outcome hc hpc
      have hnext : next = .ret (.error (.insufficientFunds call.intent.fromAccountId)) := by
        rcases h.last_lock hc hpc hrn with ⟨hnone, -⟩ | ⟨-, ⟨_, _, s', r', hu, -⟩ | ⟨err, he, href⟩⟩
        · have hm : accountId ∈ lockOrder call.intent := by rw [← ho]; simp
          unfold lockOrder at hm
          split at hm <;> simp only [List.mem_cons, List.not_mem_nil, or_false] at hm <;>
            rcases hm with rfl | rfl
          · cases hnone.symm.trans hreceiver
          · cases hnone.symm.trans hsender
          · cases hnone.symm.trans hsender
          · cases hnone.symm.trans hreceiver
        · cases hsender.symm.trans hu.admits.sender
          rcases hu.admits.funds with hf | hf
          · rw [hplain] at hf; cases hf
          · rw [hfunds] at hf; cases hf
        · rw [hshort.refusal hv, Option.some.injEq] at href
          rw [he, href]
      rw [hnext]
      simp [World.moveTo, Call.follow, Call.finish]

theorem ledger_rules_never_trip_refund : ∃ w w' call, World.Leads (sample true) World.init w ∧
    w.calls 2 = some call ∧ w.step (sample true) (.run 2 (sampleEnv 0)) = some w' ∧
    (w'.calls 2).map (·.pc) = some (.done (.error (.insufficientFunds 2))) ∧ call.intent.fromAccountId = 2 ∧
    ∃ s r, Spec.Short w.db.tables call.intent s r := by
  have hrun : ((exec (World.step (sample true)) World.init sampleRun.dropLast).bind fun w =>
      (w.step (sample true) (.run 2 (sampleEnv 0))).map fun w' =>
        ((w.calls 2).map (·.pc.running), (w'.calls 2).map (·.pc))) =
      some (some true, some (.done (.error (.insufficientFunds 2)))) := by decide +kernel
  obtain ⟨w, hw, hrun⟩ := Option.bind_eq_some_iff.mp hrun
  obtain ⟨w', hw', hrun⟩ := Option.map_eq_some_iff.mp hrun
  obtain ⟨hcall, ha⟩ := Prod.mk.inj hrun
  obtain ⟨call, hc, hrunning⟩ := Option.map_eq_some_iff.mp hcall
  have hl : World.Leads (sample true) World.init w := reach_of_exec (fun _ _ _ => trivial) hw
  obtain ⟨hfrom, _, _, _, _, _, -, -, -, hshort⟩ :=
    (ledger_rules_never_trip (sample true) hl hc).2.2.1 _ _ 2 hw' hrunning ha
  exact ⟨w, w', call, hl, hc, hw', ha, hfrom.symm, hshort⟩

end Ledger
