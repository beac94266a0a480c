import Ledger.Client
import Ledger.Termination

/-!
# The service as a client

To its database the service is one more client: each of its steps is a few commands of
the session it is about, with no `TRUNCATE` among them and with nobody else's
`created_xid`. So whatever the schema promises against arbitrary clients, it promises
against the service.
-/

namespace Ledger

open Keyed Runs Transfers

/-! ## Commands and sessions -/

/-- The session that runs the command; a `BEGIN` starts a new one. -/
def Cmd.session : Cmd → Option Xid
  | .begin _ => none
  | .stmt x _ | .fail x | .savepoint x _ | .rollbackTo x _ | .release x _ | .commit x | .rollback x => some x

/-- The database after a command: one session is opened, written to or closed. -/
inductive Db.Stepped (db : Db) : Cmd → Db → Prop
  | begins (now : Timestamp) : Stepped db (.begin now) (db.begin now)
  | puts {cmd : Cmd} {x : Xid} {txn : Txn} (hs : cmd.session = some x) (hx : (db.txns x).isSome = true) :
      Stepped db cmd (db.put x txn)
  | closes {cmd : Cmd} {x : Xid} (hs : cmd.session = some x) : Stepped db cmd (db.close x)
  | commits {x : Xid} {txn : Txn} (hx : db.txns x = some txn) :
      Stepped db (.commit x) { db.close x with tables := txn.work.overlay db.tables }

section
variable {sch : Schema} {db db' : Db} {cmd : Cmd}

theorem Db.step_stepped (hs : db.step sch cmd = some db') : db.Stepped cmd db' := by
  cases cmd with
  | begin now => cases hs; exact .begins now
  | stmt x s =>
    obtain ⟨txn, hx, hs⟩ := Option.bind_eq_some_iff.mp hs
    have ho : (db.txns x).isSome = true := by rw [hx]; rfl
    split at hs
    · cases hs; exact .puts rfl ho
    split at hs <;> cases hs <;> exact .puts rfl ho
  | fail x =>
    obtain ⟨txn, hx, rfl⟩ := Option.map_eq_some_iff.mp hs
    exact .puts rfl (by rw [hx]; rfl)
  | savepoint x name =>
    obtain ⟨txn, hx, hs⟩ := Option.bind_eq_some_iff.mp hs
    split at hs <;> cases hs
    exact .puts rfl (by rw [hx]; rfl)
  | rollbackTo x name =>
    obtain ⟨txn, hx, hs⟩ := Option.bind_eq_some_iff.mp hs
    split at hs <;> cases hs <;> exact .puts rfl (by rw [hx]; rfl)
  | release x name =>
    obtain ⟨txn, hx, hs⟩ := Option.bind_eq_some_iff.mp hs
    split at hs
    · cases hs
    split at hs <;> cases hs <;> exact .puts rfl (by rw [hx]; rfl)
  | commit x =>
    obtain ⟨txn, hx, rfl | ⟨-, -, rfl⟩⟩ := Db.step_commit hs
    · exact .closes rfl
    · exact .commits hx
  | rollback x =>
    obtain ⟨txn, -, rfl⟩ := Option.map_eq_some_iff.mp hs
    exact .closes rfl

theorem Db.Stepped.nextXid (h : db.Stepped cmd db') : db.nextXid ≤ db'.nextXid := by
  cases h with
  | begins => exact Nat.le_succ _
  | puts | closes | commits => exact Nat.le_refl _

theorem Db.Stepped.others (h : db.Stepped cmd db') {y : Xid} (hne : cmd.session ≠ some y) (hy : y < db.nextXid) :
    db'.txns y = db.txns y := by
  have ne : ∀ {x : Xid}, cmd.session = some x → y ≠ x := fun hs e => hne (by rw [hs, e])
  cases h with
  | begins => exact Function.update_of_ne (Nat.ne_of_lt hy) ..
  | puts hs => exact Function.update_of_ne (ne hs) ..
  | closes hs => exact Function.update_of_ne (ne hs) ..
  | commits => exact Function.update_of_ne (ne rfl) ..

theorem DbInv.step_frame (hi : DbInv db) (h : db.Stepped cmd db') {y : Xid} {ty : Txn} (hy : db.txns y = some ty)
    (hne : cmd.session ≠ some y) : db'.txns y = some ty ∧ ∀ id, (id, .update) ∈ ty.work.locks →
      ∀ a, Spec.findAccount db.tables id = some a → Spec.findAccount db'.tables id = some a := by
  refine ⟨(h.others hne (hi.lt_nextXid hy)).trans hy, fun id hid a ha => ?_⟩
  cases h with
  | begins | puts | closes => exact ha
  | commits hx => exact hi.commit_frame hx hy (fun e => hne (by rw [e]; rfl)) hid ha

end

def Db.Leads (sch : Schema) (mine : Xid → Prop) : Db → Db → Prop :=
  Reach (Db.step sch) fun d cmd => cmd.truncates = false ∧ d.HonestXid cmd ∧ ∀ x, cmd.session = some x → mine x

section
variable {sch : Schema} {mine : Xid → Prop} {db db' : Db}

theorem Db.Leads.of_mono {mine' : Xid → Prop} (hm : ∀ x, mine x → mine' x) (h : Db.Leads sch mine db db') :
    Db.Leads sch mine' db db' :=
  Reach.mono (P := fun _ => True) (fun _ _ _ _ _ _ => trivial)
    (fun _ _ _ hc => ⟨hc.1, hc.2.1, fun x hx => hm x (hc.2.2 x hx)⟩) h trivial

theorem Db.leads_rollback {x : Xid} (hm : mine x) (hx : (db.txns x).isSome = true) :
    Db.Leads sch mine db (db.close x) := by
  obtain ⟨txn, hx⟩ := Option.isSome_iff_exists.mp hx
  refine Reach.one (.rollback x) ⟨rfl, trivial, ?_⟩ (by simp only [Db.step, hx, Option.map_some])
  rintro y hy
  cases hy
  exact hm

theorem Db.leads_stmt {x : Xid} (hm : mine x) {s : Stmt} (hplain : s.isTruncate = false)
    (hhonest : db.HonestXid (.stmt x s)) (hs : db.step sch (.stmt x s) = some db') : Db.Leads sch mine db db' := by
  refine Reach.one (.stmt x s) ⟨hplain, hhonest, ?_⟩ hs
  rintro y hy
  cases hy
  exact hm

theorem Db.leads_commit {x : Xid} (hm : mine x) (hs : db.step sch (.commit x) = some db') :
    Db.Leads sch mine db db' := by
  refine Reach.one (.commit x) ⟨rfl, trivial, ?_⟩ hs
  rintro y hy
  cases hy
  exact hm

end

/-! ## A step of a call -/

namespace Transfers

theorem leave_leads {sch : Schema} {db : Db} {pc : Pc}
    (hopen : ∀ x, pc.session = some x → (db.txns x).isSome = true)
    (next : Next) : Db.Leads sch (fun x => pc.session = some x) db (World.leave db pc next) := by
  have hdrop : Db.Leads sch (fun x => pc.session = some x) db (World.drop db pc) := by
    unfold World.drop
    split
    · rename_i x hs
      exact Db.leads_rollback hs (hopen x hs)
    · exact Reach.refl
  cases next with
  | goto pc' => exact Reach.refl
  | ret r => exact hdrop
  | panic => exact hdrop

theorem statement_leads {cfg : Config} {db db' : Db} {pc : Pc} {x : Xid} {txn : Txn} {s : Stmt}
    {k : Option Row.Account → Next} {next : Next} (hpc : pc.session = some x) (hx : db.txns x = some txn)
    (hab : txn.aborted = false) (hplain : s.isTruncate = false) (hhonest : db.HonestXid (.stmt x s))
    (h : statement cfg db pc x s k = some (db', next)) :
    Db.Leads cfg.schema (fun y => pc.session = some y) db (World.leave db' pc next) := by
  have hstep : db.step cfg.schema (.stmt x s) = some db' := by
    simp only [Db.step, hx, Option.bind_some, hab, Bool.false_eq_true, if_false]
    rcases statement_some hx h with ⟨work, row, hex, rfl, -⟩ | ⟨err, hex, rfl, -⟩ <;> simp only [hex]
  refine (Db.leads_stmt hpc hplain hhonest hstep).trans (leave_leads ?_ next)
  rintro y hy
  rw [hpc, Option.some.injEq] at hy
  subst hy
  rcases statement_some hx h with ⟨work, row, -, rfl, -⟩ | ⟨err, -, rfl, -⟩ <;>
    simp [Db.install, Db.fail, Db.put, Function.update_self]

def Call.Live (db : Db) (call : Call) : Prop :=
  ∀ x, call.pc.session = some x → ∃ txn, db.txns x = some txn ∧ ((∀ y, call.pc ≠ .rollback y) → txn.aborted = false)

theorem SessionOk.live {cfg : Config} {t : Tables} {call : Call} {x : Xid} {txn : Txn}
    (h : SessionOk cfg t call x txn) (hs : call.pc.session = some x) (hne : ∀ y, call.pc ≠ .rollback y) :
    txn.aborted = false := by
  unfold SessionOk at h
  cases hpc : call.pc <;> rw [hpc] at h hs hne
  case rollback y => exact absurd rfl (hne y)
  case claim | lock | adjustFrom | adjustTo | insertCredit | insertDebit | commit => exact h.1
  all_goals cases hs

theorem Call.run_leads {cfg : Config} {db db' : Db} {call : Call} {env : Env} {next : Next} (hlive : call.Live db)
    (h : call.run cfg db env = some (db', next)) :
    Db.Leads cfg.schema (fun x => call.pc.session = some x) db (World.leave db' call.pc next) := by
  have quiet : db' = db →
      Db.Leads cfg.schema (fun x => call.pc.session = some x) db (World.leave db' call.pc next) := by
    rintro rfl
    refine leave_leads (fun x hs => ?_) next
    obtain ⟨txn, hx, -⟩ := hlive x hs
    rw [hx]; rfl
  have live : ∀ {x : Xid}, call.pc.session = some x → (∀ y, call.pc ≠ .rollback y) →
      ∃ txn, db.txns x = some txn ∧ txn.aborted = false := by
    intro x hs hne
    obtain ⟨txn, hx, hab⟩ := hlive x hs
    exact ⟨txn, hx, hab hne⟩
  cases hpc : call.pc with
  | lookup | relookup | getTransaction =>
    simp only [Call.run, hpc, Option.some.injEq, Prod.mk.injEq] at h
    rw [← hpc]
    exact quiet h.1.symm
  | getEntries =>
    simp only [Call.run, hpc] at h
    split at h <;> cases h
    rw [← hpc]
    exact quiet rfl
  | begin =>
    simp only [Call.run, hpc, Option.some.injEq, Prod.mk.injEq] at h
    obtain ⟨rfl, rfl⟩ := h
    exact Reach.one (.begin env.now) ⟨rfl, trivial, fun x hx => by cases hx⟩ rfl
  | rollback x =>
    simp only [Call.run, hpc, Option.some.injEq, Prod.mk.injEq] at h
    obtain ⟨rfl, rfl⟩ := h
    obtain ⟨txn, hx, -⟩ := hlive x (by rw [hpc]; rfl)
    exact Db.leads_rollback rfl (by rw [hx]; rfl)
  | claim x id =>
    obtain ⟨txn, hx, hab⟩ := live (by rw [hpc]; rfl) (by simp [hpc])
    simp only [Call.run, hpc] at h
    exact statement_leads rfl hx hab rfl (by rintro c hc; cases hc) h
  | lock x id todo locked =>
    obtain ⟨txn, hx, hab⟩ := live (by rw [hpc]; rfl) (by simp [hpc])
    cases todo with
    | nil =>
      simp only [Call.run, hpc, Option.some.injEq, Prod.mk.injEq] at h
      rw [← hpc]
      exact quiet h.1.symm
    | cons accountId todo =>
      simp only [Call.run, hpc] at h
      exact statement_leads rfl hx hab rfl (by trivial) h
  | adjustFrom x | adjustTo x | insertCredit x | insertDebit x =>
    obtain ⟨txn, hx, hab⟩ := live (by rw [hpc]; rfl) (by simp [hpc])
    simp only [Call.run, hpc] at h
    exact statement_leads rfl hx hab rfl (by trivial) h
  | commit x id sender receiver cid did =>
    simp only [Call.run, hpc] at h
    obtain ⟨txn, hx, h⟩ := Option.map_eq_some_iff.mp h
    split at h
    · rename_i db₁ hcm
      cases h
      have hstep : db.step cfg.schema (.commit x) = some db' := by simp only [Db.step, hx, Option.map_some, hcm]
      exact Db.leads_commit rfl hstep
    · rename_i err hcm
      cases h
      have hs : (Pc.commit x id sender receiver cid did).session = some x := rfl
      have hleave : World.leave (db.close x) (.commit x id sender receiver cid did)
          (Pc.onError err (.commit x id sender receiver cid did)) = db.close x := World.drop_close hs
      rw [hleave]
      exact Db.leads_commit rfl (by simp only [Db.step, hx, Option.map_some, hcm])
  | done | cancelled | panicked =>
    simp only [Call.run, hpc] at h
    cases h

end Transfers

/-! ## A step of the service -/

/-- The sessions that a step is about: the caller's, and the next one to be opened. -/
def World.Mine (w : World) (l : Label) (x : Xid) : Prop :=
  x = w.db.nextXid ∨ ∃ c call, l.caller = some c ∧ w.calls c = some call ∧ call.pc.session = some x

def World.Live (w : World) : Prop := ∀ c call, w.calls c = some call → call.Live w.db

theorem Accounts.create_leads {sch : Schema} {dec : Decode} {db db' : Db} {id : Uuid} {now : Timestamp}
    {name : String} {currency : Currency} {flag : Bool} {rows : List Row.Account}
    {answer : Except LedgerError Account}
    (h : Accounts.create sch dec db id now name currency flag = some (db', rows, answer)) :
    Db.Leads sch (fun x => x = db.nextXid) db db' := by
  have hbegin : Db.Leads sch (fun x => x = db.nextXid) db (db.begin now) :=
    Reach.one (.begin now) ⟨rfl, trivial, fun x hx => by cases hx⟩ rfl
  have hx : (db.begin now).txns db.nextXid = some { now } := Function.update_self ..
  have hfail : Db.Leads sch (fun x => x = db.nextXid) db ((db.begin now).close db.nextXid) :=
    hbegin.trans (Db.leads_rollback rfl (by rw [hx]; rfl))
  simp only [Accounts.create] at h
  split at h
  · cases h
  · cases h; exact hfail
  · rename_i work row hex
    split at h
    · cases h; exact hfail
    · rename_i db₁ hcm
      cases h
      have hstmt : (db.begin now).step sch (.stmt db.nextXid (insertStmt id name currency flag)) =
          some ((db.begin now).install db.nextXid { now } work) := by
        simp only [Db.step, hx, Option.bind_some, hex]
        rfl
      have hx' : ((db.begin now).install db.nextXid { now } work).txns db.nextXid = some { now, work } :=
        Function.update_self ..
      have hcommit : ((db.begin now).install db.nextXid { now } work).step sch (.commit db.nextXid) = some db' := by
        simp only [Db.step, hx', Option.map_some, hcm]
      exact (hbegin.trans (Db.leads_stmt rfl rfl (by trivial) hstmt)).trans (Db.leads_commit rfl hcommit)

theorem World.step_leads {cfg : Config} {w w' : World} {l : Label} (hlive : w.Live) (hs : w.step cfg l = some w') :
    Db.Leads cfg.schema (w.Mine l) w.db w'.db := by
  have mine : ∀ {c : Nat} {call : Call} {db : Db}, l.caller = some c → w.calls c = some call →
      Db.Leads cfg.schema (fun x => call.pc.session = some x) w.db db → Db.Leads cfg.schema (w.Mine l) w.db db :=
    fun hl hc => Db.Leads.of_mono fun x hx => Or.inr ⟨_, _, hl, hc, hx⟩
  have left : ∀ {c : Nat} {call : Call} (next : Next), l.caller = some c → w.calls c = some call →
      Db.Leads cfg.schema (w.Mine l) w.db (World.leave w.db call.pc next) := by
    intro c call next hl hc
    refine mine hl hc (leave_leads (fun x hx => ?_) next)
    obtain ⟨txn, ht, -⟩ := hlive c call hc x hx
    rw [ht]; rfl
  have landed : ∀ {c : Nat} {call : Call} {db : Db} {ev : Spec.Event}, l.caller = some c → w.calls c = some call →
      World.landing w.db c call = some (db, ev) → Db.Leads cfg.schema (w.Mine l) w.db db := by
    intro c call db ev hl hc hland
    obtain ⟨x, id, sender, receiver, cid, did, txn, hpc, hx, hcm, -⟩ := Inv.landing_commit hland
    refine mine hl hc (Db.leads_commit (by rw [hpc]; rfl) ?_)
    simp only [Db.step, hx, Option.map_some, hcm]
  cases l with
  | invoke c key intent =>
    obtain ⟨-, rfl⟩ := World.step_invoke hs
    exact Reach.refl
  | acquire c =>
    obtain ⟨call, -, -, -, -, -, rfl⟩ := World.step_acquire hs
    exact Reach.refl
  | run c env =>
    obtain ⟨call, db, next, hc, -, hr, rfl⟩ := World.step_run hs
    exact mine rfl hc (Call.run_leads (hlive c call hc) hr)
  | fault c err =>
    obtain ⟨call, hc, -, -, rfl⟩ := World.step_fault hs
    exact left _ rfl hc
  | lostAck c err =>
    obtain ⟨call, db, ev, hc, -, hl, rfl⟩ := World.step_lostAck hs
    exact landed rfl hc hl
  | cancel c took =>
    obtain ⟨call, hc, ⟨-, db, ev, hl, rfl⟩ | ⟨-, -, rfl⟩⟩ := World.step_cancel hs
    · exact landed rfl hc hl
    · exact left (.ret (.error .selfTransfer)) rfl hc
  | create process env name currency flag =>
    obtain ⟨-, db, rows, answer, hcr, rfl⟩ := World.step_create hs
    exact (Accounts.create_leads hcr).of_mono fun x hx => Or.inl hx

theorem Inv.live {cfg : Config} {w : World} (h : Inv cfg w) : w.Live := by
  intro c call hc x hx
  obtain ⟨txn, ht, -, hok⟩ := h.session c call x hc hx
  exact ⟨txn, ht, hok.live hx⟩

/-- The runs of clients that do not truncate and do not lend their `created_xid`. -/
def Db.Reaches (sch : Schema) : Db → Db → Prop :=
  Reach (Db.step sch) fun d cmd => cmd.truncates = false ∧ d.HonestXid cmd

theorem Db.Leads.reaches {sch : Schema} {mine : Xid → Prop} {db db' : Db} (h : Db.Leads sch mine db db') :
    Db.Reaches sch db db' :=
  Reach.mono (P := fun _ => True) (fun _ _ _ _ _ _ => trivial) (fun _ _ _ hc => ⟨hc.1, hc.2.1⟩) h trivial

/-- **To its database the service is one more client.** Whatever the service does, its
database sees a run of commands, none of which truncates a table or names a
`created_xid` that is not its own; a step uses no session but the caller's and the one
it opens. -/
theorem service_is_client (cfg : Config) {w w' : World} (hr : World.Leads cfg World.init w)
    (hl : World.Leads cfg w w') :
    Db.Reaches cfg.schema w.db w'.db ∧
      ∀ l w₁, w'.step cfg l = some w₁ → Db.Leads cfg.schema (w'.Mine l) w'.db w₁.db := by
  have h := Inv.reach hr
  refine ⟨?_, fun l w₁ hs => World.step_leads (hl.inv h).live hs⟩
  refine hl.rel (R := fun v v' : World => Db.Reaches cfg.schema v.db v'.db) (fun _ => Reach.refl)
    (fun _ _ _ => Reach.trans) (fun _ _ _ hi _ hs => Inv.step hi hs) (fun _ _ _ hi _ hs => ?_) h
  exact (World.step_leads hi.live hs).reaches

theorem service_is_client_sampleRun : ∃ w, World.Leads (sample true) World.init w ∧
    w.db.tables.transactions.map (·.idempotencyKey) = ["rent-1"] ∧ Db.Reaches {} Db.init w.db := by
  have h : (exec (World.step (sample true)) World.init sampleRun).any (fun w => decide (
      w.db.tables.transactions.map (·.idempotencyKey) = ["rent-1"])) = true := by decide +kernel
  obtain ⟨w, hw, h⟩ := (Option.any_eq_true _ _).mp h
  have hl : World.Leads (sample true) World.init w := reach_of_exec (fun _ _ _ => trivial) hw
  exact ⟨w, hl, of_decide_eq_true h, (service_is_client (sample true) Reach.refl hl).1⟩

end Ledger
