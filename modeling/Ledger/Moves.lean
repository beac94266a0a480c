import Ledger.Renumber

/-!
# Moves of one call

What a step of one call leaves alone, what holds of ids and connections along a run,
and how a call takes a connection only for the step that it is going to make.
-/

namespace Ledger

open Keyed Runs Transfers

/-! ## What a step does to the database -/

namespace Transfers

/-- The database after a step: it opens, writes or ends the call's own transaction. -/
inductive Effect (db : Db) (pc : Pc) (now : Timestamp) : Db → Prop
  | none : Effect db pc now db
  | opens (hpc : pc = .begin) : Effect db pc now (db.begin now)
  | writes {x : Xid} {txn txn' : Txn} (hs : pc.session = some x) (hx : db.txns x = some txn)
      (hnow : txn'.now = txn.now) : Effect db pc now (db.put x txn')
  | ends {x : Xid} (hs : pc.session = some x) : Effect db pc now (db.close x)
  | commits {x : Xid} {t : Tables} {id cid did : Uuid} {sender receiver : AccountRow}
      (hpc : pc = .commit x id sender receiver cid did) : Effect db pc now { db.close x with tables := t }

theorem statement_effect {cfg : Config} {db db' : Db} {pc : Pc} {x : Xid} {s : Stmt} {k : Option Row.Account → Next}
    {next : Next} (hs : pc.session = some x) (now : Timestamp)
    (h : statement cfg db pc x s k = some (db', next)) : Effect db pc now db' := by
  obtain ⟨txn, hx, -⟩ := Option.bind_eq_some_iff.mp h
  rcases statement_some hx h with ⟨work, row, -, rfl, -⟩ | ⟨err, -, rfl, -⟩
  · exact .writes hs hx rfl
  · exact .writes hs hx rfl

theorem Call.run_effect {cfg : Config} {call : Call} {db db' : Db} {env : Env} {next : Next}
    (h : call.run cfg db env = some (db', next)) : Effect db call.pc env.now db' := by
  cases hpc : call.pc with
  | lookup | relookup | getTransaction =>
    simp only [Call.run, hpc, Option.some.injEq, Prod.mk.injEq] at h
    obtain ⟨rfl, -⟩ := h
    exact .none
  | begin =>
    simp only [Call.run, hpc, Option.some.injEq, Prod.mk.injEq] at h
    obtain ⟨rfl, -⟩ := h
    exact .opens rfl
  | claim | adjustFrom | adjustTo | insertCredit | insertDebit =>
    simp only [Call.run, hpc] at h
    exact statement_effect rfl env.now h
  | rollback x =>
    simp only [Call.run, hpc, Option.some.injEq, Prod.mk.injEq] at h
    obtain ⟨rfl, -⟩ := h
    exact .ends rfl
  | lock x id todo locked =>
    cases todo with
    | nil =>
      simp only [Call.run, hpc, Option.some.injEq, Prod.mk.injEq] at h
      obtain ⟨rfl, -⟩ := h
      exact .none
    | cons accountId todo =>
      simp only [Call.run, hpc] at h
      exact statement_effect rfl env.now h
  | commit x id sender receiver cid did =>
    simp only [Call.run, hpc] at h
    obtain ⟨txn, hx, h⟩ := Option.map_eq_some_iff.mp h
    split at h
    · rename_i db₁ hcm
      cases h
      rcases Db.commit_ok hcm with ⟨-, rfl⟩ | ⟨-, -, rfl⟩
      · exact .ends rfl
      · exact .commits rfl
    · cases h
      exact .ends rfl
  | getEntries outcome id transaction =>
    simp only [Call.run, hpc] at h
    split at h
    · cases h
      exact .none
    · cases h
  | done | cancelled | panicked =>
    simp only [Call.run, hpc] at h
    cases h

namespace Effect

variable {db db' : Db} {pc : Pc} {now : Timestamp} (h : Effect db pc now db')
include h

theorem others {z : Xid} (hz : pc.session ≠ some z) (hn : z < db.nextXid) : db'.txns z = db.txns z := by
  cases h with
  | none => rfl
  | opens => exact Function.update_of_ne (Nat.ne_of_lt hn) ..
  | @writes x _ _ hs =>
    have hne : z ≠ x := fun e => hz (by rw [e, hs])
    exact Function.update_of_ne hne ..
  | @ends x hs =>
    have hne : z ≠ x := fun e => hz (by rw [e, hs])
    exact Function.update_of_ne hne ..
  | @commits x _ _ _ _ _ _ hpc =>
    have hne : z ≠ x := fun e => hz (by rw [e, hpc]; rfl)
    exact Function.update_of_ne hne ..

theorem keeps_now {x : Xid} {txn txn' : Txn} (hs : pc.session = some x) (hx : db.txns x = some txn)
    (hx' : db'.txns x = some txn') : txn'.now = txn.now := by
  cases h with
  | none => rw [hx, Option.some.injEq] at hx'; rw [hx']
  | opens hpc => rw [hpc] at hs; cases hs
  | writes hs' hy hnow =>
    rw [hs, Option.some.injEq] at hs'
    subst hs'
    rw [show (db.put x _).txns x = _ from Function.update_self .., Option.some.injEq] at hx'
    rw [hx, Option.some.injEq] at hy
    rw [← hx', hnow, hy]
  | ends hs' =>
    rw [hs, Option.some.injEq] at hs'
    subst hs'
    rw [show (db.close x).txns x = _ from Function.update_self ..] at hx'
    cases hx'
  | commits hpc =>
    rw [hpc, show (Pc.commit _ _ _ _ _ _).session = some _ from rfl, Option.some.injEq] at hs
    subst hs
    rw [show ({ db.close _ with tables := _ } : Db).txns _ = _ from Function.update_self ..] at hx'
    cases hx'

theorem keeps_tables (hpc : ∀ x id sender receiver cid did, pc ≠ .commit x id sender receiver cid did) :
    db'.tables = db.tables := by
  cases h with
  | commits hc => exact absurd hc (hpc _ _ _ _ _ _)
  | _ => rfl

end Effect

end Transfers

/-! ## One call moves -/

theorem Transfers.Call.follow_session {cfg : Config} {call : Call} {next : Next} {x : Xid}
    (h : (call.follow cfg next).pc.session = some x) : ∃ pc, next = .goto pc ∧ pc.session = some x := by
  cases next with
  | goto pc => exact ⟨pc, rfl, h⟩
  | ret r =>
    rw [Call.follow, Call.finish_session] at h
    cases h
  | panic => cases h

def World.clock (w : World) (c : Nat) : Option Timestamp :=
  (w.calls c).bind fun call => call.pc.session.bind fun x => (w.db.txns x).map (·.now)

theorem World.clock_some {w : World} {c : Nat} {now : Timestamp} : w.clock c = some now ↔
    ∃ call x txn, w.calls c = some call ∧ call.pc.session = some x ∧ w.db.txns x = some txn ∧ txn.now = now := by
  simp only [World.clock, Option.bind_eq_some_iff, Option.map_eq_some_iff]
  constructor
  · rintro ⟨call, hc, x, hs, txn, hx, hn⟩
    exact ⟨call, x, txn, hc, hs, hx, hn⟩
  · rintro ⟨call, x, txn, hc, hs, hx, hn⟩
    exact ⟨call, hc, x, hs, txn, hx, hn⟩

structure World.Moved (c : Nat) (w w' : World) : Prop where
  calls : ∀ d, d ≠ c → w'.calls d = w.calls d
  clock : ∀ d, d ≠ c → w'.clock d = w.clock d

theorem World.Moved.refl (c : Nat) (w : World) : w.Moved c w := ⟨fun _ _ => rfl, fun _ _ => rfl⟩

theorem World.Moved.trans {c : Nat} {w w' w'' : World} (h : w.Moved c w') (h' : w'.Moved c w'') : w.Moved c w'' :=
  ⟨fun d hd => (h'.calls d hd).trans (h.calls d hd), fun d hd => (h'.clock d hd).trans (h.clock d hd)⟩

theorem World.Moved.of_calls {c : Nat} {w w' : World} (hdb : w'.db = w.db)
    (hcalls : ∀ d, d ≠ c → w'.calls d = w.calls d) : w.Moved c w' := by
  refine ⟨hcalls, fun d hd => ?_⟩
  unfold World.clock
  rw [hcalls d hd, hdb]

theorem World.leave_others {db : Db} {pc : Pc} {next : Next} {z : Xid} (hz : pc.session ≠ some z) :
    (World.leave db pc next).txns z = db.txns z := by
  have hdrop : (World.drop db pc).txns z = db.txns z := by
    unfold World.drop
    split
    · rename_i x hs
      have hne : z ≠ x := fun e => hz (by rw [e, hs])
      exact Function.update_of_ne hne ..
    · rfl
  cases next with
  | goto pc' => rfl
  | ret r => exact hdrop
  | panic => exact hdrop

namespace Inv

variable {cfg : Config} {w : World} (h : Inv cfg w) {c : Nat} {call : Call} (hc : w.calls c = some call)
include h hc

theorem moved {call' : Call} {db : Db} {log : List Spec.Event}
    (hdb : ∀ z, call.pc.session ≠ some z → z < w.db.nextXid → db.txns z = w.db.txns z) :
    w.Moved c (w.moveTo c call' db log) := by
  have hcalls : ∀ d, d ≠ c → (w.moveTo c call' db log).calls d = w.calls d :=
    fun d hd => Function.update_of_ne hd ..
  refine ⟨hcalls, fun d hd => ?_⟩
  unfold World.clock
  rw [hcalls d hd]
  cases hother : w.calls d with
  | none => rfl
  | some other =>
    cases hs : other.pc.session with
    | none => simp only [Option.bind_some, hs, Option.bind_none]
    | some z =>
      obtain ⟨tz, hz, -⟩ := h.session d other z hother hs
      have hlt : z < w.db.nextXid := by
        by_contra hge
        rw [h.db.bounded z (Nat.le_of_not_lt hge)] at hz
        cases hz
      simp only [Option.bind_some, hs]
      rw [show (w.moveTo c call' db log).db.txns z = db.txns z from rfl, hdb z (h.foreign hc hd hother hs) hlt]

theorem moved_run {call' : Call} {env : Env} {db : Db} {next : Next} {log : List Spec.Event}
    (hr : call.run cfg w.db env = some (db, next)) :
    w.Moved c (w.moveTo c call' (World.leave db call.pc next) log) :=
  h.moved hc fun _ hz hlt => (World.leave_others hz).trans ((Call.run_effect hr).others hz hlt)

theorem run_session {env : Env} {db : Db} {next : Next} {x : Xid} (hr : call.run cfg w.db env = some (db, next))
    (hb : call.pc ≠ .begin) (hs : (call.follow cfg next).pc.session = some x) :
    call.pc.session = some x ∧ World.leave db call.pc next = db := by
  obtain ⟨pc, rfl, hpc⟩ := Call.follow_session hs
  refine ⟨?_, rfl⟩
  have hran := h.ran hc hr
  generalize ((World.landing w.db c call).map (·.2)).toList = evs at hran
  cases hran with
  | stays _ hs' => rw [hs'] at hpc; cases hpc
  | opens hb' => exact absurd hb' hb
  | writes hs₀ hs' => rw [hs₀, ← hs', hpc]
  | leaves _ hs' => rw [hs'] at hpc; cases hpc
  | commits => cases hpc

theorem clock_run {env : Env} {db : Db} {next : Next} {w' : World} {now : Timestamp}
    (hr : call.run cfg w.db env = some (db, next)) (hb : call.pc ≠ .begin)
    (hc' : w'.calls c = some (call.follow cfg next)) (hdb : w'.db = World.leave db call.pc next)
    (hn : w'.clock c = some now) : w.clock c = some now := by
  obtain ⟨call', x, txn, hc₁, hs', hx, rfl⟩ := World.clock_some.mp hn
  rw [hc', Option.some.injEq] at hc₁
  subst hc₁
  obtain ⟨hs, hleave⟩ := h.run_session hc hr hb hs'
  obtain ⟨txn₀, hx₀, -⟩ := h.session c call x hc hs
  rw [hdb, hleave] at hx
  exact World.clock_some.mpr ⟨call, x, txn₀, hc, hs, hx₀, ((Call.run_effect hr).keeps_now hs hx₀ hx).symm⟩

theorem clock_session (hs : call.pc.session.isSome = true) : ∃ now, w.clock c = some now := by
  obtain ⟨x, hx⟩ := Option.isSome_iff_exists.mp hs
  obtain ⟨txn, htxn, -⟩ := h.session c call x hc hx
  exact ⟨txn.now, World.clock_some.mpr ⟨call, x, txn, hc, hx, htxn, rfl⟩⟩

end Inv

/-! ## New accounts -/

def Accounts.opened (sch : Schema) (accounts : List Row.Account) (id : Uuid) (now : Timestamp) (name : String)
    (currency : Currency) (flag : Bool) : List Row.Account :=
  match NewAccount.row sch now
    { id := .val id, name := .val name, currency := .val currency.code, allowsNegativeBalance := .val flag } with
  | .error _ => []
  | .ok row => if accounts.any fun a => decide (a.id = row.id) then [] else [row]

theorem Inv.insert_account {cfg : Config} {w : World} (h : Inv cfg w) (id : Uuid) (now : Timestamp) (name : String)
    (currency : Currency) (flag : Bool) :
    (w.db.begin now).exec cfg.schema w.db.nextXid { now } (Accounts.insertStmt id name currency flag) =
      match NewAccount.row cfg.schema now
        { id := .val id, name := .val name, currency := .val currency.code,
          allowsNegativeBalance := .val flag } with
      | .error e => .error e
      | .ok row =>
        if w.db.tables.accounts.any fun a => decide (a.id = row.id) then
          .error (.database .uniqueViolation (some .accounts_pkey))
        else .ok ({ accounts := [row] }, none) := by
  have htrunc : (w.db.begin now).await w.db.nextXid (fun v => v.truncated.contains .accounts) = .ok () :=
    (h.db.begin now).await_truncation _ fun v hv => by rw [hv]; rfl
  have hids : ∀ row : Row.Account, (w.db.begin now).await w.db.nextXid
      (fun v => v.accounts.any fun a => decide (a.id = row.id)) = .ok () := by
    intro row
    apply Db.await_ok
    intro y ty hy hty
    rw [show (w.db.begin now).txns y = w.db.txns y from Function.update_of_ne hy ..] at hty
    obtain ⟨c, call, hc, hs, hok⟩ := h.behind hty
    obtain ⟨ups, hsh⟩ := hok.wrote hs
    rw [hsh.accounts]
    rfl
  have hview : (({} : Work).overlay (w.db.begin now).tables).accounts = w.db.tables.accounts := by
    rw [show ({} : Work).overlay (w.db.begin now).tables = _ from Work.overlay_opened _ [], List.append_nil]
    rfl
  cases hrow : NewAccount.row cfg.schema now
      { id := .val id, name := .val name, currency := .val currency.code, allowsNegativeBalance := .val flag } with
  | error e =>
    simp only [Db.exec, Accounts.insertStmt, Db.insertAccount, htrunc, Res.ok_bind, hrow, Res.ofExcept]
    rfl
  | ok row =>
    cases hdup : w.db.tables.accounts.any fun a => decide (a.id = row.id) with
    | true =>
      simp only [Db.exec, Accounts.insertStmt, Db.insertAccount, htrunc, Res.ok_bind, hrow, Res.ofExcept, hview,
        hdup, Db.unique, if_true]
      rfl
    | false =>
      simp only [Db.exec, Accounts.insertStmt, Db.insertAccount, htrunc, Res.ok_bind, hrow, Res.ofExcept, hview,
        hdup, Db.unique, Bool.false_eq_true, if_false, hids row]
      rfl

theorem Inv.create_opens {cfg : Config} {w : World} (h : Inv cfg w) (id : Uuid) (now : Timestamp) (name : String)
    (currency : Currency) (flag : Bool) :
    ∃ db rows, rows = Accounts.opened cfg.schema w.db.tables.accounts id now name currency flag ∧
      (Accounts.create cfg.schema cfg.decode w.db id now name currency flag).map (fun r => (r.1, r.2.1)) =
        some (db, rows) ∧
      db.tables = { w.db.tables with accounts := w.db.tables.accounts ++ rows } ∧
      ∀ y, db.txns y = w.db.txns y := by
  have hex := h.insert_account id now name currency flag
  have hother : ∀ y, y ≠ w.db.nextXid → (w.db.begin now).txns y = w.db.txns y :=
    fun y hy => Function.update_of_ne hy ..
  have refused : ∀ e, (w.db.begin now).exec cfg.schema w.db.nextXid { now }
      (Accounts.insertStmt id name currency flag) = .error e →
      Accounts.opened cfg.schema w.db.tables.accounts id now name currency flag = [] →
      ∃ db rows, rows = Accounts.opened cfg.schema w.db.tables.accounts id now name currency flag ∧
        (Accounts.create cfg.schema cfg.decode w.db id now name currency flag).map (fun r => (r.1, r.2.1)) =
          some (db, rows) ∧
        db.tables = { w.db.tables with accounts := w.db.tables.accounts ++ rows } ∧
        ∀ y, db.txns y = w.db.txns y := by
    intro e hex hnil
    refine ⟨(w.db.begin now).close w.db.nextXid, [], hnil.symm, ?_, ?_, h.db.close_new hother⟩
    · simp only [Accounts.create, hex, Option.map_some]
    · rw [List.append_nil]
      rfl
  cases hrow : NewAccount.row cfg.schema now
      { id := .val id, name := .val name, currency := .val currency.code, allowsNegativeBalance := .val flag } with
  | error e =>
    rw [hrow] at hex
    exact refused e hex (by simp only [Accounts.opened, hrow])
  | ok row =>
    rw [hrow] at hex
    cases hdup : w.db.tables.accounts.any fun a => decide (a.id = row.id) with
    | true =>
      simp only [hdup, if_true] at hex
      exact refused _ hex (by simp only [Accounts.opened, hrow, hdup, if_true])
    | false =>
      simp only [hdup, Bool.false_eq_true, if_false] at hex
      let wrote := (w.db.begin now).install w.db.nextXid { now } { accounts := [row] }
      let after : Tables := { w.db.tables with accounts := w.db.tables.accounts ++ [row] }
      have hcommit : wrote.commit w.db.nextXid { now, work := { accounts := [row] } } =
          .ok { wrote.close w.db.nextXid with tables := after } := by
        show Except.ok { wrote.close w.db.nextXid with
          tables := ({ accounts := [row] } : Work).overlay w.db.tables } = _
        rw [Work.overlay_opened]
      refine ⟨{ wrote.close w.db.nextXid with tables := after }, [row], ?_, ?_, rfl, ?_⟩
      · simp only [Accounts.opened, hrow, hdup, Bool.false_eq_true, if_false]
      · simp only [Accounts.create, hex]
        rw [hcommit]
        rfl
      · refine h.db.close_new (d := wrote) fun y hy => ?_
        exact (Function.update_of_ne hy ..).trans (hother y hy)

/-! ## Ids and connections along a run -/

theorem Transfers.Pc.generated_of_none {pc : Pc} (h : pc.session = none) : pc.generated = [] := by
  cases pc with
  | claim | rollback | lock | adjustFrom | adjustTo | insertCredit | insertDebit | commit => cases h
  | _ => rfl

/-- What holds along a run in which ids are fresh: no id is in use twice, and the pools
hand out no more connections than they have. -/
structure World.Orderly (cfg : Config) (w : World) : Prop where
  apart : w.Apart
  clear : ∀ c call, w.calls c = some call → ∀ id ∈ call.pc.generated, ∀ r ∈ w.db.tables.transactions, r.id ≠ id
  nodup : w.held.Nodup
  pool : ∀ process, (w.held.filter fun c => cfg.process c = process).length ≤ cfg.poolSize process

theorem World.step_held {cfg : Config} {w w' : World} {l : Label} (hs : w.step cfg l = some w') :
    (∃ c, w'.held = c :: w.held ∧ c ∉ w.held ∧ w.free cfg (cfg.process c) = true) ∨ w'.held.Sublist w.held := by
  have moves : ∀ (c : Nat) (call : Call) (db : Db) (log : List Spec.Event),
      (w.moveTo c call db log).held.Sublist w.held := by
    intro c call db log
    unfold World.moveTo
    simp only
    split
    · exact List.Sublist.refl _
    · exact List.filter_sublist
  cases l with
  | invoke c key intent =>
    obtain ⟨-, rfl⟩ := World.step_invoke hs
    exact Or.inr (List.Sublist.refl _)
  | acquire c =>
    obtain ⟨call, -, -, -, hm, hfree, rfl⟩ := World.step_acquire hs
    exact Or.inl ⟨c, rfl, hm, hfree⟩
  | run c env =>
    obtain ⟨call, db, next, -, -, -, rfl⟩ := World.step_run hs
    exact Or.inr (moves ..)
  | fault c err =>
    obtain ⟨call, -, -, -, rfl⟩ := World.step_fault hs
    exact Or.inr (moves ..)
  | lostAck c err =>
    obtain ⟨call, db, ev, -, -, -, rfl⟩ := World.step_lostAck hs
    exact Or.inr (moves ..)
  | cancel c took =>
    obtain ⟨call, -, ⟨-, db, ev, -, rfl⟩ | ⟨-, -, rfl⟩⟩ := World.step_cancel hs
    · exact Or.inr (moves ..)
    · exact Or.inr (moves ..)
  | create process env name currency flag =>
    obtain ⟨-, db, rows, answer, -, rfl⟩ := World.step_create hs
    exact Or.inr (List.Sublist.refl _)

theorem World.step_generated {cfg : Config} {w w' : World} {l : Label} (hf : w.Fresh l)
    (hs : w.step cfg l = some w')
    {c : Nat} {call' : Call} (hc' : w'.calls c = some call') {id : Uuid} (hid : id ∈ call'.pc.generated) :
    (∃ call, w.calls c = some call ∧ id ∈ call.pc.generated) ∨ w.New id := by
  rcases World.step_call hs hc' with hc | ⟨-, hpc⟩ | ⟨call, hc, -, hwent⟩
  · exact Or.inl ⟨call', hc, hid⟩
  · rw [hpc, startPc_generated] at hid
    cases hid
  · cases hwent with
    | ran hr =>
      rw [Call.follow_generated] at hid
      rcases Call.run_generated hr hid with hm | ⟨hg, rfl⟩
      · exact Or.inl ⟨call, hc, hm⟩
      · exact Or.inr (hf _ _ _ rfl hc hg)
    | broke =>
      rw [Call.finish_generated] at hid
      cases hid
    | left => cases hid

theorem World.Orderly.step {cfg : Config} {w w' : World} {l : Label} (ho : w.Orderly cfg) (h : Inv cfg w)
    (hf : w.Fresh l) (hs : w.step cfg l = some w') : w'.Orderly cfg := by
  have hclear : ∀ c call, w'.calls c = some call → ∀ id ∈ call.pc.generated, ∀ r ∈ w.db.tables.transactions,
      r.id ≠ id := by
    intro c call hc id hid r hr
    rcases World.step_generated hf hs hc hid with ⟨call₀, hc₀, hm⟩ | hnew
    · exact ho.clear c call₀ hc₀ id hm r hr
    · exact hnew.2.1 r hr
  refine ⟨ho.apart.step hf hs, ?_, ?_, ?_⟩
  · intro c call hc id hid r hr
    rw [(h.step hs).transactions] at hr
    obtain ⟨tr, htr, rfl⟩ := List.mem_map.mp hr
    rcases World.step_log hs with he | ⟨ev, he, -, hland⟩
    · rw [he] at htr
      exact hclear c call hc id hid _ (h.row_mem htr)
    · rw [he, Spec.transfers_append, List.mem_append] at htr
      rcases htr with htr | htr
      · exact hclear c call hc id hid _ (h.row_mem htr)
      · -- the transfer that lands has the ids of a call that has left its transaction
        have hev : ev = .transfer tr := by
          cases ev with
          | account row => cases htr
          | transfer tr' => rw [List.mem_singleton.mp htr]
        subst hev
        obtain ⟨-, call₀, db, call₁, hc₀, hl, hc₁, hnone⟩ := hland tr rfl
        obtain ⟨x, tid, sender, receiver, cid, did, txn, hpc, -, -, hev⟩ := Inv.landing_commit hl
        have hgen : tr.id ∈ call₀.pc.generated := by
          rw [Spec.Event.transfer.injEq] at hev
          rw [hev, hpc]
          exact List.mem_cons_self ..
        intro he
        have he : tr.id = id := he
        rcases World.step_generated hf hs hc hid with ⟨call₂, hc₂, hm⟩ | hnew
        · by_cases hcc : c = tr.call
          · rw [hcc, hc₁, Option.some.injEq] at hc
            rw [← hc, Pc.generated_of_none hnone] at hid
            cases hid
          · exact ho.apart c tr.call call₂ call₀ hc₂ hc₀ hcc id hm (he ▸ hgen)
        · exact hnew.1 tr.call call₀ hc₀ (he ▸ hgen)
  · rcases World.step_held hs with ⟨c, he, hm, -⟩ | hsub
    · rw [he]
      exact List.nodup_cons.mpr ⟨hm, ho.nodup⟩
    · exact ho.nodup.sublist hsub
  · intro process
    rcases World.step_held hs with ⟨c, he, hm, hfree⟩ | hsub
    · rw [he]
      by_cases hp : cfg.process c = process
      · rw [List.filter_cons_of_pos (by simpa using hp), List.length_cons, ← hp]
        exact of_decide_eq_true hfree
      · rw [List.filter_cons_of_neg (by simpa using hp)]
        exact ho.pool process
    · exact (hsub.filter _).length_le.trans (ho.pool process)

theorem World.Orderly.init (cfg : Config) : World.init.Orderly cfg where
  apart _ _ _ _ hc := by cases hc
  clear _ _ hc := by cases hc
  nodup := List.nodup_nil
  pool _ := Nat.zero_le _

/-! ## Connections taken late -/

/-- Connections are checked out by calls with an open transaction only. -/
structure World.Lazy (w : World) : Prop where
  nodup : w.held.Nodup
  session : ∀ c ∈ w.held, ∃ call, w.calls c = some call ∧ call.pc.session.isSome = true

/-- The pool has a connection for the call next to those of the others. -/
def World.Room (cfg : Config) (w : World) (c : Nat) : Prop :=
  ((w.held.filter (· ≠ c)).filter fun d => cfg.process d = cfg.process c).length < cfg.poolSize (cfg.process c)

theorem World.Lazy.moveTo {w : World} {c : Nat} (hn : w.held.Nodup)
    (hs : ∀ d ∈ w.held, d ≠ c → ∃ call, w.calls d = some call ∧ call.pc.session.isSome = true) (call' : Call)
    (db : Db) (log : List Spec.Event) : (w.moveTo c call' db log).Lazy := by
  cases hopen : call'.pc.session.isSome with
  | true =>
    have hheld : (w.moveTo c call' db log).held = w.held := if_pos hopen
    refine ⟨by rw [hheld]; exact hn, fun d hd => ?_⟩
    rw [hheld] at hd
    by_cases he : d = c
    · rw [he]
      exact ⟨call', Function.update_self .., hopen⟩
    · obtain ⟨call, hc, hsome⟩ := hs d hd he
      exact ⟨call, (Function.update_of_ne he ..).trans hc, hsome⟩
  | false =>
    have hheld : (w.moveTo c call' db log).held = w.held.filter (· ≠ c) :=
      if_neg (by rw [hopen]; exact Bool.false_ne_true)
    refine ⟨by rw [hheld]; exact hn.filter _, fun d hd => ?_⟩
    rw [hheld] at hd
    obtain ⟨hm, hne⟩ := List.mem_filter.mp hd
    have he : d ≠ c := of_decide_eq_true hne
    obtain ⟨call, hc, hsome⟩ := hs d hm he
    exact ⟨call, (Function.update_of_ne he ..).trans hc, hsome⟩

theorem World.moveTo_others (w : World) (c : Nat) (call' : Call) (db : Db) (log : List Spec.Event) :
    (w.moveTo c call' db log).held.filter (· ≠ c) = w.held.filter (· ≠ c) := by
  unfold World.moveTo
  simp only
  split
  · rfl
  · rw [List.filter_filter]
    congr 1
    funext d
    exact Bool.and_self _

structure World.Drives (cfg : Config) (c : Nat) (w w' : World) (call' : Call) (db : Db) : Prop where
  reach : Reach (World.step cfg) (World.Alone c) w w'
  inv : Inv cfg w'
  calls : w'.calls = Function.update w.calls c (some call')
  db : w'.db = db
  lazy : w'.Lazy
  room : w'.Room cfg c
  moved : w.Moved c w'

theorem World.Drives.trans {cfg : Config} {c : Nat} {w w' w'' : World} {call call' : Call} {db db' : Db}
    (h : w.Drives cfg c w' call db) (h' : w'.Drives cfg c w'' call' db') : w.Drives cfg c w'' call' db' where
  reach := h.reach.trans h'.reach
  inv := h'.inv
  calls := by rw [h'.calls, h.calls, Function.update_idem]
  db := h'.db
  lazy := h'.lazy
  room := h'.room
  moved := h.moved.trans h'.moved

theorem Inv.drives {cfg : Config} {w : World} (h : Inv cfg w) (hl : w.Lazy) {c : Nat} {call : Call}
    (hc : w.calls c = some call) (hroom : w.Room cfg c) {env : Env} {db : Db} {next : Next}
    (hnew : call.pc.generates = true → w.New env.id) (hr : call.run cfg w.db env = some (db, next)) :
    ∃ w', w.Drives cfg c w' (call.follow cfg next) (World.leave db call.pc next) := by
  have fresh : ∀ v : World, v.calls = w.calls → v.db = w.db → v.Fresh (.run c env) := by
    intro v hv hdb d e call' hl hd hg
    cases hl
    rw [hv, hc, Option.some.injEq] at hd
    subst hd
    unfold World.New
    rw [hv, hdb]
    exact hnew hg
  let evs := ((World.landing w.db c call).map (·.2)).toList
  by_cases hm : c ∈ w.held
  · have hs : w.step cfg (.run c env) =
        some (w.moveTo c (call.follow cfg next) (World.leave db call.pc next) (w.log ++ evs)) := by
      simp only [World.step, hc, Option.bind_some, World.run, if_pos hm, hr, Option.map_some, evs]
    refine ⟨_, Reach.one _ ⟨Or.inr ⟨env, rfl⟩, fresh w rfl rfl⟩ hs, h.step hs, rfl, rfl,
      World.Lazy.moveTo hl.nodup (fun d hd _ => hl.session d hd) _ _ _, ?_, h.moved_run hc hr⟩
    unfold World.Room
    rw [World.moveTo_others]
    exact hroom
  · have hnone : call.pc.session = none := by
      cases hs : call.pc.session with
      | none => rfl
      | some x => exact absurd (h.held c call hc (by rw [hs]; rfl)) hm
    have hfilter : w.held.filter (· ≠ c) = w.held := by
      rw [List.filter_eq_self]
      intro d hd
      exact decide_eq_true fun he => hm (he ▸ hd)
    have hfree : w.free cfg (cfg.process c) = true := by
      unfold World.Room at hroom
      rw [hfilter] at hroom
      exact decide_eq_true hroom
    let v : World := { w with held := c :: w.held }
    have ha : w.step cfg (.acquire c) = some v := by
      simp only [World.step, hc, Option.bind_some, World.acquire, Call.run_running hr, hnone, hm, hfree,
        not_false_eq_true, and_self, if_true, v]
    have hs : v.step cfg (.run c env) =
        some (v.moveTo c (call.follow cfg next) (World.leave db call.pc next) (w.log ++ evs)) := by
      simp only [World.step, v, hc, Option.bind_some, World.run, List.mem_cons_self, if_true, hr,
        Option.map_some, evs]
    have hfresh : w.Fresh (.acquire c) := by
      intro d e call' he
      cases he
    refine ⟨_, (Reach.one _ ⟨Or.inl rfl, hfresh⟩ ha).trans (Reach.one _ ⟨Or.inr ⟨env, rfl⟩, fresh v rfl rfl⟩ hs),
      (h.step ha).step hs, rfl, rfl, World.Lazy.moveTo (List.nodup_cons.mpr ⟨hm, hl.nodup⟩) ?_ _ _ _, ?_, ?_⟩
    · intro d hd hne
      rcases List.mem_cons.mp hd with rfl | hd
      · exact absurd rfl hne
      · exact hl.session d hd
    · unfold World.Room
      rw [World.moveTo_others]
      unfold World.Room at hroom
      simpa [v] using hroom
    · have hmoved : w.Moved c (w.moveTo c (call.follow cfg next) (World.leave db call.pc next) (w.log ++ evs)) :=
        h.moved_run hc hr
      exact ⟨hmoved.calls, hmoved.clock⟩

end Ledger
