import Ledger.TransfersSound
import Mathlib.Data.List.Permutation

/-!
# What the answers mean

Over all runs of the service, whatever fails, is cancelled or is acknowledged late:
one transfer per key, answers that the sequential ledger would give, rejections
without a trace, and details that never change.
-/

namespace Ledger

open Keyed Runs Transfers

def World.Leads (cfg : Config) : World → World → Prop := Reach (World.step cfg) fun _ _ => True

theorem World.Leads.inv {cfg : Config} {w w' : World} (h : World.Leads cfg w w') (hi : Inv cfg w) : Inv cfg w' :=
  Reach.invariant (fun _ _ _ hi _ hs => hi.step hs) h hi

/-! ## Calls along a run -/

section
variable {cfg : Config} {w w' : World} {l : Label}

theorem Transfers.Call.run_running {call : Call} {db db' : Db} {env : Env} {next : Next}
    (h : call.run cfg db env = some (db', next)) : call.pc.running = true := by
  cases hpc : call.pc with
  | done | cancelled | panicked => simp only [Call.run, hpc] at h; cases h
  | _ => rfl

theorem Transfers.Call.finish_same (call : Call) (r : Except LedgerError TransferResult) :
    (call.finish cfg r).key = call.key ∧ (call.finish cfg r).intent = call.intent := by
  unfold Call.finish
  split
  · split <;> exact ⟨rfl, rfl⟩
  · exact ⟨rfl, rfl⟩

theorem Transfers.Call.follow_same (call : Call) (next : Next) :
    (call.follow cfg next).key = call.key ∧ (call.follow cfg next).intent = call.intent := by
  cases next with
  | goto pc => exact ⟨rfl, rfl⟩
  | ret r => exact call.finish_same r
  | panic => exact ⟨rfl, rfl⟩

theorem Transfers.startPc_session (i : TransferIntent) : (startPc cfg i).session = none := by
  unfold startPc start validate
  split
  · rename_i hn
    split at hn
    · cases hn; rfl
    · split at hn
      · cases hn
      · split at hn <;> cases hn
        rfl
  · rfl
  · rfl

theorem Transfers.Call.finish_session (call : Call) (r : Except LedgerError TransferResult) :
    (call.finish cfg r).pc.session = none := by
  unfold Call.finish
  split
  · split
    · exact startPc_session call.intent
    · rfl
  · rfl

/-- What a step makes of the call it moves. -/
inductive Transfers.Went (cfg : Config) (db : Db) (c : Nat) (call : Call) : Label → Call → Prop
  | ran {env : Env} {db' : Db} {next : Next} (h : call.run cfg db env = some (db', next)) :
      Went cfg db c call (.run c env) (call.follow cfg next)
  | broke {l : Label} {err : SqlxError} : Went cfg db c call l (call.finish cfg (.error (.database err)))
  | left {l : Label} : Went cfg db c call l { call with pc := .cancelled }

theorem Transfers.Went.same {db : Db} {c : Nat} {call call' : Call} (h : Went cfg db c call l call') :
    call'.key = call.key ∧ call'.intent = call.intent := by
  cases h with
  | ran h => exact call.follow_same _
  | broke => exact call.finish_same _
  | left => exact ⟨rfl, rfl⟩

theorem World.step_calls (hs : w.step cfg l = some w') :
    (∃ c call, l = .invoke c call.key call.intent ∧ w.calls c = none ∧ call.pc = startPc cfg call.intent ∧
      w'.calls = Function.update w.calls c (some call)) ∨
    (∃ c call call', w.calls c = some call ∧ call.pc.running = true ∧ Went cfg w.db c call l call' ∧
      w'.calls = Function.update w.calls c (some call')) ∨
    w'.calls = w.calls := by
  cases l with
  | invoke c key intent =>
    obtain ⟨hnone, rfl⟩ := World.step_invoke hs
    exact Or.inl ⟨c, _, rfl, hnone, rfl, rfl⟩
  | acquire c =>
    obtain ⟨call, -, -, -, -, -, rfl⟩ := World.step_acquire hs
    exact Or.inr (Or.inr rfl)
  | run c env =>
    obtain ⟨call, db, next, hc, -, hr, rfl⟩ := World.step_run hs
    exact Or.inr (Or.inl ⟨c, call, _, hc, Call.run_running hr, .ran hr, rfl⟩)
  | fault c err =>
    obtain ⟨call, hc, hrun, he, rfl⟩ := World.step_fault hs
    rw [Inv.onError_spontaneous he]
    exact Or.inr (Or.inl ⟨c, call, _, hc, hrun, .broke, rfl⟩)
  | lostAck c err =>
    obtain ⟨call, db, ev, hc, he, hl, rfl⟩ := World.step_lostAck hs
    rw [Inv.onError_spontaneous he]
    exact Or.inr (Or.inl ⟨c, call, _, hc, Inv.landing_running hl, .broke, rfl⟩)
  | cancel c took =>
    obtain ⟨call, hc, ⟨-, db, ev, hl, rfl⟩ | ⟨-, hrun, rfl⟩⟩ := World.step_cancel hs
    · exact Or.inr (Or.inl ⟨c, call, _, hc, Inv.landing_running hl, .left, rfl⟩)
    · exact Or.inr (Or.inl ⟨c, call, _, hc, hrun, .left, rfl⟩)
  | create process env name currency flag =>
    obtain ⟨-, db, rows, answer, -, rfl⟩ := World.step_create hs
    exact Or.inr (Or.inr rfl)

theorem World.step_call (hs : w.step cfg l = some w') {c : Nat} {call' : Call} (hc' : w'.calls c = some call') :
    w.calls c = some call' ∨ (w.calls c = none ∧ call'.pc = startPc cfg call'.intent) ∨
      ∃ call, w.calls c = some call ∧ call.pc.running = true ∧ Went cfg w.db c call l call' := by
  have at_or_off : ∀ {d : Nat} {call₁ : Call}, w'.calls = Function.update w.calls d (some call₁) →
      (c = d ∧ call' = call₁) ∨ w.calls c = some call' := by
    intro d call₁ he
    rw [he] at hc'
    by_cases hdc : c = d
    · rw [hdc, Function.update_self, Option.some.injEq] at hc'
      exact Or.inl ⟨hdc, hc'.symm⟩
    · rw [Function.update_of_ne hdc] at hc'
      exact Or.inr hc'
  rcases World.step_calls hs with ⟨d, call, -, hnone, hpc, he⟩ | ⟨d, call, call₁, hd, hrun, hwent, he⟩ | he
  · rcases at_or_off he with ⟨rfl, rfl⟩ | hc
    · exact Or.inr (Or.inl ⟨hnone, hpc⟩)
    · exact Or.inl hc
  · rcases at_or_off he with ⟨rfl, rfl⟩ | hc
    · exact Or.inr (Or.inr ⟨call, hd, hrun, hwent⟩)
    · exact Or.inl hc
  · exact Or.inl (by rw [← he]; exact hc')

theorem World.step_answered (hs : w.step cfg l = some w') {c : Nat} {call : Call} (hc : w.calls c = some call)
    (hr : call.pc.running = false) : w'.calls c = some call := by
  rcases World.step_calls hs with ⟨c', call', -, hnone, -, he⟩ | ⟨c', call₁, call', hc', hrun, -, he⟩ | he
  · have hne : c ≠ c' := fun e => by rw [← e, hc] at hnone; cases hnone
    rw [he, Function.update_of_ne hne, hc]
  · have hne : c ≠ c' := fun e => by
      rw [← e, hc, Option.some.injEq] at hc'
      rw [hc', hrun] at hr; cases hr
    rw [he, Function.update_of_ne hne, hc]
  · rw [he, hc]

theorem World.Leads.answered (h : World.Leads cfg w w') {c : Nat} {call : Call} (hc : w.calls c = some call)
    (hr : call.pc.running = false) : w'.calls c = some call :=
  Reach.invariant (P := fun v => v.calls c = some call) (fun _ _ _ hp _ hs => World.step_answered hs hp hr) h hc

/-! ## The log along a run -/

/-- The call whose `COMMIT` the step may let take effect. -/
def Label.commits : Label → Option Nat
  | .run c _ | .lostAck c _ | .cancel c true => some c
  | _ => none

/-- The step has committed this: an account that it creates, or a transfer that lands. -/
structure World.Commits (w w' : World) (l : Label) (ev : Spec.Event) : Prop where
  account : ∀ row, ev = .account row → ∃ process env name currency,
    l = .create process env name currency row.allowsNegativeBalance
  transfer : ∀ tr, ev = .transfer tr → l.commits = some tr.call ∧ ∃ call db call', w.calls tr.call = some call ∧
    World.landing w.db tr.call call = some (db, ev) ∧ w'.calls tr.call = some call' ∧ call'.pc.session = none

theorem World.step_log (hs : w.step cfg l = some w') :
    w'.log = w.log ∨ ∃ ev, w'.log = w.log ++ [ev] ∧ World.Commits w w' l ev := by
  have landed : ∀ {c : Nat} {call call' : Call} {db db' : Db} {ev : Spec.Event}, l.commits = some c →
      w.calls c = some call → World.landing w.db c call = some (db, ev) → call'.pc.session = none →
      w' = w.moveTo c call' db' (w.log ++ [ev]) → ∃ ev', w'.log = w.log ++ [ev'] ∧ World.Commits w w' l ev' := by
    intro c call call' db db' ev hcommits hc hl hs' hw'
    obtain ⟨x, id, sender, receiver, cid, did, txn, -, -, -, rfl⟩ := Inv.landing_commit hl
    refine ⟨_, by rw [hw']; rfl, (fun row he => by cases he), fun tr he => ?_⟩
    cases he
    exact ⟨hcommits, call, db, call', hc, hl, by rw [hw']; exact Function.update_self .., hs'⟩
  cases l with
  | invoke c key intent =>
    obtain ⟨-, rfl⟩ := World.step_invoke hs
    exact Or.inl rfl
  | acquire c =>
    obtain ⟨call, -, -, -, -, -, rfl⟩ := World.step_acquire hs
    exact Or.inl rfl
  | run c env =>
    obtain ⟨call, db, next, hc, -, hr, hw⟩ := World.step_run hs
    cases hl : World.landing w.db c call with
    | none => exact Or.inl (by rw [hw, hl]; simp [World.moveTo])
    | some p =>
      obtain ⟨x, id, sender, receiver, cid, did, txn, hpc, hx, hcm, -⟩ := Inv.landing_commit hl
      simp only [Call.run, hpc, hx, Option.map_some, hcm, Option.some.injEq, Prod.mk.injEq] at hr
      obtain ⟨-, rfl⟩ := hr
      have hgone : ({ call with pc := .getTransaction .created id } : Call).pc.session = none := rfl
      exact Or.inr (landed rfl hc hl hgone (by rw [hw, hl]; rfl))
  | fault c err =>
    obtain ⟨call, -, -, -, rfl⟩ := World.step_fault hs
    exact Or.inl rfl
  | lostAck c err =>
    obtain ⟨call, db, ev, hc, he, hl, hw⟩ := World.step_lostAck hs
    rw [Inv.onError_spontaneous he] at hw
    have hgone : (call.finish cfg (.error (.database err))).pc.session = none := call.finish_session _
    exact Or.inr (landed rfl hc hl hgone hw)
  | cancel c took =>
    obtain ⟨call, hc, ⟨rfl, db, ev, hl, hw⟩ | ⟨-, -, rfl⟩⟩ := World.step_cancel hs
    · exact Or.inr (landed rfl hc hl rfl hw)
    · exact Or.inl rfl
  | create process env name currency flag =>
    obtain ⟨-, db, rows, answer, hcr, rfl⟩ := World.step_create hs
    rcases Accounts.create_rows hcr with rfl | ⟨row, rfl, hflag⟩
    · exact Or.inl (List.append_nil _)
    · refine Or.inr ⟨_, rfl, fun row' he => ?_, (fun tr he => by cases he)⟩
      cases he
      exact ⟨process, env, name, currency, by rw [hflag]⟩

theorem World.landing_log (hs : w.step cfg l = some w') {c : Nat} {call : Call} {db : Db} {ev : Spec.Event}
    (hl : l.commits = some c) (hc : w.calls c = some call) (hland : World.landing w.db c call = some (db, ev)) :
    w'.log = w.log ++ [ev] := by
  cases l with
  | run c' env =>
    cases hl
    obtain ⟨call', db', next, hc', -, -, rfl⟩ := World.step_run hs
    cases hc.symm.trans hc'
    rw [World.moveTo, hland, Option.map_some, Option.toList_some]
  | lostAck c' err =>
    cases hl
    obtain ⟨call', db', ev', hc', -, hl', rfl⟩ := World.step_lostAck hs
    cases hc.symm.trans hc'
    cases hland.symm.trans hl'
    rfl
  | cancel c' took =>
    obtain ⟨call', hc', ⟨rfl, db', ev', hl', rfl⟩ | ⟨rfl, -, -⟩⟩ := World.step_cancel hs
    · cases hl
      cases hc.symm.trans hc'
      cases hland.symm.trans hl'
      rfl
    · cases hl
  | _ => cases hl

theorem World.Leads.log (h : World.Leads cfg w w') : ∃ evs, w'.log = w.log ++ evs := by
  refine Reach.rel (R := fun a b => ∃ evs, b.log = a.log ++ evs) (P := fun _ => True) ?_ ?_
    (fun _ _ _ _ _ _ => trivial) ?_ h trivial
  · intro a; exact ⟨[], (List.append_nil _).symm⟩
  · rintro a b d ⟨e₁, h1⟩ ⟨e₂, h2⟩
    exact ⟨e₁ ++ e₂, by rw [h2, h1, List.append_assoc]⟩
  · intro a l b _ _ hs
    rcases World.step_log hs with he | ⟨ev, he, -⟩
    · exact ⟨[], by rw [he, List.append_nil]⟩
    · exact ⟨[ev], he⟩

theorem World.Leads.transfers (h : World.Leads cfg w w') {tr : Spec.Transfer} (htr : tr ∈ Spec.transfers w.log) :
    tr ∈ Spec.transfers w'.log := by
  obtain ⟨evs, he⟩ := h.log
  rw [he, Spec.transfers_append]
  exact List.mem_append_left _ htr

end

namespace Inv

variable {cfg : Config} {w : World} (h : Inv cfg w)
include h

theorem transfer_keys : Distinct (·.key) (Spec.transfers w.log) := by
  have hd := h.keys.keys
  rw [h.transactions] at hd
  exact (distinct_map (g := Spec.Transfer.row cfg.sha256)).mp hd

theorem answer {c : Nat} {call : Call} (hc : w.calls c = some call) {res : TransferResult}
    (hd : call.pc = .done (.ok res)) : ∃ tr m, Stands cfg w.log c call.key call.intent res.outcome tr ∧
      Money.new (cfg.decode.decimal tr.intent.units) tr.intent.amount.currency = .ok m ∧
      res.detail = tr.detail cfg.sha256 m := by
  have := h.call c call hc
  simpa only [CallOk, hd, AnswerOk] using this

theorem rejection {c : Nat} {call : Call} (hc : w.calls c = some call) {e : LedgerError}
    (hd : call.pc = .done (.error e)) (he : e.typed = true) :
    (∀ tr ∈ Spec.transfers w.log, tr.call ≠ c) ∧ e.refusal = true := by
  have := h.call c call hc
  simp only [CallOk, hd, AnswerOk] at this
  exact this he

end Inv

/-! ## A run to look at -/

/-- The driver's decoder on the values the columns can hold: zero has scale 0. -/
def Decode.driver : Decode where
  decimal u :=
    if h : u ≠ 0 ∧ u.natAbs < 2 ^ 96 then ⟨decide (u < 0), u.natAbs, 8, h.2, by omega⟩ else Decimal.zero
  exact u hu := by
    have hlt : u.natAbs < 2 ^ 96 := by
      have : |u| < 2 ^ 96 := lt_of_lt_of_le hu (by norm_num)
      rw [Int.abs_eq_natAbs] at this
      omega
    by_cases h0 : u = 0
    · subst h0; rfl
    · rw [dif_pos ⟨h0, hlt⟩]
      unfold Decimal.val Decimal.signed
      have hs : (if decide (u < 0) = true then -(u.natAbs : ℤ) else u.natAbs) = u := by
        split <;> rename_i hn <;> simp only [decide_eq_true_eq] at hn <;> omega
      exact congrArg (· * 10 ^ 20) hs

def five : Decimal := ⟨false, 500, 2, by norm_num, by omega⟩

def rent : TransferIntent where
  fromAccountId := 1
  toAccountId := 2
  amount := ⟨five, ⟨"EUR"⟩⟩
  description := "rent"
  valid := ⟨by decide, by decide +kernel, by decide +kernel⟩

def refund : TransferIntent where
  fromAccountId := 2
  toAccountId := 1
  amount := ⟨⟨false, 10, 0, by norm_num, Decimal.whole_scale⟩, ⟨"EUR"⟩⟩
  description := "refund"
  valid := ⟨by decide, by decide +kernel, by decide +kernel⟩

/-- SHA-256 on the encodings of `rent` and `refund`. -/
def digest (bytes : List UInt8) : Vector UInt8 32 :=
  if bytes = rent.encoding then
    ⟨#[241, 149, 246, 166, 23, 80, 47, 232, 192, 21, 196, 189, 127, 233, 56, 128, 148, 134, 18, 36, 23, 103,
      191, 237, 118, 138, 88, 75, 42, 169, 228, 155], rfl⟩
  else
    ⟨#[150, 215, 150, 70, 104, 205, 177, 157, 231, 125, 249, 31, 72, 179, 233, 139, 249, 163, 46, 69, 43, 74,
      83, 211, 96, 173, 149, 65, 250, 160, 40, 153], rfl⟩

def sample (check : Bool) : Config where
  schema := { balanceNonNegative := check }
  sha256 := digest
  decode := Decode.driver
  process := fun _ => 0
  poolSize := fun _ => 1

def rentPaid : Spec.Transfer where
  call := 0
  key := "rent-1"
  intent := rent
  id := 3
  creditId := 4
  debitId := 5
  now := 0
  xid := 2

def sampleEnv (id : Uuid) : Env where
  id := id
  now := 0
  scan := [rentPaid.debit, rentPaid.credit]

def onPool (c : Nat) (id : Uuid) : List Label := [.acquire c, .run c (sampleEnv id)]

/-- The rent is paid, its request is sent again, and a refund of more than that is refused. -/
def sampleRun : List Label :=
  [.create 0 (sampleEnv 1) "bank" ⟨"EUR"⟩ true, .create 0 (sampleEnv 2) "landlord" ⟨"EUR"⟩ false,
    .invoke 0 "rent-1" rent, .invoke 1 "rent-1" rent, .invoke 2 "refund-1" refund] ++
  onPool 0 0 ++ onPool 0 3 ++ ([0, 0, 0, 0, 4, 5, 0, 0].map fun id => Label.run 0 (sampleEnv id)) ++
  onPool 0 0 ++ onPool 0 0 ++
  onPool 1 0 ++ onPool 1 0 ++ onPool 1 0 ++
  onPool 2 0 ++ onPool 2 6 ++ [.run 2 (sampleEnv 0), .run 2 (sampleEnv 0), .run 2 (sampleEnv 0)]


def rentDetail : TransactionDetail := rentPaid.detail digest ⟨⟨false, 500000000, 8, by norm_num, by omega⟩, ⟨"EUR"⟩⟩

def answered (key : String) (intent : TransferIntent) (r : Except LedgerError TransferResult) : Call where
  key := key
  intent := intent
  attempt := 0
  pc := .done r

theorem sampleRun_answers (check : Bool) : ∃ w, exec (World.step (sample check)) World.init sampleRun = some w ∧
    w.calls 0 = some (answered "rent-1" rent (.ok ⟨.created, rentDetail⟩)) ∧
    w.calls 1 = some (answered "rent-1" rent (.ok ⟨.replayed, rentDetail⟩)) ∧
    w.calls 2 = some (answered "refund-1" refund (.error (.insufficientFunds 2))) := by
  have h : (exec (World.step (sample check)) World.init sampleRun).any (fun w => decide (
      w.calls 0 = some (answered "rent-1" rent (.ok ⟨.created, rentDetail⟩)) ∧
      w.calls 1 = some (answered "rent-1" rent (.ok ⟨.replayed, rentDetail⟩)) ∧
      w.calls 2 = some (answered "refund-1" refund (.error (.insufficientFunds 2))))) = true := by
    cases check <;> decide +kernel
  obtain ⟨w, hw, h⟩ := (Option.any_eq_true _ _).mp h
  exact ⟨w, hw, of_decide_eq_true h⟩

theorem sampleRun_leads (check : Bool) : ∃ w, World.Leads (sample check) World.init w ∧
    w.calls 0 = some (answered "rent-1" rent (.ok ⟨.created, rentDetail⟩)) ∧
    w.calls 1 = some (answered "rent-1" rent (.ok ⟨.replayed, rentDetail⟩)) ∧
    w.calls 2 = some (answered "refund-1" refund (.error (.insufficientFunds 2))) := by
  obtain ⟨w, hw, h⟩ := sampleRun_answers check
  exact ⟨w, reach_of_exec (fun _ _ _ => trivial) hw, h⟩

/-! ## One transfer per key -/

/-- **Exactly once.** Under every key at most one transaction is ever committed and at
most one transfer takes effect; one call at most is told that it created it, and every
call that is told of success gets that transaction and has sent its payload. The
collision branch without a transaction is never taken. -/
theorem exactly_once (cfg : Config) {w : World} (hr : World.Leads cfg World.init w) (key : String) :
    (w.db.tables.transactions.filter fun r => r.idempotencyKey = key).length ≤ 1 ∧
    (∀ w', World.Leads cfg w w' → ∀ r ∈ w.db.tables.transactions, r.idempotencyKey = key →
      w'.db.tables.transactions.filter (fun r' => r'.idempotencyKey = key) = [r]) ∧
    (exec (Spec.step cfg.sha256 cfg.decode) {} w.log = some w.db.tables ∧
      ((Spec.transfers w.log).filter fun tr => tr.key = key).length ≤ 1) ∧
    (∀ w', World.Leads cfg w w' → ∀ c c' call call' detail detail', w.calls c = some call →
      w'.calls c' = some call' → call.key = key → call'.key = key →
      call.pc = .done (.ok ⟨.created, detail⟩) → call'.pc = .done (.ok ⟨.created, detail'⟩) → c = c') ∧
    (∀ c call res, w.calls c = some call → call.key = key → call.pc = .done (.ok res) →
      ∃ r ∈ w.db.tables.transactions, r.idempotencyKey = key ∧ res.detail.transaction.id = r.id ∧
        r.requestHash = (call.intent.requestHash cfg.sha256).toList) ∧
    ∀ c call, w.calls c = some call →
      call.pc ≠ .done (.error (.validation "idempotency key collided but no transaction was found")) := by
  have h := Inv.reach hr
  refine ⟨h.keys.keys.filter_le_one key, ?_, ⟨h.spec, h.transfer_keys.filter_le_one key⟩, ?_, ?_, ?_⟩
  · intro w' hl r hm hk
    obtain ⟨tr, htr, rfl⟩ := h.find_transfer hm
    have h' := hl.inv h
    exact h'.keys.keys.filter (h'.row_mem (hl.transfers htr)) hk
  · intro w' hl c c' call call' detail detail' hc hc' hk hk' hd hd'
    -- the first answer stands in the later state too
    have h' := hl.inv h
    have hcl := hl.answered hc (by rw [hd]; rfl)
    obtain ⟨tr, -, hst, -⟩ := h'.answer hcl hd
    obtain ⟨tr', -, hst', -⟩ := h'.answer hc' hd'
    have he := h'.transfer_keys.eq hst.mem hst'.mem (hst.key.trans (hk.trans (hst'.key.trans hk').symm))
    rw [← hst.own rfl, ← hst'.own rfl, he]
  · intro c call res hc hk hd
    obtain ⟨tr, m, hst, -, hdet⟩ := h.answer hc hd
    refine ⟨tr.row cfg.sha256, h.row_mem hst.mem, hst.key.trans hk, by rw [hdet]; rfl, ?_⟩
    exact congrArg Vector.toList hst.hash
  · intro c call hc hd
    have := (h.rejection hc hd rfl).2
    cases this

theorem exactly_once_sampleRun : ∃ w, World.Leads (sample true) World.init w ∧
    w.calls 0 = some (answered "rent-1" rent (.ok ⟨.created, rentDetail⟩)) ∧
    w.calls 1 = some (answered "rent-1" rent (.ok ⟨.replayed, rentDetail⟩)) ∧
    (w.db.tables.transactions.filter fun r => r.idempotencyKey = "rent-1").length ≤ 1 ∧
    ∃ r ∈ w.db.tables.transactions, r.idempotencyKey = "rent-1" ∧ rentDetail.transaction.id = r.id ∧
      r.requestHash = (digest rent.encoding).toList := by
  obtain ⟨w, hr, h0, h1, -⟩ := sampleRun_leads true
  have h := exactly_once (sample true) hr "rent-1"
  exact ⟨w, hr, h0, h1, h.1, h.2.2.2.2.1 0 _ _ h0 rfl rfl⟩

/-! ## Linearizability -/

/-- `execute_once` with its first lookup, as the source has it. -/
def Config.asWritten (cfg : Config) : Config := { cfg with fastPath := true }

/-- What the sequential ledger has to say for an answer to be right. A fresh transfer
speaks for itself in the log, an opaque error says nothing. -/
def Transfers.claims : Except LedgerError TransferResult → Option Spec.Verdict
  | .ok ⟨.replayed, detail⟩ => some (.replayed (.ok detail))
  | .ok ⟨.created, _⟩ => none
  | .error (.database _) => none
  | .error err => some (.rejected err)

section
variable {cfg : Config} {w w' : World} {l : Label}

theorem Transfers.Call.finish_done {call : Call} {r r' : Except LedgerError TransferResult}
    (h : (call.finish cfg.asWritten r).pc = .done r') : r' = r := by
  unfold Call.finish at h
  split at h
  · split at h
    · cases h
    · cases h; rfl
  · cases h; rfl

theorem Transfers.claims_typed {e : LedgerError} {v : Spec.Verdict} (h : claims (.error e) = some v) :
    v = .rejected e := by
  cases e <;> cases h <;> rfl

theorem Inv.answers_now (h : Inv cfg.asWritten w) (hs : w.step cfg.asWritten l = some w') {c : Nat} {call' : Call}
    (hc' : w'.calls c = some call') {r : Except LedgerError TransferResult} (hd : call'.pc = .done r) :
    w.calls c = some call' ∨ ∃ call, w.calls c = some call ∧ call.pc.running = true ∧ call.key = call'.key ∧
      call.intent = call'.intent ∧ ∀ v, claims r = some v →
        Spec.verdict cfg.sha256 cfg.decode w.db.tables call'.key call'.intent = v := by
  rcases World.step_call hs hc' with hc | ⟨-, hstart⟩ | ⟨call₁, hc₁, hrun, hwent⟩
  · exact Or.inl hc
  · rw [hstart] at hd
    cases hd
  · obtain ⟨hk, hi⟩ := hwent.same
    refine Or.inr ⟨call₁, hc₁, hrun, hk.symm, hi.symm, fun v hv => ?_⟩
    rw [hk, hi]
    cases hwent with
    | @ran env db next hr =>
      have hran := h.ran hc₁ hr
      generalize ((World.landing w.db c call₁).map (·.2)).toList = evs at hran
      cases hran with
      | stays _ _ hrun' | leaves _ _ hrun' =>
        -- a jump never lands on an answer
        cases hd; cases hrun'
      | writes _ hs' => cases hd; cases hs'
      | opens | commits => cases hd
      | breaks hdb =>
        rw [Call.finish_done hd] at hv; cases hv
      | refuses hdb hnone hkind hverdict =>
        rw [Call.finish_done hd] at hv
        rw [claims_typed hv]; exact hverdict
      | @answers res hs' hok hverdict =>
        rw [Call.finish_done hd] at hv
        obtain ⟨outcome, detail⟩ := res
        cases outcome with
        | created => cases hv
        | replayed => cases hv; exact hverdict
    | broke => rw [Call.finish_done hd] at hv; cases hv
    | left => cases hd

theorem Inv.refines (h : Inv cfg w) (hs : w.step cfg l = some w') :
    (w'.log = w.log ∧ w'.db.tables = w.db.tables) ∨
      ∃ ev, w'.log = w.log ++ [ev] ∧ Spec.step cfg.sha256 cfg.decode w.db.tables ev = some w'.db.tables ∧
        ∀ tr, ev = .transfer tr →
          ∃ call, w'.calls tr.call = some call ∧ call.key = tr.key ∧ call.intent = tr.intent := by
  have h' := h.step hs
  have hspec := h'.spec
  rcases World.step_log hs with he | ⟨ev, he, -⟩
  · rw [he, h.spec, Option.some.injEq] at hspec
    exact Or.inl ⟨he, hspec.symm⟩
  · rw [he, exec_concat, h.spec, Option.bind_some] at hspec
    refine Or.inr ⟨ev, he, hspec, fun tr htr => h'.author tr ?_⟩
    rw [he, Spec.transfers_append, htr]
    exact List.mem_append_right _ (List.mem_singleton.mpr rfl)

end

/-- **Linearizability.** Whatever the schema's `CHECK` says: each commit is one step of
the sequential ledger that passes all its checks, so the committed tables are what that
ledger makes of the commits in their order; every refusal and every replay is the answer
it gives in a state the call was under way in; and no balance without the flag is negative. -/
theorem linearizable (cfg : Config) {past : List World} {w : World}
    (hr : Hist (World.step cfg.asWritten) (fun _ _ => True) World.init past w) :
    exec (Spec.step cfg.sha256 cfg.decode) {} w.log = some w.db.tables ∧
    (∀ l w', w.step cfg.asWritten l = some w' → (w'.log = w.log ∧ w'.db.tables = w.db.tables) ∨
      ∃ ev, w'.log = w.log ++ [ev] ∧ Spec.step cfg.sha256 cfg.decode w.db.tables ev = some w'.db.tables ∧
        ∀ tr, ev = .transfer tr →
          ∃ call, w'.calls tr.call = some call ∧ call.key = tr.key ∧ call.intent = tr.intent) ∧
    (∀ c call r, w.calls c = some call → call.pc = .done r → ∀ v, claims r = some v →
      ∃ u ∈ past, ∃ call', u.calls c = some call' ∧ call'.pc.running = true ∧ call'.key = call.key ∧
        call'.intent = call.intent ∧
        Spec.verdict cfg.sha256 cfg.decode u.db.tables call.key call.intent = v) ∧
    ∀ a ∈ w.db.tables.accounts, a.allowsNegativeBalance = false → a.balance.val.lt (.num 0) = false := by
  have h := Inv.reach hr.reach
  refine ⟨h.spec, fun l w' hs => h.refines hs, ?_, h.ledger.nonneg⟩
  clear h
  induction hr with
  | nil => intro c call r hc; cases hc
  | @snoc past u w l hu _ hs ih =>
    intro c call r hc hd v hv
    rcases (Inv.reach hu.reach).answers_now hs hc hd with hold | ⟨call', h1, h2, h3, h4, h5⟩
    · obtain ⟨u', hm, hrest⟩ := ih c call r hold hd v hv
      exact ⟨u', List.mem_cons_of_mem _ hm, hrest⟩
    · exact ⟨u, List.mem_cons_self .., call', h1, h2, h3, h4, h5 v hv⟩

theorem linearizable_sampleRun : ∃ past w,
    Hist (World.step (sample false).asWritten) (fun _ _ => True) World.init past w ∧
    w.calls 2 = some (answered "refund-1" refund (.error (.insufficientFunds 2))) ∧
    ∃ u ∈ past, Spec.verdict digest Decode.driver u.db.tables "refund-1" refund =
      .rejected (.insufficientFunds 2) := by
  obtain ⟨w, hr, -, -, h2⟩ := sampleRun_leads false
  obtain ⟨past, hist⟩ := Reach.hist hr
  have h := linearizable (sample false) hist
  obtain ⟨u, hu, -, -, -, -, -, hv⟩ := h.2.2.1 2 _ _ h2 rfl _ rfl
  exact ⟨past, w, hist, h2, u, hu, hv⟩

/-! ## Rejections -/

/-- **A typed rejection leaves no trace.** The call that gets it has committed no transfer
and has nothing open, so whatever stands under its key, committed or claimed, is another
call's, and the key's index lets a claim in when there is nothing. A call whose transfer
was committed is never answered with a typed error, nor is any call told that its
transaction is missing or its amount malformed. -/
theorem rejection_leaves_no_trace (cfg : Config) {w : World} (hr : World.Leads cfg World.init w) {c : Nat}
    {call : Call} (hc : w.calls c = some call) {err : LedgerError} (hd : call.pc = .done (.error err))
    (ht : err.typed = true) :
    (exec (Spec.step cfg.sha256 cfg.decode) {} w.log = some w.db.tables ∧
      ∀ tr ∈ Spec.transfers w.log, tr.call ≠ c) ∧
    (∀ r ∈ w.db.tables.transactions, ∃ tr ∈ Spec.transfers w.log, r = tr.row cfg.sha256 ∧ tr.call ≠ c) ∧
    (∀ x txn, w.db.txns x = some txn → ∃ c' call', c' ≠ c ∧ w.calls c' = some call' ∧ call'.pc.session = some x) ∧
    (∀ x, (∀ r ∈ w.db.tables.transactions, r.idempotencyKey ≠ call.key) →
      (∀ y txn, y ≠ x → w.db.txns y = some txn → ∀ r ∈ txn.work.transactions, r.idempotencyKey ≠ call.key) →
      w.db.unique x .transactions_idempotency_key_key
        (w.db.tables.transactions.any fun r => r.idempotencyKey = call.key)
        (fun work => work.transactions.any fun r => r.idempotencyKey = call.key) = .ok ()) ∧
    (∀ tr ∈ Spec.transfers w.log, ∀ call' err', w.calls tr.call = some call' →
      call'.pc = .done (.error err') → err'.typed = false) ∧
    ∀ c' call' err', w.calls c' = some call' → call'.pc = .done (.error err') → err'.typed = true →
      err'.refusal = true := by
  have h := Inv.reach hr
  have hnone := (h.rejection hc hd ht).1
  refine ⟨⟨h.spec, hnone⟩, ?_, ?_, ?_, ?_, ?_⟩
  · intro r hm
    obtain ⟨tr, htr, he⟩ := h.find_transfer hm
    exact ⟨tr, htr, he, hnone tr htr⟩
  · intro x txn hx
    obtain ⟨c', call', h1, h2⟩ := h.owned x txn hx
    refine ⟨c', call', ?_, h1, h2⟩
    intro e
    rw [e, hc, Option.some.injEq] at h1
    rw [← h1, hd] at h2
    cases h2
  · intro x hcommitted hclaimed
    have hany : (w.db.tables.transactions.any fun r => decide (r.idempotencyKey = call.key)) = false := by
      rw [List.any_eq_false]
      intro r hm
      simpa using hcommitted r hm
    unfold Db.unique
    rw [hany]
    refine Db.await_ok fun y txn hy hty => List.any_eq_false.mpr fun r hm => ?_
    simpa using hclaimed y txn hy hty r hm
  · intro tr htr call' err' hc' hd'
    cases he : err'.typed with
    | false => rfl
    | true => exact absurd rfl ((h.rejection hc' hd' he).1 tr htr)
  · intro c' call' err' hc' hd' ht'
    exact (h.rejection hc' hd' ht').2

theorem rejection_leaves_no_trace_sampleRun : ∃ w, World.Leads (sample true) World.init w ∧
    w.calls 2 = some (answered "refund-1" refund (.error (.insufficientFunds 2))) ∧
    ∀ tr ∈ Spec.transfers w.log, tr.call ≠ 2 := by
  obtain ⟨w, hr, -, -, h2⟩ := sampleRun_leads true
  exact ⟨w, hr, h2, (rejection_leaves_no_trace (sample true) hr h2 rfl rfl).1.2⟩

/-! ## Details -/

theorem Inv.get_ok {cfg : Config} {w w₁ w₂ : World} (h : Inv cfg w) (h₁ : World.Leads cfg w w₁)
    (h₂ : World.Leads cfg w₁ w₂) {tr : Spec.Transfer} (htr : tr ∈ Spec.transfers w.log) {m : Money}
    (hm : Money.new (cfg.decode.decimal tr.intent.units) tr.intent.amount.currency = .ok m) {scan : List Row.Entry}
    (hp : scan.Perm (Transactions.entriesOf w₂.db.tables tr.id)) :
    Transactions.get cfg.decode w₁.db.tables w₂.db.tables scan tr.id = some (.ok (tr.detail cfg.sha256 m)) := by
  have i₁ := h₁.inv h
  have i₂ := h₂.inv i₁
  have m₁ := h₁.transfers htr
  have m₂ := h₂.transfers m₁
  have hfind : w₁.db.tables.transactions.find? (fun r => decide (r.id = tr.id)) = some (tr.row cfg.sha256) :=
    i₁.keys.transactionIds.find (i₁.row_mem m₁) rfl
  have hd := Spec.entries_distinct i₂.spec i₂.keys m₂
  have hp' := hp
  rw [Spec.entriesOf_transfer i₂.spec i₂.keys m₂] at hp'
  simp only [Transactions.get, Transactions.fetchTransaction, hfind, Option.map_some, if_pos hp,
    Spec.detail_ok hm hd hp']

theorem Spec.Transfer.sorted (tr : Spec.Transfer) :
    tr.entries.insertionSort Row.Entry.before = [tr.credit, tr.debit] ∨
    tr.entries.insertionSort Row.Entry.before = [tr.debit, tr.credit] :=
  List.perm_pair.mp (List.perm_insertionSort Row.Entry.before tr.entries)

/-- **Answers describe the caller's intent and never change.** If the hash does not
collide on the payloads of this run, a successful answer carries the key, description,
accounts, amount and currency of the call; every later `get`, on any states and any
order of rows, and every later success under the key returns the identical detail. -/
theorem answer_is_intent (cfg : Config) {w : World} (hr : World.Leads cfg World.init w) {c : Nat} {call : Call}
    (hc : w.calls c = some call) {res : TransferResult} (hd : call.pc = .done (.ok res))
    (hcollide : ∀ c' call', w.calls c' = some call' →
      cfg.sha256 call'.intent.encoding = cfg.sha256 call.intent.encoding →
      call'.intent.encoding = call.intent.encoding) :
    (res.detail.transaction.idempotencyKey = call.key ∧
      res.detail.transaction.description = call.intent.description ∧
      ∃ credit debit : Entry, (res.detail.entries = [credit, debit] ∨ res.detail.entries = [debit, credit]) ∧
        credit.direction = .credit ∧ credit.accountId = call.intent.fromAccountId ∧
        debit.direction = .debit ∧ debit.accountId = call.intent.toAccountId ∧
        ∀ e ∈ [credit, debit], e.amount.amount.val = call.intent.amount.amount.val ∧
          e.amount.currency = call.intent.amount.currency) ∧
    (∀ w₁ w₂, World.Leads cfg w w₁ → World.Leads cfg w₁ w₂ → ∀ scan,
      scan.Perm (Transactions.entriesOf w₂.db.tables res.detail.transaction.id) →
      Transactions.get cfg.decode w₁.db.tables w₂.db.tables scan res.detail.transaction.id =
        some (.ok res.detail)) ∧
    ∀ w', World.Leads cfg w w' → ∀ c' call' res', w'.calls c' = some call' → call'.key = call.key →
      call'.pc = .done (.ok res') → res'.detail = res.detail := by
  have h := Inv.reach hr
  obtain ⟨tr, m, hst, hm, hdet⟩ := h.answer hc hd
  refine ⟨?_, ?_, ?_⟩
  · -- the payload that was stored is the caller's, for its encoding is
    obtain ⟨author, hauthor, -, hintent⟩ := h.author tr hst.mem
    have henc : tr.intent.encoding = call.intent.encoding :=
      hintent ▸ hcollide tr.call author hauthor (hintent ▸ hst.hash)
    obtain ⟨hfrom, hto, hval, hcur, hdesc⟩ := TransferIntent.encoding_inj henc
    obtain ⟨m', hm', hmv, hmc⟩ := Spec.money_ok cfg.decode tr.intent
    rw [hm] at hm'
    cases hm'
    rw [hdet]
    refine ⟨hst.key, hdesc, Spec.Transfer.readEntry m tr.credit, Spec.Transfer.readEntry m tr.debit, ?_, rfl,
      hfrom, rfl, hto, ?_⟩
    · rcases tr.sorted with hs | hs
      · exact Or.inl (by simp [Spec.Transfer.detail, hs])
      · exact Or.inr (by simp [Spec.Transfer.detail, hs])
    · intro e he
      have : e.amount = m := by
        simp only [List.mem_cons, List.not_mem_nil, or_false] at he
        rcases he with rfl | rfl <;> rfl
      rw [this]
      exact ⟨hmv.trans hval, hmc.trans hcur⟩
  · intro w₁ w₂ h₁ h₂ scan hp
    rw [hdet] at hp ⊢
    exact h.get_ok h₁ h₂ hst.mem hm hp
  · intro w' hl c' call' res' hc' hk hd'
    have h' := hl.inv h
    obtain ⟨tr', m', hst', hm', hdet'⟩ := h'.answer hc' hd'
    have he : tr' = tr := h'.transfer_keys.eq hst'.mem (hl.transfers hst.mem)
      (hst'.key.trans (hk.trans hst.key.symm))
    subst he
    rw [hm] at hm'
    cases hm'
    rw [hdet, hdet']

theorem digest_rent {bytes : List UInt8} (h : digest bytes = digest rent.encoding) : bytes = rent.encoding := by
  by_contra hne
  unfold digest at h
  rw [if_neg hne, if_pos rfl] at h
  exact absurd h (by decide)

theorem answer_is_intent_sampleRun : ∃ w, World.Leads (sample true) World.init w ∧
    w.calls 1 = some (answered "rent-1" rent (.ok ⟨.replayed, rentDetail⟩)) ∧
    rentDetail.transaction.description = "rent" ∧
    ∀ scan, scan.Perm (Transactions.entriesOf w.db.tables rentDetail.transaction.id) →
      Transactions.get Decode.driver w.db.tables w.db.tables scan rentDetail.transaction.id =
        some (.ok rentDetail) := by
  obtain ⟨w, hr, -, h1, -⟩ := sampleRun_leads true
  have h := answer_is_intent (sample true) hr h1 rfl fun _ _ _ hd => digest_rent hd
  exact ⟨w, hr, h1, h.1.2.1, h.2.1 w w Reach.refl Reach.refl⟩

end Ledger
