import Ledger.Constraints
import Ledger.Lib.Potential

/-!
# Every call comes to an end

An attempt of a call takes at most sixteen steps, the ones that take a connection
included, and there are at most four attempts; a failure or a cancellation only shortens
what is left. As some call can always move, a run of the service that goes on as long
as it can answers every call.
-/

namespace Ledger

open Keyed Runs Transfers

def Label.caller : Label → Option Nat
  | .invoke c .. | .acquire c | .run c _ | .fault c _ | .lostAck c _ | .cancel c _ => some c
  | .create .. => none

namespace Transfers

/-- The steps an attempt has left at most, from where it has the connection it needs. -/
def Pc.ahead : Pc → Nat
  | lookup => 15
  | begin => 13
  | claim .. => 12
  | lock _ _ todo _ => 9 + max 1 todo.length
  | adjustFrom .. => 9
  | adjustTo .. => 8
  | insertCredit .. | rollback _ => 7
  | insertDebit .. => 6
  | commit .. | relookup => 5
  | getTransaction .. => 3
  | getEntries .. => 1
  | done _ | cancelled | panicked => 0

def Next.ahead : Next → Nat
  | .goto pc => pc.ahead + if pc.session.isSome then 0 else 1
  | .ret _ | .panic => 0

def ATTEMPT_STEPS : Nat := 16

def Call.potential (call : Call) (held : Bool) : Nat :=
  if call.pc.running then
    ATTEMPT_STEPS * (MAX_CONFLICT_RETRIES - call.attempt) + call.pc.ahead + if held then 0 else 1
  else 0

/-! ## One step -/

variable {cfg : Config}

theorem validate_ahead (i : TransferIntent) : (validate i).ahead ≤ 14 := by
  unfold validate
  split
  · exact Nat.zero_le _
  · split
    · exact Nat.zero_le _
    · exact Nat.le_refl _

theorem startPc_ahead (i : TransferIntent) : (startPc cfg i).ahead < ATTEMPT_STEPS := by
  unfold startPc start validate ATTEMPT_STEPS
  cases cfg.fastPath with
  | true => exact Nat.le_refl _
  | false =>
    simp only [Bool.false_eq_true, if_false]
    by_cases hself : i.fromAccountId = i.toAccountId
    · rw [if_pos hself]; exact Nat.succ_pos _
    · by_cases hpos : i.amount.isPositive = true
      · simp only [hself, hpos, if_false, Bool.not_true, Bool.false_eq_true]
        decide
      · simp only [hself, hpos, if_false, Bool.not_false, if_true]
        exact Nat.succ_pos _

theorem replay_ahead (key : String) (i : TransferIntent) (record : IdempotencyRecord) :
    (replay cfg key i record).ahead ≤ 4 := by
  unfold replay
  split
  · exact Nat.zero_le _
  · exact Nat.le_refl _

theorem afterLocks_ahead (i : TransferIntent) (x : Xid) (id : Uuid) (locked : List AccountRow) :
    (afterLocks i x id locked).ahead ≤ 9 := by
  unfold afterLocks
  split
  · split
    · exact Nat.zero_le _
    · split
      · exact Nat.zero_le _
      · exact Nat.le_refl _
  · exact Nat.zero_le _

theorem afterLock_ahead (i : TransferIntent) (x : Xid) (id accountId : Uuid) (todo : List Uuid)
    (locked : List AccountRow) (row : Option Row.Account) :
    (afterLock cfg i x id accountId todo locked row).ahead < 10 + todo.length := by
  unfold afterLock
  split
  · exact Nat.add_pos_left (by decide) _
  · split
    · exact Nat.add_pos_left (by decide) _
    · unfold nextLock
      split
      · exact Nat.lt_of_le_of_lt (afterLocks_ahead ..) (by simp)
      · simp only [Next.ahead, Pc.ahead, Pc.session, Option.isSome_some, if_true, List.length_cons]
        omega

theorem Pc.onError_ahead (err : SqlxError) (pc : Pc) :
    (pc.onError err).ahead = 0 ∨ ((∃ x id, pc = .claim x id) ∧ (pc.onError err).ahead = 7) := by
  unfold Pc.onError
  split
  · split
    · exact Or.inr ⟨⟨_, _, rfl⟩, rfl⟩
    · exact Or.inl rfl
  all_goals exact Or.inl rfl

theorem statement_ahead {db db' : Db} {pc : Pc} {x : Xid} {s : Stmt} {k : Option Row.Account → Next} {next : Next}
    (h : statement cfg db pc x s k = some (db', next)) (hk : ∀ row, (k row).ahead < pc.ahead) (hpc : 0 < pc.ahead) :
    next.ahead < pc.ahead := by
  obtain ⟨txn, -, h⟩ := Option.bind_eq_some_iff.mp h
  split at h
  · cases h; exact hk _
  · rename_i err hex
    cases h
    rcases pc.onError_ahead err with h0 | ⟨⟨y, id, rfl⟩, h7⟩
    · rw [h0]; exact hpc
    · rw [h7]; simp [Pc.ahead]
  · cases h

theorem Call.run_ahead {call : Call} {db db' : Db} {env : Env} {next : Next}
    (h : call.run cfg db env = some (db', next)) : next.ahead < call.pc.ahead := by
  cases hpc : call.pc with
  | lookup =>
    simp only [Call.run, hpc, Option.some.injEq, Prod.mk.injEq] at h
    obtain ⟨-, rfl⟩ := h
    unfold afterLookup
    split
    · exact Nat.lt_of_le_of_lt (replay_ahead ..) (by decide)
    · exact Nat.lt_of_le_of_lt (validate_ahead _) (by decide)
  | relookup =>
    simp only [Call.run, hpc, Option.some.injEq, Prod.mk.injEq] at h
    obtain ⟨-, rfl⟩ := h
    unfold afterRelookup
    split
    · exact Nat.lt_of_le_of_lt (replay_ahead ..) (by decide)
    · decide
  | begin | rollback =>
    simp only [Call.run, hpc, Option.some.injEq, Prod.mk.injEq] at h
    obtain ⟨-, rfl⟩ := h
    simp [Next.ahead, Pc.ahead, Pc.session]
  | claim x id =>
    simp only [Call.run, hpc] at h
    refine statement_ahead h (fun _ => ?_) (by simp [Pc.ahead])
    have hlen : (lockOrder call.intent).length = 2 := by
      unfold lockOrder
      split <;> rfl
    simp [Next.ahead, Pc.ahead, Pc.session, hlen]
  | lock x id todo locked =>
    cases todo with
    | nil =>
      simp only [Call.run, hpc, Option.some.injEq, Prod.mk.injEq] at h
      obtain ⟨-, rfl⟩ := h
      exact Nat.lt_of_le_of_lt (afterLocks_ahead ..) (by simp [Pc.ahead])
    | cons a todo =>
      simp only [Call.run, hpc] at h
      have hlen : (Pc.lock x id (a :: todo) locked).ahead = 10 + todo.length := by
        simp only [Pc.ahead, List.length_cons]
        omega
      refine statement_ahead h (fun row => ?_) (by omega)
      rw [hlen]
      exact afterLock_ahead ..
  | adjustFrom | adjustTo | insertCredit | insertDebit =>
    simp only [Call.run, hpc] at h
    exact statement_ahead h (fun _ => by simp [Next.ahead, Pc.ahead, Pc.session]) (by simp [Pc.ahead])
  | commit x id sender receiver cid did =>
    simp only [Call.run, hpc] at h
    obtain ⟨txn, -, h⟩ := Option.map_eq_some_iff.mp h
    split at h
    · cases h
      exact Nat.lt_succ_self _
    · rename_i err hcm
      cases h
      rcases Pc.onError_ahead err (.commit x id sender receiver cid did) with h0 | ⟨⟨y, id', he⟩, -⟩
      · rw [h0]; exact Nat.succ_pos _
      · cases he
  | getTransaction outcome id =>
    simp only [Call.run, hpc, Option.some.injEq, Prod.mk.injEq] at h
    obtain ⟨-, rfl⟩ := h
    split
    · exact Nat.succ_pos _
    · exact Nat.lt_succ_self _
  | getEntries outcome id transaction =>
    simp only [Call.run, hpc] at h
    split at h
    · cases h; exact Nat.succ_pos _
    · cases h
  | done | cancelled | panicked =>
    simp only [Call.run, hpc] at h
    cases h

theorem Call.potential_le (call : Call) (held : Bool) (h : call.pc.ahead < ATTEMPT_STEPS) :
    call.potential held ≤ ATTEMPT_STEPS * (MAX_CONFLICT_RETRIES - call.attempt) + ATTEMPT_STEPS := by
  unfold Call.potential
  split
  · split <;> omega
  · exact Nat.zero_le _

theorem Call.finish_potential {call : Call} (r : Except LedgerError TransferResult) (held held' : Bool)
    (hrun : call.pc.running = true) (hpc : 0 < call.pc.ahead) :
    (call.finish cfg r).potential held' < call.potential held := by
  have hpos : ATTEMPT_STEPS * (MAX_CONFLICT_RETRIES - call.attempt) < call.potential held := by
    unfold Call.potential
    rw [if_pos hrun]
    omega
  have stops : ∀ r', ({ call with pc := .done r' } : Call).potential held' = 0 := fun _ => rfl
  unfold Call.finish
  split
  · split
    · rename_i hretry
      -- the next attempt is one of those that were still to come
      rw [Bool.and_eq_true, decide_eq_true_eq] at hretry
      have hle := Call.potential_le { call with attempt := call.attempt + 1, pc := startPc cfg call.intent } held'
        (startPc_ahead call.intent)
      have hlt := hretry.2
      simp only [MAX_CONFLICT_RETRIES, ATTEMPT_STEPS] at hpos hle hlt ⊢
      omega
    · rw [stops]; omega
  · rw [stops]; omega

theorem Call.follow_potential {call : Call} {next : Next} (hrun : call.pc.running = true)
    (hn : next.ahead < call.pc.ahead) {held : Bool}
    (hheld : ∀ pc, next = .goto pc → pc.session.isSome = true → held = true) :
    (call.follow cfg next).potential held < call.potential true := by
  have hnow : call.potential true =
      ATTEMPT_STEPS * (MAX_CONFLICT_RETRIES - call.attempt) + call.pc.ahead := by
    unfold Call.potential
    rw [if_pos hrun, if_pos rfl, Nat.add_zero]
  cases next with
  | goto pc =>
    have hle : (call.follow cfg (.goto pc)).potential held ≤
        ATTEMPT_STEPS * (MAX_CONFLICT_RETRIES - call.attempt) + (Next.goto pc).ahead := by
      unfold Call.potential Next.ahead
      split
      · cases hs : pc.session.isSome with
        | true => simp [hheld pc rfl hs, Call.follow]
        | false => cases held <;> simp [hs, Call.follow]
      · exact Nat.zero_le _
    omega
  | ret r => exact call.finish_potential r true held hrun (by omega)
  | panic =>
    have hz : (call.follow cfg .panic).potential held = 0 := rfl
    omega

theorem Pc.ahead_pos {pc : Pc} (h : pc.running = true) : 0 < pc.ahead := by
  cases pc with
  | done | cancelled | panicked => cases h
  | lock => exact Nat.add_pos_left (by decide) _
  | _ => simp [Pc.ahead]

theorem Call.potential_pos {call : Call} {held : Bool} : 0 < call.potential held ↔ call.pc.running = true := by
  unfold Call.potential
  constructor
  · intro h
    by_contra hn
    rw [if_neg hn] at h
    exact Nat.lt_irrefl _ h
  · intro h
    have := Pc.ahead_pos h
    rw [if_pos h]
    omega

end Transfers

/-! ## A step of the service -/

def World.potential (c : Nat) (w : World) : Nat :=
  match w.calls c with
  | none => 0
  | some call => call.potential (decide (c ∈ w.held))

section
variable {cfg : Config} {w w' : World} {l : Label}

theorem World.potential_moveTo {c : Nat} {call : Call} {db : Db} {log : List Spec.Event} :
    (w.moveTo c call db log).potential c =
      call.potential (decide (c ∈ if call.pc.session.isSome then w.held else w.held.filter (· ≠ c))) := by
  simp only [World.potential, World.moveTo, Function.update_self]
  rfl

theorem World.potential_others {c c' : Nat} (hne : c' ≠ c) (hcalls : ∀ d, d ≠ c → w'.calls d = w.calls d)
    (hheld : ∀ d, d ≠ c → (d ∈ w'.held ↔ d ∈ w.held)) : w'.potential c' = w.potential c' := by
  simp only [World.potential, hcalls c' hne, hheld c' hne]

theorem World.moveTo_others' {c c' : Nat} {call : Call} {db : Db} {log : List Spec.Event} (hne : c' ≠ c) :
    (w.moveTo c call db log).potential c' = w.potential c' := by
  refine potential_others hne (fun d hd => Function.update_of_ne hd ..) fun d hd => ?_
  simp only [World.moveTo]
  split
  · rfl
  · simp [hd]

theorem World.step_potential (hs : w.step cfg l = some w') {c : Nat} (hc : w.calls c ≠ none) :
    (l.caller = some c → w'.potential c < w.potential c) ∧
    (l.caller ≠ some c → w'.potential c = w.potential c) := by
  have moved : ∀ {d : Nat} {call call' : Call} {db : Db} {log : List Spec.Event}, l.caller = some d →
      w.calls d = some call → (w.moveTo d call' db log).potential d < call.potential (decide (d ∈ w.held)) →
      w' = w.moveTo d call' db log →
      (l.caller = some c → w'.potential c < w.potential c) ∧
      (l.caller ≠ some c → w'.potential c = w.potential c) := by
    rintro d call call' db log hl hd hlt rfl
    refine ⟨fun he => ?_, fun he => World.moveTo_others' fun e => he (e ▸ hl)⟩
    rw [hl, Option.some.injEq] at he
    subst he
    simpa only [World.potential, hd] using hlt
  cases l with
  | invoke d key intent =>
    obtain ⟨hnone, rfl⟩ := World.step_invoke hs
    have hne : c ≠ d := fun e => hc (e ▸ hnone)
    refine ⟨fun he => absurd (Option.some.inj he).symm hne, fun _ => ?_⟩
    exact World.potential_others hne (fun d' hd' => Function.update_of_ne hd' ..) fun _ _ => Iff.rfl
  | acquire d =>
    obtain ⟨call, hd, hrun, hse, hm, -, rfl⟩ := World.step_acquire hs
    constructor
    · intro he
      cases he
      simp only [World.potential, hd, Call.potential, hrun, if_true, List.mem_cons_self, decide_true, hm,
        decide_false, Bool.false_eq_true, if_false]
      omega
    · intro he
      have hne : c ≠ d := fun e => he (by rw [e]; rfl)
      exact World.potential_others hne (fun _ _ => rfl) fun d' hd' => by simp [hd']
  | run d env =>
    obtain ⟨call, db, next, hd, hm, hr, hw⟩ := World.step_run hs
    refine moved rfl hd ?_ hw
    rw [World.potential_moveTo, decide_eq_true hm]
    refine Call.follow_potential (Call.run_running hr) (Call.run_ahead hr) fun pc hn hse => ?_
    subst hn
    rw [if_pos (show (call.follow cfg (.goto pc)).pc.session.isSome = true from hse)]
    exact decide_eq_true hm
  | fault d err =>
    obtain ⟨call, hd, hrun, he, hw⟩ := World.step_fault hs
    rw [Inv.onError_spontaneous he] at hw
    refine moved rfl hd ?_ hw
    rw [World.potential_moveTo]
    exact Call.finish_potential _ _ _ hrun (Pc.ahead_pos hrun)
  | lostAck d err =>
    obtain ⟨call, db, ev, hd, he, hl, hw⟩ := World.step_lostAck hs
    rw [Inv.onError_spontaneous he] at hw
    refine moved rfl hd ?_ hw
    rw [World.potential_moveTo]
    exact Call.finish_potential _ _ _ (Inv.landing_running hl) (Pc.ahead_pos (Inv.landing_running hl))
  | cancel d took =>
    have gone : ∀ {call : Call} {db : Db} {log : List Spec.Event}, call.pc.running = true →
        (w.moveTo d { call with pc := .cancelled } db log).potential d < call.potential (decide (d ∈ w.held)) := by
      intro call db log hrun
      rw [World.potential_moveTo]
      exact Call.potential_pos.mpr hrun
    obtain ⟨call, hd, ⟨-, db, ev, hl, hw⟩ | ⟨-, hrun, hw⟩⟩ := World.step_cancel hs
    · exact moved rfl hd (gone (Inv.landing_running hl)) hw
    · exact moved rfl hd (gone hrun) hw
  | create process env name currency flag =>
    obtain ⟨-, db, rows, answer, -, rfl⟩ := World.step_create hs
    exact ⟨fun he => (by cases he), fun _ => rfl⟩

end

/-! ## Steps left in a run -/

/-- The steps a call takes at most, its arrival included if it has not come yet. -/
def World.budget (c : Nat) (w : World) : Nat :=
  match w.calls c with
  | none => 1 + ATTEMPT_STEPS * (MAX_CONFLICT_RETRIES + 1)
  | some _ => w.potential c

section
variable {cfg : Config} {w w' : World} {l : Label}

theorem World.budget_some {c : Nat} (h : w.calls c ≠ none) : w.budget c = w.potential c := by
  unfold budget
  split
  · rename_i hn; exact absurd hn h
  · rfl

theorem World.step_calls_ne (hs : w.step cfg l = some w') {c : Nat} (hc : w.calls c ≠ none) :
    w'.calls c ≠ none := by
  rcases World.step_calls hs with ⟨d, call, -, -, -, he⟩ | ⟨d, call, call', -, -, -, he⟩ | he
  · rw [he]
    by_cases hd : c = d
    · rw [hd, Function.update_self]; simp
    · rwa [Function.update_of_ne hd]
  · rw [he]
    by_cases hd : c = d
    · rw [hd, Function.update_self]; simp
    · rwa [Function.update_of_ne hd]
  · rwa [he]

theorem World.step_absent (hs : w.step cfg l = some w') {c : Nat} (hc : w.calls c = none) :
    (l.caller = some c → ∃ key intent, l = .invoke c key intent) ∧ (l.caller ≠ some c → w'.calls c = none) := by
  have there : ∀ {d : Nat} {call call' : Call} {db : Db} {log : List Spec.Event}, l.caller = some d →
      w.calls d = some call → w' = w.moveTo d call' db log →
      (l.caller = some c → ∃ key intent, l = .invoke c key intent) ∧ (l.caller ≠ some c → w'.calls c = none) := by
    rintro d call call' db log hl hd rfl
    have hne : c ≠ d := fun e => by rw [e, hd] at hc; cases hc
    refine ⟨fun he => absurd (Option.some.inj (hl.symm.trans he)).symm hne, fun _ => ?_⟩
    exact (Function.update_of_ne hne ..).trans hc
  cases l with
  | invoke d key intent =>
    obtain ⟨-, rfl⟩ := World.step_invoke hs
    refine ⟨fun he => ⟨key, intent, by cases he; rfl⟩, fun he => ?_⟩
    exact (Function.update_of_ne (fun e => he (by rw [e]; rfl)) ..).trans hc
  | acquire d =>
    obtain ⟨call, hd, -, -, -, -, rfl⟩ := World.step_acquire hs
    refine ⟨fun he => ?_, fun _ => hc⟩
    cases he
    rw [hc] at hd; cases hd
  | run d env =>
    obtain ⟨call, db, next, hd, -, -, hw⟩ := World.step_run hs
    exact there rfl hd hw
  | fault d err =>
    obtain ⟨call, hd, -, -, hw⟩ := World.step_fault hs
    exact there rfl hd hw
  | lostAck d err =>
    obtain ⟨call, db, ev, hd, -, -, hw⟩ := World.step_lostAck hs
    exact there rfl hd hw
  | cancel d took =>
    obtain ⟨call, hd, ⟨-, db, ev, -, hw⟩ | ⟨-, -, hw⟩⟩ := World.step_cancel hs
    · exact there rfl hd hw
    · exact there rfl hd hw
  | create process env name currency flag =>
    obtain ⟨-, db, rows, answer, -, rfl⟩ := World.step_create hs
    exact ⟨fun he => (by cases he), fun _ => hc⟩

theorem World.charged (cfg : Config) :
    Charged (World.step cfg) (fun _ _ => True) (fun _ => True) Label.caller World.budget := by
  refine ⟨fun _ _ _ _ _ _ => trivial, fun w l w' c _ _ hs hm => ?_, fun w l w' c _ _ hs hm => ?_⟩
  · by_cases hc : w.calls c = none
    · obtain ⟨key, intent, rfl⟩ := (World.step_absent hs hc).1 hm
      obtain ⟨-, rfl⟩ := World.step_invoke hs
      have hle := Call.potential_le ⟨key, intent, 0, startPc cfg intent⟩ (decide (c ∈ w.held))
        (startPc_ahead intent)
      simp only [World.budget, World.potential, hc, Function.update_self]
      simp only [MAX_CONFLICT_RETRIES, ATTEMPT_STEPS] at hle ⊢
      omega
    · rw [World.budget_some hc, World.budget_some (World.step_calls_ne hs hc)]
      exact (World.step_potential hs hc).1 hm
  · by_cases hc : w.calls c = none
    · simp only [World.budget, hc, (World.step_absent hs hc).2 hm, Nat.le_refl]
    · rw [World.budget_some hc, World.budget_some (World.step_calls_ne hs hc)]
      exact ((World.step_potential hs hc).2 hm).le

end

/-- **Every call comes to an end.** In every run, whatever fails, is cancelled or loses its
acknowledgement, a call takes at most 64 steps after its request, the ones that take a
connection included, and is over after that many. -/
theorem steps_bounded (cfg : Config) {w : World} {ls : List Label}
    (hr : Trace (World.step cfg) (fun _ _ => True) World.init ls w) (c : Nat) :
    (ls.filter fun l => l.caller = some c).length ≤ 65 ∧
    ∀ call, w.calls c = some call → call.pc.running = true →
    (ls.filter fun l => l.caller = some c).length < 65 := by
  have hle : w.budget c + (ls.filter fun l => l.caller = some c).length ≤ 65 :=
    (World.charged cfg).steps_le hr trivial c
  refine ⟨by omega, fun call hc hrun => ?_⟩
  have hpos : 0 < w.budget c := by
    rw [World.budget_some (by rw [hc]; simp), World.potential, hc]
    exact Call.potential_pos.mpr hrun
  omega

theorem steps_bounded_sampleRun : ∃ w, Trace (World.step (sample true)) (fun _ _ => True) World.init sampleRun w ∧
    (sampleRun.filter fun l => l.caller = some 0).length ≤ 65 := by
  obtain ⟨w, hw, -⟩ := sampleRun_answers true
  have ht := trace_of_exec hw
  exact ⟨w, ht, (steps_bounded (sample true) ht 0).1⟩

/-! ## Completion -/

/-- A step of a call that goes on: nothing fails, nobody comes or leaves, and ids are fresh. -/
def World.Going (w : World) (l : Label) : Prop :=
  (∃ c, l = .acquire c ∨ ∃ env, l = .run c env) ∧ w.Fresh l

section
variable {cfg : Config} {w w' : World} {l : Label}

theorem Transfers.startPc_pending (i : TransferIntent) :
    (startPc cfg i).running = true ∨ ∃ r, startPc cfg i = .done r := by
  unfold startPc start validate
  cases cfg.fastPath with
  | true => exact Or.inl rfl
  | false =>
    simp only [Bool.false_eq_true, if_false]
    by_cases hself : i.fromAccountId = i.toAccountId
    · rw [if_pos hself]; exact Or.inr ⟨_, rfl⟩
    · rw [if_neg hself]
      cases i.amount.isPositive with
      | true => exact Or.inl rfl
      | false => exact Or.inr ⟨_, rfl⟩

theorem Inv.run_pending (h : Inv cfg w) {c : Nat} {call : Call} (hc : w.calls c = some call) {env : Env} {db : Db}
    {next : Next} (hr : call.run cfg w.db env = some (db, next)) :
    (call.follow cfg next).pc.running = true ∨ ∃ r, (call.follow cfg next).pc = .done r := by
  cases next with
  | goto pc => exact Or.inl ((h.ran hc hr).running rfl)
  | ret r =>
    simp only [Call.follow, Call.finish]
    split
    · split
      · exact startPc_pending call.intent
      · exact Or.inr ⟨_, rfl⟩
    · exact Or.inr ⟨_, rfl⟩
  | panic => cases h.ran hc hr

theorem Inv.going_pending (h : Inv cfg w) (hg : w.Going l) (hs : w.step cfg l = some w') {c : Nat} {call : Call}
    (hc : w.calls c = some call) (hp : call.pc.running = true ∨ ∃ r, call.pc = .done r) :
    ∃ call', w'.calls c = some call' ∧ (call'.pc.running = true ∨ ∃ r, call'.pc = .done r) := by
  obtain ⟨⟨d, rfl | ⟨env, rfl⟩⟩, -⟩ := hg
  · obtain ⟨call₁, -, -, -, -, -, rfl⟩ := World.step_acquire hs
    exact ⟨call, hc, hp⟩
  · obtain ⟨call₁, db, next, hd, -, hr, rfl⟩ := World.step_run hs
    by_cases hcd : c = d
    · subst hcd
      exact ⟨_, Function.update_self .., h.run_pending hd hr⟩
    · exact ⟨call, (Function.update_of_ne hcd ..).trans hc, hp⟩

theorem Inv.new_step (h : Inv cfg w) (hs : w.step cfg l = some w') {id : Uuid} (hn : w.New id)
    (hid : ∀ c env, l = .run c env → env.id ≠ id) : w'.New id := by
  have hi' := h.step hs
  obtain ⟨hcalls, htx, hen⟩ := hn
  have hgen : ∀ c call, w'.calls c = some call → id ∉ call.pc.generated := by
    intro c call' hc' hm
    rcases World.step_call hs hc' with hc | ⟨-, hpc⟩ | ⟨call, hc, -, hwent⟩
    · exact hcalls c call' hc hm
    · rw [hpc, startPc_generated] at hm
      cases hm
    · cases hwent with
      | ran hr =>
        rw [Call.follow_generated] at hm
        rcases Call.run_generated hr hm with hm | ⟨-, he⟩
        · exact hcalls c call hc hm
        · exact hid _ _ rfl he.symm
      | broke =>
        rw [Call.finish_generated] at hm
        cases hm
      | left => cases hm
  have hrows : ∀ tr ∈ Spec.transfers w'.log, tr ∈ Spec.transfers w.log ∨
      tr.id ≠ id ∧ tr.creditId ≠ id ∧ tr.debitId ≠ id := by
    intro tr htr
    rcases World.step_log hs with he | ⟨ev, he, -, hland⟩
    · exact Or.inl (he ▸ htr)
    · rw [he, Spec.transfers_append, List.mem_append] at htr
      rcases htr with htr | htr
      · exact Or.inl htr
      · have hev := List.mem_singleton.mp (Spec.mem_transfers.mp htr)
        subst hev
        obtain ⟨-, call, db, -, hc, hl, -⟩ := hland tr rfl
        obtain ⟨x, tid, s, r, cid, did, txn, hpc, -, -, hev⟩ := Inv.landing_commit hl
        rw [Spec.Event.transfer.injEq] at hev
        have hno := hcalls _ call hc
        rw [hpc] at hno
        simp only [Pc.generated, List.mem_cons, List.not_mem_nil, or_false, not_or] at hno
        rw [hev]
        exact Or.inr ⟨Ne.symm hno.1, Ne.symm hno.2.1, Ne.symm hno.2.2⟩
  refine ⟨hgen, ?_, ?_⟩
  · intro r hr
    rw [hi'.transactions] at hr
    obtain ⟨tr, htr, rfl⟩ := List.mem_map.mp hr
    rcases hrows tr htr with hold | ⟨h1, -⟩
    · exact htx _ (h.row_mem hold)
    · exact h1
  · intro e he
    rw [(Spec.exec_log hi'.spec).2] at he
    obtain ⟨tr, htr, he⟩ := List.mem_flatMap.mp he
    rcases hrows tr htr with hold | ⟨-, h2, h3⟩
    · refine hen e ?_
      rw [(Spec.exec_log h.spec).2]
      exact List.mem_flatMap.mpr ⟨tr, hold, he⟩
    · rcases List.mem_pair.mp he with rfl | rfl
      · exact h2
      · exact h3

theorem Inv.someone_moves (h : Inv cfg w) (hap : w.Apart) (hpool : ∀ p, 1 ≤ cfg.poolSize p) {c : Nat} {call : Call}
    (hc : w.calls c = some call) (hrun : call.pc.running = true) :
    ∃ c' call', w.calls c' = some call' ∧ w.CanStep cfg c' := by
  have closed : ∀ a b, (∃ call, w.calls a = some call ∧ call.pc.running = true) → WaitsFor cfg w a b →
      ∃ call, w.calls b = some call ∧ call.pc.running = true := by
    rintro a b - hw
    cases hw with
    | statement _ _ hb hs => exact ⟨_, hb, Pc.running_of_session (by rw [hs]; rfl)⟩
    | pool _ _ _ hm _ => exact h.running b hm
  obtain ⟨b, ⟨callb, hb, hrunb⟩, hfree⟩ := WaitFor.exists_free (h.rank_lt hap) closed ⟨call, hc, hrun⟩
  rcases h.steps_or_waits hap hpool hb hrunb with hstep | ⟨c', hw⟩
  · exact ⟨b, callb, hb, hstep⟩
  · exact absurd hw (hfree c')

theorem Inv.potential_le (h : Inv cfg w) (c : Nat) : w.potential c ≤ 64 := by
  cases hc : w.calls c with
  | none => simp only [World.potential, hc, Nat.zero_le]
  | some call =>
    have hahead : call.pc.ahead < ATTEMPT_STEPS := by
      cases hpc : call.pc with
      | lock x id todo locked =>
        obtain ⟨txn, -, -, hok⟩ := h.session c call x hc (by rw [hpc]; rfl)
        simp only [SessionOk, hpc] at hok
        have hlen := congrArg List.length hok.2.2.1
        have htwo : (lockOrder call.intent).length = 2 := by
          unfold lockOrder
          split <;> rfl
        rw [List.length_append, htwo] at hlen
        simp only [Pc.ahead, ATTEMPT_STEPS]
        omega
      | _ => simp [Pc.ahead, ATTEMPT_STEPS]
    have hle := call.potential_le (decide (c ∈ w.held)) hahead
    simp only [World.potential, hc]
    simp only [MAX_CONFLICT_RETRIES, ATTEMPT_STEPS] at hle
    omega

/-! ### Nobody comes -/

def World.Within (S : Finset Nat) (w : World) : Prop := ∀ c, c ∉ S → w.calls c = none

theorem World.Going.caller (hg : w.Going l) (hs : w.step cfg l = some w') :
    ∃ c, l.caller = some c ∧ w.calls c ≠ none := by
  obtain ⟨⟨d, rfl | ⟨env, rfl⟩⟩, -⟩ := hg
  · obtain ⟨call, hd, -⟩ := World.step_acquire hs
    exact ⟨d, rfl, by rw [hd]; simp⟩
  · obtain ⟨call, -, -, hd, -⟩ := World.step_run hs
    exact ⟨d, rfl, by rw [hd]; simp⟩

theorem World.Within.caller {S : Finset Nat} (h : w.Within S) (hg : w.Going l) (hs : w.step cfg l = some w') :
    ∃ c ∈ S, l.caller = some c := by
  obtain ⟨c, hl, hc⟩ := hg.caller hs
  exact ⟨c, by_contra fun hn => hc (h c hn), hl⟩

theorem World.going_charged (cfg : Config) (S : Finset Nat) :
    Charged (World.step cfg) World.Going (World.Within S) Label.caller World.potential := by
  refine ⟨fun w l w' hw hg hs c hc => ?_, fun w l w' c _ hg hs hm => ?_, fun w l w' c _ hg hs hm => ?_⟩
  · obtain ⟨d, hd, hl⟩ := hw.caller hg hs
    refine (World.step_absent hs (hw c hc)).2 fun he => hc ?_
    rw [hl, Option.some.injEq] at he
    exact he ▸ hd
  · obtain ⟨d, hl, hd⟩ := hg.caller hs
    rw [hm, Option.some.injEq] at hl
    exact (World.step_potential hs (hl ▸ hd)).1 hm
  · by_cases hc : w.calls c = none
    · simp only [World.potential, (World.step_absent hs hc).2 hm, Nat.zero_le]
    · exact ((World.step_potential hs hc).2 hm).le

/-- A state of a run with fresh ids, with new ids for all the steps that are left. -/
structure World.Supplied (cfg : Config) (S : Finset Nat) (w : World) : Prop where
  reach : Reach (World.step cfg) World.Fresh World.init w
  within : w.Within S
  supply : ∃ ids : List Uuid, ids.Nodup ∧ ∑ c ∈ S, w.potential c ≤ ids.length ∧ ∀ id ∈ ids, w.New id

theorem World.Supplied.step {S : Finset Nat} (h : w.Supplied cfg S) (hg : w.Going l) (hs : w.step cfg l = some w') :
    w'.Supplied cfg S := by
  have hch := World.going_charged cfg S
  obtain ⟨ids, hnd, hlen, hnew⟩ := h.supply
  obtain ⟨c, hcS, hl⟩ := h.within.caller hg hs
  have hlt : ∑ d ∈ S, w'.potential d < ∑ d ∈ S, w.potential d := hch.total_lt h.within hg hs hl hcS
  refine ⟨Reach.snoc l h.reach hg.2 hs, hch.keeps w l w' h.within hg hs, ?_⟩
  have hi := Inv.reach h.reach
  obtain ⟨⟨d, rfl | ⟨env, rfl⟩⟩, -⟩ := hg
  · exact ⟨ids, hnd, by omega, fun id hid => hi.new_step hs (hnew id hid) fun _ _ he => (by cases he)⟩
  · -- at most one of the ids is used up
    refine ⟨ids.erase env.id, hnd.erase _, ?_, fun id hid => ?_⟩
    · have := List.length_erase_le (a := env.id) (l := ids)
      have : ids.length ≤ (ids.erase env.id).length + 1 := by
        rw [List.length_erase]
        split <;> omega
      omega
    · refine hi.new_step hs (hnew id (List.mem_of_mem_erase hid)) fun c' env' he heq => ?_
      cases he
      exact hnd.not_mem_erase (heq ▸ hid)

theorem World.Supplied.moves {S : Finset Nat} (h : w.Supplied cfg S) (hpool : ∀ p, 1 ≤ cfg.poolSize p)
    (hleft : ∃ c ∈ S, 0 < w.potential c) :
    ∃ l w' c, w.Going l ∧ w.step cfg l = some w' ∧ l.caller = some c ∧ c ∈ S := by
  obtain ⟨c, hcS, hpos⟩ := hleft
  obtain ⟨ids, -, hlen, hnew⟩ := h.supply
  have hsum : 0 < ∑ d ∈ S, w.potential d :=
    Nat.lt_of_lt_of_le hpos (Finset.single_le_sum (f := fun d => w.potential d) (fun _ _ => Nat.zero_le _) hcS)
  obtain ⟨id, hid⟩ := List.exists_mem_of_length_pos (Nat.lt_of_lt_of_le hsum hlen)
  cases hc : w.calls c with
  | none =>
    simp only [World.potential, hc] at hpos
    exact absurd hpos (Nat.lt_irrefl _)
  | some call =>
    simp only [World.potential, hc] at hpos
    obtain ⟨c', call', hc', hcan⟩ :=
      (Inv.reach h.reach).someone_moves (World.Apart.reach h.reach) hpool hc (Call.potential_pos.mp hpos)
    have hmem : c' ∈ S := by_contra fun hn => by rw [h.within c' hn] at hc'; cases hc'
    rcases hcan with hacq | hrun
    · obtain ⟨w', hs⟩ := Option.isSome_iff_exists.mp hacq
      exact ⟨_, w', c', ⟨⟨c', Or.inl rfl⟩, fun _ _ _ he => (by cases he)⟩, hs, rfl, hmem⟩
    · obtain ⟨scan, hsome⟩ := hrun id 0
      obtain ⟨w', hs⟩ := Option.isSome_iff_exists.mp hsome
      refine ⟨_, w', c', ⟨⟨c', Or.inr ⟨_, rfl⟩⟩, ?_⟩, hs, rfl, hmem⟩
      rintro c₁ env call₁ he - -
      cases he
      exact hnew id hid

theorem Inv.going_kept (h : Inv cfg w) (hr : Reach (World.step cfg) World.Going w w') {c : Nat} {call : Call}
    (hc : w.calls c = some call) (hrun : call.pc.running = true) :
    ∃ call', w'.calls c = some call' ∧ call'.key = call.key ∧ call'.intent = call.intent ∧
      (call'.pc.running = true ∨ ∃ r, call'.pc = .done r) := by
  refine (hr.invariant (P := fun v => Inv cfg v ∧ ∃ call', v.calls c = some call' ∧ call'.key = call.key ∧
    call'.intent = call.intent ∧ (call'.pc.running = true ∨ ∃ r, call'.pc = .done r)) ?_
    ⟨h, call, hc, rfl, rfl, Or.inl hrun⟩).2
  rintro v l v' ⟨hv, call₁, hc₁, hk, hint, hp⟩ hg hs
  obtain ⟨call₂, hc₂, hp₂⟩ := hv.going_pending hg hs hc₁ hp
  refine ⟨hv.step hs, call₂, hc₂, ?_⟩
  rcases World.step_call hs hc₂ with he | ⟨hn, -⟩ | ⟨call₃, hc₃, -, hw⟩
  · rw [hc₁, Option.some.injEq] at he
    subst he
    exact ⟨hk, hint, hp₂⟩
  · rw [hc₁] at hn; cases hn
  · rw [hc₁, Option.some.injEq] at hc₃
    subst hc₃
    exact ⟨hw.same.1.trans hk, hw.same.2.trans hint, hp₂⟩

theorem Inv.total_potential_le (h : Inv cfg w) (S : Finset Nat) : ∑ c ∈ S, w.potential c ≤ 64 * S.card := by
  have := Finset.sum_le_card_nsmul S (fun c => w.potential c) 64 fun c _ => h.potential_le c
  simpa [mul_comm] using this

/-- A run without failures comes to an end, and not before every call is over. -/
theorem World.going_ends (hpool : ∀ p, 1 ≤ cfg.poolSize p) (hr : Reach (World.step cfg) World.Fresh World.init w)
    {S : Finset Nat} (hS : w.Within S) {ls : List Label} (ht : Trace (World.step cfg) World.Going w ls w') :
    (∀ c, (ls.filter fun l => l.caller = some c).length ≤ 64) ∧ ls.length ≤ 64 * S.card ∧
      ((∀ c, ¬ w'.CanStep cfg c) → ∀ c call, w'.calls c = some call → call.pc.running = false) := by
  have hch := World.going_charged cfg S
  have hi := Inv.reach hr
  have hle : ∑ c ∈ S, w'.potential c + ls.length ≤ ∑ c ∈ S, w.potential c :=
    hch.total_le (fun v l v' hv hg hs => hv.caller hg hs) ht hS
  have htotal := hi.total_potential_le S
  refine ⟨fun c => ?_, by omega, fun hstuck c call hc => ?_⟩
  · have hsteps := hch.steps_le ht hS c
    have hpot := hi.potential_le c
    omega
  · have hr' : Reach (World.step cfg) World.Fresh World.init w' :=
      hr.trans (ht.reach.mono (P := fun _ => True) (fun _ _ _ _ _ _ => trivial) (fun _ _ _ hg => hg.2) trivial)
    by_contra hrun
    obtain ⟨c', -, -, hcan⟩ := (Inv.reach hr').someone_moves (World.Apart.reach hr') hpool hc (by simpa using hrun)
    exact hstuck c' hcan

theorem World.calls_finite {ok : World → Label → Prop} (hr : Reach (World.step cfg) ok World.init w) :
    ∃ S : Finset Nat, ∀ c, c ∈ S ↔ w.calls c ≠ none := by
  refine hr.invariant (P := fun v => ∃ S : Finset Nat, ∀ c, c ∈ S ↔ v.calls c ≠ none) ?_
    ⟨∅, fun c => by simp [World.init]⟩
  rintro v l v' ⟨S, hS⟩ - hs
  rcases World.step_calls hs with ⟨c, call, -, -, -, he⟩ | ⟨c, call, call', hc, -, -, he⟩ | he
  · refine ⟨insert c S, fun d => ?_⟩
    rw [he, Finset.mem_insert, hS d]
    by_cases hd : d = c
    · simp [hd]
    · simp [hd, Function.update_of_ne]
  · refine ⟨S, fun d => ?_⟩
    rw [he, hS d]
    by_cases hd : d = c
    · simp [hd, hc]
    · simp [Function.update_of_ne hd]
  · exact ⟨S, fun d => by rw [he, hS d]⟩

end

/-- **Every request is answered.** Take any state of a run with fresh ids, and let nobody
come and nothing fail any more. However the calls take turns, each takes at most 64
steps, and whenever none can go on none is under way; and they can take turns so that each
is answered. -/
theorem calls_complete (cfg : Config) (hpool : ∀ p, 1 ≤ cfg.poolSize p) {w : World}
    (hr : Reach (World.step cfg) World.Fresh World.init w) :
    ∃ S : Finset Nat, (∀ c, c ∈ S ↔ w.calls c ≠ none) ∧
    (∀ ls w', Trace (World.step cfg) World.Going w ls w' →
      (∀ c, (ls.filter fun l => l.caller = some c).length ≤ 64) ∧ ls.length ≤ 64 * S.card ∧
      ((∀ c, ¬ w'.CanStep cfg c) → ∀ c call, w'.calls c = some call → call.pc.running = false)) ∧
    ∀ ids : List Uuid, ids.Nodup → 64 * S.card ≤ ids.length → (∀ id ∈ ids, w.New id) →
      ∃ w', Reach (World.step cfg) World.Going w w' ∧
        ∀ c call, w.calls c = some call → call.pc.running = true → ∃ call' r, w'.calls c = some call' ∧
          call'.key = call.key ∧ call'.intent = call.intent ∧ call'.pc = .done r := by
  obtain ⟨S, hS⟩ := World.calls_finite hr
  have hwithin : w.Within S := fun c hc => by
    rw [hS c, not_not] at hc
    exact hc
  have hch := World.going_charged cfg S
  have hi := Inv.reach hr
  refine ⟨S, hS, fun ls w' ht => World.going_ends hpool hr hwithin ht, fun ids hnd hlen hnew => ?_⟩
  have htotal := hi.total_potential_le S
  have hch' : Charged (World.step cfg) World.Going (World.Supplied cfg S) Label.caller World.potential :=
    ⟨fun v l v' hv hg hs => hv.step hg hs, fun v l v' c hv hg hs hm => hch.drops v l v' c hv.within hg hs hm,
      fun v l v' c hv hg hs hm => hch.others v l v' c hv.within hg hs hm⟩
  obtain ⟨w', hrun, hs', hzero⟩ := hch'.completes S (fun v hv hleft => hv.moves hpool hleft)
    ⟨hr, hwithin, ids, hnd, by omega, hnew⟩
  refine ⟨w', hrun, fun c call hc hrunning => ?_⟩
  obtain ⟨call', hc', hk, hint, hp⟩ := hi.going_kept hrun hc hrunning
  rcases hp with hp | ⟨r, hd⟩
  · have hz := hzero c ((hS c).mpr (by rw [hc]; exact Option.some_ne_none _))
    simp only [World.potential, hc'] at hz
    have hpos : 0 < call'.potential (decide (c ∈ w'.held)) := Call.potential_pos.mpr hp
    omega
  · exact ⟨call', r, hc', hk, hint, hd⟩

theorem calls_complete_rent : ∃ w w', Reach (World.step (sample true)) World.Fresh World.init w ∧
    (∃ call, w.calls 0 = some call ∧ call.pc.running = true) ∧
    Reach (World.step (sample true)) World.Going w w' ∧ ∃ call r, w'.calls 0 = some call ∧ call.pc = .done r := by
  obtain ⟨v, -, -, hv, -, htx, hen, -⟩ := twoAccounts_open
  obtain ⟨-, hcalls, -⟩ := twoAccounts_quiet hv
  have hvr : Reach (World.step (sample true)) World.Fresh World.init v :=
    (World.reach_fresh (fun _ => True) (fun _ _ => rfl) (fun _ _ => trivial) hv).2.mono (P := fun _ => True)
      (fun _ _ _ _ _ _ => trivial) (fun _ _ _ hf => hf.2) trivial
  let call : Call := ⟨"rent-1", rent, 0, startPc (sample true) rent⟩
  obtain ⟨w, hw, hs⟩ : ∃ w, w = { v with calls := Function.update v.calls 0 (some call) } ∧
      v.step (sample true) (.invoke 0 "rent-1" rent) = some w :=
    ⟨_, rfl, by simp only [World.step, World.invoke, hcalls 0, call]⟩
  have hr := Reach.snoc _ hvr (fun _ _ _ he => (by cases he)) hs
  have hc : w.calls 0 = some call := by simp only [hw, Function.update_self]
  have honly : ∀ c, w.calls c ≠ none ↔ c = 0 := by
    intro c
    rw [hw]
    by_cases h0 : c = 0
    · simp [h0]
    · simp [h0, hcalls c]
  have hrun : (startPc (sample true) rent).running = true := by decide +kernel
  have hnew : ∀ id ∈ (List.finRange 64).map (Fin.castLE (m := 2 ^ 128) (by decide)), w.New id := fun id _ =>
    (Inv.reach hvr).new_step hs (new_of_empty hcalls htx hen id) fun _ _ he => (by cases he)
  obtain ⟨S, hS, -, hanswers⟩ := calls_complete (sample true) (fun _ => Nat.le_refl 1) hr
  have hone : S = {0} := Finset.ext fun c => by rw [hS c, honly c, Finset.mem_singleton]
  obtain ⟨w', hgo, hall⟩ := hanswers _ ((List.nodup_finRange 64).map (Fin.castLE_injective _)) (by simp [hone]) hnew
  obtain ⟨call', r, hc', -, -, hd⟩ := hall 0 _ hc hrun
  exact ⟨w, w', hr, ⟨_, hc, hrun⟩, hgo, call', r, hc', hd⟩

end Ledger
