import Ledger.FastPath

/-!
# With and without the first lookup

Whether the first lookup of `execute_once` can be seen from outside. On its own, a call
gets the same answers and leaves the same tables exactly if its description can be stored
or its key is not taken; and in every run whose attempts start under that condition,
nothing becomes possible or impossible when the lookup is taken out.
-/

namespace Ledger

open Keyed Runs Transfers

/-! ## A call on its own -/

/-- The ledger as it stands once whatever is under way has been dropped. -/
def World.stopped (w : World) : World where
  db := { w.db with txns := fun _ => none }
  calls c := (w.calls c).map fun call => if call.pc.running then { call with pc := .cancelled } else call
  held := []
  log := w.log

/-- An answer that a call can get there if nobody else moves, and the tables it leaves. -/
def World.Ends (cfg : Config) (w : World) (c : Nat) (key : String) (i : TransferIntent)
    (r : Except LedgerError TransferResult) (t : Tables) : Prop :=
  ∃ w₁ w₂ call, w.stopped.step cfg (.invoke c key i) = some w₁ ∧ Reach (World.step cfg) (World.Alone c) w₁ w₂ ∧
    w₂.calls c = some call ∧ call.pc = .done r ∧ w₂.db.tables = t

theorem World.stopped_call {w : World} {c : Nat} {call : Call} (hc : w.stopped.calls c = some call) :
    ∃ call₀, w.calls c = some call₀ ∧ call.key = call₀.key ∧ call.intent = call₀.intent ∧
      (call.pc = .cancelled ∨ call = call₀ ∧ call₀.pc.running = false) := by
  obtain ⟨call₀, hc₀, rfl⟩ := Option.map_eq_some_iff.mp hc
  refine ⟨call₀, hc₀, ?_⟩
  cases hrun : call₀.pc.running with
  | true => exact ⟨rfl, rfl, Or.inl rfl⟩
  | false => exact ⟨rfl, rfl, Or.inr ⟨rfl, rfl⟩⟩

theorem Transfers.Pc.session_of_stopped {pc : Pc} (h : pc.running = false) : pc.session = none := by
  cases pc with
  | done | cancelled | panicked => rfl
  | _ => cases h

theorem Transfers.AnswerOk.variant {cfg : Config} {p q : Bool} {log : List Spec.Event} {c : Nat} {call : Call}
    {r : Except LedgerError TransferResult} (h : AnswerOk (cfg.variant p) log c call r) :
    AnswerOk (cfg.variant q) log c call r := by
  cases r with
  | error e => exact h
  | ok res =>
    obtain ⟨tr, m, hst, hm, hd⟩ := h
    exact ⟨tr, m, ⟨hst.mem, hst.key, hst.hash, hst.own⟩, hm, hd⟩

theorem Inv.stopped {cfg : Config} {p : Bool} {w : World} (h : Inv (cfg.variant p) w) (q : Bool) :
    Inv (cfg.variant q) w.stopped := by
  have hnone : ∀ c call, w.stopped.calls c = some call → call.pc.session = none := by
    intro c call hc
    obtain ⟨call₀, -, -, -, hpc | ⟨rfl, hrun⟩⟩ := World.stopped_call hc
    · rw [hpc]; rfl
    · exact Pc.session_of_stopped hrun
  refine ⟨?_, h.stored, h.spec, ?_, ?_, ?_, ?_, ?_, ?_, ?_⟩
  · exact ⟨fun _ _ => rfl, h.db.tables, fun e he => ⟨(h.db.ended e he).1, rfl⟩, (fun _ _ hx => by cases hx),
      (fun _ _ hx => by cases hx), (fun _ _ _ _ _ hx => by cases hx)⟩
  · intro c call x hc hs
    rw [hnone c call hc] at hs
    cases hs
  · intro c c' call call' x hc _ hs
    rw [hnone c call hc] at hs
    cases hs
  · intro x txn hx
    cases hx
  · intro c call hc
    obtain ⟨call₀, hc₀, -, -, hpc | ⟨rfl, hrun⟩⟩ := World.stopped_call hc
    · simp only [CallOk, hpc]
    · have hok := h.call c call hc₀
      cases hpc : call.pc with
      | done r =>
        simp only [CallOk, hpc] at hok ⊢
        exact hok.variant
      | cancelled => simp only [CallOk, hpc]
      | panicked => simp only [CallOk, hpc] at hok
      | _ => rw [hpc] at hrun; cases hrun
  · intro tr htr
    obtain ⟨call, hc, hk, hi⟩ := h.author tr htr
    refine ⟨if call.pc.running then { call with pc := .cancelled } else call, ?_, ?_⟩
    · simp only [World.stopped, hc, Option.map_some]
    · split <;> exact ⟨hk, hi⟩
  · intro c call hc hs
    rw [hnone c call hc] at hs
    cases hs
  · intro c hc
    cases hc

/-! ## Attempts that are not repeated -/

namespace Transfers

def Next.Final : Next → Prop
  | ret (.error (.database err)) => isRetryableConflict err = false
  | _ => True

theorem replay_final (cfg : Config) (key : String) (i : TransferIntent) (record : IdempotencyRecord) :
    (replay cfg key i record).Final := by
  unfold replay
  split <;> trivial

theorem onError_final {err : SqlxError} (h : isRetryableConflict err = false) (pc : Pc) :
    (pc.onError err).Final := by
  cases pc with
  | claim x id =>
    simp only [Pc.onError]
    split
    · trivial
    · exact h
  | adjustFrom | adjustTo | commit =>
    simp only [Pc.onError]
    split
    · trivial
    · exact h
  | _ => exact h

theorem afterLocks_final (i : TransferIntent) (x : Xid) (id : Uuid) (locked : List AccountRow) :
    (afterLocks i x id locked).Final := by
  unfold afterLocks
  split
  · split
    · trivial
    · split <;> trivial
  · trivial

theorem afterLock_final (cfg : Config) (i : TransferIntent) (x : Xid) (id accountId : Uuid) (todo : List Uuid)
    (locked : List AccountRow) (row : Option Row.Account) :
    (afterLock cfg i x id accountId todo locked row).Final := by
  cases row with
  | none => trivial
  | some row =>
    cases hn : row.balance.val with
    | nan =>
      simp only [afterLock, AccountRow.decode, Decode.num20, hn]
      rfl
    | num u =>
      simp only [afterLock, AccountRow.decode, Decode.num20, hn, Except.map]
      cases todo with
      | nil => exact afterLocks_final i x id _
      | cons => trivial

theorem Call.follow_variant {cfg : Config} {p q : Bool} {call : Call} {next : Next} (h : next.Final) :
    call.follow (cfg.variant p) next = call.follow (cfg.variant q) next := by
  cases next with
  | goto pc => rfl
  | panic => rfl
  | ret r =>
    simp only [Call.follow, Call.finish]
    split
    · rename_i err
      have h : isRetryableConflict err = false := h
      rw [h, Bool.false_and]
      rfl
    · rfl

end Transfers

theorem Inv.run_final {cfg : Config} {w : World} (h : Inv cfg w) {c : Nat} {call : Call}
    (hc : w.calls c = some call)
    {env : Env} {db : Db} {next : Next} (hr : call.run cfg w.db env = some (db, next)) : next.Final := by
  have stmt : ∀ {x : Xid} {s : Stmt} {k : Option Row.Account → Next}, call.stmt cfg = some (x, s) →
      (∀ row, (k row).Final) → statement cfg w.db call.pc x s k = some (db, next) → next.Final := by
    intro x s k hst hk hrun
    obtain ⟨txn, hx, -, -⟩ := h.session c call x hc (Call.stmt_session hst)
    rcases statement_some hx hrun with ⟨_, row, -, -, rfl⟩ | ⟨err, hex, -, rfl⟩
    · exact hk row
    · exact onError_final (SqlxError.data_rule (h.stmt_data hc hst hx hex)).2 call.pc
  cases hpc : call.pc with
  | lookup =>
    simp only [Call.run, hpc, Option.some.injEq, Prod.mk.injEq] at hr
    rw [← hr.2]
    cases Transactions.findByIdempotencyKey w.db.tables call.key with
    | some record => exact replay_final ..
    | none =>
      simp only [afterLookup, validate]
      split
      · trivial
      · split <;> trivial
  | relookup =>
    simp only [Call.run, hpc, Option.some.injEq, Prod.mk.injEq] at hr
    rw [← hr.2]
    cases Transactions.findByIdempotencyKey w.db.tables call.key with
    | some record => exact replay_final ..
    | none => trivial
  | begin | rollback =>
    simp only [Call.run, hpc, Option.some.injEq, Prod.mk.injEq] at hr
    rw [← hr.2]
    trivial
  | claim | adjustFrom | adjustTo | insertCredit | insertDebit =>
    simp only [Call.run, hpc] at hr
    rw [← hpc] at hr
    refine stmt ?_ ?_ hr
    · simp only [Call.stmt, hpc]
    · exact fun _ => trivial
  | lock x id todo locked =>
    cases todo with
    | nil =>
      simp only [Call.run, hpc, Option.some.injEq, Prod.mk.injEq] at hr
      rw [← hr.2]
      exact afterLocks_final ..
    | cons accountId todo =>
      simp only [Call.run, hpc] at hr
      rw [← hpc] at hr
      refine stmt ?_ (fun row => afterLock_final ..) hr
      simp only [Call.stmt, hpc]
  | commit x id sender receiver cid did =>
    obtain ⟨txn, hx, -⟩ := h.session c call x hc (by rw [hpc]; rfl)
    simp only [Call.run, hpc, hx, Option.map_some, h.commit_accepted hc hpc hx, Option.some.injEq,
      Prod.mk.injEq] at hr
    rw [← hr.2]
    trivial
  | getTransaction outcome id =>
    simp only [Call.run, hpc, Option.some.injEq, Prod.mk.injEq] at hr
    rw [← hr.2]
    split <;> trivial
  | getEntries outcome id transaction =>
    simp only [Call.run, hpc] at hr
    split at hr
    · rename_i hscan
      obtain ⟨detail, hd, -⟩ := h.getEntries_outcome hc hpc hscan
      rw [hd] at hr
      cases hr
      trivial
    · cases hr
  | done | cancelled | panicked => simp only [Call.run, hpc] at hr; cases hr

theorem Inv.same_step {cfg : Config} {p q : Bool} {w : World} (h : Inv (cfg.variant p) w) {c : Nat} {l : Label}
    (hl : l = .acquire c ∨ ∃ env, l = .run c env) : w.step (cfg.variant q) l = w.step (cfg.variant p) l := by
  rcases hl with rfl | ⟨env, rfl⟩
  · rfl
  · simp only [World.step]
    cases hc : w.calls c with
    | none => rfl
    | some call =>
      simp only [Option.bind_some, World.run]
      split
      · rw [show call.run (cfg.variant q) w.db env = call.run (cfg.variant p) w.db env from rfl]
        cases hr : call.run (cfg.variant p) w.db env with
        | none => rfl
        | some res =>
          obtain ⟨db, next⟩ := res
          simp only [Option.map_some]
          rw [Call.follow_variant (h.run_final hc hr)]
      · rfl

theorem Inv.same_reach {cfg : Config} {p q : Bool} {v w : World} (h : Inv (cfg.variant p) v) {c : Nat}
    (hr : Reach (World.step (cfg.variant p)) (World.Alone c) v w) :
    Reach (World.step (cfg.variant q)) (World.Alone c) v w := by
  have both : Inv (cfg.variant p) w ∧ Reach (World.step (cfg.variant q)) (World.Alone c) v w := by
    induction hr with
    | refl => exact ⟨h, Reach.refl⟩
    | snoc l _ hl hs ih => exact ⟨ih.1.step hs, Reach.snoc l ih.2 hl (by rw [ih.1.same_step hl.1]; exact hs)⟩
  exact both.2

/-! ## A key that is not taken -/

section
variable {cfg : Config} {s : World} {c : Nat} {key : String} {i : TransferIntent}

def World.withCall (s : World) (c : Nat) (key : String) (i : TransferIntent) (pc : Pc) : World :=
  { s with calls := Function.update s.calls c (some { key, intent := i, attempt := 0, pc }) }

theorem World.invoke_withCall (hc : s.calls c = none) :
    s.step cfg (.invoke c key i) = some (s.withCall c key i (startPc cfg i)) := by
  simp only [World.step, World.invoke, hc, World.withCall]

variable (hheld : s.held = []) (hv : Validated i) (hf : Transactions.findByIdempotencyKey s.db.tables key = none)

include hheld hv hf in
theorem World.lookup_misses {env : Env} :
    { s.withCall c key i .lookup with held := [c] }.step (cfg.variant true) (.run c env) =
      some (s.withCall c key i .begin) := by
  have hrun : Call.run (cfg.variant true) s.db { key, intent := i, attempt := 0, pc := .lookup } env =
      some (s.db, .goto .begin) := by
    simp only [Call.run, hf, afterLookup, validate, hv.1, hv.2, if_false, Bool.not_true, Bool.false_eq_true]
  have hc : (s.withCall c key i .lookup).calls c = some { key, intent := i, attempt := 0, pc := .lookup } :=
    Function.update_self ..
  show ((s.withCall c key i .lookup).calls c).bind _ = _
  rw [hc]
  show (if c ∈ [c] then
    (Call.run (cfg.variant true) s.db { key, intent := i, attempt := 0, pc := .lookup } env).map _
    else none) = _
  rw [if_pos (List.mem_singleton_self c), hrun]
  simp [World.withCall, World.moveTo, World.leave, World.landing, Call.follow, Pc.session, hheld]

include hheld hv hf in
theorem World.after_lookup {w : World}
    (hr : Reach (World.step (cfg.variant true)) (World.Alone c) (s.withCall c key i .lookup) w) :
    w = s.withCall c key i .lookup ∨ w = { s.withCall c key i .lookup with held := [c] } ∨
      Reach (World.step (cfg.variant true)) (World.Alone c) (s.withCall c key i .begin) w := by
  have hc : (s.withCall c key i .lookup).calls c = some { key, intent := i, attempt := 0, pc := .lookup } :=
    Function.update_self ..
  induction hr with
  | refl => exact Or.inl rfl
  | snoc l _ hl hs ih =>
    rcases ih with rfl | rfl | hreach
    · rcases hl.1 with rfl | ⟨env, rfl⟩
      · obtain ⟨call, -, -, -, -, -, rfl⟩ := World.step_acquire hs
        have hnil : (s.withCall c key i .lookup).held = [] := hheld
        exact Or.inr (Or.inl (by rw [hnil]))
      · obtain ⟨_, _, _, -, hm, -⟩ := World.step_run hs
        have hm : c ∈ s.held := hm
        rw [hheld] at hm
        cases hm
    · rcases hl.1 with rfl | ⟨env, rfl⟩
      · obtain ⟨call, -, -, -, hm, -⟩ := World.step_acquire hs
        exact absurd (List.mem_singleton_self c) hm
      · rw [World.lookup_misses hheld hv hf, Option.some.injEq] at hs
        rw [← hs]
        exact Or.inr (Or.inr Reach.refl)
    · exact Or.inr (Or.inr (Reach.snoc l hreach hl hs))

include hheld hv hf in
theorem World.reach_begin (hpool : 1 ≤ cfg.poolSize (cfg.process c)) :
    Reach (World.step (cfg.variant true)) (World.Alone c) (s.withCall c key i .lookup)
    (s.withCall c key i .begin) := by
  have hc : (s.withCall c key i .lookup).calls c = some { key, intent := i, attempt := 0, pc := .lookup } :=
    Function.update_self ..
  have hacquire : (s.withCall c key i .lookup).step (cfg.variant true) (.acquire c) =
      some { s.withCall c key i .lookup with held := [c] } := by
    have hfree : 0 < (cfg.variant true).poolSize ((cfg.variant true).process c) := hpool
    simp [World.step, World.acquire, World.withCall, World.free, Pc.running, Pc.session, hheld, hfree]
  let env : Env := { id := 0, now := 0, scan := [] }
  have hfresh : ({ s.withCall c key i .lookup with held := [c] } : World).Fresh (.run c env) := by
    intro c' env' call he hcall hg
    cases he
    rw [show ({ s.withCall c key i .lookup with held := [c] } : World).calls c = _ from hc,
      Option.some.injEq] at hcall
    rw [← hcall] at hg
    cases hg
  have hone : World.Alone c (s.withCall c key i .lookup) (.acquire c) :=
    ⟨Or.inl rfl, fun _ _ _ he => by cases he⟩
  exact (Reach.one (.acquire c) hone hacquire).snoc (.run c env) ⟨Or.inr ⟨env, rfl⟩, hfresh⟩
    (World.lookup_misses hheld hv hf)

include hheld hv hf in
theorem World.same_ends (hi : Inv (cfg.variant true) s) (hi' : Inv (cfg.variant false) s) (hc : s.calls c = none)
    (hpool : 1 ≤ cfg.poolSize (cfg.process c)) {w : World} {call : Call} {r : Except LedgerError TransferResult}
    (hcall : w.calls c = some call) (hd : call.pc = .done r) :
    Reach (World.step (cfg.variant true)) (World.Alone c) (s.withCall c key i .lookup) w ↔
      Reach (World.step (cfg.variant false)) (World.Alone c) (s.withCall c key i .begin) w := by
  have hbegin : Reach (World.step (cfg.variant true)) (World.Alone c) (s.withCall c key i .lookup)
      (s.withCall c key i .begin) := World.reach_begin hheld hv hf hpool
  constructor
  · intro hr
    have notYet : ∀ v : World, v.calls = (s.withCall c key i .lookup).calls → w ≠ v := by
      rintro _ hv rfl
      rw [hv, show (s.withCall c key i .lookup).calls c = some ⟨key, i, 0, .lookup⟩ from Function.update_self ..,
        Option.some.injEq] at hcall
      rw [← hcall] at hd
      cases hd
    have hfrom : Inv (cfg.variant true) (s.withCall c key i .begin) :=
      hbegin.invariant (fun _ _ _ h _ hs => h.step hs) (hi.step (World.invoke_withCall hc))
    rcases World.after_lookup hheld hv hf hr with rfl | rfl | hr
    · exact absurd rfl (notYet _ rfl)
    · exact absurd rfl (notYet _ rfl)
    · exact hfrom.same_reach hr
  · intro hr
    have hstart : startPc (cfg.variant false) i = .begin := startPc_variant cfg false hv
    have hs : s.step (cfg.variant false) (.invoke c key i) =
        some (s.withCall c key i (startPc (cfg.variant false) i)) := World.invoke_withCall hc
    rw [hstart] at hs
    have hfrom : Inv (cfg.variant false) (s.withCall c key i .begin) := hi'.step hs
    exact hbegin.trans (hfrom.same_reach hr)

end

/-! ## The answers of one call -/

section
variable {cfg : Config} {w : World} {c : Nat} {key : String} {i : TransferIntent}

theorem World.ends_iff (hc : w.calls c = none) {r : Except LedgerError TransferResult} {t : Tables} :
    w.Ends cfg c key i r t ↔ ∃ w₂ call,
      Reach (World.step cfg) (World.Alone c) (w.stopped.withCall c key i (startPc cfg i)) w₂ ∧
        w₂.calls c = some call ∧ call.pc = .done r ∧ w₂.db.tables = t := by
  have hs : w.stopped.step cfg (.invoke c key i) = some (w.stopped.withCall c key i (startPc cfg i)) :=
    World.invoke_withCall (by simp [World.stopped, hc])
  constructor
  · rintro ⟨w₁, w₂, call, h₁, hr, h⟩
    rw [hs, Option.some.injEq] at h₁
    exact ⟨w₂, call, by rw [h₁]; exact hr, h⟩
  · rintro ⟨w₂, call, hr, h⟩
    exact ⟨_, w₂, call, hs, hr, h⟩

theorem Inv.ends_unused {p : Bool} (h : Inv (cfg.variant p) w) (hc : w.calls c = none) (hv : Validated i)
    (hpool : 1 ≤ cfg.poolSize (cfg.process c)) (hu : Unused w.db.tables key)
    (r : Except LedgerError TransferResult) (t : Tables) :
    w.Ends (cfg.variant true) c key i r t ↔ w.Ends (cfg.variant false) c key i r t := by
  have hf : Transactions.findByIdempotencyKey w.stopped.db.tables key = none :=
    Transactions.findByIdempotencyKey_none.mpr hu
  have hsc : w.stopped.calls c = none := by simp [World.stopped, hc]
  rw [World.ends_iff hc, World.ends_iff hc, startPc_variant cfg true hv, startPc_variant cfg false hv]
  refine exists_congr fun w₂ => exists_congr fun call => and_congr_left fun hd => ?_
  exact World.same_ends rfl hv hf (h.stopped true) (h.stopped false) hsc hpool hd.1 hd.2.1

section
variable {p q : Bool} (h : Inv (cfg.variant p) w) (hv : Validated i) (hkey : hasNul key = false)
include h hv hkey

theorem Inv.ends_outcome {r : Except LedgerError TransferResult} {t : Tables}
    (he : w.Ends (cfg.variant q) c key i r t) : Outcome (cfg.variant q) w.db.tables key i r t := by
  obtain ⟨w₁, w₂, call, hs, hr, hc, hd, rfl⟩ := he
  obtain ⟨hquiet, hheld, hsolo⟩ := Solo.start (h.stopped q) (fun _ => rfl) (Or.inr hv) hs
  obtain ⟨call', hc', -, -, hp⟩ := (hsolo.reach hquiet hheld hkey hr).call
  rw [hc, Option.some.injEq] at hc'
  rw [← hc', hd] at hp
  exact hp

theorem Inv.ends_exists (q : Bool) (hc : w.calls c = none) (hpool : 1 ≤ cfg.poolSize (cfg.process c))
    {ids : List Uuid} (hnd : ids.Nodup) (hlen : 3 ≤ ids.length) (hnew : ∀ id ∈ ids, w.stopped.New id) :
    ∃ r t, w.Ends (cfg.variant q) c key i r t := by
  have hs : w.stopped.step (cfg.variant q) (.invoke c key i) =
      some (w.stopped.withCall c key i (startPc (cfg.variant q) i)) :=
    World.invoke_withCall (by simp [World.stopped, hc])
  have hfree : w.stopped.free (cfg.variant q) ((cfg.variant q).process c) = true := decide_eq_true hpool
  obtain ⟨hquiet, hheld, hsolo⟩ := Solo.start (h.stopped q) (fun _ => rfl) (Or.inr hv) hs
  obtain ⟨call₁, hc₁, -⟩ := hsolo.call
  obtain ⟨w₂, call, r, hr, hc₂, hd⟩ := hsolo.finishes hquiet hheld hkey hfree hnd hlen hnew hc₁
  exact ⟨r, w₂.db.tables, _, w₂, call, hs, hr, hc₂, hd, rfl⟩

end

theorem Outcome.agree {p q : Bool} {t u u' : Tables} {r r' : Except LedgerError TransferResult}
    (hused : ¬ Unused t key) (hn : hasNul i.description = false) (h : Outcome (cfg.variant p) t key i r u)
    (h' : Outcome (cfg.variant q) t key i r' u') : r = r' ∧ u = u' := by
  have nul : hasNul i.description ≠ true := by rw [hn]; exact Bool.false_ne_true
  cases h with
  | replays _ hv =>
    cases h' with
    | replays _ hv' =>
      cases hv.symm.trans hv'
      exact ⟨rfl, rfl⟩
    | refuses _ hv' => cases hv.symm.trans hv'
    | unstorable _ hn' => exact absurd hn' nul
    | overflows hu => exact absurd hu hused
    | creates hu => exact absurd hu hused
  | refuses _ hv =>
    cases h' with
    | replays _ hv' => cases hv.symm.trans hv'
    | refuses _ hv' =>
      cases hv.symm.trans hv'
      exact ⟨rfl, rfl⟩
    | unstorable _ hn' => exact absurd hn' nul
    | overflows hu => exact absurd hu hused
    | creates hu => exact absurd hu hused
  | unstorable _ hn' => exact absurd hn' nul
  | overflows hu => exact absurd hu hused
  | creates hu => exact absurd hu hused

theorem Outcome.differ {t u u' : Tables} {r r' : Except LedgerError TransferResult} (hv : Validated i)
    (hused : ∃ row ∈ t.transactions, row.idempotencyKey = key) (hn : hasNul i.description = true)
    (h : Outcome (cfg.variant true) t key i r u) (h' : Outcome (cfg.variant false) t key i r' u') : r ≠ r' := by
  have hdecided : Decided (cfg.variant true) t key i := Or.inr ⟨rfl, hused⟩
  have hopen : ¬ (Decided (cfg.variant false) t key i ∨ hasNul i.description = false) := by
    rintro ((hnv | ⟨hf, -⟩) | hn')
    · exact hnv hv
    · cases hf
    · rw [hn] at hn'; cases hn'
  have hr' : r' = .error (.database unstorableText) := by
    cases h' with
    | replays hd => exact absurd hd hopen
    | refuses hd => exact absurd hd hopen
    | unstorable => rfl
    | overflows _ hn' => rw [hn] at hn'; cases hn'
    | creates _ hn' => rw [hn] at hn'; cases hn'
  rw [hr']
  cases h with
  | replays => exact fun he => by cases he
  | refuses _ _ ht =>
    intro he
    cases he
    cases ht
  | unstorable hd => exact absurd hdecided hd
  | overflows hu => exact absurd hused.choose_spec.2 (hu _ hused.choose_spec.1)
  | creates hu => exact absurd hused.choose_spec.2 (hu _ hused.choose_spec.1)

theorem World.Leads.used_plain (hr : World.Leads cfg World.init w)
    (hused : ∃ row ∈ w.db.tables.transactions, row.idempotencyKey = key) : hasNul key = false := by
  have both : Inv cfg w ∧ w.PlainKeys :=
    hr.invariant (P := fun v => Inv cfg v ∧ v.PlainKeys) (fun _ _ _ h _ hs => ⟨h.1.step hs, h.2.step h.1 hs⟩)
      ⟨Inv.init, World.PlainKeys.init⟩
  obtain ⟨tr, htr, rfl⟩ := both.1.row_used.mp hused
  exact both.2.committed tr htr

end

/-! ## Calls that interleave -/

/-- The two worlds hold the same data, and the calls that are not refused by their own data
have the same answers. -/
structure World.SameAnswers (a b : World) : Prop where
  tables : a.db.tables.erase = b.db.tables.erase
  calls : ∀ c, Option.Rel (fun call call' => call'.key = call.key ∧ call'.intent = call.intent ∧
    (Validated call.intent → ∀ r, call.pc = .done r ↔ call'.pc = .done r)) (a.calls c) (b.calls c)

namespace Transfers

theorem Pc.on_done (pc : Pc) (y : Xid) (r : Except LedgerError TransferResult) :
    pc.on y = .done r ↔ pc = .done r := by
  cases pc <;> simp [Pc.on]

theorem Paired.answers {cfg : Config} {p q : Bool} {log : List Spec.Event} {call call' : Call}
    (h : Paired cfg p q log call call') :
    call'.key = call.key ∧ call'.intent = call.intent ∧
      (Validated call.intent → ∀ r, call.pc = .done r ↔ call'.pc = .done r) := by
  have open_start : ∀ b : Bool, Validated call.intent → ∀ r, startPc (cfg.variant b) call.intent ≠ .done r := by
    intro b hv r
    rw [startPc_variant cfg b hv]
    cases b with
    | true => exact fun he => by cases he
    | false => exact fun he => by cases he
  cases h with
  | void hv hk hi => exact ⟨hk, hi, fun hv' => absurd hv' hv⟩
  | level hv y => exact ⟨rfl, rfl, fun _ r => (Pc.on_done call.pc y r).symm⟩
  | behind hv hpc =>
    refine ⟨rfl, rfl, fun _ r => iff_of_false ?_ (open_start q hv r)⟩
    rcases hpc with hpc | hd
    · rw [hpc]
      exact open_start p hv r
    · rcases hd.pc with ⟨x, id, hpc⟩ | ⟨x, hpc⟩ | hpc <;> rw [hpc] <;> exact fun he => by cases he

end Transfers

theorem Twin.sameAnswers {cfg : Config} {p q : Bool} {a b : World} (h : Twin cfg p q a b) : a.SameAnswers b := by
  refine ⟨h.tables, fun c => ?_⟩
  have hc := h.calls c
  revert hc
  generalize a.calls c = o, b.calls c = o'
  intro hc
  cases hc with
  | none => exact .none
  | some hp => exact .some hp.answers

/-- **When the fast path cannot be told from the unique index.** On any reachable ledger, a
request with distinct accounts and a positive amount is answered in both variants, and it
has the same answers with the same tables exactly if its description can be stored or its
key is not taken. In every interleaving of any calls whose attempts start under that
condition, what one variant answers the other can answer too. -/
theorem fast_path_agrees_iff (cfg : Config) :
    (∀ w c key i, World.Leads (cfg.variant true) World.init w → w.calls c = none → Validated i →
      1 ≤ cfg.poolSize (cfg.process c) →
      ∀ ids : List Uuid, ids.Nodup → 3 ≤ ids.length → (∀ id ∈ ids, w.stopped.New id) →
        (hasNul key = false → ∀ lookup, ∃ r t, w.Ends (cfg.variant lookup) c key i r t) ∧
        ((∀ r t, w.Ends (cfg.variant true) c key i r t ↔ w.Ends (cfg.variant false) c key i r t) ↔
          hasNul i.description = false ∨ Unused w.db.tables key)) ∧
    ∀ lookup a, Reach (World.step (cfg.variant lookup)) (World.Draws (cfg.variant lookup)) World.init a →
      ∃ b, Reach (World.step (cfg.variant !lookup)) World.Fresh World.init b ∧ a.SameAnswers b := by
  constructor
  · intro w c key i hleads hc hv hpool ids hnd hlen hnew
    have h : Inv (cfg.variant true) w := Inv.reach hleads
    refine ⟨fun hkey q => h.ends_exists hv hkey q hc hpool hnd hlen hnew, ?_, ?_⟩
    · intro hsame
      by_contra hcond
      rw [not_or, Bool.not_eq_false] at hcond
      have hused : ∃ row ∈ w.db.tables.transactions, row.idempotencyKey = key := by
        simpa only [Unused, not_forall, not_not, exists_prop] using hcond.2
      have hkey := hleads.used_plain hused
      obtain ⟨r, t, he⟩ := h.ends_exists hv hkey true hc hpool hnd hlen hnew
      exact Outcome.differ hv hused hcond.1 (h.ends_outcome hv hkey he)
        (h.ends_outcome hv hkey ((hsame r t).mp he)) rfl
    · intro hcond
      by_cases hu : Unused w.db.tables key
      · exact h.ends_unused hc hv hpool hu
      · have hn := hcond.resolve_right hu
        have hused : ∃ row ∈ w.db.tables.transactions, row.idempotencyKey = key := by
          simpa only [Unused, not_forall, not_not, exists_prop] using hu
        have hkey := hleads.used_plain hused
        have carry : ∀ {p q : Bool} {r : Except LedgerError TransferResult} {t : Tables},
            w.Ends (cfg.variant p) c key i r t → w.Ends (cfg.variant q) c key i r t := by
          intro p q r t he
          obtain ⟨r', t', he'⟩ := h.ends_exists hv hkey q hc hpool hnd hlen hnew
          obtain ⟨rfl, rfl⟩ := Outcome.agree hu hn (h.ends_outcome hv hkey he) (h.ends_outcome hv hkey he')
          exact he'
        exact fun r t => ⟨carry, carry⟩
  · intro lookup a hr
    obtain ⟨b, hb, ht⟩ := follows cfg lookup (!lookup) hr
    exact ⟨b, hb, ht.sameAnswers⟩

/-! ### The rent and a broken copy of it -/

/-- A step of one of the calls below `n`, none with U+0000 in its description, that leaves an id to spare. -/
def World.drawStep (cfg : Config) (n : Nat) (spare : Uuid) (w : World) (l : Label) : Option World :=
  if w.newBelow n spare &&
      (List.range n).all fun c => (w.calls c).all fun call => !hasNul call.intent.description then
    w.freshStep cfg n l
  else none

theorem World.reach_draws {cfg : Config} {n : Nat} {spare : Uuid} {ls : List Label} {w : World}
    (h : exec (World.drawStep cfg n spare) World.init ls = some w) :
    Reach (World.step cfg) (World.Draws cfg) World.init w := by
  have hr : Reach (World.drawStep cfg n spare) (fun _ _ => True) World.init w :=
    reach_of_exec (fun _ _ _ => trivial) h
  have below : ∀ v l v', (∀ c, n ≤ c → v.calls c = none) → World.drawStep cfg n spare v l = some v' →
      v.freshStep cfg n l = some v' ∧ v.New spare ∧ v.Storable cfg l := by
    intro v l v' hn hs
    unfold World.drawStep at hs
    split at hs
    · rename_i hok
      rw [Bool.and_eq_true, List.all_eq_true] at hok
      refine ⟨hs, World.newBelow_new hn hok.1, fun c _ call _ hc _ _ => Or.inl ?_⟩
      by_cases hlt : c < n
      · have := hok.2 c (List.mem_range.mpr hlt)
        rw [hc] at this
        simpa using this
      · rw [hn c (by omega)] at hc
        cases hc
    · cases hs
  have both := hr.invariant
    (P := fun v => (∀ c, n ≤ c → v.calls c = none) ∧ Reach (World.step cfg) (World.Draws cfg) World.init v)
    (fun v l v' hp _ hs => by
      obtain ⟨hfresh, hspare, hstore⟩ := below v l v' hp.1 hs
      exact ⟨World.freshStep_below hp.1 hfresh, Reach.snoc l hp.2
        ⟨World.freshStep_fresh hp.1 hfresh, ⟨spare, hspare⟩, hstore⟩ (World.freshStep_step hfresh)⟩)
    ⟨fun _ _ => rfl, Reach.refl⟩
  exact both.2

theorem fast_path_agrees_iff_rent : ∃ w a b call, World.Leads (sample true) World.init w ∧
    Unused w.db.tables "rent-1" ∧
    (∀ lookup, ∃ r t, w.Ends ((sample true).variant lookup) 0 "rent-1" rent r t) ∧
    (∀ r t, w.Ends ((sample true).variant true) 0 "rent-1" rent r t ↔
      w.Ends ((sample true).variant false) 0 "rent-1" rent r t) ∧
    Reach (World.step (sample true)) (World.Draws (sample true)) World.init a ∧
    a.calls 1 = some (answered "rent-1" rent (.ok ⟨.replayed, rentDetail⟩)) ∧
    Reach (World.step ((sample true).variant false)) World.Fresh World.init b ∧
    b.calls 1 = some call ∧ call.pc = .done (.ok ⟨.replayed, rentDetail⟩) := by
  obtain ⟨w, -, -, hw, -, htx, hen, -⟩ := twoAccounts_open
  obtain ⟨hleads, hcalls, -⟩ := twoAccounts_quiet hw
  have hu : Unused w.db.tables "rent-1" := by
    unfold Unused
    rw [htx]
    exact List.forall_mem_nil _
  have hstopped : ∀ c, w.stopped.calls c = none := fun c => by simp [World.stopped, hcalls c]
  have hnew : ∀ id ∈ [3, 4, 5], w.stopped.New id := fun id _ => new_of_empty hstopped htx hen id
  have h : (exec (World.drawStep (sample true) 3 7) World.init sampleRun).any (fun a => decide (
      a.calls 1 = some (answered "rent-1" rent (.ok ⟨.replayed, rentDetail⟩)))) = true := by decide +kernel
  obtain ⟨a, ha, h⟩ := (Option.any_eq_true _ _).mp h
  have hanswer := of_decide_eq_true h
  have hboth := fast_path_agrees_iff (sample true)
  have hsolo := hboth.1 w 0 "rent-1" rent hleads (hcalls 0) ⟨by decide, by decide +kernel⟩ (by decide) [3, 4, 5]
    (by decide) (by decide) hnew
  obtain ⟨b, hb, hsame⟩ := hboth.2 true a (World.reach_draws ha)
  have hc := hsame.calls 1
  rw [hanswer] at hc
  cases hcb : b.calls 1 with
  | none => rw [hcb] at hc; cases hc
  | some call =>
    rw [hcb] at hc
    cases hc with
    | some hp =>
      have hd := (hp.2.2 ⟨by decide, by decide +kernel⟩ (.ok ⟨.replayed, rentDetail⟩)).mp rfl
      exact ⟨w, a, b, call, hleads, hu, hsolo.1 (by decide +kernel), hsolo.2.mpr (Or.inr hu), World.reach_draws ha,
        hanswer, hb, hcb, hd⟩

def pairedSample : Config :=
  { sample true with
    sha256 := fun bytes => if bytes = rent.encoding then digest bytes else brokenSample.sha256 bytes }

def rentRun : List Label :=
  twoAccounts ++ [.invoke 0 "rent-1" rent] ++ onPool 0 0 ++ onPool 0 3 ++
  ([0, 0, 0, 0, 4, 5, 0, 0].map fun id => Label.run 0 (sampleEnv id)) ++ onPool 0 0 ++ onPool 0 0

theorem World.ends_of_exec {cfg : Config} {w : World} {n c : Nat} {key : String} {i : TransferIntent}
    {r : Except LedgerError TransferResult} {ls : List Label} (hn : ∀ c, n ≤ c → w.calls c = none) (hc : c < n)
    (hls : ∀ l ∈ ls, l = .acquire c ∨ ∃ env, l = .run c env)
    (h : (w.stopped.step cfg (.invoke c key i)).any (fun w₁ => (exec (World.freshStep cfg n) w₁ ls).any fun w₂ =>
      decide (w₂.calls c = some (answered key i r) ∧ w₂.db.tables = w.db.tables)) = true) :
    w.Ends cfg c key i r w.db.tables := by
  obtain ⟨w₁, hw₁, h⟩ := (Option.any_eq_true _ _).mp h
  obtain ⟨w₂, hw₂, h⟩ := (Option.any_eq_true _ _).mp h
  obtain ⟨hanswer, ht⟩ := of_decide_eq_true h
  have hfw : w.stopped.freshStep cfg n (.invoke c key i) = some w₁ := by
    rw [World.freshStep, if_pos hc]
    exact hw₁
  have hbelow : ∀ c', n ≤ c' → w₁.calls c' = none :=
    World.freshStep_below (fun c' hc' => by simp [World.stopped, hn c' hc']) hfw
  exact ⟨w₁, w₂, _, hw₁, (World.reach_fresh _ hbelow hls hw₂).2, hanswer, rfl, ht⟩

/-- A request that the edge lets through, under the key of the rent: with the lookup it is
told of the conflict, without it there is an opaque error. -/
theorem broken_description_shows_lookup : ∃ w t, World.Leads (pairedSample.variant true) World.init w ∧
    Http.create (some rentHeader) (.ok (rentRequest "re\x00nt")) = .ok ("rent-1", brokenRent) ∧
    Validated brokenRent ∧ w.calls 1 = none ∧
    w.Ends (pairedSample.variant true) 1 "rent-1" brokenRent (.error (.idempotencyKeyConflict "rent-1")) t ∧
    w.Ends (pairedSample.variant false) 1 "rent-1" brokenRent (.error (.database unstorableText)) t ∧
    ¬ ∀ r t, w.Ends (pairedSample.variant true) 1 "rent-1" brokenRent r t ↔
      w.Ends (pairedSample.variant false) 1 "rent-1" brokenRent r t := by
  have h : (exec (World.freshStep (pairedSample.variant true) 1) World.init rentRun).any (fun w =>
      (w.db.tables.transactions.any fun row => row.idempotencyKey = "rent-1") &&
      ((w.stopped.step (pairedSample.variant true) (.invoke 1 "rent-1" brokenRent)).any fun w₁ =>
        (exec (World.freshStep (pairedSample.variant true) 2) w₁ (onPool 1 0)).any fun w₂ =>
          decide (w₂.calls 1 = some (answered "rent-1" brokenRent (.error (.idempotencyKeyConflict "rent-1"))) ∧
            w₂.db.tables = w.db.tables)) &&
      ((w.stopped.step (pairedSample.variant false) (.invoke 1 "rent-1" brokenRent)).any fun w₁ =>
        (exec (World.freshStep (pairedSample.variant false) 2) w₁
            (onPool 1 6 ++ [.run 1 (sampleEnv 0)])).any fun w₂ =>
          decide (w₂.calls 1 = some (answered "rent-1" brokenRent (.error (.database unstorableText))) ∧
            w₂.db.tables = w.db.tables))) = true := by decide +kernel
  obtain ⟨w, hw, h⟩ := (Option.any_eq_true _ _).mp h
  rw [Bool.and_eq_true, Bool.and_eq_true, List.any_eq_true] at h
  obtain ⟨⟨⟨row, hrow, hk⟩, hfast⟩, hslow⟩ := h
  obtain ⟨hcalls, hr⟩ := World.reach_fresh (fun _ => True) (fun _ _ => rfl) (fun _ _ => trivial) hw
  have hleads : World.Leads (pairedSample.variant true) World.init w :=
    hr.mono (P := fun _ => True) (fun _ _ _ _ _ _ => trivial) (fun _ _ _ _ => trivial) trivial
  have hn : ∀ c, 2 ≤ c → w.calls c = none := fun c hc => hcalls c (by omega)
  have hv : Validated brokenRent := ⟨by decide, by decide +kernel⟩
  have hconflict := World.ends_of_exec hn (by omega) (by simp [onPool]) hfast
  have hopaque := World.ends_of_exec hn (by omega) (by simp [onPool]) hslow
  refine ⟨w, w.db.tables, hleads, by decide +kernel, hv, hcalls 1 (le_refl 1), hconflict, hopaque, fun hsame => ?_⟩
  have hkey : hasNul "rent-1" = false := by decide +kernel
  have hi : Inv (pairedSample.variant true) w := Inv.reach hleads
  exact Outcome.differ hv ⟨row, hrow, of_decide_eq_true hk⟩ (by decide +kernel)
    (hi.ends_outcome hv hkey ((hsame _ _).mpr hopaque)) (hi.ends_outcome hv hkey hopaque) rfl

end Ledger
