import Ledger.Moves

/-!
# The replay fast path

`execute_once` looks a key up before it does anything else, "an optimisation, not the
idempotency barrier". A run of the service with that lookup is followed by a run without
it, and the other way round: a call of the second world starts its attempt when the first
world has decided what comes of it, takes a connection only for its next step, and has
a transaction open only at the same point as its counterpart.
-/

namespace Ledger

open Keyed Runs Transfers

/-! ## Two worlds -/

/-- The key is taken, and the unique index has told the call so or is about to. -/
structure Transfers.Doomed (log : List Spec.Event) (call : Call) : Prop where
  used : ∃ tr ∈ Spec.transfers log, tr.key = call.key
  plain : (hasNul call.key || hasNul call.intent.description) = false
  pc : (∃ x id, call.pc = .claim x id) ∨ (∃ x, call.pc = .rollback x) ∨ call.pc = .relookup

/-- How a call stands in the second world: at the same point, or still to start an attempt
of which the first world has decided nothing but that the key is taken. Nothing is said
about a request that is refused by its own data. -/
inductive Transfers.Paired (cfg : Config) (p q : Bool) (log : List Spec.Event) (call : Call) : Call → Prop
  | void {call' : Call} (hv : ¬ Validated call.intent) (hk : call'.key = call.key) (hi : call'.intent = call.intent)
      (hs : call'.pc.session = none) : Paired cfg p q log call call'
  | level (hv : Validated call.intent) (y : Xid) : Paired cfg p q log call (call.on y)
  | behind (hv : Validated call.intent) (hpc : call.pc = startPc (cfg.variant p) call.intent ∨ Doomed log call) :
      Paired cfg p q log call { call with pc := startPc (cfg.variant q) call.intent }

theorem Transfers.Paired.mono {cfg : Config} {p q : Bool} {log log' : List Spec.Event} {call call' : Call}
    (h : Paired cfg p q log call call') : Paired cfg p q (log ++ log') call call' := by
  cases h with
  | void hv hk hi hs => exact .void hv hk hi hs
  | level hv y => exact .level hv y
  | behind hv hpc =>
    refine .behind hv (hpc.imp (fun h => h) fun hd => ⟨?_, hd.plain, hd.pc⟩)
    obtain ⟨tr, htr, hk⟩ := hd.used
    exact ⟨tr, by rw [Spec.transfers_append]; exact List.mem_append_left _ htr, hk⟩

theorem Transfers.Paired.follow (cfg : Config) (p q : Bool) (log : List Spec.Event) {call : Call}
    (hv : Validated call.intent) (y : Xid) (next : Next) :
    Paired cfg p q log (call.follow (cfg.variant p) next) ((call.on y).follow (cfg.variant q) (next.on y)) := by
  have goto : ∀ pc, Paired cfg p q log { call with pc } { call with pc := pc.on y } := by
    intro pc
    let there : Call := { call with pc }
    have hv' : Validated there.intent := hv
    exact .level hv' y
  have restart : Paired cfg p q log
      { call with attempt := call.attempt + 1, pc := startPc (cfg.variant p) call.intent }
      { call with attempt := call.attempt + 1, pc := startPc (cfg.variant q) call.intent } := by
    let again : Call := { call with attempt := call.attempt + 1, pc := startPc (cfg.variant p) call.intent }
    have hv' : Validated again.intent := hv
    exact .behind hv' (Or.inl rfl)
  cases next with
  | goto pc => exact goto pc
  | ret r =>
    simp only [Call.follow, Next.on, Call.finish]
    split
    · rename_i err
      by_cases hretry : (isRetryableConflict err && decide (call.attempt < MAX_CONFLICT_RETRIES)) = true
      · rw [if_pos hretry,
          if_pos (show (isRetryableConflict err && decide ((call.on y).attempt < MAX_CONFLICT_RETRIES)) =
          true from hretry)]
        exact restart
      · rw [if_neg hretry, if_neg (show ¬ (isRetryableConflict err && decide ((call.on y).attempt <
          MAX_CONFLICT_RETRIES)) = true from hretry)]
        exact goto (.done _)
    · exact goto (.done _)
  | panic => exact goto .panicked

/-- The second world follows the first. -/
structure Twin (cfg : Config) (p q : Bool) (a b : World) : Prop where
  left : Inv (cfg.variant p) a
  right : Inv (cfg.variant q) b
  tables : a.db.tables.erase = b.db.tables.erase
  calls : ∀ c, Option.Rel (Paired cfg p q a.log) (a.calls c) (b.calls c)
  clock : ∀ c now, b.clock c = some now → a.clock c = some now
  lazy : b.Lazy

namespace Twin

variable {cfg : Config} {p q : Bool} {a b : World} (h : Twin cfg p q a b)
include h

theorem paired {c : Nat} {call' : Call} (hc : b.calls c = some call') :
    ∃ call, a.calls c = some call ∧ Paired cfg p q a.log call call' := by
  have hr := h.calls c
  rw [hc] at hr
  cases hca : a.calls c with
  | none => rw [hca] at hr; cases hr
  | some call =>
    rw [hca] at hr
    cases hr with
    | some hp => exact ⟨call, rfl, hp⟩

theorem counterpart {c : Nat} {call : Call} (hc : a.calls c = some call) :
    ∃ call', b.calls c = some call' ∧ Paired cfg p q a.log call call' := by
  have hr := h.calls c
  rw [hc] at hr
  cases hcb : b.calls c with
  | none => rw [hcb] at hr; cases hr
  | some call' =>
    rw [hcb] at hr
    cases hr with
    | some hp => exact ⟨call', rfl, hp⟩

theorem shadow : Shadow cfg p q a b where
  left := h.left
  right := h.right
  tables := h.tables
  sessions c call' y hc hs := by
    obtain ⟨call, hca, hp⟩ := h.paired hc
    cases hp with
    | void _ _ _ hnone => rw [hnone] at hs; cases hs
    | level _ z =>
      rw [Call.on, Pc.on_session] at hs
      obtain ⟨x, hx, rfl⟩ := Option.map_eq_some_iff.mp hs
      exact ⟨call, hca, by rw [hx]; rfl, rfl⟩
    | behind => rw [startPc_session] at hs; cases hs

theorem held {c : Nat} (hc : c ∈ b.held) : c ∈ a.held := by
  obtain ⟨call', hc', hs⟩ := h.lazy.session c hc
  obtain ⟨y, hy⟩ := Option.isSome_iff_exists.mp hs
  obtain ⟨call, hca, hs', -⟩ := h.shadow.sessions c call' y hc' hy
  exact h.left.held c call hca hs'

theorem room (ho : a.Orderly (cfg.variant p)) {c : Nat} (hc : c ∈ a.held) : b.Room (cfg.variant q) c := by
  have hsub : c :: (b.held.filter (· ≠ c)).filter (fun d => cfg.process d = cfg.process c) ⊆
      a.held.filter fun d => cfg.process d = cfg.process c := by
    intro d hd
    rcases List.mem_cons.mp hd with rfl | hd
    · exact List.mem_filter.mpr ⟨hc, decide_eq_true rfl⟩
    · obtain ⟨hd, hp⟩ := List.mem_filter.mp hd
      exact List.mem_filter.mpr ⟨h.held (List.mem_filter.mp hd).1, hp⟩
  have hnodup : (c :: (b.held.filter (· ≠ c)).filter (fun d => cfg.process d = cfg.process c)).Nodup := by
    refine List.nodup_cons.mpr ⟨fun hm => ?_, (h.lazy.nodup.filter _).filter _⟩
    have hne := (List.mem_filter.mp (List.mem_filter.mp hm).1).2
    exact of_decide_eq_true hne rfl
  have hle := (List.subperm_of_subset hnodup hsub).length_le
  exact Nat.lt_of_lt_of_le (Nat.lt_succ_of_le (Nat.le_refl _)) (hle.trans (ho.pool (cfg.process c)))

theorem free {process : Nat} (hf : a.free (cfg.variant p) process = true) :
    b.free (cfg.variant q) process = true := by
  have hsub : (b.held.filter fun d => cfg.process d = process) ⊆
      a.held.filter fun d => cfg.process d = process := by
    intro d hd
    obtain ⟨hd, hp⟩ := List.mem_filter.mp hd
    exact List.mem_filter.mpr ⟨h.held hd, hp⟩
  have hle := (List.subperm_of_subset (h.lazy.nodup.filter _) hsub).length_le
  exact decide_eq_true (Nat.lt_of_le_of_lt hle (of_decide_eq_true hf))

theorem new {id : Uuid} (hn : a.New id) : b.New id := by
  refine ⟨fun c call' hc hid => ?_, fun r hr he => ?_, fun e hm he => ?_⟩
  · obtain ⟨call, hca, hp⟩ := h.paired hc
    cases hp with
    | void _ _ _ hs => rw [Pc.generated_of_none hs] at hid; cases hid
    | level _ y =>
      rw [Call.on, Pc.on_generated] at hid
      exact hn.1 c call hca hid
    | behind => rw [startPc_generated] at hid; cases hid
  · have hany := Tables.same_transactionIds h.tables id
    have hb : (b.db.tables.transactions.any fun r => decide (r.id = id)) = true :=
      List.any_eq_true.mpr ⟨r, hr, decide_eq_true he⟩
    rw [hb] at hany
    obtain ⟨r', hr', he'⟩ := List.any_eq_true.mp hany
    exact hn.2.1 r' hr' (of_decide_eq_true he')
  · have hany := Tables.same_entryIds h.tables id
    have hb : (b.db.tables.entries.any fun e => decide (e.id = id)) = true :=
      List.any_eq_true.mpr ⟨e, hm, decide_eq_true he⟩
    rw [hb] at hany
    obtain ⟨e', hm', he'⟩ := List.any_eq_true.mp hany
    exact hn.2.2 e' hm' (of_decide_eq_true he')

theorem moved {c : Nat} {a' b' : World} (ha : Inv (cfg.variant p) a') (hb : Inv (cfg.variant q) b')
    (hma : a.Moved c a') (hmb : b.Moved c b') (ht : a'.db.tables.erase = b'.db.tables.erase)
    (hlog : ∃ evs, a'.log = a.log ++ evs) (hp : Option.Rel (Paired cfg p q a'.log) (a'.calls c) (b'.calls c))
    (hclock : ∀ now, b'.clock c = some now → a'.clock c = some now) (hl : b'.Lazy) : Twin cfg p q a' b' where
  left := ha
  right := hb
  tables := ht
  calls d := by
    by_cases hd : d = c
    · rw [hd]
      exact hp
    · rw [hma.calls d hd, hmb.calls d hd]
      obtain ⟨evs, he⟩ := hlog
      have hr := h.calls d
      rw [he]
      generalize a.calls d = call at hr ⊢
      generalize b.calls d = call' at hr ⊢
      cases hr with
      | some hp => exact .some hp.mono
      | none => exact .none
  clock d now hn := by
    by_cases hd : d = c
    · rw [hd] at hn ⊢
      exact hclock now hn
    · rw [hmb.clock d hd] at hn
      rw [hma.clock d hd]
      exact h.clock d now hn
  lazy := hl

end Twin

theorem Shadow.commit_tables {cfg : Config} {p q : Bool} {a b : World} (h : Shadow cfg p q a b) {c : Nat}
    {call : Call}
    {x y : Xid} {tx ty : Txn} {id cid did : Uuid} {sender receiver : AccountRow} (hc : a.calls c = some call)
    (hc' : b.calls c = some (call.on y)) (hpc : call.pc = .commit x id sender receiver cid did)
    (hx : a.db.txns x = some tx) (hy : b.db.txns y = some ty) (hnow : tx.now = ty.now) :
    (tx.work.overlay a.db.tables).erase = (ty.work.overlay b.db.tables).erase := by
  obtain ⟨tx', hx', -, hok⟩ := h.left.session c call x hc (by rw [hpc]; rfl)
  obtain ⟨ty', hy', -, hok'⟩ := h.right.session c (call.on y) y hc' (by rw [Call.on, hpc]; rfl)
  rw [hx, Option.some.injEq] at hx'
  rw [hy, Option.some.injEq] at hy'
  subst hx' hy'
  simp only [SessionOk, Call.on, Pc.on, hpc] at hok hok'
  obtain ⟨-, s, r, s', r', hu, hs, hr, hsh⟩ := hok
  obtain ⟨-, s₁, r₁, s₁', r₁', hu', hs₁, hr₁, hsh'⟩ := hok'
  obtain ⟨rfl, rfl⟩ := h.same_rows hu.admits hu'.admits
  rw [hs, Option.some.injEq] at hs₁
  rw [hr, Option.some.injEq] at hr₁
  subst hs₁ hr₁
  have hid : s'.id ≠ r'.id := by
    rw [Spec.shift_id hs, Spec.shift_id hr, (Spec.findAccount_some hu.admits.sender).2,
      (Spec.findAccount_some hu.admits.receiver).2]
    exact hu.admits.distinct
  have hover : tx.work.overlay a.db.tables = Spec.settled cfg.sha256 a.db.tables
      (call.transfer 0 x id cid did tx.now) s' r' := hsh.settled (h.left.db.work hx).untruncated hid
  have hover' : ty.work.overlay b.db.tables = Spec.settled cfg.sha256 b.db.tables
      (call.transfer 0 y id cid did ty.now) s' r' := hsh'.settled (h.right.db.work hy).untruncated hid
  have ht := h.tables
  rw [hover, hover', hnow]
  simp only [Tables.erase, Tables.mk.injEq, Spec.settled, List.map_append] at ht ⊢
  refine ⟨by rw [ht.1], ?_, ?_⟩
  · rw [ht.2.1]
    rfl
  · rw [ht.2.2]
    rfl

namespace Twin

variable {cfg : Config} {p q : Bool} {a b : World} (h : Twin cfg p q a b)
include h

theorem same_now {c : Nat} {call : Call} {x y : Xid} {tx ty : Txn} (hc : a.calls c = some call)
    (hc' : b.calls c = some (call.on y)) (hs : call.pc.session = some x) (hx : a.db.txns x = some tx)
    (hy : b.db.txns y = some ty) : tx.now = ty.now := by
  have hs' : (call.on y).pc.session = some y := by rw [Call.on, Pc.on_session, hs]; rfl
  have hnow := h.clock c ty.now (World.clock_some.mpr ⟨_, y, ty, hc', hs', hy, rfl⟩)
  obtain ⟨call₁, x₁, tx₁, hc₁, hs₁, hx₁, hnow⟩ := World.clock_some.mp hnow
  rw [hc, Option.some.injEq] at hc₁
  subst hc₁
  rw [hs, Option.some.injEq] at hs₁
  subst hs₁
  rw [hx, Option.some.injEq] at hx₁
  rw [hx₁, hnow]

theorem run_tables {c : Nat} {call : Call} {y : Xid} (hc : a.calls c = some call)
    (hc' : b.calls c = some (call.on y))
    {env env' : Env} {db db' : Db} {next next' : Next} (hr : call.run (cfg.variant p) a.db env = some (db, next))
    (hr' : (call.on y).run (cfg.variant q) b.db env' = some (db', next')) : db.tables.erase = db'.tables.erase := by
  by_cases hcm : ∃ x id sender receiver cid did, call.pc = .commit x id sender receiver cid did
  · obtain ⟨x, id, sender, receiver, cid, did, hpc⟩ := hcm
    have hpc' : (call.on y).pc = .commit y id sender receiver cid did := by rw [Call.on, hpc]; rfl
    obtain ⟨tx, hx, -⟩ := h.left.session c call x hc (by rw [hpc]; rfl)
    obtain ⟨ty, hy, -⟩ := h.right.session c (call.on y) y hc' (by rw [hpc']; rfl)
    have hnow := h.same_now hc hc' (by rw [hpc]; rfl) hx hy
    simp only [Call.run, hpc, hx, Option.map_some, h.left.commit_accepted hc hpc hx, Option.some.injEq,
      Prod.mk.injEq] at hr
    simp only [Call.run, hpc', hy, Option.map_some, h.right.commit_accepted hc' hpc' hy, Option.some.injEq,
      Prod.mk.injEq] at hr'
    rw [← hr.1, ← hr'.1]
    exact h.shadow.commit_tables hc hc' hpc hx hy hnow
  · have hpc : ∀ x id sender receiver cid did, call.pc ≠ .commit x id sender receiver cid did :=
      fun x id sender receiver cid did he => hcm ⟨x, id, sender, receiver, cid, did, he⟩
    have hpc' : ∀ x id sender receiver cid did, (call.on y).pc ≠ .commit x id sender receiver cid did := by
      intro x id sender receiver cid did he
      obtain ⟨z, hz⟩ := Pc.on_commit he
      exact hpc z id sender receiver cid did hz
    rw [(Call.run_effect hr).keeps_tables hpc, (Call.run_effect hr').keeps_tables hpc']
    exact h.tables

theorem level_run (ho : a.Orderly (cfg.variant p)) {c : Nat} {call : Call} {y : Xid} (hv : Validated call.intent)
    (hc : a.calls c = some call) (hc' : b.calls c = some (call.on y)) (hm : c ∈ a.held) {env : Env}
    (hf : a.Fresh (.run c env)) {db : Db} {next : Next} (hr : call.run (cfg.variant p) a.db env = some (db, next))
    {log : List Spec.Event} (hlog : ∃ evs, log = a.log ++ evs)
    (hinv : Inv (cfg.variant p) (a.moveTo c (call.follow (cfg.variant p) next) (World.leave db call.pc next) log)) :
    ∃ b', Reach (World.step (cfg.variant q)) (World.Alone c) b b' ∧
      Twin cfg p q (a.moveTo c (call.follow (cfg.variant p) next) (World.leave db call.pc next) log) b' := by
  have hroom := h.room ho hm
  have hnew : (call.on y).pc.generates = true → b.New env.id := by
    rw [Call.on, Pc.on_generates]
    exact fun hg => h.new (hf c env call rfl hc hg)
  have hma : a.Moved c (a.moveTo c (call.follow (cfg.variant p) next) (World.leave db call.pc next) log) :=
    h.left.moved_run hc hr
  have hself : (a.moveTo c (call.follow (cfg.variant p) next) (World.leave db call.pc next) log).calls c =
      some (call.follow (cfg.variant p) next) := Function.update_self ..
  by_cases hb : call.pc = .begin
  · simp only [Call.run, hb, Option.some.injEq, Prod.mk.injEq] at hr
    obtain ⟨rfl, rfl⟩ := hr
    have hr' : (call.on y).run (cfg.variant q) b.db env =
        some (b.db.begin env.now, .goto (.claim b.db.nextXid env.id)) := by
      simp only [Call.run, Call.on, hb, Pc.on]
    obtain ⟨b', hd⟩ := h.right.drives h.lazy hc' hroom hnew hr'
    refine ⟨b', hd.reach, h.moved hinv hd.inv hma hd.moved ?_ hlog ?_ ?_ hd.lazy⟩
    · rw [hd.db]
      exact h.tables
    · rw [hd.calls, Function.update_self, hself]
      let opened : Call := { call with pc := .claim a.db.nextXid env.id }
      have hv' : Validated opened.intent := hv
      exact .some (.level hv' b.db.nextXid)
    · intro now hn
      obtain ⟨call', x, txn, hc₁, hs, hx, rfl⟩ := World.clock_some.mp hn
      rw [hd.calls, Function.update_self, Option.some.injEq] at hc₁
      subst hc₁
      cases hs
      rw [hd.db] at hx
      have hopened : (b.db.begin env.now).txns b.db.nextXid = some { now := env.now } := Function.update_self ..
      have hx := hopened.symm.trans hx
      rw [Option.some.injEq] at hx
      refine World.clock_some.mpr ⟨_, a.db.nextXid, { now := env.now }, Function.update_self .., rfl,
        Function.update_self .., ?_⟩
      rw [← hx]
  · obtain ⟨scan, db', hr'⟩ := h.shadow.run hc hc' hb hr
    have hb' : (call.on y).pc ≠ .begin := fun he => hb (Pc.on_begin he)
    have hnew' : (call.on y).pc.generates = true → b.New ({ env with scan := scan } : Env).id := hnew
    obtain ⟨b', hd⟩ := h.right.drives h.lazy hc' hroom hnew' hr'
    refine ⟨b', hd.reach, h.moved hinv hd.inv hma hd.moved ?_ hlog ?_ ?_ hd.lazy⟩
    · rw [hd.db, World.leave_tables]
      show (World.leave db call.pc next).tables.erase = db'.tables.erase
      rw [World.leave_tables]
      exact h.run_tables hc hc' hr hr'
    · rw [hd.calls, Function.update_self, hself]
      exact .some (.follow cfg p q log hv y next)
    · intro now hn
      have hself' : b'.calls c = some ((call.on y).follow (cfg.variant q) (next.on y)) := by
        rw [hd.calls, Function.update_self]
      have hnow := h.clock c now (h.right.clock_run hc' hr' hb' hself' hd.db hn)
      -- the transaction is open in the first world too
      obtain ⟨call', x, txn, hc₁, hs, -⟩ := World.clock_some.mp hn
      rw [hself', Option.some.injEq] at hc₁
      subst hc₁
      obtain ⟨pc', hpc', hs'⟩ := Call.follow_session hs
      have hopen : (call.follow (cfg.variant p) next).pc.session.isSome = true := by
        cases next with
        | goto pc =>
          cases hpc'
          rw [Pc.on_session] at hs'
          obtain ⟨z, hz, -⟩ := Option.map_eq_some_iff.mp hs'
          exact Option.isSome_of_eq_some hz
        | ret r => cases hpc'
        | panic => cases hpc'
      obtain ⟨now', hnow'⟩ := hinv.clock_session hself hopen
      rw [h.left.clock_run hc hr hb hself rfl hnow', Option.some.injEq] at hnow
      rw [hnow', hnow]

end Twin

/-! ## An attempt made up for -/

theorem Transfers.startPc_variant (cfg : Config) (q : Bool) {i : TransferIntent} (hv : Validated i) :
    startPc (cfg.variant q) i = if q then .lookup else .begin := by
  cases q with
  | true => rfl
  | false => simp [startPc, start, Config.variant, validate, hv.1, hv.2]

theorem Transfers.Call.follow_pc (cfg : Config) (call : Call) (pc : Pc) (next : Next) :
    Call.follow cfg { call with pc } next = call.follow cfg next := by
  cases next with
  | goto pc' => rfl
  | ret r =>
    simp only [Call.follow, Call.finish]
  | panic => rfl

theorem World.leave_of_none {db : Db} {pc : Pc} (h : pc.session = none) (next : Next) :
    World.leave db pc next = db := by
  have hdrop : World.drop db pc = db := by
    unfold World.drop
    rw [h]
  cases next with
  | goto pc' => rfl
  | ret r => exact hdrop
  | panic => exact hdrop

theorem Inv.claim_collides {cfg : Config} {w : World} (h : Inv cfg w) {c : Nat} {call : Call} {x : Xid} {id : Uuid}
    (hc : w.calls c = some call) (hpc : call.pc = .claim x id)
    (hplain : (hasNul call.key || hasNul call.intent.description) = false)
    (hid : ∀ r ∈ w.db.tables.transactions, r.id ≠ id)
    (hothers : w.db.Others x fun work => ∀ r ∈ work.transactions, r.id ≠ id)
    (hused : ∃ r ∈ w.db.tables.transactions, r.idempotencyKey = call.key) (env : Env) :
    ∃ db, call.run cfg w.db env = some (db, .goto (.rollback x)) ∧ db.tables = w.db.tables := by
  obtain ⟨-, txn, work, hx, -, -, -, he⟩ := h.claim_outcome hc hpc
  have hdup : (w.db.tables.transactions.any fun r => decide (r.id = id)) = false := by
    rw [List.any_eq_false]
    intro r hr hd
    exact hid r hr (of_decide_eq_true hd)
  have hkey : (w.db.tables.transactions.any fun r => decide (r.idempotencyKey = call.key)) = true := by
    obtain ⟨r, hr, hk⟩ := hused
    exact List.any_eq_true.mpr ⟨r, hr, decide_eq_true hk⟩
  have hwait : w.db.await x (fun work => work.transactions.any fun r => decide (r.id = id)) = .ok () := by
    apply Db.await_ok
    intro y ty hy hty
    rw [List.any_eq_false]
    intro r hr hd
    exact hothers y ty hy hty r hr (of_decide_eq_true hd)
  have he : w.db.exec cfg.schema x txn (claimStmt cfg.sha256 id call.key call.intent) =
      .error (.database .uniqueViolation (some .transactions_idempotency_key_key)) := by
    rw [he, if_neg (by rw [hplain]; exact Bool.false_ne_true), hdup, hkey, Db.unique, if_neg Bool.false_ne_true,
      hwait]
    rfl
  refine ⟨w.db.fail x txn, ?_, rfl⟩
  simp only [Call.run, hpc, statement, hx, Option.bind_some, he]
  rfl

section
variable {cfg : Config} {q : Bool} {w : World} (h : Inv (cfg.variant q) w) (hl : w.Lazy) {c : Nat} {call : Call}
  (hc : w.calls c = some { call with pc := startPc (cfg.variant q) call.intent }) (hv : Validated call.intent)
  (hroom : w.Room (cfg.variant q) c)
include h hl hc hv hroom

theorem Inv.reaches_begin (hf : Transactions.findByIdempotencyKey w.db.tables call.key = none) :
    ∃ w', w.Drives (cfg.variant q) c w' { call with pc := .begin } w.db := by
  rw [startPc_variant cfg q hv] at hc
  cases q with
  | false =>
    exact ⟨w, Reach.refl, h, (Function.update_eq_self_iff.mpr hc.symm).symm, rfl, hl, hroom, World.Moved.refl c w⟩
  | true =>
    have hr : Call.run (cfg.variant true) w.db { call with pc := .lookup } ⟨0, 0, []⟩ =
        some (w.db, .goto .begin) := by
      simp only [Call.run, hf, afterLookup, validate, hv.1, hv.2, if_false, Bool.not_true, Bool.false_eq_true]
    obtain ⟨w', hd⟩ := h.drives hl hc hroom (fun hg => by cases hg) hr
    exact ⟨w', hd⟩

/-- Under a key that is taken, both variants come to the comparison of the hashes: with the
lookup at once, without it through a claim that fails, a rollback and the second lookup. -/
theorem Inv.reaches_replay {record : IdempotencyRecord}
    (hf : Transactions.findByIdempotencyKey w.db.tables call.key = some record)
    (hplain : (hasNul call.key || hasNul call.intent.description) = false) {id : Uuid} (hnew : w.New id) :
    ∃ w' db, w.Drives (cfg.variant q) c w'
      (call.follow (cfg.variant q) (replay (cfg.variant q) call.key call.intent record)) db ∧
      db.tables = w.db.tables := by
  rw [startPc_variant cfg q hv] at hc
  cases q with
  | true =>
    have hr : Call.run (cfg.variant true) w.db { call with pc := .lookup } ⟨0, 0, []⟩ =
        some (w.db, replay (cfg.variant true) call.key call.intent record) := by
      simp only [Call.run, hf, afterLookup]
    obtain ⟨w', hd⟩ := h.drives hl hc hroom (fun hg => by cases hg) hr
    rw [Call.follow_pc, World.leave_of_none rfl] at hd
    exact ⟨w', w.db, hd, rfl⟩
  | false =>
    have hr : Call.run (cfg.variant false) w.db { call with pc := .begin } ⟨id, 0, []⟩ =
        some (w.db.begin 0, .goto (.claim w.db.nextXid id)) := rfl
    obtain ⟨w₁, h₁⟩ := h.drives hl hc hroom (fun _ => hnew) hr
    have hc₁ : w₁.calls c = some { call with pc := .claim w.db.nextXid id } := by
      rw [h₁.calls, Function.update_self]
      rfl
    have ht₁ : w₁.db.tables = w.db.tables := by rw [h₁.db]; rfl
    have hothers : w₁.db.Others w.db.nextXid fun work => ∀ r ∈ work.transactions, r.id ≠ id := by
      intro y ty hy hty r hr he
      obtain ⟨d, other, hd, hs, hok⟩ := h₁.inv.behind hty
      have hne : d ≠ c := by
        rintro rfl
        rw [hc₁, Option.some.injEq] at hd
        rw [← hd] at hs
        cases hs
        exact hy rfl
      rw [h₁.moved.calls d hne] at hd
      exact hnew.1 d other hd (he ▸ ((hok.generated hs).1 r hr).1)
    have hused : ∃ r ∈ w₁.db.tables.transactions, r.idempotencyKey = call.key := by
      rw [ht₁]
      exact Transactions.findByIdempotencyKey_some.mp ⟨_, hf⟩
    obtain ⟨db₁, hr₁, htab⟩ := h₁.inv.claim_collides hc₁ rfl hplain (by rw [ht₁]; exact hnew.2.1) hothers hused
      ⟨0, 0, []⟩
    obtain ⟨w₂, h₂⟩ := h₁.inv.drives h₁.lazy hc₁ h₁.room (fun hg => by cases hg) hr₁
    have hc₂ : w₂.calls c = some { call with pc := .rollback w.db.nextXid } := by
      rw [h₂.calls, Function.update_self]
      rfl
    have ht₂ : w₂.db.tables = w.db.tables := by rw [h₂.db, World.leave_tables, htab, ht₁]
    have hr₂ : Call.run (cfg.variant false) w₂.db { call with pc := .rollback w.db.nextXid } ⟨0, 0, []⟩ =
        some (w₂.db.close w.db.nextXid, .goto .relookup) := rfl
    obtain ⟨w₃, h₃⟩ := h₂.inv.drives h₂.lazy hc₂ h₂.room (fun hg => by cases hg) hr₂
    have hc₃ : w₃.calls c = some { call with pc := .relookup } := by
      rw [h₃.calls, Function.update_self]
      rfl
    have ht₃ : w₃.db.tables = w.db.tables := by
      rw [h₃.db, World.leave_tables]
      exact ht₂
    have hr₃ : Call.run (cfg.variant false) w₃.db { call with pc := .relookup } ⟨0, 0, []⟩ =
        some (w₃.db, replay (cfg.variant false) call.key call.intent record) := by
      simp only [Call.run, ht₃, hf, afterRelookup]
    obtain ⟨w₄, h₄⟩ := h₃.inv.drives h₃.lazy hc₃ h₃.room (fun hg => by cases hg) hr₃
    have hd := ((h₁.trans h₂).trans h₃).trans h₄
    rw [Call.follow_pc, World.leave_of_none rfl] at hd
    exact ⟨w₄, w₃.db, hd, ht₃⟩

end

/-! ## Keys that are taken -/

namespace Transfers

def Pc.claimed : Pc → Bool
  | lock .. | adjustFrom .. | adjustTo .. | insertCredit .. | insertDebit .. | commit .. => true
  | _ => false

theorem Pc.claimed_of_none {pc : Pc} (h : pc.session = none) : pc.claimed = false := by
  cases pc with
  | claim | rollback | lock | adjustFrom | adjustTo | insertCredit | insertDebit | commit => cases h
  | _ => rfl

end Transfers

/-- A key that was claimed has passed the check of its characters. -/
structure World.PlainKeys (w : World) : Prop where
  claimed : ∀ c call, w.calls c = some call → call.pc.claimed = true → hasNul call.key = false
  committed : ∀ tr ∈ Spec.transfers w.log, hasNul tr.key = false

theorem Inv.run_claimed {cfg : Config} {w : World} (h : Inv cfg w) {c : Nat} {call : Call}
    (hc : w.calls c = some call)
    {env : Env} {db : Db} {next : Next} (hr : call.run cfg w.db env = some (db, next))
    (hcl : (call.follow cfg next).pc.claimed = true) : call.pc.claimed = true ∨ hasNul call.key = false := by
  have hopen : ∃ x, (call.follow cfg next).pc.session = some x := by
    cases hs : (call.follow cfg next).pc.session with
    | none => rw [Pc.claimed_of_none hs] at hcl; cases hcl
    | some x => exact ⟨x, rfl⟩
  obtain ⟨x, hs⟩ := hopen
  by_cases hb : call.pc = .begin
  · simp only [Call.run, hb, Option.some.injEq, Prod.mk.injEq] at hr
    obtain ⟨-, rfl⟩ := hr
    cases hcl
  · obtain ⟨hs₀, -⟩ := h.run_session hc hr hb hs
    cases hpc : call.pc with
    | claim y id =>
      cases hk : hasNul call.key with
      | false => exact Or.inr rfl
      | true =>
        -- the text is refused before anything is claimed
        obtain ⟨-, txn, work, hx, -, -, -, he⟩ := h.claim_outcome hc hpc
        rw [hk, Bool.true_or, if_pos rfl] at he
        simp only [Call.run, hpc, statement, hx, Option.bind_some, he, Option.some.injEq, Prod.mk.injEq] at hr
        obtain ⟨-, rfl⟩ := hr
        obtain ⟨pc, hpc', -⟩ := Call.follow_session hs
        cases hpc'
    | rollback y =>
      simp only [Call.run, hpc, Option.some.injEq, Prod.mk.injEq] at hr
      obtain ⟨-, rfl⟩ := hr
      cases hcl
    | lock | adjustFrom | adjustTo | insertCredit | insertDebit | commit => exact Or.inl rfl
    | _ => rw [hpc] at hs₀; cases hs₀

theorem World.PlainKeys.step {cfg : Config} {w w' : World} {l : Label} (hp : w.PlainKeys) (h : Inv cfg w)
    (hs : w.step cfg l = some w') : w'.PlainKeys := by
  refine ⟨fun c call' hc' hcl => ?_, fun tr htr => ?_⟩
  · rcases World.step_call hs hc' with hc | ⟨-, hpc⟩ | ⟨call, hc, -, hwent⟩
    · exact hp.claimed c call' hc hcl
    · rw [hpc, Pc.claimed_of_none (startPc_session _)] at hcl
      cases hcl
    · rw [hwent.same.1]
      cases hwent with
      | ran hr =>
        rcases h.run_claimed hc hr hcl with hcl | hk
        · exact hp.claimed c call hc hcl
        · exact hk
      | broke => rw [Pc.claimed_of_none (Call.finish_session ..)] at hcl; cases hcl
      | left => cases hcl
  · rcases World.step_log hs with he | ⟨ev, he, -, hland⟩
    · rw [he] at htr
      exact hp.committed tr htr
    · rw [he, Spec.transfers_append, List.mem_append] at htr
      rcases htr with htr | htr
      · exact hp.committed tr htr
      · cases ev with
        | account row => cases htr
        | transfer tr' =>
          obtain rfl := List.mem_singleton.mp htr
          obtain ⟨-, call, db, -, hc, hl, -⟩ := hland tr rfl
          obtain ⟨x, id, sender, receiver, cid, did, txn, hpc, -, -, hev⟩ := Inv.landing_commit hl
          rw [Spec.Event.transfer.injEq] at hev
          rw [hev]
          exact hp.claimed tr.call call hc (by rw [hpc]; rfl)

theorem World.PlainKeys.init : World.init.PlainKeys where
  claimed _ _ hc := by cases hc
  committed _ htr := by cases htr

theorem Inv.row_used {cfg : Config} {w : World} (h : Inv cfg w) {key : String} :
    (∃ r ∈ w.db.tables.transactions, r.idempotencyKey = key) ↔ ∃ tr ∈ Spec.transfers w.log, tr.key = key := by
  constructor
  · rintro ⟨r, hr, hk⟩
    obtain ⟨tr, htr, rfl⟩ := h.find_transfer hr
    exact ⟨tr, htr, hk⟩
  · rintro ⟨tr, htr, hk⟩
    exact ⟨_, h.row_mem htr, hk⟩

/-! ## Step by step -/

/-- **The condition.** An attempt of a call whose description holds U+0000 starts while its
key is not taken. -/
def World.Storable (cfg : Config) (w : World) (l : Label) : Prop :=
  ∀ c env call, l = .run c env → w.calls c = some call → Validated call.intent →
    call.pc = startPc cfg call.intent → hasNul call.intent.description = false ∨ Unused w.db.tables call.key

theorem World.landing_none {db : Db} {c : Nat} {call : Call} (h : call.pc.claimed = false) :
    World.landing db c call = none := by
  unfold World.landing
  split
  · rename_i hpc
    rw [hpc] at h
    cases h
  · rfl

namespace Twin

variable {cfg : Config} {p q : Bool} {a b : World} (h : Twin cfg p q a b)
include h

theorem stutters {c : Nat} {call' other : Call} {db : Db} (hc' : b.calls c = some other)
    (hnone : other.pc.session = none) (hinv : Inv (cfg.variant p) (a.moveTo c call' db a.log))
    (hma : a.Moved c (a.moveTo c call' db a.log)) (ht : db.tables = a.db.tables)
    (hp : Paired cfg p q a.log call' other) : Twin cfg p q (a.moveTo c call' db a.log) b := by
  refine h.moved hinv h.right hma (World.Moved.refl c b) ?_ ⟨[], (List.append_nil _).symm⟩ ?_ ?_ h.lazy
  · show db.tables.erase = b.db.tables.erase
    rw [ht]
    exact h.tables
  · rw [show (a.moveTo c call' db a.log).calls c = some call' from Function.update_self .., hc']
    exact .some hp
  · intro now hn
    obtain ⟨call, x, txn, hc, hs, -⟩ := World.clock_some.mp hn
    rw [hc', Option.some.injEq] at hc
    rw [← hc, hnone] at hs
    cases hs

theorem ends {c : Nat} {call other call₁ call₂ : Call} {db₁ db₂ : Db} {log₁ log₂ : List Spec.Event} {l : Label}
    (hc : a.calls c = some call) (hc' : b.calls c = some other)
    (hs : b.step (cfg.variant q) l = some (b.moveTo c call₂ db₂ log₂))
    (hinv : Inv (cfg.variant p) (a.moveTo c call₁ db₁ log₁)) (hlog : ∃ evs, log₁ = a.log ++ evs)
    (hdb₁ : ∀ z, call.pc.session ≠ some z → db₁.txns z = a.db.txns z)
    (hdb₂ : ∀ z, other.pc.session ≠ some z → db₂.txns z = b.db.txns z)
    (ht : db₁.tables.erase = db₂.tables.erase) (hnone : call₂.pc.session = none)
    (hp : Paired cfg p q log₁ call₁ call₂) (hf : b.Fresh l) :
    ∃ b', Reach (World.step (cfg.variant q)) World.Fresh b b' ∧ Twin cfg p q (a.moveTo c call₁ db₁ log₁) b' := by
  have hself : (b.moveTo c call₂ db₂ log₂).calls c = some call₂ := Function.update_self ..
  refine ⟨_, Reach.one l hf hs, h.moved hinv (h.right.step hs) (h.left.moved hc fun z hz _ => hdb₁ z hz)
    (h.right.moved hc' fun z hz _ => hdb₂ z hz) ht hlog ?_ ?_
    (World.Lazy.moveTo h.lazy.nodup (fun d hd _ => h.lazy.session d hd) call₂ db₂ log₂)⟩
  · rw [show (a.moveTo c call₁ db₁ log₁).calls c = some call₁ from Function.update_self .., hself]
    exact .some hp
  · intro now hn
    obtain ⟨call', x, txn, hc₁, hs, -⟩ := World.clock_some.mp hn
    rw [hself, Option.some.injEq] at hc₁
    rw [← hc₁, hnone] at hs
    cases hs

section
variable (ho : a.Orderly (cfg.variant p)) {c : Nat} {call : Call} (hc : a.calls c = some call) (hm : c ∈ a.held)
  {env : Env} {db : Db} {next : Next} (hr : call.run (cfg.variant p) a.db env = some (db, next))
  (hinv : Inv (cfg.variant p) (a.moveTo c (call.follow (cfg.variant p) next) (World.leave db call.pc next) a.log))
  (hv : Validated call.intent) (hc' : b.calls c = some { call with pc := startPc (cfg.variant q) call.intent })
include ho hc hm hr hinv hv hc'

theorem replays {record : IdempotencyRecord} (ht : db.tables = a.db.tables)
    (hn : next = replay (cfg.variant p) call.key call.intent record)
    (hfind : Transactions.findByIdempotencyKey a.db.tables call.key = some record)
    (hplain : (hasNul call.key || hasNul call.intent.description) = false) (hex : ∃ id, a.New id) :
    ∃ b', Reach (World.step (cfg.variant q)) (World.Alone c) b b' ∧
      Twin cfg p q (a.moveTo c (call.follow (cfg.variant p) next) (World.leave db call.pc next) a.log) b' := by
  obtain ⟨id, hid⟩ := hex
  rw [Tables.same_record h.tables] at hfind
  obtain ⟨b', db', hd, ht'⟩ := h.right.reaches_replay h.lazy hc' hv (h.room ho hm) hfind hplain (h.new hid)
  have hself : b'.calls c = some (call.follow (cfg.variant q) next) := by
    rw [hd.calls, Function.update_self, hn]
    rfl
  refine ⟨b', hd.reach, h.moved hinv hd.inv (h.left.moved_run hc hr) hd.moved ?_ ⟨[], (List.append_nil _).symm⟩
    ?_ ?_ hd.lazy⟩
  · show (World.leave db call.pc next).tables.erase = b'.db.tables.erase
    rw [World.leave_tables, ht, hd.db, ht']
    exact h.tables
  · rw [hself, show (World.moveTo a c _ _ _).calls c = some _ from Function.update_self ..]
    have hp := Paired.follow cfg p q a.log hv 0 next
    rw [hn, replay_on, Call.on, Call.follow_pc, ← hn] at hp
    exact .some hp
  · intro now hnow
    obtain ⟨call', x, txn, hc₁, hs, -⟩ := World.clock_some.mp hnow
    rw [hself, Option.some.injEq] at hc₁
    subst hc₁
    obtain ⟨pc, hpc, hs⟩ := Call.follow_session hs
    rw [hn] at hpc
    unfold replay at hpc
    split at hpc <;> cases hpc
    cases hs

theorem behind_start (hf : a.Fresh (.run c env)) (hk : a.PlainKeys) (hex : ∃ id, a.New id)
    (hst : hasNul call.intent.description = false ∨ Unused a.db.tables call.key)
    (hpc : call.pc = startPc (cfg.variant p) call.intent) :
    ∃ b', Reach (World.step (cfg.variant q)) (World.Alone c) b b' ∧
      Twin cfg p q (a.moveTo c (call.follow (cfg.variant p) next) (World.leave db call.pc next) a.log) b' := by
  have hma : a.Moved c (a.moveTo c (call.follow (cfg.variant p) next) (World.leave db call.pc next) a.log) :=
    h.left.moved_run hc hr
  have hlog : ∃ evs, a.log = a.log ++ evs := ⟨[], (List.append_nil _).symm⟩
  rw [startPc_variant cfg p hv] at hpc
  cases hfind : Transactions.findByIdempotencyKey a.db.tables call.key with
  | none =>
    obtain ⟨b₁, hd⟩ := h.right.reaches_begin h.lazy hc' hv (h.room ho hm)
      (by rw [← Tables.same_record h.tables, hfind])
    have hself : b₁.calls c = some { call with pc := .begin } := by rw [hd.calls, Function.update_self]
    have hclock : ∀ now, b₁.clock c ≠ some now := by
      intro now hn
      obtain ⟨call', x, txn, hc₁, hs, -⟩ := World.clock_some.mp hn
      rw [hself, Option.some.injEq] at hc₁
      rw [← hc₁] at hs
      cases hs
    cases p with
    | true =>
      have hpc : call.pc = .lookup := hpc
      simp only [Call.run, hpc, hfind, afterLookup, validate, hv.1, hv.2, if_false, Bool.not_true,
        Bool.false_eq_true, Option.some.injEq, Prod.mk.injEq] at hr
      obtain ⟨rfl, rfl⟩ := hr
      refine ⟨b₁, hd.reach, h.moved hinv hd.inv hma hd.moved ?_ hlog ?_ (fun now hn => absurd hn (hclock now))
        hd.lazy⟩
      · rw [hd.db]
        exact h.tables
      · rw [hself, show (World.moveTo a c _ _ _).calls c = some _ from Function.update_self ..]
        let there : Call := { call with pc := .begin }
        have hv' : Validated there.intent := hv
        exact .some (.level hv' 0)
    | false =>
      -- both are at the start of the transaction and go on together
      have hpc : call.pc = .begin := hpc
      have hon : call.on 0 = { call with pc := .begin } := by rw [Call.on, hpc]; rfl
      have hmid : Twin cfg false q a b₁ := by
        refine h.moved h.left hd.inv (World.Moved.refl c a) hd.moved ?_ hlog ?_
          (fun now hn => absurd hn (hclock now)) hd.lazy
        · rw [hd.db]
          exact h.tables
        · rw [hself, hc, ← hon]
          exact .some (.level hv 0)
      obtain ⟨b', hreach, ht⟩ := hmid.level_run ho hv hc (by rw [hself, hon]) hm hf hr hlog hinv
      exact ⟨b', hd.reach.trans hreach, ht⟩
  | some record =>
    have hused := Transactions.findByIdempotencyKey_some.mp ⟨record, hfind⟩
    have hplain : (hasNul call.key || hasNul call.intent.description) = false := by
      obtain ⟨r, hr', hkey⟩ := hused
      obtain ⟨tr, htr, hkey'⟩ := h.left.row_used.mp ⟨r, hr', hkey⟩
      rw [← hkey', hk.committed tr htr, Bool.false_or]
      exact hst.resolve_right fun hu => hu r hr' hkey
    cases p with
    | true =>
      have hpc : call.pc = .lookup := hpc
      have hr' := hr
      simp only [Call.run, hpc, hfind, afterLookup, Option.some.injEq, Prod.mk.injEq] at hr'
      obtain ⟨rfl, rfl⟩ := hr'
      exact h.replays ho hc hm hr hinv hv hc' rfl rfl hfind hplain hex
    | false =>
      have hpc : call.pc = .begin := hpc
      simp only [Call.run, hpc, Option.some.injEq, Prod.mk.injEq] at hr
      obtain ⟨rfl, rfl⟩ := hr
      refine ⟨b, Reach.refl, h.stutters hc' (startPc_session _) hinv hma rfl ?_⟩
      let opened : Call := { call with pc := .claim a.db.nextXid env.id }
      have hv' : Validated opened.intent := hv
      exact .behind hv' (Or.inr ⟨h.left.row_used.mp hused, hplain, Or.inl ⟨_, _, rfl⟩⟩)

theorem behind_doomed (hex : ∃ id, a.New id) (hd : Doomed a.log call) :
    ∃ b', Reach (World.step (cfg.variant q)) (World.Alone c) b b' ∧
      Twin cfg p q (a.moveTo c (call.follow (cfg.variant p) next) (World.leave db call.pc next) a.log) b' := by
  have hma : a.Moved c (a.moveTo c (call.follow (cfg.variant p) next) (World.leave db call.pc next) a.log) :=
    h.left.moved_run hc hr
  have hused := h.left.row_used.mpr hd.used
  rcases hd.pc with ⟨x, id, hpc⟩ | ⟨x, hpc⟩ | hpc
  · have hs : call.pc.session = some x := by rw [hpc]; rfl
    have hid : id ∈ call.pc.generated := by rw [hpc]; exact List.mem_cons_self ..
    obtain ⟨db', hr', ht⟩ := h.left.claim_collides hc hpc hd.plain (ho.clear c call hc id hid)
      (fun y ty hy hty => (h.left.apart ho.apart hc hs hy hty hid).1) hused env
    rw [hr, Option.some.injEq, Prod.mk.injEq] at hr'
    obtain ⟨rfl, rfl⟩ := hr'
    refine ⟨b, Reach.refl, h.stutters hc' (startPc_session _) hinv hma (by rw [World.leave_tables, ht]) ?_⟩
    let told : Call := { call with pc := .rollback x }
    have hv' : Validated told.intent := hv
    exact .behind hv' (Or.inr ⟨hd.used, hd.plain, Or.inr (Or.inl ⟨x, rfl⟩)⟩)
  · simp only [Call.run, hpc, Option.some.injEq, Prod.mk.injEq] at hr
    obtain ⟨rfl, rfl⟩ := hr
    refine ⟨b, Reach.refl, h.stutters hc' (startPc_session _) hinv hma rfl ?_⟩
    let out : Call := { call with pc := .relookup }
    have hv' : Validated out.intent := hv
    exact .behind hv' (Or.inr ⟨hd.used, hd.plain, Or.inr (Or.inr rfl)⟩)
  · obtain ⟨record, hfind⟩ := Transactions.findByIdempotencyKey_some.mpr hused
    have hr' := hr
    simp only [Call.run, hpc, hfind, afterRelookup, Option.some.injEq, Prod.mk.injEq] at hr'
    obtain ⟨rfl, rfl⟩ := hr'
    exact h.replays ho hc hm hr hinv hv hc' rfl rfl hfind hd.plain hex

end

theorem void_session {c : Nat} {call : Call} (hc : a.calls c = some call) (hv : ¬ Validated call.intent) :
    call.pc.session = none := by
  cases hs : call.pc.session with
  | none => rfl
  | some x => exact absurd (h.left.validated_session hc hs) hv

theorem step_run (ho : a.Orderly (cfg.variant p)) (hk : a.PlainKeys) {c : Nat} {env : Env}
    (hf : a.Fresh (.run c env)) (hex : ∃ id, a.New id) (hst : a.Storable (cfg.variant p) (.run c env)) {a' : World}
    (hs : a.step (cfg.variant p) (.run c env) = some a') :
    ∃ b', Reach (World.step (cfg.variant q)) (World.Alone c) b b' ∧ Twin cfg p q a' b' := by
  obtain ⟨call, db, next, hc, hm, hr, rfl⟩ := World.step_run hs
  have hinv := h.left.step hs
  obtain ⟨other, hc', hp⟩ := h.counterpart hc
  have quiet : call.pc.claimed = false →
      a.log ++ ((World.landing a.db c call).map (·.2)).toList = a.log := by
    intro hcl
    rw [World.landing_none hcl]
    exact List.append_nil _
  cases hp with
  | void hv hkey hi hnone =>
    have hns := h.void_session hc hv
    have htab : db.tables = a.db.tables :=
      (Call.run_effect hr).keeps_tables fun x id sender receiver cid did he => by rw [he] at hns; cases hns
    rw [quiet (Pc.claimed_of_none hns)] at hinv ⊢
    refine ⟨b, Reach.refl, h.stutters hc' hnone hinv (h.left.moved_run hc hr) (by rw [World.leave_tables, htab]) ?_⟩
    have hsame : (call.follow (cfg.variant p) next).key = call.key ∧
        (call.follow (cfg.variant p) next).intent = call.intent := call.follow_same next
    exact .void (by rw [hsame.2]; exact hv) (by rw [hsame.1, hkey]) (by rw [hsame.2, hi]) hnone
  | level hv y => exact h.level_run ho hv hc hc' hm hf hr ⟨_, rfl⟩ hinv
  | behind hv hpc =>
    rcases hpc with hpc | hd
    · rw [quiet (Pc.claimed_of_none (by rw [hpc, startPc_session]))] at hinv ⊢
      exact h.behind_start ho hc hm hr hinv hv hc' hf hk hex (hst c env call rfl hc hv hpc) hpc
    · have hcl : call.pc.claimed = false := by
        rcases hd.pc with ⟨x, id, hpc⟩ | ⟨x, hpc⟩ | hpc <;> rw [hpc] <;> rfl
      rw [quiet hcl] at hinv ⊢
      exact h.behind_doomed ho hc hm hr hinv hv hc' hex hd

theorem gives_up {c : Nat} {call : Call} {l : Label} (quit : Config → Call → Call) (hc : a.calls c = some call)
    (hrun : call.pc.running = true)
    (hstep : ∀ (cfg' : Config) (w : World) (call : Call), w.calls c = some call → call.pc.running = true →
      w.step cfg' l = some (w.moveTo c (quit cfg' call) (World.drop w.db call.pc) w.log))
    (hnone : ∀ cfg' call, (quit cfg' call).pc.session = none)
    (hsame : ∀ cfg' call, (quit cfg' call).key = call.key ∧ (quit cfg' call).intent = call.intent)
    (hp : Validated call.intent → ∀ pc, Paired cfg p q a.log (quit (cfg.variant p) call)
      (quit (cfg.variant q) { call with pc }))
    (hf : b.Fresh l) {a' : World} (hs : a.step (cfg.variant p) l = some a') :
    ∃ b', Reach (World.step (cfg.variant q)) World.Fresh b b' ∧ Twin cfg p q a' b' := by
  have hinv := h.left.step hs
  rw [hstep _ a call hc hrun, Option.some.injEq] at hs
  subst hs
  have hdrop : ∀ (db : Db) (pc : Pc), (World.drop db pc).tables = db.tables :=
    fun db pc => World.leave_tables db pc .panic
  have hothers : ∀ (db : Db) (pc : Pc) (z : Xid), pc.session ≠ some z → (World.drop db pc).txns z = db.txns z :=
    fun db pc z hz => @World.leave_others db pc .panic z hz
  have together : ∀ pc : Pc, pc.running = true → b.calls c = some { call with pc } → Validated call.intent →
      ∃ b', Reach (World.step (cfg.variant q)) World.Fresh b b' ∧
        Twin cfg p q (a.moveTo c (quit (cfg.variant p) call) (World.drop a.db call.pc) a.log) b' := by
    intro pc hpc hc' hv
    exact h.ends hc hc' (hstep _ b _ hc' hpc) hinv ⟨[], (List.append_nil _).symm⟩ (hothers _ _) (hothers _ _)
      (by rw [hdrop, hdrop]; exact h.tables) (hnone _ _) (hp hv pc) hf
  obtain ⟨other, hc', hpair⟩ := h.counterpart hc
  cases hpair with
  | void hv hkey hi hs' =>
    refine ⟨b, Reach.refl, h.stutters hc' hs' hinv (h.left.moved hc fun z hz _ => hothers _ _ z hz) (hdrop _ _) ?_⟩
    obtain ⟨h1, h2⟩ := hsame (cfg.variant p) call
    exact .void (by rw [h2]; exact hv) (by rw [h1, hkey]) (by rw [h2, hi]) hs'
  | level hv y => exact together (call.pc.on y) (by rw [Pc.on_running, hrun]) hc' hv
  | behind hv =>
    refine together _ ?_ hc' hv
    rw [startPc_variant cfg q hv]
    cases q <;> rfl

theorem lands {c : Nat} {call : Call} {l : Label} (quit : Config → Call → Call) (hc : a.calls c = some call)
    {db : Db} {ev : Spec.Event} (hl : World.landing a.db c call = some (db, ev))
    (hstep : ∀ (cfg' : Config) (w : World) (call : Call) (db : Db) (ev : Spec.Event), w.calls c = some call →
      World.landing w.db c call = some (db, ev) →
      w.step cfg' l = some (w.moveTo c (quit cfg' call) db (w.log ++ [ev])))
    (hnone : ∀ cfg' call, (quit cfg' call).pc.session = none)
    (hp : Validated call.intent → ∀ log pc, Paired cfg p q log (quit (cfg.variant p) call)
      (quit (cfg.variant q) { call with pc }))
    (hf : b.Fresh l) {a' : World} (hs : a.step (cfg.variant p) l = some a') :
    ∃ b', Reach (World.step (cfg.variant q)) World.Fresh b b' ∧ Twin cfg p q a' b' := by
  have hinv := h.left.step hs
  rw [hstep _ a call db ev hc hl, Option.some.injEq] at hs
  subst hs
  obtain ⟨x, id, sender, receiver, cid, did, tx, hpc, hx, hcm, rfl⟩ := Inv.landing_commit hl
  have hsx : call.pc.session = some x := by rw [hpc]; rfl
  have hv := h.left.validated_session hc hsx
  obtain ⟨other, hc', hpair⟩ := h.counterpart hc
  cases hpair with
  | void hv' => exact absurd hv hv'
  | behind _ hpc' =>
    rcases hpc' with hpc' | hd
    · rw [hpc', startPc_session] at hsx
      cases hsx
    · rcases hd.pc with ⟨x, id, hpc'⟩ | ⟨x, hpc'⟩ | hpc' <;> rw [hpc] at hpc' <;> cases hpc'
  | level _ y =>
    have hpc' : (call.on y).pc = .commit y id sender receiver cid did := by rw [Call.on, hpc]; rfl
    obtain ⟨ty, hy, -⟩ := h.right.session c (call.on y) y hc' (by rw [hpc']; rfl)
    have hl' : World.landing b.db c (call.on y) = some ({ b.db.close y with tables := ty.work.overlay b.db.tables },
        .transfer ((call.on y).transfer c y id cid did ty.now)) := by
      simp only [World.landing, hpc', hy, Option.bind_some, h.right.commit_accepted hc' hpc' hy]
    rw [h.left.commit_accepted hc hpc hx] at hcm
    cases hcm
    refine h.ends hc hc' (hstep _ b _ _ _ hc' hl') hinv ⟨_, rfl⟩ (fun z hz => ?_) (fun z hz => ?_) ?_ (hnone _ _)
      (hp hv _ (call.pc.on y)) hf
    · have hne : z ≠ x := fun e => hz (by rw [e, hsx])
      exact Function.update_of_ne hne ..
    · have hne : z ≠ y := fun e => hz (by rw [e, hpc']; rfl)
      exact Function.update_of_ne hne ..
    · exact h.shadow.commit_tables hc hc' hpc hx hy (h.same_now hc hc' hsx hx hy)

omit h in
theorem failed_paired {call : Call} (hv : Validated call.intent) (log : List Spec.Event) (err : SqlxError)
    (pc : Pc) : Paired cfg p q log (call.finish (cfg.variant p) (.error (.database err)))
      (Call.finish (cfg.variant q) { call with pc } (.error (.database err))) := by
  have hp := Paired.follow cfg p q log hv 0 (.ret (.error (.database err)))
  rw [Call.on, Call.follow_pc] at hp
  exact hp

omit h in
theorem cancelled_paired {call : Call} (hv : Validated call.intent) (log : List Spec.Event) :
    Paired cfg p q log { call with pc := .cancelled } { call with pc := .cancelled } := by
  let gone : Call := { call with pc := .cancelled }
  have hv' : Validated gone.intent := hv
  exact .level hv' 0

theorem step_fault {c : Nat} {err : SqlxError} {a' : World} (hs : a.step (cfg.variant p) (.fault c err) = some a') :
    ∃ b', Reach (World.step (cfg.variant q)) World.Fresh b b' ∧ Twin cfg p q a' b' := by
  obtain ⟨call, hc, hrun, he, -⟩ := World.step_fault hs
  refine h.gives_up (fun cfg' call => call.finish cfg' (.error (.database err))) hc hrun ?_
    (fun _ _ => Call.finish_session ..) (fun _ call => call.finish_same _) (fun hv pc => failed_paired hv _ err pc)
    (fun _ _ _ he => by cases he) hs
  intro cfg' w call hc hrun
  simp only [World.step, hc, Option.bind_some, World.fault, hrun, he, and_self, if_true, Inv.onError_spontaneous he]
  rfl

theorem step_lostAck {c : Nat} {err : SqlxError} {a' : World}
    (hs : a.step (cfg.variant p) (.lostAck c err) = some a') :
    ∃ b', Reach (World.step (cfg.variant q)) World.Fresh b b' ∧ Twin cfg p q a' b' := by
  obtain ⟨call, db, ev, hc, he, hl, -⟩ := World.step_lostAck hs
  refine h.lands (fun cfg' call => call.finish cfg' (.error (.database err))) hc hl ?_
    (fun _ _ => Call.finish_session ..) (fun hv log pc => failed_paired hv log err pc)
      (fun _ _ _ he => by cases he) hs
  intro cfg' w call db ev hc hl
  simp only [World.step, hc, Option.bind_some, World.lostAck, he, if_true, hl, Option.map_some,
    Inv.onError_spontaneous he]
  rfl

theorem step_cancel {c : Nat} {took : Bool} {a' : World} (hs : a.step (cfg.variant p) (.cancel c took) = some a') :
    ∃ b', Reach (World.step (cfg.variant q)) World.Fresh b b' ∧ Twin cfg p q a' b' := by
  obtain ⟨call, hc, ⟨rfl, db, ev, hl, -⟩ | ⟨rfl, hrun, -⟩⟩ := World.step_cancel hs
  · refine h.lands (fun _ call => { call with pc := .cancelled }) hc hl ?_ (fun _ _ => rfl)
      (fun hv log _ => cancelled_paired hv log) (fun _ _ _ he => by cases he) hs
    intro cfg' w call db ev hc hl
    simp only [World.step, hc, Option.bind_some, World.cancel, if_true, hl, Option.map_some]
  · refine h.gives_up (fun _ call => { call with pc := .cancelled }) hc hrun ?_ (fun _ _ => rfl)
      (fun _ _ => ⟨rfl, rfl⟩) (fun hv _ => cancelled_paired hv _) (fun _ _ _ he => by cases he) hs
    intro cfg' w call hc hrun
    simp only [World.step, hc, Option.bind_some, World.cancel, hrun, Bool.false_eq_true, if_false, if_true]

theorem step_acquire {c : Nat} {a' : World} (hs : a.step (cfg.variant p) (.acquire c) = some a') :
    Twin cfg p q a' b := by
  have hinv := h.left.step hs
  obtain ⟨call, -, -, -, -, -, rfl⟩ := World.step_acquire hs
  exact ⟨hinv, h.right, h.tables, h.calls, h.clock, h.lazy⟩

theorem step_invoke {c : Nat} {key : String} {intent : TransferIntent} {a' : World}
    (hs : a.step (cfg.variant p) (.invoke c key intent) = some a') :
    ∃ b', Reach (World.step (cfg.variant q)) World.Fresh b b' ∧ Twin cfg p q a' b' := by
  have hinv := h.left.step hs
  obtain ⟨hnone, rfl⟩ := World.step_invoke hs
  have hnone' : b.calls c = none := by
    cases hc' : b.calls c with
    | none => rfl
    | some other =>
      obtain ⟨call, hc, -⟩ := h.paired hc'
      rw [hnone] at hc
      cases hc
  let call : Call := { key, intent, attempt := 0, pc := startPc (cfg.variant p) intent }
  let other : Call := { key, intent, attempt := 0, pc := startPc (cfg.variant q) intent }
  have hs' : b.step (cfg.variant q) (.invoke c key intent) =
      some { b with calls := Function.update b.calls c (some other) } := by
    simp only [World.step, World.invoke, hnone', other]
  refine ⟨_, Reach.one _ (fun _ _ _ he => by cases he) hs', h.moved (c := c) hinv (h.right.step hs')
    (World.Moved.of_calls rfl fun d hd => Function.update_of_ne hd ..)
    (World.Moved.of_calls rfl fun d hd => Function.update_of_ne hd ..) h.tables ⟨[], (List.append_nil _).symm⟩
    ?_ ?_ ?_⟩
  · show Option.Rel _ (Function.update a.calls c (some call) c) (Function.update b.calls c (some other) c)
    rw [Function.update_self, Function.update_self]
    by_cases hv : Validated intent
    · have hv' : Validated call.intent := hv
      exact .some (.behind hv' (Or.inl rfl))
    · exact .some (.void hv rfl rfl (startPc_session _))
  · intro now hn
    obtain ⟨call', x, txn, hc₁, hs₁, -⟩ := World.clock_some.mp hn
    have hc₁ : Function.update b.calls c (some other) c = some call' := hc₁
    rw [Function.update_self, Option.some.injEq] at hc₁
    rw [← hc₁, show other.pc.session = none from startPc_session _] at hs₁
    cases hs₁
  · refine ⟨h.lazy.nodup, fun d hd => ?_⟩
    obtain ⟨call', hd', hs₁⟩ := h.lazy.session d hd
    have hne : d ≠ c := fun e => by rw [e, hnone'] at hd'; cases hd'
    exact ⟨call', (Function.update_of_ne hne ..).trans hd', hs₁⟩

theorem step_create {process : Nat} {env : Env} {name : String} {currency : Currency} {flag : Bool} {a' : World}
    (hs : a.step (cfg.variant p) (.create process env name currency flag) = some a') :
    ∃ b', Reach (World.step (cfg.variant q)) World.Fresh b b' ∧ Twin cfg p q a' b' := by
  have hinv := h.left.step hs
  obtain ⟨hfree, db, rows, answer, hcr, rfl⟩ := World.step_create hs
  obtain ⟨db₁, rows₁, hrows₁, hcr₁, ht₁, hx₁⟩ := h.left.create_opens env.id env.now name currency flag
  simp only [hcr, Option.map_some, Option.some.injEq, Prod.mk.injEq] at hcr₁
  obtain ⟨rfl, rfl⟩ := hcr₁
  obtain ⟨_, _, hrows₂, hmap, ht₂, hx₂⟩ := h.right.create_opens env.id env.now name currency flag
  obtain ⟨⟨db₂, rows₂, answer₂⟩, hcr₂, he⟩ := Option.map_eq_some_iff.mp hmap
  simp only [Prod.mk.injEq] at he
  obtain ⟨rfl, rfl⟩ := he
  have hrows : rows = rows₂ := by
    rw [hrows₁, hrows₂, Tables.erase_accounts h.tables]
    rfl
  subst hrows
  have hs' : b.step (cfg.variant q) (.create process env name currency flag) =
      some { b with db := db₂, log := b.log ++ rows.map .account } := by
    simp only [World.step, World.create, h.free hfree, if_true, hcr₂, Option.map_some]
  have clocks : ∀ (w : World) (db : Db) (log : List Spec.Event), (∀ y, db.txns y = w.db.txns y) → ∀ c,
      World.clock { w with db, log } c = w.clock c := by
    intro w db log hx c
    simp only [World.clock, hx]
  refine ⟨_, Reach.one _ (fun _ _ _ he => by cases he) hs', hinv, h.right.step hs', ?_, fun c => ?_,
    fun c now hn => ?_, ⟨h.lazy.nodup, h.lazy.session⟩⟩
  · have ht := h.tables
    show db.tables.erase = db₂.tables.erase
    rw [ht₁, ht₂]
    simp only [Tables.erase, Tables.mk.injEq] at ht ⊢
    exact ⟨by rw [ht.1], ht.2⟩
  · have hr := h.calls c
    show Option.Rel (Paired cfg p q (a.log ++ rows.map .account)) (a.calls c) (b.calls c)
    generalize a.calls c = call at hr ⊢
    generalize b.calls c = call' at hr ⊢
    cases hr with
    | some hp => exact .some hp.mono
    | none => exact .none
  · rw [clocks a db _ hx₁ c]
    rw [clocks b db₂ _ hx₂ c] at hn
    exact h.clock c now hn

/-- **One step.** Whatever the first world does, the second follows. -/
theorem step (ho : a.Orderly (cfg.variant p)) (hk : a.PlainKeys) {l : Label} (hf : a.Fresh l) (hex : ∃ id, a.New id)
    (hst : a.Storable (cfg.variant p) l) {a' : World} (hs : a.step (cfg.variant p) l = some a') :
    ∃ b', Reach (World.step (cfg.variant q)) World.Fresh b b' ∧ Twin cfg p q a' b' := by
  cases l with
  | invoke => exact h.step_invoke hs
  | acquire => exact ⟨b, Reach.refl, h.step_acquire hs⟩
  | run c env =>
    obtain ⟨b', hreach, ht⟩ := h.step_run ho hk hf hex hst hs
    exact ⟨b', hreach.mono (P := fun _ => True) (fun _ _ _ _ _ _ => trivial) (fun _ _ _ ha => ha.2) trivial, ht⟩
  | fault => exact h.step_fault hs
  | lostAck => exact h.step_lostAck hs
  | cancel => exact h.step_cancel hs
  | create => exact h.step_create hs

omit h in
theorem init (cfg : Config) (p q : Bool) : Twin cfg p q World.init World.init where
  left := Inv.init
  right := Inv.init
  tables := rfl
  calls _ := .none
  clock _ _ hn := by cases hn
  lazy := ⟨List.nodup_nil, fun _ hc => by cases hc⟩

end Twin

/-- The steps of a run in which ids are fresh and do not run out, and attempts start only
where the condition holds. -/
def World.Draws (cfg : Config) (w : World) (l : Label) : Prop :=
  w.Fresh l ∧ (∃ id, w.New id) ∧ w.Storable cfg l

theorem follows (cfg : Config) (p q : Bool) {a : World}
    (hr : Reach (World.step (cfg.variant p)) (World.Draws (cfg.variant p)) World.init a) :
    ∃ b, Reach (World.step (cfg.variant q)) World.Fresh World.init b ∧ Twin cfg p q a b := by
  obtain ⟨b, hb, -, -, ht⟩ := hr.simulates
    (R := fun a b => a.Orderly (cfg.variant p) ∧ a.PlainKeys ∧ Twin cfg p q a b)
    (fun a l a' b ⟨ho, hk, ht⟩ hl hs => by
      obtain ⟨b', hb, ht'⟩ := ht.step ho hk hl.1 hl.2.1 hl.2.2 hs
      exact ⟨b', hb, ho.step ht.left hl.1 hs, hk.step ht.left hs, ht'⟩)
    ⟨World.Orderly.init _, World.PlainKeys.init, Twin.init cfg p q⟩
  exact ⟨b, hb, ht⟩

end Ledger
