import Ledger.TransfersInv

/-!
# What a step of the transfer path does

`ran` takes one step of `execute_once` apart under the invariant: it moves inside or
outside its transaction, commits a transfer, gives up with an opaque database error,
or answers, and then the answer is the sequential ledger's on the tables of that
moment. That the invariant is kept follows from it.
-/

namespace Ledger

open Keyed Runs Transfers

namespace Transfers

/-- The outcomes of `Call.run`. -/
inductive Ran (cfg : Config) (w : World) (c : Nat) (call : Call) : Db → Next → List Spec.Event → Prop
  | stays {pc : Pc} (hs : call.pc.session = none) (hs' : pc.session = none) (hrun : pc.running = true)
      (hcall : CallOk cfg w.log c { call with pc }) : Ran cfg w c call w.db (.goto pc) []
  | opens {now : Timestamp} {id : Uuid} (hpc : call.pc = .begin) (hv : Validated call.intent) :
      Ran cfg w c call (w.db.begin now) (.goto (.claim w.db.nextXid id)) []
  | writes {x : Xid} {txn : Txn} {pc : Pc} (hs : call.pc.session = some x) (hs' : pc.session = some x)
      (hdb : DbInv (w.db.put x txn)) (hsp : txn.savepoints = [])
      (hok : SessionOk cfg w.db.tables { call with pc } x txn) (hcall : CallOk cfg w.log c { call with pc }) :
      Ran cfg w c call (w.db.put x txn) (.goto pc) []
  | leaves {x : Xid} {pc : Pc} (hs : call.pc.session = some x) (hs' : pc.session = none) (hrun : pc.running = true)
      (hcall : CallOk cfg w.log c { call with pc }) : Ran cfg w c call (w.db.close x) (.goto pc) []
  | commits {db : Db} {ev : Spec.Event} {id : Uuid} (hl : World.landing w.db c call = some (db, ev))
      (hcall : CallOk cfg (w.log ++ [ev]) c { call with pc := .getTransaction .created id }) :
      Ran cfg w c call db (.goto (.getTransaction .created id)) [ev]
  | breaks {db : Db} {err : SqlxError} (hdb : World.drop db call.pc = World.drop w.db call.pc) :
      Ran cfg w c call db (.ret (.error (.database err))) []
  | refuses {db : Db} {err : LedgerError} (hdb : World.drop db call.pc = World.drop w.db call.pc)
      (hnone : ∀ tr ∈ Spec.transfers w.log, tr.call ≠ c)
      (hkind : err.refusal = true)
      (hv : Spec.verdict cfg.sha256 cfg.decode w.db.tables call.key call.intent = .rejected err) :
      Ran cfg w c call db (.ret (.error err)) []
  | answers {res : TransferResult} (hs : call.pc.session = none) (hok : AnswerOk cfg w.log c call (.ok res))
      (hv : Spec.verdict cfg.sha256 cfg.decode w.db.tables call.key call.intent = .replayed (.ok res.detail)) :
      Ran cfg w c call w.db (.ret (.ok res)) []

end Transfers

theorem Db.put_close (db : Db) (x : Xid) (txn : Txn) : (db.put x txn).close x = db.close x := by
  simp [Db.put, Db.close]

theorem World.drop_put {db : Db} {pc : Pc} {x : Xid} (hs : pc.session = some x) (txn : Txn) :
    World.drop (db.put x txn) pc = World.drop db pc := by
  simp only [World.drop, hs, Db.put_close]

theorem World.drop_close {db : Db} {pc : Pc} {x : Xid} (hs : pc.session = some x) :
    World.drop (db.close x) pc = World.drop db pc := by
  simp [World.drop, hs, Db.close]

theorem statement_some {cfg : Config} {db db' : Db} {pc : Pc} {x : Xid} {txn : Txn} {s : Stmt}
    {k : Option Row.Account → Next} {next : Next} (hx : db.txns x = some txn)
    (h : statement cfg db pc x s k = some (db', next)) :
    (∃ work row, db.exec cfg.schema x txn s = .ok (work, row) ∧ db' = db.install x txn work ∧ next = k row) ∨
      ∃ err, db.exec cfg.schema x txn s = .error err ∧ db' = db.fail x txn ∧ next = pc.onError err := by
  simp only [statement, hx, Option.bind_some] at h
  split at h
  · rename_i work row hex
    cases h; exact Or.inl ⟨work, row, hex, rfl, rfl⟩
  · rename_i err hex
    cases h; exact Or.inr ⟨err, hex, rfl, rfl⟩
  · cases h

/-! ## Rows as the program sees them -/

theorem decode_ok {dec : Decode} {row : Row.Account} {a : AccountRow} (h : AccountRow.decode dec row = .ok a) :
    a.id = row.id ∧ a.currency = ⟨row.currency⟩ ∧ a.allowsNegativeBalance = row.allowsNegativeBalance ∧
      ∀ i : TransferIntent, a.balance.lt i.amount.amount = row.balance.val.lt (.num i.units) := by
  unfold AccountRow.decode Decode.num20 at h
  have hrange := row.balance.range
  cases hb : row.balance.val with
  | nan => rw [hb] at h; cases h
  | num u =>
    rw [hb] at h hrange
    cases h
    refine ⟨rfl, rfl, rfl, fun i => ?_⟩
    have hu := dec.exact u (of_decide_eq_true hrange)
    simp only [Decimal.lt, Numeric.lt, hu, i.valid.val_eq, decide_eq_decide]
    show u * 10 ^ 20 < i.units * 10 ^ 20 ↔ u < i.units
    omega

theorem decode_currency {a : AccountRow} {row : Row.Account} {i : TransferIntent}
    (h : a.currency = ⟨row.currency⟩) :
    a.currency = i.amount.currency ↔ row.currency = i.amount.currency.code := by
  rw [h]
  constructor
  · intro he; rw [← he]
  · intro he; rw [he]

section
variable {cfg : Config} {t : Tables} {call : Call}

/-- Under both locks the program decides as the sequential ledger does. -/
theorem afterLocks_spec (hv : Validated call.intent) {locked : List AccountRow}
    (hrows : ∀ a ∈ locked, ∃ row, Spec.findAccount t a.id = some row ∧ AccountRow.decode cfg.decode row = .ok a)
    (hids : ∀ id ∈ ids call.intent, ∃ a ∈ locked, a.id = id) (x : Xid) (id : Uuid) :
    (∃ sender receiver s r, Under cfg t call.intent sender receiver s r ∧
      afterLocks call.intent x id locked = .goto (.adjustFrom x id sender receiver)) ∨
    ∃ err, afterLocks call.intent x id locked = .ret (.error err) ∧ Spec.refusal t call.intent = some err ∧
      err.refusal = true := by
  have get : ∀ i ∈ ids call.intent, ∃ a row, locked.find? (·.id = i) = some a ∧ Spec.findAccount t i = some row ∧
      AccountRow.decode cfg.decode row = .ok a := by
    intro i hi
    obtain ⟨b, hb, hbi⟩ := hids i hi
    cases hf : locked.find? (·.id = i) with
    | none => exact absurd (decide_eq_true hbi) (List.find?_eq_none.mp hf b hb)
    | some a =>
      obtain ⟨row, h1, h2⟩ := hrows a (List.mem_of_find?_eq_some hf)
      have hai : a.id = i := by simpa using List.find?_some hf
      exact ⟨a, row, rfl, hai ▸ h1, h2⟩
  obtain ⟨sender, s, hfs, hs, hds⟩ := get call.intent.fromAccountId (by simp [ids])
  obtain ⟨receiver, r, hfr, hr, hdr⟩ := get call.intent.toAccountId (by simp [ids])
  obtain ⟨hsid, hsc, hsa, hsb⟩ := decode_ok hds
  obtain ⟨hrid, hrc, -, -⟩ := decode_ok hdr
  have hself := hv.1
  have hpos : (!call.intent.amount.isPositive) = false := by rw [hv.2]; rfl
  have href : Spec.refusal t call.intent = Spec.refuses call.intent s r := by
    simp only [Spec.refusal, hself, hpos, hs, hr, if_false, Bool.false_eq_true]
  simp only [afterLocks, hfs, hfr, href]
  by_cases h1 : s.currency = call.intent.amount.currency.code
  · by_cases h2 : r.currency = call.intent.amount.currency.code
    · have hnone :
          [sender, receiver].find? (fun a => decide (a.currency ≠ call.intent.amount.currency)) = none := by
        simp [(decode_currency hsc).mpr h1, (decode_currency hrc).mpr h2]
      simp only [hnone, hsa, hsb]
      by_cases hf : s.allowsNegativeBalance = true ∨ s.balance.val.lt (.num call.intent.units) = false
      · refine Or.inl ⟨sender, receiver, s, r, ⟨⟨hself, hv.2, hs, hr, h1, h2, hf⟩, hds, hdr⟩, if_neg ?_⟩
        rcases hf with hf | hf <;> simp [hf]
      · have hc : (!s.allowsNegativeBalance && s.balance.val.lt (.num call.intent.units)) = true := by
          simpa [not_or] using hf
        refine Or.inr ⟨_, if_pos hc, ?_, rfl⟩
        simp [Spec.refuses, h1, h2, hc, hsid]
    · have hsome : [sender, receiver].find? (fun a => decide (a.currency ≠ call.intent.amount.currency)) =
          some receiver := by
        simp [(decode_currency hsc).mpr h1, mt (decode_currency hrc).mp h2]
      simp only [hsome]
      exact Or.inr ⟨_, rfl, by simp [Spec.refuses, h1, h2, hrid, hrc], rfl⟩
  · have hsome : [sender, receiver].find? (fun a => decide (a.currency ≠ call.intent.amount.currency)) =
        some sender := by
      simp [mt (decode_currency hsc).mp h1]
    simp only [hsome]
    exact Or.inr ⟨_, rfl, by simp [Spec.refuses, h1, hsid, hsc], rfl⟩

theorem refusal_missing (hv : Validated call.intent) {done todo : List Uuid} {id : Uuid}
    (ho : done ++ id :: todo = lockOrder call.intent) (hdone : ∀ i ∈ done, ∃ row, Spec.findAccount t i = some row)
    (hid : Spec.findAccount t id = none) : Spec.refusal t call.intent = some (.accountNotFound id) := by
  have hself := hv.1
  have hpos : (!call.intent.amount.isPositive) = false := by rw [hv.2]; rfl
  simp only [Spec.refusal, hself, hpos, if_false, Bool.false_eq_true]
  have split : ∀ {lo hi : Uuid}, done ++ id :: todo = [lo, hi] →
      id = lo ∨ (id = hi ∧ ∃ row, Spec.findAccount t lo = some row) := by
    intro lo hi he
    rcases done with _ | ⟨d, done⟩
    · simp only [List.nil_append, List.cons.injEq] at he
      exact Or.inl he.1
    · rcases done with _ | ⟨d', done⟩
      · simp only [List.cons_append, List.nil_append, List.cons.injEq] at he
        exact Or.inr ⟨he.2.1, he.1 ▸ hdone d (List.mem_cons_self ..)⟩
      · simp at he
  unfold lockOrder at ho
  split at ho
  · rename_i hlt
    rcases split ho with rfl | ⟨rfl, row, hrow⟩
    · rw [hid]
      cases Spec.findAccount t call.intent.fromAccountId with
      | none => simp [min_eq_right hlt.le]
      | some a => rfl
    · rw [hid, hrow]
  · rename_i hlt
    rcases split ho with rfl | ⟨rfl, row, hrow⟩
    · rw [hid]
      cases Spec.findAccount t call.intent.toAccountId with
      | none => simp [min_eq_left (not_lt.mp hlt)]
      | some a => rfl
    · rw [hid, hrow]

end

namespace Inv

variable {cfg : Config} {w : World} (h : Inv cfg w) {c : Nat} {call : Call} (hc : w.calls c = some call)

/-! ## The idempotency lookups -/

include h in
theorem find_transfer {r : Row.Transaction} (hr : r ∈ w.db.tables.transactions) :
    ∃ tr ∈ Spec.transfers w.log, r = tr.row cfg.sha256 :=
  Spec.row_transfer h.spec hr

include h in
theorem row_mem {tr : Spec.Transfer} (htr : tr ∈ Spec.transfers w.log) :
    tr.row cfg.sha256 ∈ w.db.tables.transactions := by
  rw [h.transactions]; exact List.mem_map_of_mem htr

include h hc in
theorem own {tr : Spec.Transfer} (htr : tr ∈ Spec.transfers w.log) (he : tr.call = c) :
    tr.key = call.key ∧ tr.intent = call.intent := by
  obtain ⟨call', h1, h2, h3⟩ := h.author tr htr
  rw [he, hc, Option.some.injEq] at h1
  subst h1
  exact ⟨h2.symm, h3.symm⟩

include h hc in
theorem none_of_key (hk : ∀ r ∈ w.db.tables.transactions, r.idempotencyKey ≠ call.key) :
    ∀ tr ∈ Spec.transfers w.log, tr.call ≠ c :=
  fun _ htr he => hk _ (h.row_mem htr) (h.own hc htr he).1

include h hc in
theorem ran_replay {record : IdempotencyRecord} (hs : call.pc.session = none)
    (hv : cfg.fastPath = false → Validated call.intent)
    (hf : Transactions.findByIdempotencyKey w.db.tables call.key = some record) :
    Ran cfg w c call w.db (replay cfg call.key call.intent record) [] := by
  obtain ⟨r, hr, rfl⟩ := Option.map_eq_some_iff.mp hf
  have hm := List.mem_of_find?_eq_some hr
  have hk : r.idempotencyKey = call.key := by simpa using List.find?_some hr
  obtain ⟨tr, htr, rfl⟩ := h.find_transfer hm
  unfold Transfers.replay
  split
  · rename_i hne
    refine .refuses rfl ?_ rfl ?_
    · intro tr' htr' he
      obtain ⟨hk', hi'⟩ := h.own hc htr' he
      have := h.keys.keys.eq (h.row_mem htr') hm (hk'.trans hk.symm)
      apply hne
      rw [← hi']
      exact congrArg Row.Transaction.requestHash this.symm
    · simp only [Spec.verdict, hr]
      rw [if_pos hne]
  · rename_i heq
    refine .stays hs rfl rfl ⟨hv, tr, ⟨htr, hk, ?_, by simp⟩, rfl⟩
    exact Vector.toList_inj.mp (not_not.mp heq)

include h hc in
theorem ran_lookup (hpc : call.pc = .lookup) : Ran cfg w c call w.db
    (afterLookup cfg call.key call.intent (Transactions.findByIdempotencyKey w.db.tables call.key)) [] := by
  have hs : call.pc.session = none := by rw [hpc]; rfl
  have hfast : cfg.fastPath = true := by
    have := h.call c call hc
    simpa only [CallOk, hpc] using this
  cases hf : Transactions.findByIdempotencyKey w.db.tables call.key with
  | some record => exact h.ran_replay hc hs (by rw [hfast]; intro h; cases h) hf
  | none =>
    have hfind : w.db.tables.transactions.find? (·.idempotencyKey = call.key) = none :=
      Option.map_eq_none_iff.mp hf
    have hnone := h.none_of_key hc (Transactions.findByIdempotencyKey_none.mp hf)
    unfold afterLookup validate
    by_cases hself : call.intent.fromAccountId = call.intent.toAccountId
    · rw [if_pos hself]
      refine .refuses rfl hnone rfl ?_
      simp [Spec.verdict, hfind, Spec.refusal, hself]
    · rw [if_neg hself]
      by_cases hpos : call.intent.amount.isPositive = true
      · rw [if_neg (by simp [hpos])]
        exact .stays hs rfl rfl ⟨hself, hpos⟩
      · rw [if_pos (by simp [hpos])]
        refine .refuses rfl hnone rfl ?_
        simp [Spec.verdict, hfind, Spec.refusal, hself, hpos]

include h hc in
theorem ran_relookup (hpc : call.pc = .relookup) : Ran cfg w c call w.db
    (afterRelookup cfg call.key call.intent (Transactions.findByIdempotencyKey w.db.tables call.key)) [] := by
  have hs : call.pc.session = none := by rw [hpc]; rfl
  have hok := h.call c call hc
  simp only [CallOk, hpc] at hok
  obtain ⟨hv, tr, htr, hk⟩ := hok
  cases hf : Transactions.findByIdempotencyKey w.db.tables call.key with
  | some record => exact h.ran_replay hc hs (fun _ => hv) hf
  | none =>
    -- the row that the claim collided with is never removed
    exact absurd hk (Transactions.findByIdempotencyKey_none.mp hf _ (h.row_mem htr))

/-! ## Statements inside the transaction -/

include h in
theorem failed {x : Xid} {txn : Txn} (hx : w.db.txns x = some txn) (hsp : txn.savepoints = []) :
    w.db.fail x txn = w.db.put x { txn with work := {}, aborted := true } ∧
      DbInv (w.db.put x { txn with work := {}, aborted := true }) := by
  have he : w.db.fail x txn = w.db.put x { txn with work := {}, aborted := true } := by
    simp only [Db.fail, hsp]
    rfl
  exact ⟨he, he ▸ h.db.fail hx⟩

include h hc in
theorem claimed {x : Xid} {txn : Txn} (hx : w.db.txns x = some txn) {r : Row.Transaction}
    (hr : r ∈ txn.work.transactions) (hk : r.idempotencyKey = call.key) :
    (∀ q ∈ w.db.tables.transactions, q.idempotencyKey ≠ call.key) ∧ ∀ tr ∈ Spec.transfers w.log, tr.call ≠ c := by
  have hkeys : ∀ q ∈ w.db.tables.transactions, q.idempotencyKey ≠ call.key := by
    intro q hq
    rw [← hk]
    exact (distinct_append.mp (h.db.work hx).keys).2.2 q hq r hr
  exact ⟨hkeys, h.none_of_key hc hkeys⟩

include h hc in
/-- The claim fails for a character the database cannot store, for a duplicate id or for
a duplicate key; it may have to wait for the id or the key. -/
theorem claim_outcome {x : Xid} {id : Uuid} (hpc : call.pc = .claim x id) : Validated call.intent ∧
    ∃ txn work, w.db.txns x = some txn ∧ txn.savepoints = [] ∧ txn.aborted = false ∧
      work.Shape [claimRow cfg call x id txn.now] [] [] [] ∧
      w.db.exec cfg.schema x txn (claimStmt cfg.sha256 id call.key call.intent) =
        if hasNul call.key || hasNul call.intent.description then .error (.database .characterNotInRepertoire none)
        else do
          w.db.unique x .transactions_pkey (w.db.tables.transactions.any (·.id = id))
            fun work => work.transactions.any (·.id = id)
          w.db.unique x .transactions_idempotency_key_key
            (w.db.tables.transactions.any (·.idempotencyKey = call.key))
            fun work => work.transactions.any (·.idempotencyKey = call.key)
          return (work, none) := by
  have hv := h.call c call hc
  simp only [CallOk, hpc] at hv
  obtain ⟨txn, hx, hsp, hok⟩ := h.session c call x hc (by rw [hpc]; rfl)
  simp only [SessionOk, hpc] at hok
  obtain ⟨hab, hsh⟩ := hok
  have hover : (txn.work.overlay w.db.tables).transactions = w.db.tables.transactions := by
    rw [Work.overlay_transactions (h.db.work hx).untruncated, hsh.transactions, List.append_nil]
  have hsh' : ({ txn.work with
      transactions := txn.work.transactions ++ [claimRow cfg call x id txn.now] } : Work).Shape
      [claimRow cfg call x id txn.now] [] [] [] := { hsh with transactions := by rw [hsh.transactions]; rfl }
  refine ⟨hv, txn, _, hx, hsp, hab, hsh', ?_⟩
  cases hnul : hasNul call.key || hasNul call.intent.description with
  | true => exact claim_exec_nul h.db _ _ _ hnul
  | false => rw [claim_exec h.db cfg.sha256 call 0 id id id hnul, hover]; rfl

include h hc in
theorem ran_claim {x : Xid} {id : Uuid} (hpc : call.pc = .claim x id) {db : Db} {next : Next}
    (hr : statement cfg w.db call.pc x (claimStmt cfg.sha256 id call.key call.intent)
      (fun _ => .goto (.lock x id (lockOrder call.intent) [])) = some (db, next)) :
    Ran cfg w c call db next [] := by
  have hs : call.pc.session = some x := by rw [hpc]; rfl
  obtain ⟨hv, txn, work', hx, hsp, hab, hsh, hout⟩ := h.claim_outcome hc hpc
  obtain ⟨hfail, hfdb⟩ := h.failed hx hsp
  rcases statement_some hx hr with ⟨work, row, hex, rfl, rfl⟩ | ⟨err, hex, rfl, rfl⟩
  · -- the claim is ours
    have hdb := h.db.install hx (exec_ok h.db.bounded rfl hex)
    rw [hout] at hex
    split at hex
    · cases hex
    obtain ⟨_, -, hex⟩ := Res.bind_ok.mp hex
    obtain ⟨_, -, hex⟩ := Res.bind_ok.mp hex
    cases hex
    refine .writes hs rfl hdb hsp ⟨hab, hsh, rfl, ?_, ?_⟩ hv
    · unfold lockOrder; split <;> simp
    · intro a ha; cases ha
  · rw [hfail, hpc]
    simp only [Pc.onError]
    by_cases hcol : isIdempotencyKeyCollision err = true
    · rw [if_pos hcol]
      -- only the key's index reports this, and only for a committed row
      have hfound : ∃ tr ∈ Spec.transfers w.log, tr.key = call.key := by
        rw [hout] at hex
        split at hex
        · cases hex; cases hcol
        rcases Res.bind_error.mp hex with he | ⟨_, -, hex⟩
        · rw [(Db.unique_error he).2] at hcol; cases hcol
        rcases Res.bind_error.mp hex with he | ⟨_, -, hex⟩
        · obtain ⟨q, hq, hqk⟩ := List.any_eq_true.mp (Db.unique_error he).1
          obtain ⟨tr, htr, rfl⟩ := h.find_transfer hq
          exact ⟨tr, htr, of_decide_eq_true hqk⟩
        · cases hex
      exact .writes hs rfl hfdb hsp Work.Shape.empty ⟨hv, hfound⟩
    · rw [if_neg hcol]
      exact .breaks (World.drop_put hs _)

include h in
theorem view_unchanged {x : Xid} {txn : Txn} (hx : w.db.txns x = some txn) (hacc : txn.work.accounts = [])
    (hup : txn.work.updates = []) (id : Uuid) :
    (txn.work.overlay w.db.tables).accounts.find? (fun a => decide (a.id = id)) =
      Spec.findAccount w.db.tables id := by
  have hcur : ∀ a ∈ w.db.tables.accounts, txn.work.current a = a := by
    intro a _
    refine Work.current_eq fun u hu => ?_
    rw [hup] at hu; cases hu
  rw [Work.overlay_accounts (h.db.work hx).untruncated, hacc, List.append_nil, List.map_congr_left hcur,
    List.map_id']
  rfl

theorem verdict_of_refusal {sha256 : List UInt8 → Vector UInt8 32} {dec : Decode} {t : Tables} {key : String}
    {i : TransferIntent} {err : LedgerError} (hk : ∀ q ∈ t.transactions, q.idempotencyKey ≠ key)
    (hr : Spec.refusal t i = some err) : Spec.verdict sha256 dec t key i = .rejected err := by
  have hfind : t.transactions.find? (·.idempotencyKey = key) = none :=
    List.find?_eq_none.mpr fun q hq => by simpa using hk q hq
  simp only [Spec.verdict, hfind, hr]

include h hc in
theorem lock_outcome {x : Xid} {id accountId : Uuid} {todo : List Uuid} {locked : List AccountRow}
    (hpc : call.pc = .lock x id (accountId :: todo) locked) : Validated call.intent ∧
    ∃ txn, w.db.txns x = some txn ∧ txn.savepoints = [] ∧ txn.aborted = false ∧
      txn.work.Shape [claimRow cfg call x id txn.now] [] [] (locked.map (·.id)) ∧
      (locked.map (·.id)).reverse ++ accountId :: todo = lockOrder call.intent ∧
      (∀ a ∈ locked, ∃ row, Spec.findAccount w.db.tables a.id = some row ∧
        AccountRow.decode cfg.decode row = .ok a) ∧
      w.db.exec cfg.schema x txn (Accounts.fetchForUpdate accountId) =
        match Spec.findAccount w.db.tables accountId with
        | none => .ok (txn.work, none)
        | some row => do
          w.db.await x fun work => work.locked accountId .update
          return ({ txn.work with locks := (accountId, .update) :: txn.work.locks }, some row) := by
  have hv := h.call c call hc
  simp only [CallOk, hpc] at hv
  obtain ⟨txn, hx, hsp, hok⟩ := h.session c call x hc (by rw [hpc]; rfl)
  simp only [SessionOk, hpc] at hok
  obtain ⟨hab, hsh, ho, -, hrows⟩ := hok
  refine ⟨hv, txn, hx, hsp, hab, hsh, ho, hrows, ?_⟩
  have ht := h.db.await_truncation x (p := fun w => w.truncated.contains .accounts) fun w hw => by simp [hw]
  simp only [Accounts.fetchForUpdate, Db.exec, Db.selectForUpdate, ht, Res.ok_bind,
    h.view_unchanged hx hsh.accounts hsh.updates accountId]
  rfl

omit h in
theorem locked_rows {tables : Tables} {accountId : Uuid} {a : Row.Account} {b : AccountRow}
    {locked : List AccountRow}
    (ha : Spec.findAccount tables accountId = some a) (hd : AccountRow.decode cfg.decode a = .ok b)
    (hrows : ∀ b' ∈ locked, ∃ row, Spec.findAccount tables b'.id = some row ∧
      AccountRow.decode cfg.decode row = .ok b') :
    b.id = accountId ∧ ∀ b' ∈ b :: locked, ∃ row, Spec.findAccount tables b'.id = some row ∧
      AccountRow.decode cfg.decode row = .ok b' := by
  have hbid : b.id = accountId := (decode_ok hd).1.trans (Spec.findAccount_some ha).2
  refine ⟨hbid, ?_⟩
  intro b' hb'
  rcases List.mem_cons.mp hb' with rfl | hb'
  · exact ⟨a, hbid ▸ ha, hd⟩
  · exact hrows b' hb'

include h hc in
theorem locked_both {x : Xid} {id accountId : Uuid} {locked : List AccountRow}
    (hpc : call.pc = .lock x id [accountId] locked) {a : Row.Account} {b : AccountRow}
    (ha : Spec.findAccount w.db.tables accountId = some a) (hd : AccountRow.decode cfg.decode a = .ok b) :
    (∀ i, i ∈ (b :: locked).map (·.id) ↔ i ∈ ids call.intent) ∧
    ((∃ sender receiver s r, Under cfg w.db.tables call.intent sender receiver s r ∧
      afterLocks call.intent x id (b :: locked) = .goto (.adjustFrom x id sender receiver)) ∨
    ∃ err, afterLocks call.intent x id (b :: locked) = .ret (.error err) ∧
      Spec.refusal w.db.tables call.intent = some err ∧ err.refusal = true) := by
  obtain ⟨hv, txn, hx, hsp, hab, hsh, ho, hrows, -⟩ := h.lock_outcome hc hpc
  obtain ⟨hbid, hrows'⟩ := locked_rows ha hd hrows
  have ho' : ((b :: locked).map (·.id)).reverse = lockOrder call.intent := by
    rw [← ho, List.map_cons, List.reverse_cons, hbid]
  have hmem : ∀ i, i ∈ (b :: locked).map (·.id) ↔ i ∈ ids call.intent := by
    intro i
    rw [← List.mem_reverse, ho']
    unfold lockOrder ids
    split
    · rfl
    · simp [or_comm]
  have hids : ∀ i ∈ ids call.intent, ∃ a ∈ b :: locked, a.id = i := by
    intro i hi
    exact List.mem_map.mp ((hmem i).mpr hi)
  exact ⟨hmem, afterLocks_spec hv hrows' hids x id⟩

include h hc in
theorem ran_lock {x : Xid} {id accountId : Uuid} {todo : List Uuid} {locked : List AccountRow}
    (hpc : call.pc = .lock x id (accountId :: todo) locked) {db : Db} {next : Next}
    (hr : statement cfg w.db call.pc x (Accounts.fetchForUpdate accountId)
      (afterLock cfg call.intent x id accountId todo locked) = some (db, next)) : Ran cfg w c call db next [] := by
  have hs : call.pc.session = some x := by rw [hpc]; rfl
  obtain ⟨hv, txn, hx, hsp, hab, hsh, ho, hrows, hout⟩ := h.lock_outcome hc hpc
  obtain ⟨hkeys, hnone⟩ := h.claimed hc hx (by rw [hsh.transactions]; exact List.mem_singleton.mpr rfl) rfl
  obtain ⟨hfail, -⟩ := h.failed hx hsp
  rcases statement_some hx hr with ⟨work, row, hex, rfl, rfl⟩ | ⟨err, hex, rfl, rfl⟩
  · have hdb := h.db.install hx (exec_ok h.db.bounded rfl hex)
    have hdrop : World.drop (w.db.install x txn work) call.pc = World.drop w.db call.pc := World.drop_put hs _
    rw [hout] at hex
    cases ha : Spec.findAccount w.db.tables accountId with
    | none =>
      rw [ha] at hex
      cases hex
      refine .refuses hdrop hnone rfl (verdict_of_refusal hkeys ?_)
      refine refusal_missing hv ho ?_ ha
      intro i hi
      rw [List.mem_reverse] at hi
      obtain ⟨b, hb, rfl⟩ := List.mem_map.mp hi
      obtain ⟨q, hq, -⟩ := hrows b hb
      exact ⟨q, hq⟩
    | some a =>
      rw [ha] at hex
      obtain ⟨_, -, hex⟩ := Res.bind_ok.mp hex
      cases hex
      simp only [afterLock]
      cases hd : AccountRow.decode cfg.decode a with
      | error e => exact .breaks hdrop
      | ok b =>
        obtain ⟨hbid, hrows'⟩ := locked_rows ha hd hrows
        have ho' : ((b :: locked).map (·.id)).reverse ++ todo = lockOrder call.intent := by
          rw [← ho, List.map_cons, List.reverse_cons, hbid, List.append_assoc]
          rfl
        have hsh' : ({ txn.work with locks := (accountId, .update) :: txn.work.locks } : Work).Shape
            [claimRow cfg call x id txn.now] [] [] ((b :: locked).map (·.id)) := by
          refine { hsh with locked := fun i hi => ?_, only := fun l hl => ?_ }
          · rw [List.map_cons, hbid] at hi
            rcases List.mem_cons.mp hi with rfl | hi
            · exact List.mem_cons_self ..
            · exact List.mem_cons_of_mem _ (hsh.locked i hi)
          · rw [List.map_cons, hbid]
            rcases List.mem_cons.mp hl with rfl | hl
            · exact List.mem_cons_self ..
            · exact List.mem_cons_of_mem _ (hsh.only l hl)
        cases todo with
        | cons i todo =>
          exact .writes hs rfl hdb hsp ⟨hab, hsh', ho', by simp, hrows'⟩ hv
        | nil =>
          -- both rows are locked
          simp only [nextLock]
          obtain ⟨hmem, ⟨sender, receiver, s, r, hu, he⟩ | ⟨err, he, href, hkind⟩⟩ := h.locked_both hc hpc ha hd
          · rw [he]
            refine .writes hs rfl hdb hsp ⟨hab, s, r, hu, ?_⟩ hv
            exact { hsh' with
              locked := fun i hi => hsh'.locked i ((hmem i).mpr hi)
              only := fun l hl => (hmem _).mp (hsh'.only l hl) }
          · rw [he]
            exact .refuses hdrop hnone hkind (verdict_of_refusal hkeys href)
  · rw [hfail, hpc]
    simp only [Pc.onError]
    exact .breaks (World.drop_put hs _)

include h in
theorem ledger : Spec.LedgerInv w.db.tables := Spec.exec_inv h.spec

omit h in
theorem shape_update {work : Work} {txs : List Row.Transaction} {ups : List Row.Account} {es : List Row.Entry}
    {is : List Uuid} (hsh : work.Shape txs ups es is) {new : Row.Account} (hn : new.id ∈ is) :
    ({ work with updates := new :: work.updates, locks := (new.id, .noKeyUpdate) :: work.locks } : Work).Shape
      txs (new :: ups) es is where
  accounts := hsh.accounts
  transactions := hsh.transactions
  updates := by rw [hsh.updates]
  entries := hsh.entries
  locked i hi := List.mem_cons_of_mem _ (hsh.locked i hi)
  only l hl := by
    rcases List.mem_cons.mp hl with rfl | hl
    · exact hn
    · exact hsh.only l hl

include h in
/-- Under the lock and after the check, an update fails for nothing but the column's range. -/
theorem adjusted {x : Xid} {txn : Txn} (hx : w.db.txns x = some txn) {txs : List Row.Transaction}
    {ups : List Row.Account} {es : List Row.Entry} {is : List Uuid} (hsh : txn.work.Shape txs ups es is)
    {a : Row.Account} (ha : Spec.findAccount w.db.tables a.id = some a) (hid : a.id ∈ is)
    (hup : ∀ u ∈ ups, u.id ≠ a.id) (delta : Decimal) (hd : delta.scale ≤ 8)
    (hcheck : ∀ a', Spec.shift a delta.units = some a' →
      a.allowsNegativeBalance = true ∨ a'.balance.val.lt (.num 0) = false) :
    (∃ a' work, Spec.shift a delta.units = some a' ∧ work.Shape txs (a' :: ups) es is ∧
      w.db.exec cfg.schema x txn (adjustBalance a.id delta) = .ok (work, none)) ∨
    (Spec.shift a delta.units = none ∧
      w.db.exec cfg.schema x txn (adjustBalance a.id delta) = .error outOfRange) := by
  have hex := adjust_exec h.db hx cfg.schema (hsh.locked _ hid) hsh.accounts
    (fun u hu => hup u (hsh.updates ▸ hu)) ha (h.stored a (Spec.findAccount_some ha).1) hd
  cases hshift : Spec.shift a delta.units with
  | none =>
    rw [hshift] at hex
    exact Or.inr ⟨rfl, hex⟩
  | some a' =>
    rw [hshift] at hex
    refine Or.inl ⟨a', _, rfl, shape_update hsh (Spec.shift_id hshift ▸ hid), hex.trans (if_pos ?_)⟩
    rcases hcheck a' hshift with hc | hc <;> simp [hc]

include h hc in
theorem adjustFrom_outcome {x : Xid} {id : Uuid} {sender receiver : AccountRow}
    (hpc : call.pc = .adjustFrom x id sender receiver) : Validated call.intent ∧
    ∃ txn s r, w.db.txns x = some txn ∧ txn.savepoints = [] ∧ txn.aborted = false ∧
      Under cfg w.db.tables call.intent sender receiver s r ∧
      ((∃ s' work, Spec.shift s (-call.intent.units) = some s' ∧
        work.Shape [claimRow cfg call x id txn.now] [s'] [] (ids call.intent) ∧
        w.db.exec cfg.schema x txn (adjustBalance sender.id call.intent.amount.amount.negate) = .ok (work, none)) ∨
      (Spec.shift s (-call.intent.units) = none ∧
        w.db.exec cfg.schema x txn (adjustBalance sender.id call.intent.amount.amount.negate) =
          .error outOfRange)) := by
  have hv := h.call c call hc
  simp only [CallOk, hpc] at hv
  obtain ⟨txn, hx, hsp, hok⟩ := h.session c call x hc (by rw [hpc]; rfl)
  simp only [SessionOk, hpc] at hok
  obtain ⟨hab, s, r, hu, hsh⟩ := hok
  refine ⟨hv, txn, s, r, hx, hsp, hab, hu, ?_⟩
  have hid : s.id = call.intent.fromAccountId := (Spec.findAccount_some hu.admits.sender).2
  have hunits : call.intent.amount.amount.negate.units = -call.intent.units := Decimal.units_negate _
  have hadj := h.adjusted hx hsh (hid ▸ hu.admits.sender) (hid ▸ by simp [ids]) (fun u hu => by cases hu)
    call.intent.amount.amount.negate call.intent.valid.scale
    (fun a' ha' => Spec.sender_nonneg h.ledger hu.admits (hunits ▸ ha'))
  rwa [hunits, ← (decode_ok hu.sender).1] at hadj

include h hc in
theorem adjustTo_outcome {x : Xid} {id : Uuid} {sender receiver : AccountRow}
    (hpc : call.pc = .adjustTo x id sender receiver) : Validated call.intent ∧
    ∃ txn s r s', w.db.txns x = some txn ∧ txn.savepoints = [] ∧ txn.aborted = false ∧
      Under cfg w.db.tables call.intent sender receiver s r ∧ Spec.shift s (-call.intent.units) = some s' ∧
      ((∃ r' work, Spec.shift r call.intent.units = some r' ∧
        work.Shape [claimRow cfg call x id txn.now] [r', s'] [] (ids call.intent) ∧
        w.db.exec cfg.schema x txn (adjustBalance receiver.id call.intent.amount.amount) = .ok (work, none)) ∨
      (Spec.shift r call.intent.units = none ∧
        w.db.exec cfg.schema x txn (adjustBalance receiver.id call.intent.amount.amount) = .error outOfRange)) := by
  have hv := h.call c call hc
  simp only [CallOk, hpc] at hv
  obtain ⟨txn, hx, hsp, hok⟩ := h.session c call x hc (by rw [hpc]; rfl)
  simp only [SessionOk, hpc] at hok
  obtain ⟨hab, s, r, s', hu, h1, hsh⟩ := hok
  refine ⟨hv, txn, s, r, s', hx, hsp, hab, hu, h1, ?_⟩
  have hid : r.id = call.intent.toAccountId := (Spec.findAccount_some hu.admits.receiver).2
  have hne : ∀ u ∈ [s'], u.id ≠ r.id := by
    intro u hu'
    rw [List.mem_singleton.mp hu', Spec.shift_id h1, hid, (Spec.findAccount_some hu.admits.sender).2]
    exact hv.1
  have hadj := h.adjusted hx hsh (hid ▸ hu.admits.receiver) (hid ▸ by simp [ids]) hne
    call.intent.amount.amount call.intent.valid.scale
    (fun a' ha' => Spec.receiver_nonneg h.ledger hu.admits ha')
  rwa [← (decode_ok hu.receiver).1] at hadj

include h hc in
theorem ran_adjustFrom {x : Xid} {id : Uuid} {sender receiver : AccountRow}
    (hpc : call.pc = .adjustFrom x id sender receiver) {db : Db} {next : Next}
    (hr : statement cfg w.db call.pc x (adjustBalance sender.id call.intent.amount.amount.negate)
      (fun _ => .goto (.adjustTo x id sender receiver)) = some (db, next)) : Ran cfg w c call db next [] := by
  have hs : call.pc.session = some x := by rw [hpc]; rfl
  obtain ⟨hv, txn, s, r, hx, hsp, hab, hu, hadj⟩ := h.adjustFrom_outcome hc hpc
  rcases statement_some hx hr with ⟨work, row, hex, rfl, rfl⟩ | ⟨err, hex, rfl, rfl⟩
  · rcases hadj with ⟨s', work', h1, hsh', hex'⟩ | ⟨-, hex'⟩
    · have hdb := h.db.install hx (exec_ok h.db.bounded rfl hex)
      cases hex.symm.trans hex'
      exact .writes hs rfl hdb hsp ⟨hab, s, r, s', hu, h1, hsh'⟩ hv
    · cases hex.symm.trans hex'
  · rcases hadj with ⟨s', work', -, -, hex'⟩ | ⟨-, hex'⟩
    · cases hex.symm.trans hex'
    · cases hex.symm.trans hex'
      rw [(h.failed hx hsp).1, hpc]
      exact .breaks (World.drop_put hs _)

include h hc in
theorem ran_adjustTo {x : Xid} {id eid : Uuid} {sender receiver : AccountRow}
    (hpc : call.pc = .adjustTo x id sender receiver) {db : Db} {next : Next}
    (hr : statement cfg w.db call.pc x (adjustBalance receiver.id call.intent.amount.amount)
      (fun _ => .goto (.insertCredit x id sender receiver eid)) = some (db, next)) :
    Ran cfg w c call db next [] := by
  have hs : call.pc.session = some x := by rw [hpc]; rfl
  obtain ⟨hv, txn, s, r, s', hx, hsp, hab, hu, h1, hadj⟩ := h.adjustTo_outcome hc hpc
  rcases statement_some hx hr with ⟨work, row, hex, rfl, rfl⟩ | ⟨err, hex, rfl, rfl⟩
  · rcases hadj with ⟨r', work', h2, hsh', hex'⟩ | ⟨-, hex'⟩
    · have hdb := h.db.install hx (exec_ok h.db.bounded rfl hex)
      cases hex.symm.trans hex'
      exact .writes hs rfl hdb hsp ⟨hab, s, r, s', r', hu, h1, h2, hsh'⟩ hv
    · cases hex.symm.trans hex'
  · rcases hadj with ⟨r', work', -, -, hex'⟩ | ⟨-, hex'⟩
    · cases hex.symm.trans hex'
    · cases hex.symm.trans hex'
      rw [(h.failed hx hsp).1, hpc]
      exact .breaks (World.drop_put hs _)

omit h in
theorem shape_entry {work : Work} {txs : List Row.Transaction} {ups : List Row.Account} {es : List Row.Entry}
    {is : List Uuid} (hsh : work.Shape txs ups es is) {e : Row.Entry} (he : e.accountId ∈ is) :
    ({ work with entries := work.entries ++ [e], locks := (e.accountId, .keyShare) :: work.locks } : Work).Shape
      txs ups (es ++ [e]) is where
  accounts := hsh.accounts
  transactions := hsh.transactions
  updates := hsh.updates
  entries := by rw [hsh.entries]
  locked i hi := List.mem_cons_of_mem _ (hsh.locked i hi)
  only l hl := by
    rcases List.mem_cons.mp hl with rfl | hl
    · exact he
    · exact hsh.only l hl

include h in
theorem entered {x : Xid} {txn : Txn} (hx : w.db.txns x = some txn) (tr : Spec.Transfer) (hxid : tr.xid = x)
    (hnow : tr.now = txn.now) (hpos : 0 < tr.intent.units) {ups : List Row.Account} {es : List Row.Entry}
    {is : List Uuid} (hsh : txn.work.Shape [tr.row cfg.sha256] ups es is) {a : Row.Account}
    (ha : a ∈ w.db.tables.accounts) (hcur : a.currency = tr.intent.amount.currency.code) (hid : a.id ∈ is)
    (id : Uuid) (direction : Direction) :
    ∃ work, work.Shape [tr.row cfg.sha256] ups (es ++ [tr.entry id a.id direction]) is ∧
      w.db.exec cfg.schema x txn (insertEntry id tr.id a.id direction tr.intent.amount.amount
        tr.intent.amount.currency) = (do
          w.db.unique x .entries_pkey ((w.db.tables.entries ++ es).any (·.id = id))
            fun w => w.entries.any (·.id = id)
          return (work, none)) := by
  have hw := h.db.work hx
  have hterms := hw.current_terms (List.mem_append_left _ ha)
  have hview : ∃ b ∈ (txn.work.overlay w.db.tables).accounts, b.id = a.id ∧
      b.currency = tr.intent.amount.currency.code := by
    refine ⟨txn.work.current a, ?_, congrArg (·.1) hterms, (congrArg (·.2.2.1) hterms).trans hcur⟩
    rw [Work.overlay_accounts hw.untruncated]
    exact List.mem_map_of_mem (List.mem_append_left _ ha)
  have hrow : tr.row cfg.sha256 ∈ txn.work.transactions := by
    rw [hsh.transactions]; exact List.mem_singleton.mpr rfl
  have hover : (txn.work.overlay w.db.tables).entries = w.db.tables.entries ++ es := by
    rw [Work.overlay_entries hw.untruncated, hsh.entries]
  refine ⟨_, shape_entry (e := tr.entry id a.id direction) hsh hid, ?_⟩
  rw [entry_exec h.db hx hxid hnow hrow hpos (hsh.locked _ hid) hview, hover]
  rfl

include h hc in
theorem insertCredit_outcome {x : Xid} {id cid : Uuid} {sender receiver : AccountRow}
    (hpc : call.pc = .insertCredit x id sender receiver cid) : Validated call.intent ∧
    ∃ txn s r s' r' work, w.db.txns x = some txn ∧ txn.savepoints = [] ∧ txn.aborted = false ∧
      Under cfg w.db.tables call.intent sender receiver s r ∧ Spec.shift s (-call.intent.units) = some s' ∧
      Spec.shift r call.intent.units = some r' ∧
      work.Shape [claimRow cfg call x id txn.now] [r', s']
        [(call.transfer 0 x id cid cid txn.now).credit] (ids call.intent) ∧
      w.db.exec cfg.schema x txn (insertEntry cid id sender.id .credit call.intent.amount.amount
        call.intent.amount.currency) = (do
          w.db.unique x .entries_pkey (w.db.tables.entries.any (·.id = cid)) fun w => w.entries.any (·.id = cid)
          return (work, none)) := by
  have hv := h.call c call hc
  simp only [CallOk, hpc] at hv
  obtain ⟨txn, hx, hsp, hok⟩ := h.session c call x hc (by rw [hpc]; rfl)
  simp only [SessionOk, hpc] at hok
  obtain ⟨hab, s, r, s', r', hu, h1, h2, hsh⟩ := hok
  obtain ⟨hm, hid⟩ := Spec.findAccount_some hu.admits.sender
  obtain ⟨work, hsh', hex⟩ := h.entered hx (call.transfer 0 x id cid cid txn.now) rfl rfl
    (TransferIntent.units_pos hv.2) hsh hm hu.admits.senderCurrency (hid ▸ by simp [ids]) cid .credit
  rw [List.append_nil] at hex
  rw [hid] at hsh'
  rw [← (decode_ok hu.sender).1] at hex
  exact ⟨hv, txn, s, r, s', r', work, hx, hsp, hab, hu, h1, h2, hsh', hex⟩

include h hc in
theorem insertDebit_outcome {x : Xid} {id cid did : Uuid} {sender receiver : AccountRow}
    (hpc : call.pc = .insertDebit x id sender receiver cid did) : Validated call.intent ∧
    ∃ txn s r s' r' work, w.db.txns x = some txn ∧ txn.savepoints = [] ∧ txn.aborted = false ∧
      Under cfg w.db.tables call.intent sender receiver s r ∧ Spec.shift s (-call.intent.units) = some s' ∧
      Spec.shift r call.intent.units = some r' ∧
      work.Shape [claimRow cfg call x id txn.now] [r', s']
        (call.transfer 0 x id cid did txn.now).entries (ids call.intent) ∧
      w.db.exec cfg.schema x txn (insertEntry did id receiver.id .debit call.intent.amount.amount
        call.intent.amount.currency) = (do
          w.db.unique x .entries_pkey ((w.db.tables.entries ++
            [(call.transfer 0 x id cid cid txn.now).credit]).any (·.id = did)) fun w => w.entries.any (·.id = did)
          return (work, none)) := by
  have hv := h.call c call hc
  simp only [CallOk, hpc] at hv
  obtain ⟨txn, hx, hsp, hok⟩ := h.session c call x hc (by rw [hpc]; rfl)
  simp only [SessionOk, hpc] at hok
  obtain ⟨hab, s, r, s', r', hu, h1, h2, hsh⟩ := hok
  obtain ⟨hm, hid⟩ := Spec.findAccount_some hu.admits.receiver
  obtain ⟨work, hsh', hex⟩ := h.entered hx (call.transfer 0 x id cid did txn.now) rfl rfl
    (TransferIntent.units_pos hv.2) hsh hm hu.admits.receiverCurrency (hid ▸ by simp [ids]) did .debit
  rw [hid] at hsh'
  rw [← (decode_ok hu.receiver).1] at hex
  exact ⟨hv, txn, s, r, s', r', work, hx, hsp, hab, hu, h1, h2, hsh', hex⟩

include h hc in
theorem ran_insertCredit {x : Xid} {id cid eid : Uuid} {sender receiver : AccountRow}
    (hpc : call.pc = .insertCredit x id sender receiver cid) {db : Db} {next : Next}
    (hr : statement cfg w.db call.pc x (insertEntry cid id sender.id .credit call.intent.amount.amount
      call.intent.amount.currency) (fun _ => .goto (.insertDebit x id sender receiver cid eid)) = some (db, next)) :
    Ran cfg w c call db next [] := by
  have hs : call.pc.session = some x := by rw [hpc]; rfl
  obtain ⟨hv, txn, s, r, s', r', work', hx, hsp, hab, hu, h1, h2, hsh, hout⟩ := h.insertCredit_outcome hc hpc
  rcases statement_some hx hr with ⟨work, row, hex, rfl, rfl⟩ | ⟨err, hex, rfl, rfl⟩
  · have hdb := h.db.install hx (exec_ok h.db.bounded rfl hex)
    rw [hout] at hex
    obtain ⟨_, -, hex⟩ := Res.bind_ok.mp hex
    cases hex
    exact .writes hs rfl hdb hsp ⟨hab, s, r, s', r', hu, h1, h2, hsh⟩ hv
  · rw [(h.failed hx hsp).1, hpc]
    exact .breaks (World.drop_put hs _)

include h hc in
theorem ran_insertDebit {x : Xid} {id cid did : Uuid} {sender receiver : AccountRow}
    (hpc : call.pc = .insertDebit x id sender receiver cid did) {db : Db} {next : Next}
    (hr : statement cfg w.db call.pc x (insertEntry did id receiver.id .debit call.intent.amount.amount
      call.intent.amount.currency) (fun _ => .goto (.commit x id sender receiver cid did)) = some (db, next)) :
    Ran cfg w c call db next [] := by
  have hs : call.pc.session = some x := by rw [hpc]; rfl
  obtain ⟨hv, txn, s, r, s', r', work', hx, hsp, hab, hu, h1, h2, hsh, hout⟩ := h.insertDebit_outcome hc hpc
  rcases statement_some hx hr with ⟨work, row, hex, rfl, rfl⟩ | ⟨err, hex, rfl, rfl⟩
  · have hdb := h.db.install hx (exec_ok h.db.bounded rfl hex)
    rw [hout] at hex
    obtain ⟨_, -, hex⟩ := Res.bind_ok.mp hex
    cases hex
    exact .writes hs rfl hdb hsp ⟨hab, s, r, s', r', hu, h1, h2, hsh⟩ hv
  · rw [(h.failed hx hsp).1, hpc]
    exact .breaks (World.drop_put hs _)

/-! ## The commit and the answer -/

theorem commit_error {db : Db} {x : Xid} {txn : Txn} {err : SqlxError} (hcm : db.commit x txn = .error err) :
    isOverdraftViolation err = false := by
  unfold Db.commit at hcm
  split at hcm
  · cases hcm
  rcases Bind.error.mp hcm with hd | ⟨_, -, hd⟩
  · obtain ⟨e, -, he⟩ := Bind.forM_error hd
    simp only [assertTransactionBalanced, Bind.error, check] at he
    rcases he with he | ⟨_, -, he | ⟨_, -, he⟩⟩ <;> (split at he <;> cases he) <;> rfl
  · cases hd

include h hc in
theorem ran_commit {x : Xid} {id cid did : Uuid} {sender receiver : AccountRow}
    (hpc : call.pc = .commit x id sender receiver cid did) {db : Db} {next : Next}
    (hr : ((w.db.txns x).map fun txn =>
      match w.db.commit x txn with
      | .ok db' => (db', Next.goto (.getTransaction .created id))
      | .error err => (w.db.close x, call.pc.onError err)) = some (db, next)) :
    Ran cfg w c call db next ((World.landing w.db c call).map (·.2)).toList := by
  have hs : call.pc.session = some x := by rw [hpc]; rfl
  have hv : Validated call.intent := by
    have := h.call c call hc
    simpa only [CallOk, hpc] using this
  obtain ⟨txn, hx, hr⟩ := Option.map_eq_some_iff.mp hr
  cases hcm : w.db.commit x txn with
  | ok db' =>
    rw [hcm] at hr
    cases hr
    have hl : World.landing w.db c call = some (db, .transfer (call.transfer c x id cid did txn.now)) := by
      simp only [World.landing, hpc, hx, Option.bind_some, hcm]
    rw [hl]
    refine .commits hl ?_
    · refine ⟨fun _ => hv, call.transfer c x id cid did txn.now, ⟨?_, rfl, rfl, fun _ => rfl⟩, rfl⟩
      rw [Spec.transfers_append]
      exact List.mem_append_right _ (List.mem_singleton.mpr rfl)
  | error err =>
    rw [hcm, hpc] at hr
    simp only [Pc.onError, commit_error hcm, Bool.false_eq_true, if_false] at hr
    cases hr
    have hl : World.landing w.db c call = none := by
      simp only [World.landing, hpc, hx, Option.bind_some, hcm]
    rw [hl]
    exact .breaks (World.drop_close hs)

include h hc in
theorem ran_getTransaction {outcome : TransferOutcome} {id : Uuid} (hpc : call.pc = .getTransaction outcome id) :
    Ran cfg w c call w.db (match Transactions.fetchTransaction w.db.tables id with
      | none => .ret (.error (.transactionNotFound id))
      | some transaction => .goto (.getEntries outcome id transaction)) [] := by
  have hok := h.call c call hc
  simp only [CallOk, hpc] at hok
  obtain ⟨hv, tr, hst, hid⟩ := hok
  have hfind : w.db.tables.transactions.find? (fun r => decide (r.id = id)) = some (tr.row cfg.sha256) :=
    h.keys.transactionIds.find (h.row_mem hst.mem) hid
  simp only [Transactions.fetchTransaction, hfind, Option.map_some]
  exact .stays (by rw [hpc]; rfl) rfl rfl ⟨hv, tr, hst, hid, rfl⟩

include h hc in
theorem getEntries_outcome {outcome : TransferOutcome} {id : Uuid} {transaction : Transaction}
    {scan : List Row.Entry} (hpc : call.pc = .getEntries outcome id transaction)
    (hscan : scan.Perm (Transactions.entriesOf w.db.tables id)) :
    ∃ detail, Transactions.detail transaction (Transactions.fetchEntries cfg.decode scan) = .ok detail ∧
      AnswerOk cfg w.log c call (.ok { outcome, detail }) ∧
      Spec.verdict cfg.sha256 cfg.decode w.db.tables call.key call.intent = .replayed (.ok detail) := by
  have hok := h.call c call hc
  simp only [CallOk, hpc] at hok
  obtain ⟨hv, tr, hst, rfl, rfl⟩ := hok
  obtain ⟨m, hm, -, -⟩ := Spec.money_ok cfg.decode tr.intent
  have hent := Spec.entriesOf_transfer h.spec h.keys hst.mem
  have hd := Spec.entries_distinct h.spec h.keys hst.mem
  rw [hent] at hscan
  refine ⟨_, Spec.detail_ok hm hd hscan, ⟨tr, m, hst, hm, rfl⟩, ?_⟩
  have hfind : w.db.tables.transactions.find? (fun r => decide (r.idempotencyKey = call.key)) =
      some (tr.row cfg.sha256) := h.keys.keys.find (h.row_mem hst.mem) hst.key
  have hhash : (tr.row cfg.sha256).requestHash = (call.intent.requestHash cfg.sha256).toList :=
    congrArg Vector.toList hst.hash
  simp only [Spec.verdict, hfind, hhash, ne_eq, not_true_eq_false, if_false, Spec.replay]
  rw [show (tr.row cfg.sha256).id = tr.id from rfl, hent, Spec.detail_ok hm hd (List.Perm.refl _)]

include h hc in
theorem ran_getEntries {outcome : TransferOutcome} {id : Uuid} {transaction : Transaction} {scan : List Row.Entry}
    (hpc : call.pc = .getEntries outcome id transaction)
    (hscan : scan.Perm (Transactions.entriesOf w.db.tables id)) :
    Ran cfg w c call w.db (.ret ((Transactions.detail transaction (Transactions.fetchEntries cfg.decode scan)).map
      fun detail => { outcome, detail })) [] := by
  obtain ⟨detail, hd, hok, hv⟩ := h.getEntries_outcome hc hpc hscan
  rw [hd]
  exact .answers (by rw [hpc]; rfl) hok hv

include h hc in
theorem ran {env : Env} {db : Db} {next : Next} (hr : call.run cfg w.db env = some (db, next)) :
    Ran cfg w c call db next ((World.landing w.db c call).map (·.2)).toList := by
  have quiet : (∀ x id s r cid did, call.pc ≠ .commit x id s r cid did) → Ran cfg w c call db next [] →
      Ran cfg w c call db next ((World.landing w.db c call).map (·.2)).toList := by
    intro hne hran
    have hl : World.landing w.db c call = none := by
      unfold World.landing
      split
      · rename_i hpc; exact absurd hpc (hne _ _ _ _ _ _)
      · rfl
    rw [hl]; exact hran
  cases hpc : call.pc with
  | commit x id sender receiver cid did =>
    simp only [Call.run, hpc] at hr
    exact h.ran_commit hc hpc (hpc ▸ hr)
  | lookup =>
    simp only [Call.run, hpc, Option.some.injEq, Prod.mk.injEq] at hr
    obtain ⟨rfl, rfl⟩ := hr
    exact quiet (by simp [hpc]) (h.ran_lookup hc hpc)
  | begin =>
    have hv := h.call c call hc
    simp only [CallOk, hpc] at hv
    simp only [Call.run, hpc, Option.some.injEq, Prod.mk.injEq] at hr
    obtain ⟨rfl, rfl⟩ := hr
    exact quiet (by simp [hpc]) (.opens hpc hv)
  | claim x id =>
    simp only [Call.run, hpc] at hr
    exact quiet (by simp [hpc]) (h.ran_claim hc hpc (hpc ▸ hr))
  | rollback x =>
    have hok := h.call c call hc
    simp only [CallOk, hpc] at hok
    simp only [Call.run, hpc, Option.some.injEq, Prod.mk.injEq] at hr
    obtain ⟨rfl, rfl⟩ := hr
    exact quiet (by simp [hpc]) (.leaves (by rw [hpc]; rfl) rfl rfl hok)
  | relookup =>
    simp only [Call.run, hpc, Option.some.injEq, Prod.mk.injEq] at hr
    obtain ⟨rfl, rfl⟩ := hr
    exact quiet (by simp [hpc]) (h.ran_relookup hc hpc)
  | lock x id todo locked =>
    cases todo with
    | nil =>
      -- the loop is left as soon as nothing is to be locked
      obtain ⟨txn, -, -, hok⟩ := h.session c call x hc (by rw [hpc]; rfl)
      simp only [SessionOk, hpc] at hok
      exact absurd rfl hok.2.2.2.1
    | cons accountId todo =>
      simp only [Call.run, hpc] at hr
      exact quiet (by simp [hpc]) (h.ran_lock hc hpc (hpc ▸ hr))
  | adjustFrom x id sender receiver =>
    simp only [Call.run, hpc] at hr
    exact quiet (by simp [hpc]) (h.ran_adjustFrom hc hpc (hpc ▸ hr))
  | adjustTo x id sender receiver =>
    simp only [Call.run, hpc] at hr
    exact quiet (by simp [hpc]) (h.ran_adjustTo hc hpc (hpc ▸ hr))
  | insertCredit x id sender receiver cid =>
    simp only [Call.run, hpc] at hr
    exact quiet (by simp [hpc]) (h.ran_insertCredit hc hpc (hpc ▸ hr))
  | insertDebit x id sender receiver cid did =>
    simp only [Call.run, hpc] at hr
    exact quiet (by simp [hpc]) (h.ran_insertDebit hc hpc (hpc ▸ hr))
  | getTransaction outcome id =>
    simp only [Call.run, hpc, Option.some.injEq, Prod.mk.injEq] at hr
    obtain ⟨rfl, rfl⟩ := hr
    exact quiet (by simp [hpc]) (h.ran_getTransaction hc hpc)
  | getEntries outcome id transaction =>
    simp only [Call.run, hpc] at hr
    split at hr
    · rename_i hscan
      cases hr
      exact quiet (by simp [hpc]) (h.ran_getEntries hc hpc hscan)
    · cases hr
  | done r | cancelled | panicked =>
    simp only [Call.run, hpc] at hr
    cases hr

/-! ## Steps of the whole service -/

omit h hc in
theorem finish_ok (log : List Spec.Event) (r : Except LedgerError TransferResult)
    (hv : cfg.fastPath = false → Validated call.intent) (hr : AnswerOk cfg log c call r) :
    CallOk cfg log c (call.finish cfg r) ∧ (call.finish cfg r).pc.session = none ∧
      (call.finish cfg r).key = call.key ∧ (call.finish cfg r).intent = call.intent := by
  unfold Call.finish
  split
  · split
    · refine ⟨?_, ?_, rfl, rfl⟩
      · unfold startPc start
        by_cases hf : cfg.fastPath = true
        · simp only [hf, if_true]; exact hf
        · have hv' := hv (by simpa using hf)
          simp only [hf, if_false, validate, hv'.1, hv'.2, Bool.not_true, Bool.false_eq_true]
          exact hv'
      · unfold startPc start validate
        by_cases hf : cfg.fastPath = true
        · simp [hf, Pc.session]
        · have hv' := hv (by simpa using hf)
          simp [hf, hv'.1, hv'.2, Pc.session]
    · exact ⟨hr, rfl, rfl, rfl⟩
  · exact ⟨hr, rfl, rfl, rfl⟩

omit h hc in
theorem validated {log : List Spec.Event} (hok : CallOk cfg log c call) (hrun : call.pc.running = true) :
    cfg.fastPath = false → Validated call.intent := by
  intro hf
  cases hpc : call.pc with
  | lookup =>
    simp only [CallOk, hpc] at hok
    rw [hf] at hok; cases hok
  | rollback | relookup =>
    simp only [CallOk, hpc] at hok
    exact hok.1
  | getTransaction | getEntries =>
    simp only [CallOk, hpc] at hok
    exact hok.1 hf
  | done | cancelled | panicked => rw [hpc] at hrun; cases hrun
  | begin | claim | lock | adjustFrom | adjustTo | insertCredit | insertDebit | commit =>
    simpa only [CallOk, hpc] using hok

omit h hc in
theorem session_cases (pc : Pc) : (pc.session = none ∧ ∀ db, World.drop db pc = db) ∨
    ∃ x, pc.session = some x ∧ ∀ db, World.drop db pc = db.close x := by
  cases hs : pc.session with
  | none => exact Or.inl ⟨rfl, fun db => by simp only [World.drop, hs]⟩
  | some x => exact Or.inr ⟨x, rfl, fun db => by simp only [World.drop, hs]⟩

include h hc in
theorem ends {call' : Call} (hkey : call'.key = call.key) (hintent : call'.intent = call.intent)
    (hs' : call'.pc.session = none) (hcall : CallOk cfg w.log c call') :
    Inv cfg (w.moveTo c call' (World.drop w.db call.pc) w.log) := by
  rcases session_cases call.pc with ⟨hs, hd⟩ | ⟨x, hs, hd⟩
  · rw [hd]; exact h.stay hc hkey hintent hs hs' hcall
  · rw [hd]; exact h.closes hc hkey hintent hs hs' hcall

include h in
theorem run {env : Env} {w' : World} (hstep : w.step cfg (.run c env) = some w') : Inv cfg w' := by
  obtain ⟨call, db, next, hc, hheld, hrun, rfl⟩ := World.step_run hstep
  obtain ⟨call₁, h1, hrunning⟩ := h.running c hheld
  rw [hc, Option.some.injEq] at h1
  subst h1
  have hval := validated (h.call c call hc) hrunning
  have hran := h.ran hc hrun
  generalize ((World.landing w.db c call).map (·.2)).toList = evs at hran ⊢
  cases hran with
  | stays hs hs' hrun hcall =>
    rw [List.append_nil]
    exact h.stay hc rfl rfl hs hs' hcall
  | opens hpc hv =>
    rw [List.append_nil]
    exact h.opens hc rfl rfl (by rw [hpc]; rfl) rfl ⟨rfl, Work.Shape.empty⟩ hv hheld
  | writes hs hs' hdb hsp hok hcall =>
    rw [List.append_nil]
    exact h.puts hc rfl rfl hs hs' hdb hsp hok hcall
  | leaves hs hs' hrun hcall =>
    rw [List.append_nil]
    exact h.closes hc rfl rfl hs hs' hcall
  | commits hl hcall => exact h.commits hc hl rfl rfl rfl hcall
  | @breaks _ err hdb =>
    obtain ⟨h1, h2, h3, h4⟩ := finish_ok w.log (.error (.database err)) hval (by intro he; cases he)
    rw [List.append_nil]
    simp only [World.leave, hdb]
    exact h.ends hc h3 h4 h2 h1
  | @refuses _ err hdb hnone hkind hv =>
    obtain ⟨h1, h2, h3, h4⟩ := finish_ok w.log (.error err) hval (fun _ => ⟨hnone, hkind⟩)
    rw [List.append_nil]
    simp only [World.leave, hdb]
    exact h.ends hc h3 h4 h2 h1
  | @answers res hs hok hv =>
    obtain ⟨h1, h2, h3, h4⟩ := finish_ok _ _ hval hok
    rw [List.append_nil]
    exact h.ends hc h3 h4 h2 h1

omit h hc in
theorem onError_spontaneous {err : SqlxError} (he : err.spontaneous = true) (pc : Pc) :
    pc.onError err = .ret (.error (.database err)) := by
  obtain ⟨h1, h2⟩ := spontaneous_not_constraint he
  cases pc <;> simp [Pc.onError, h1, h2]

include h in
theorem fault {err : SqlxError} {w' : World} (hs : w.step cfg (.fault c err) = some w') : Inv cfg w' := by
  obtain ⟨call, hc, hrunning, he, rfl⟩ := World.step_fault hs
  obtain ⟨h1, h2, h3, h4⟩ := finish_ok w.log (.error (.database err))
    (validated (h.call c call hc) hrunning) (by intro he; cases he)
  rw [onError_spontaneous he]
  exact h.ends hc h3 h4 h2 h1

omit h hc in
theorem landing_running {db db' : Db} {ev : Spec.Event} (hl : World.landing db c call = some (db', ev)) :
    call.pc.running = true := by
  unfold World.landing at hl
  split at hl
  · rename_i hpc; rw [hpc]; rfl
  · cases hl

omit h hc in
theorem landing_commit {db db' : Db} {ev : Spec.Event} (hl : World.landing db c call = some (db', ev)) :
    ∃ x id sender receiver cid did txn, call.pc = .commit x id sender receiver cid did ∧ db.txns x = some txn ∧
      db.commit x txn = .ok db' ∧ ev = .transfer (call.transfer c x id cid did txn.now) := by
  unfold World.landing at hl
  split at hl
  · rename_i x id sender receiver cid did hpc
    obtain ⟨txn, hx, hl⟩ := Option.bind_eq_some_iff.mp hl
    split at hl
    · rename_i db₁ hcm
      cases hl
      exact ⟨x, id, sender, receiver, cid, did, txn, hpc, hx, hcm, rfl⟩
    · cases hl
  · cases hl

include h in
theorem lostAck {err : SqlxError} {w' : World} (hs : w.step cfg (.lostAck c err) = some w') : Inv cfg w' := by
  obtain ⟨call, db, ev, hc, he, hl, rfl⟩ := World.step_lostAck hs
  obtain ⟨h1, h2, h3, h4⟩ := finish_ok (w.log ++ [ev]) (.error (.database err))
    (validated (h.call c call hc) (landing_running hl)) (by intro he; cases he)
  rw [onError_spontaneous he]
  exact h.commits hc hl h3 h4 h2 h1

include h in
theorem cancel {took : Bool} {w' : World} (hs : w.step cfg (.cancel c took) = some w') : Inv cfg w' := by
  obtain ⟨call, hc, ⟨-, db, ev, hl, rfl⟩ | ⟨-, -, rfl⟩⟩ := World.step_cancel hs
  · exact h.commits hc hl rfl rfl rfl trivial
  · exact h.ends hc rfl rfl rfl trivial

include h in
theorem invoke {key : String} {intent : TransferIntent} {w' : World}
    (hs : w.step cfg (.invoke c key intent) = some w') : Inv cfg w' := by
  obtain ⟨hnone, rfl⟩ := World.step_invoke hs
  have hfresh : ∀ tr ∈ Spec.transfers w.log, tr.call ≠ c := by
    intro tr htr he
    obtain ⟨call', h1, -⟩ := h.author tr htr
    rw [he, hnone] at h1; cases h1
  have hstart : CallOk cfg w.log c ⟨key, intent, 0, startPc cfg intent⟩ ∧ (startPc cfg intent).session = none := by
    unfold startPc start
    by_cases hf : cfg.fastPath = true
    · rw [if_pos hf]; exact ⟨hf, rfl⟩
    rw [if_neg hf]
    unfold validate
    by_cases hself : intent.fromAccountId = intent.toAccountId
    · rw [if_pos hself]
      exact ⟨fun _ => ⟨hfresh, rfl⟩, rfl⟩
    rw [if_neg hself]
    by_cases hpos : intent.amount.isPositive = true
    · rw [if_neg (by simp [hpos])]
      exact ⟨⟨hself, hpos⟩, rfl⟩
    · rw [if_pos (by simp [hpos])]
      exact ⟨fun _ => ⟨hfresh, rfl⟩, rfl⟩
  have old : ∀ {c' : Nat} {call' : Call}, w.calls c' = some call' →
      Function.update w.calls c (some ⟨key, intent, 0, startPc cfg intent⟩) c' = some call' := by
    intro c' call' hc'
    have hne : c' ≠ c := fun e => by rw [e, hnone] at hc'; cases hc'
    rw [Function.update_of_ne hne]; exact hc'
  have new : ∀ {c' : Nat} {call' : Call},
      Function.update w.calls c (some ⟨key, intent, 0, startPc cfg intent⟩) c' = some call' →
      (c' = c ∧ call' = ⟨key, intent, 0, startPc cfg intent⟩) ∨ w.calls c' = some call' := by
    intro c' call' hc'
    by_cases hne : c' = c
    · subst hne
      rw [Function.update_self, Option.some.injEq] at hc'
      exact Or.inl ⟨rfl, hc'.symm⟩
    · rw [Function.update_of_ne hne] at hc'
      exact Or.inr hc'
  have sess : ∀ {c' : Nat} {call' : Call} {x : Xid},
      Function.update w.calls c (some ⟨key, intent, 0, startPc cfg intent⟩) c' = some call' →
      call'.pc.session = some x → w.calls c' = some call' := by
    intro c' call' x hc' hx
    rcases new hc' with ⟨-, rfl⟩ | hc'
    · rw [hstart.2] at hx; cases hx
    · exact hc'
  refine ⟨h.db, h.stored, h.spec, ?_, ?_, ?_, ?_, ?_, ?_, ?_⟩
  · intro c' call' x hc' hx
    exact h.session c' call' x (sess hc' hx) hx
  · intro c₁ c₂ call₁ call₂ x h1 h2 hx1 hx2
    exact h.owner c₁ c₂ call₁ call₂ x (sess h1 hx1) (sess h2 hx2) hx1 hx2
  · intro x txn hx
    obtain ⟨c', call', h1, h2⟩ := h.owned x txn hx
    exact ⟨c', call', old h1, h2⟩
  · intro c' call' hc'
    rcases new hc' with ⟨rfl, rfl⟩ | hc'
    · exact hstart.1
    · exact h.call c' call' hc'
  · intro tr htr
    obtain ⟨call', h1, h2⟩ := h.author tr htr
    exact ⟨call', old h1, h2⟩
  · intro c' call' hc' hs
    obtain ⟨x, hx⟩ := Option.isSome_iff_exists.mp hs
    exact h.held c' call' (sess hc' hx) hs
  · intro c' hm
    obtain ⟨call', h1, h2⟩ := h.running c' hm
    exact ⟨call', old h1, h2⟩

include h in
theorem acquire {w' : World} (hs : w.step cfg (.acquire c) = some w') : Inv cfg w' := by
  obtain ⟨call, hc, hrun, -, -, -, rfl⟩ := World.step_acquire hs
  refine ⟨h.db, h.stored, h.spec, h.session, h.owner, h.owned, h.call, h.author, ?_, ?_⟩
  · intro c' call' hc' hs
    exact List.mem_cons_of_mem _ (h.held c' call' hc' hs)
  · intro c' hm
    rcases List.mem_cons.mp hm with rfl | hm
    · exact ⟨call, hc, hrun⟩
    · exact h.running c' hm

include h in
theorem background {db : Db} {evs : List Spec.Event} (hdb : DbInv db) (hstored : ∀ a ∈ db.tables.accounts, a.Stored)
    (hspec : exec (Spec.step cfg.sha256 cfg.decode) {} (w.log ++ evs) = some db.tables)
    (hevs : Spec.transfers evs = []) (htxns : ∀ y, db.txns y = w.db.txns y)
    (hframe : ∀ y txn, w.db.txns y = some txn → ∀ id, (id, .update) ∈ txn.work.locks →
      ∀ a, Spec.findAccount w.db.tables id = some a → Spec.findAccount db.tables id = some a) :
    Inv cfg { w with db := db, log := w.log ++ evs } := by
  have hlog : Spec.transfers (w.log ++ evs) = Spec.transfers w.log := by
    rw [Spec.transfers_append, hevs, List.append_nil]
  refine ⟨hdb, hstored, hspec, ?_, h.owner, ?_, ?_, ?_, h.held, h.running⟩
  · intro c call x hc hx
    obtain ⟨txn, ht, hsp, hok⟩ := h.session c call x hc hx
    exact ⟨txn, (htxns x).trans ht, hsp, hok.frame (hframe x txn ht)⟩
  · intro x txn hx
    exact h.owned x txn ((htxns x).symm.trans hx)
  · intro c call hc
    refine (h.call c call hc).mono fun tr htr => ?_
    rw [hevs] at htr; cases htr
  · intro tr htr
    rw [hlog] at htr
    exact h.author tr htr

include h in
theorem create {process : Nat} {env : Env} {name : String} {currency : Currency} {flag : Bool} {w' : World}
    (hs : w.step cfg (.create process env name currency flag) = some w') : Inv cfg w' := by
  obtain ⟨-, db, rows, answer, hcr, rfl⟩ := World.step_create hs
  have hnone := h.db.bounded w.db.nextXid (Nat.le_refl _)
  have hx : (w.db.begin env.now).txns w.db.nextXid = some { now := env.now } := Function.update_self ..
  have hopened := h.db.begin env.now
  have hother : ∀ y, y ≠ w.db.nextXid → (w.db.begin env.now).txns y = w.db.txns y :=
    fun y hy => Function.update_of_ne hy ..
  have failed : Inv cfg { w with db := (w.db.begin env.now).close w.db.nextXid, log := w.log ++ [] } :=
    h.background hopened.close h.stored (by rw [List.append_nil]; exact h.spec) rfl (h.db.close_new hother)
      fun _ _ _ _ _ _ ha => ha
  simp only [Accounts.create] at hcr
  split at hcr
  · cases hcr
  · cases hcr; exact failed
  · rename_i work row hex
    have hwrote := exec_ok hopened.bounded rfl hex
    have hdb := hopened.install hx hwrote
    have hx' : ((w.db.begin env.now).install w.db.nextXid { now := env.now } work).txns w.db.nextXid =
        some { now := env.now, work := work } := Function.update_self ..
    split at hcr
    · cases hcr; exact failed
    · rename_i db' hcm
      cases hcr
      obtain ⟨a, hzero, hst, hid, rfl⟩ := create_exec hopened.bounded hex
      have hcommit := hdb.commit hx' hcm
      obtain ⟨hab, -⟩ | ⟨-, hd, rfl⟩ := Db.commit_ok hcm
      · cases hab
      have hover := Work.overlay_opened w.db.tables [a]
      refine h.background hcommit ?_ ?_ rfl ?_ ?_
      · intro b hb
        have hacc : (({ accounts := [a] } : Work).overlay w.db.tables).accounts = w.db.tables.accounts ++ [a] := by
          rw [hover]
        have hb' : b ∈ w.db.tables.accounts ++ [a] := hacc ▸ hb
        rcases List.mem_append.mp hb' with hb' | hb'
        · exact h.stored b hb'
        · rw [List.mem_singleton.mp hb']; exact hst
      · have htab : ∀ b ∈ w.db.tables.accounts, b.id ≠ a.id := by
          intro b hb
          have hempty : (({ accounts := [] } : Work).overlay w.db.tables).accounts =
              w.db.tables.accounts ++ [] := by
            rw [Work.overlay_opened]
          have hb' : b ∈ (({ accounts := [] } : Work).overlay w.db.tables).accounts := by
            rw [hempty]; exact List.mem_append_left _ hb
          exact hid b hb'
        rw [exec_append, h.spec, Option.bind_some]
        simp only [List.nil_append, List.map_cons, List.map_nil, exec, Spec.step, Spec.openAccount,
          if_pos (And.intro hzero htab), Option.bind_some]
        exact congrArg some hover.symm
      · refine h.db.close_new fun y hy => ?_
        exact (Function.update_of_ne hy ..).trans (hother y hy)
      · intro y ty hty id hl b hb
        have hne : y ≠ w.db.nextXid := fun e => by rw [e, hnone] at hty; cases hty
        have hy' := (Function.update_of_ne hne (some ({ now := env.now, work := { accounts := [a] } } : Txn))
          (w.db.begin env.now).txns).trans ((hother y hne).trans hty)
        exact hdb.commit_frame hx' hy' hne hl hb

include h in
theorem step {l : Label} {w' : World} (hs : w.step cfg l = some w') : Inv cfg w' := by
  cases l with
  | invoke c key intent => exact h.invoke hs
  | acquire c => exact h.acquire hs
  | run c env => exact h.run hs
  | fault c err => exact h.fault hs
  | lostAck c err => exact h.lostAck hs
  | cancel c took => exact h.cancel hs
  | create process env name currency flag => exact h.create hs

omit h in
theorem init : Inv cfg World.init where
  db := DbInv.init
  stored a ha := by cases ha
  spec := rfl
  session c call x hc := by cases hc
  owner c c' call call' x hc := by cases hc
  owned x txn hx := by cases hx
  call c call hc := by cases hc
  author tr htr := by cases htr
  held c call hc := by cases hc
  running c hm := by cases hm

omit h in
theorem reach {ok : World → Label → Prop} (hr : Reach (World.step cfg) ok World.init w) : Inv cfg w :=
  hr.invariant (fun _ _ _ hi _ hs => hi.step hs) init

end Inv

end Ledger
