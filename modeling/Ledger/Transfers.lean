import Ledger.Spec

/-!
# The transfer path

`execute_once` as a state machine: one state per await point, holding what the
function has in its local variables there. A step runs the statement the call is
waiting on and the code up to the next one. Leaving the function drops its database
transaction, which the driver rolls back before the connection goes back to the pool.
-/

namespace Ledger

/-- What the service is built from and linked with. Calls are spread over processes,
each with a pool of its own; `fastPath` is off only to study `execute_once` without
its first lookup. -/
structure Config where
  schema : Schema := {}
  sha256 : List UInt8 → Vector UInt8 32
  decode : Decode
  process : Nat → Nat
  poolSize : Nat → Nat
  fastPath : Bool := true

/-- What the surroundings decide in a step: the next generated UUID, the database's
clock, and the order in which a query finds its rows. -/
structure Env where
  id : Uuid
  now : Timestamp
  scan : List Row.Entry

namespace Transfers

def MAX_CONFLICT_RETRIES : Nat := 3

inductive Pc
  | lookup
  | begin
  | claim (x : Xid) (id : Uuid)
  | rollback (x : Xid)
  | relookup
  | lock (x : Xid) (id : Uuid) (todo : List Uuid) (locked : List AccountRow)
  | adjustFrom (x : Xid) (id : Uuid) (sender receiver : AccountRow)
  | adjustTo (x : Xid) (id : Uuid) (sender receiver : AccountRow)
  | insertCredit (x : Xid) (id : Uuid) (sender receiver : AccountRow) (creditId : Uuid)
  | insertDebit (x : Xid) (id : Uuid) (sender receiver : AccountRow) (creditId debitId : Uuid)
  | commit (x : Xid) (id : Uuid) (sender receiver : AccountRow) (creditId debitId : Uuid)
  | getTransaction (outcome : TransferOutcome) (id : Uuid)
  | getEntries (outcome : TransferOutcome) (id : Uuid) (transaction : Transaction)
  | done (r : Except LedgerError TransferResult)
  | cancelled
  | panicked
deriving DecidableEq

def Pc.session : Pc → Option Xid
  | claim x .. | rollback x | lock x .. | adjustFrom x .. | adjustTo x .. | insertCredit x .. | insertDebit x ..
  | commit x .. => some x
  | _ => none

def Pc.running : Pc → Bool
  | done _ | cancelled | panicked => false
  | _ => true

structure Call where
  key : String
  intent : TransferIntent
  attempt : Nat
  pc : Pc
deriving DecidableEq

/-- The transfer a call carries out in the database transaction `xid`. -/
def Call.transfer (call : Call) (c : Nat) (xid : Xid) (id creditId debitId : Uuid) (now : Timestamp) :
    Spec.Transfer where
  call := c
  key := call.key
  intent := call.intent
  id := id
  creditId := creditId
  debitId := debitId
  now := now
  xid := xid

inductive Next
  | goto (pc : Pc)
  | ret (r : Except LedgerError TransferResult)
  | panic

/-! ## The statements -/

def claimStmt (sha256 : List UInt8 → Vector UInt8 32) (id : Uuid) (key : String) (intent : TransferIntent) : Stmt :=
  .insertTransaction
    { id := .val id
      idempotencyKey := .val key
      requestHash := .val (intent.requestHash sha256).toList
      description := .val intent.description }

/-- `UPDATE accounts SET balance = balance + $1 WHERE id = $2` -/
def adjustBalance (accountId : Uuid) (delta : Decimal) : Stmt :=
  .updateAccounts (fun a => a.id = accountId) fun a =>
    { id := some a.id
      name := some a.name
      currency := some a.currency
      balance := some (a.balance.toLiteral.add (Literal.ofDecimal delta))
      allowsNegativeBalance := some a.allowsNegativeBalance
      createdAt := some a.createdAt }

def insertEntry (id transactionId accountId : Uuid) (direction : Direction) (amount : Decimal)
    (currency : Currency) : Stmt :=
  .insertEntry
    { id := .val id
      transactionId := .val transactionId
      accountId := .val accountId
      direction := .val direction
      amount := .val (Literal.ofDecimal amount)
      currency := .val currency.code }

/-! ## The code between them -/

section
variable (cfg : Config) (key : String) (intent : TransferIntent)

def replay (record : IdempotencyRecord) : Next :=
  if record.requestHash ≠ (intent.requestHash cfg.sha256).toList then .ret (.error (.idempotencyKeyConflict key))
  else .goto (.getTransaction .replayed record.transactionId)

def validate : Next :=
  if intent.fromAccountId = intent.toAccountId then .ret (.error .selfTransfer)
  else if !intent.amount.isPositive then .ret (.error .nonPositiveAmount)
  else .goto .begin

def start : Next := if cfg.fastPath then .goto .lookup else validate intent

def afterLookup : Option IdempotencyRecord → Next
  | some record => replay cfg key intent record
  | none => validate intent

def afterRelookup : Option IdempotencyRecord → Next
  | some record => replay cfg key intent record
  | none => .ret (.error (.validation "idempotency key collided but no transaction was found"))

/-- Ascending order of the two ids. -/
def lockOrder : List Uuid :=
  if intent.toAccountId < intent.fromAccountId then [intent.toAccountId, intent.fromAccountId]
  else [intent.fromAccountId, intent.toAccountId]

/-- The checks under both locks; indexing the map of locked rows panics on a missing key. -/
def afterLocks (x : Xid) (id : Uuid) (locked : List AccountRow) : Next :=
  match locked.find? (·.id = intent.fromAccountId), locked.find? (·.id = intent.toAccountId) with
  | some sender, some receiver =>
    match [sender, receiver].find? (·.currency ≠ intent.amount.currency) with
    | some account => .ret (.error
        (.accountCurrencyMismatch account.id account.currency.code intent.amount.currency.code))
    | none =>
      if !sender.allowsNegativeBalance && sender.balance.lt intent.amount.amount then
        .ret (.error (.insufficientFunds sender.id))
      else .goto (.adjustFrom x id sender receiver)
  | _, _ => .panic

def nextLock (x : Xid) (id : Uuid) (todo : List Uuid) (locked : List AccountRow) : Next :=
  match todo with
  | [] => afterLocks intent x id locked
  | _ :: _ => .goto (.lock x id todo locked)

def afterLock (x : Xid) (id accountId : Uuid) (todo : List Uuid) (locked : List AccountRow) :
    Option Row.Account → Next
  | none => .ret (.error (.accountNotFound accountId))
  | some row => match AccountRow.decode cfg.decode row with
    | .error e => .ret (.error (.database e))
    | .ok row => nextLock intent x id todo (row :: locked)

end

def Pc.onError (err : SqlxError) : Pc → Next
  | claim x _ => if isIdempotencyKeyCollision err then .goto (.rollback x) else .ret (.error (.database err))
  | adjustFrom _ _ sender _ =>
    .ret (.error (if isOverdraftViolation err then .insufficientFunds sender.id else .database err))
  | adjustTo _ _ _ receiver =>
    .ret (.error (if isOverdraftViolation err then .insufficientFunds receiver.id else .database err))
  | commit _ _ sender .. =>
    .ret (.error (if isOverdraftViolation err then .insufficientFunds sender.id else .database err))
  | _ => .ret (.error (.database err))

/-- A statement inside the call's database transaction; `none` while it has to wait. -/
def statement (cfg : Config) (db : Db) (pc : Pc) (x : Xid) (s : Stmt) (k : Option Row.Account → Next) :
    Option (Db × Next) :=
  (db.txns x).bind fun txn =>
    match db.exec cfg.schema x txn s with
    | .ok (work, row) => some (db.install x txn work, k row)
    | .error err => some (db.fail x txn, pc.onError err)
    | .wait _ => none

/-- One step of `execute_once` on the database, from one await point to the next. -/
def Call.run (cfg : Config) (db : Db) (call : Call) (env : Env) : Option (Db × Next) :=
  let intent := call.intent
  let amount := intent.amount.amount
  let currency := intent.amount.currency
  match call.pc with
  | .lookup =>
    some (db, afterLookup cfg call.key intent (Transactions.findByIdempotencyKey db.tables call.key))
  | .begin => some (db.begin env.now, .goto (.claim db.nextXid env.id))
  | .claim x id =>
    statement cfg db call.pc x (claimStmt cfg.sha256 id call.key intent) fun _ =>
      .goto (.lock x id (lockOrder intent) [])
  | .rollback x => some (db.close x, .goto .relookup)
  | .relookup =>
    some (db, afterRelookup cfg call.key intent (Transactions.findByIdempotencyKey db.tables call.key))
  | .lock x id [] locked => some (db, afterLocks intent x id locked)
  | .lock x id (accountId :: todo) locked =>
    statement cfg db call.pc x (Accounts.fetchForUpdate accountId) (afterLock cfg intent x id accountId todo locked)
  | .adjustFrom x id sender receiver =>
    statement cfg db call.pc x (adjustBalance sender.id amount.negate) fun _ =>
      .goto (.adjustTo x id sender receiver)
  | .adjustTo x id sender receiver =>
    statement cfg db call.pc x (adjustBalance receiver.id amount) fun _ =>
      .goto (.insertCredit x id sender receiver env.id)
  | .insertCredit x id sender receiver creditId =>
    statement cfg db call.pc x (insertEntry creditId id sender.id .credit amount currency) fun _ =>
      .goto (.insertDebit x id sender receiver creditId env.id)
  | .insertDebit x id sender receiver creditId debitId =>
    statement cfg db call.pc x (insertEntry debitId id receiver.id .debit amount currency) fun _ =>
      .goto (.commit x id sender receiver creditId debitId)
  | .commit x id _ _ _ _ => (db.txns x).map fun txn =>
    match db.commit x txn with
    | .ok db' => (db', .goto (.getTransaction .created id))
    | .error err => (db.close x, call.pc.onError err)
  | .getTransaction outcome id => some (db,
      match Transactions.fetchTransaction db.tables id with
      | none => .ret (.error (.transactionNotFound id))
      | some transaction => .goto (.getEntries outcome id transaction))
  | .getEntries outcome id transaction =>
    if env.scan.Perm (Transactions.entriesOf db.tables id) then
      some (db, .ret ((Transactions.detail transaction (Transactions.fetchEntries cfg.decode env.scan)).map
        fun detail => { outcome, detail }))
    else none
  | .done _ | .cancelled | .panicked => none

def startPc (cfg : Config) (intent : TransferIntent) : Pc :=
  match start cfg intent with
  | .goto pc => pc
  | .ret r => .done r
  | .panic => .panicked

/-- `execute`: a conflict starts another attempt, anything else is the answer. -/
def Call.finish (cfg : Config) (call : Call) (r : Except LedgerError TransferResult) : Call :=
  match r with
  | .error (.database err) =>
    if isRetryableConflict err && call.attempt < MAX_CONFLICT_RETRIES then
      { call with attempt := call.attempt + 1, pc := startPc cfg call.intent }
    else { call with pc := .done r }
  | r => { call with pc := .done r }

def Call.follow (cfg : Config) (call : Call) : Next → Call
  | .goto pc => { call with pc }
  | .ret r => call.finish cfg r
  | .panic => { call with pc := .panicked }

end Transfers

/-! ## The service -/

open Transfers

/-- The whole system. `held` are the calls with a connection checked out; `log` is
the order in which accounts and transfers were committed, kept for the proofs only. -/
structure World where
  db : Db
  calls : Nat → Option Call
  held : List Nat
  log : List Spec.Event

namespace World

def init : World where
  db := Db.init
  calls := fun _ => none
  held := []
  log := []

def free (cfg : Config) (w : World) (process : Nat) : Bool :=
  decide ((w.held.filter fun c => cfg.process c = process).length < cfg.poolSize process)

/-- A call moves on. It keeps its connection only while its transaction is open. -/
def moveTo (w : World) (c : Nat) (call : Call) (db : Db) (log : List Spec.Event) : World where
  db := db
  calls := Function.update w.calls c (some call)
  held := if call.pc.session.isSome then w.held else w.held.filter (· ≠ c)
  log := log

/-- What is left of the call's database transaction when its handle is dropped. -/
def drop (db : Db) (pc : Pc) : Db :=
  match pc.session with
  | some x => db.close x
  | none => db

def leave (db : Db) (pc : Pc) : Next → Db
  | .goto _ => db
  | .ret _ | .panic => drop db pc

/-- The effect of a `COMMIT` that succeeds, and the transfer it makes permanent. -/
def landing (db : Db) (c : Nat) (call : Call) : Option (Db × Spec.Event) :=
  match call.pc with
  | .commit x id _ _ creditId debitId => (db.txns x).bind fun txn =>
    match db.commit x txn with
    | .ok db' => some (db', .transfer (call.transfer c x id creditId debitId txn.now))
    | .error _ => none
  | _ => none

end World

inductive Label
  /-- a client's request arrives -/
  | invoke (c : Nat) (key : String) (intent : TransferIntent)
  | acquire (c : Nat)
  | run (c : Nat) (env : Env)
  /-- the pool, the connection or a statement fails -/
  | fault (c : Nat) (err : SqlxError)
  /-- the `COMMIT` took effect but is reported as an error -/
  | lostAck (c : Nat) (err : SqlxError)
  /-- the call's future is dropped; a `COMMIT` under way may still take effect -/
  | cancel (c : Nat) (landed : Bool)
  | create (process : Nat) (env : Env) (name : String) (currency : Currency) (allowsNegativeBalance : Bool)

namespace World

def invoke (cfg : Config) (w : World) (c : Nat) (key : String) (intent : TransferIntent) : Option World :=
  match w.calls c with
  | some _ => none
  | none =>
    let call : Call := { key, intent, attempt := 0, pc := startPc cfg intent }
    some { w with calls := Function.update w.calls c (some call) }

def acquire (cfg : Config) (w : World) (c : Nat) (call : Call) : Option World :=
  if call.pc.running ∧ call.pc.session = none ∧ c ∉ w.held ∧ w.free cfg (cfg.process c) then
    some { w with held := c :: w.held }
  else none

def run (cfg : Config) (w : World) (c : Nat) (call : Call) (env : Env) : Option World :=
  if c ∈ w.held then
    (call.run cfg w.db env).map fun (db, next) =>
      w.moveTo c (call.follow cfg next) (leave db call.pc next) (w.log ++ ((landing w.db c call).map (·.2)).toList)
  else none

def fault (cfg : Config) (w : World) (c : Nat) (call : Call) (err : SqlxError) : Option World :=
  if call.pc.running ∧ err.spontaneous then
    let next := call.pc.onError err
    some (w.moveTo c (call.follow cfg next) (leave w.db call.pc next) w.log)
  else none

def lostAck (cfg : Config) (w : World) (c : Nat) (call : Call) (err : SqlxError) : Option World :=
  if err.spontaneous then
    (landing w.db c call).map fun (db, ev) => w.moveTo c (call.follow cfg (call.pc.onError err)) db (w.log ++ [ev])
  else none

def cancel (w : World) (c : Nat) (call : Call) (took : Bool) : Option World :=
  let gone := { call with pc := .cancelled }
  if took then (landing w.db c call).map fun (db, ev) => w.moveTo c gone db (w.log ++ [ev])
  else if call.pc.running then some (w.moveTo c gone (drop w.db call.pc) w.log)
  else none

def create (cfg : Config) (w : World) (process : Nat) (env : Env) (name : String) (currency : Currency)
    (allowsNegativeBalance : Bool) : Option World :=
  if w.free cfg process then
    (Accounts.create cfg.schema cfg.decode w.db env.id env.now name currency allowsNegativeBalance).map
      fun (db, rows, _) => { w with db, log := w.log ++ rows.map .account }
  else none

def step (cfg : Config) (w : World) : Label → Option World
  | .invoke c key intent => w.invoke cfg c key intent
  | .acquire c => (w.calls c).bind fun call => w.acquire cfg c call
  | .run c env => (w.calls c).bind fun call => w.run cfg c call env
  | .fault c err => (w.calls c).bind fun call => w.fault cfg c call err
  | .lostAck c err => (w.calls c).bind fun call => w.lostAck cfg c call err
  | .cancel c took => (w.calls c).bind fun call => w.cancel c call took
  | .create process env name currency funding => w.create cfg process env name currency funding

/-! ## What a step requires, and where it leads -/

section
variable {cfg : Config} {w w' : World} {c : Nat}

theorem step_invoke {key : String} {intent : TransferIntent} (hs : w.step cfg (.invoke c key intent) = some w') :
    w.calls c = none ∧ w' = { w with
      calls := Function.update w.calls c (some { key, intent, attempt := 0, pc := startPc cfg intent }) } := by
  simp only [step, invoke] at hs
  split at hs
  · cases hs
  · rename_i hnone
    cases hs
    exact ⟨hnone, rfl⟩

theorem step_acquire (hs : w.step cfg (.acquire c) = some w') :
    ∃ call, w.calls c = some call ∧ call.pc.running = true ∧ call.pc.session = none ∧ c ∉ w.held ∧
      w.free cfg (cfg.process c) = true ∧ w' = { w with held := c :: w.held } := by
  obtain ⟨call, hc, hs⟩ := Option.bind_eq_some_iff.mp hs
  unfold acquire at hs
  split at hs
  · rename_i hcond
    cases hs
    exact ⟨call, hc, hcond.1, hcond.2.1, hcond.2.2.1, hcond.2.2.2, rfl⟩
  · cases hs

theorem step_run {env : Env} (hs : w.step cfg (.run c env) = some w') :
    ∃ call db next, w.calls c = some call ∧ c ∈ w.held ∧ call.run cfg w.db env = some (db, next) ∧
      w' = w.moveTo c (call.follow cfg next) (leave db call.pc next)
        (w.log ++ ((landing w.db c call).map (·.2)).toList) := by
  obtain ⟨call, hc, hs⟩ := Option.bind_eq_some_iff.mp hs
  unfold run at hs
  split at hs
  · rename_i hm
    obtain ⟨⟨db, next⟩, hr, rfl⟩ := Option.map_eq_some_iff.mp hs
    exact ⟨call, db, next, hc, hm, hr, rfl⟩
  · cases hs

theorem step_fault {err : SqlxError} (hs : w.step cfg (.fault c err) = some w') :
    ∃ call, w.calls c = some call ∧ call.pc.running = true ∧ err.spontaneous = true ∧
      w' = w.moveTo c (call.follow cfg (call.pc.onError err)) (leave w.db call.pc (call.pc.onError err)) w.log := by
  obtain ⟨call, hc, hs⟩ := Option.bind_eq_some_iff.mp hs
  unfold fault at hs
  split at hs
  · rename_i hcond
    cases hs
    exact ⟨call, hc, hcond.1, hcond.2, rfl⟩
  · cases hs

theorem step_lostAck {err : SqlxError} (hs : w.step cfg (.lostAck c err) = some w') :
    ∃ call db ev, w.calls c = some call ∧ err.spontaneous = true ∧ landing w.db c call = some (db, ev) ∧
      w' = w.moveTo c (call.follow cfg (call.pc.onError err)) db (w.log ++ [ev]) := by
  obtain ⟨call, hc, hs⟩ := Option.bind_eq_some_iff.mp hs
  unfold lostAck at hs
  split at hs
  · rename_i he
    obtain ⟨⟨db, ev⟩, hl, rfl⟩ := Option.map_eq_some_iff.mp hs
    exact ⟨call, db, ev, hc, he, hl, rfl⟩
  · cases hs

theorem step_cancel {took : Bool} (hs : w.step cfg (.cancel c took) = some w') :
    ∃ call, w.calls c = some call ∧
      ((took = true ∧ ∃ db ev, landing w.db c call = some (db, ev) ∧
          w' = w.moveTo c { call with pc := .cancelled } db (w.log ++ [ev])) ∨
        (took = false ∧ call.pc.running = true ∧
          w' = w.moveTo c { call with pc := .cancelled } (drop w.db call.pc) w.log)) := by
  obtain ⟨call, hc, hs⟩ := Option.bind_eq_some_iff.mp hs
  unfold cancel at hs
  refine ⟨call, hc, ?_⟩
  cases took with
  | true =>
    obtain ⟨⟨db, ev⟩, hl, rfl⟩ := Option.map_eq_some_iff.mp hs
    exact Or.inl ⟨rfl, db, ev, hl, rfl⟩
  | false =>
    rw [if_neg Bool.false_ne_true] at hs
    split at hs
    · rename_i hrun
      cases hs
      exact Or.inr ⟨rfl, hrun, rfl⟩
    · cases hs

theorem step_create {process : Nat} {env : Env} {name : String} {currency : Currency} {flag : Bool}
    (hs : w.step cfg (.create process env name currency flag) = some w') :
    w.free cfg process = true ∧ ∃ db rows answer,
      Accounts.create cfg.schema cfg.decode w.db env.id env.now name currency flag = some (db, rows, answer) ∧
      w' = { w with db, log := w.log ++ rows.map .account } := by
  simp only [step, create] at hs
  split at hs
  · rename_i hfree
    obtain ⟨⟨db, rows, answer⟩, hcr, rfl⟩ := Option.map_eq_some_iff.mp hs
    exact ⟨hfree, db, rows, answer, hcr, rfl⟩
  · cases hs

end

end World

end Ledger
