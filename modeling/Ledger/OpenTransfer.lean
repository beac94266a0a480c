import Ledger.TransfersSound

/-!
# A statement of an open transfer

What a statement of the path leads to, from the row locks its transaction holds and the
rows it has read under them, and from nothing about who else uses the database.
-/

namespace Ledger

open Keyed Runs Transfers

namespace Transfers

/-- What a statement may lead an open transaction to: the next point of the path, or a refusal. -/
def Onward (cfg : Config) (t : Tables) (call : Call) (x : Xid) (txn : Txn) : Next → Prop
  | .goto pc => pc.session = some x ∧ SessionOk cfg t { call with pc } x txn ∧
      (∀ y, pc = .rollback y → ∃ r ∈ t.transactions, r.idempotencyKey = call.key)
  | .ret (.error e) => e.typed = true → e.refusal = true
  | .ret (.ok _) | .panic => False

theorem onError_refusal {pc : Pc} (hpc : ∀ x id, pc ≠ .claim x id) (err : SqlxError) :
    ∃ e, pc.onError err = .ret (.error e) ∧ (e.typed = true → e.refusal = true) := by
  cases pc
  case claim x id => exact absurd rfl (hpc x id)
  case adjustFrom | adjustTo | commit =>
    refine ⟨_, rfl, ?_⟩
    split
    · exact fun _ => rfl
    · intro he; cases he
  all_goals exact ⟨_, rfl, fun he => by cases he⟩

section
variable {cfg : Config} {db : Db} {call : Call} {x : Xid} {txn : Txn} (hi : DbInv db) (hx : db.txns x = some txn)
include hx

theorem statement_onward {db' : Db} {s : Stmt} {k : Option Row.Account → Next} {next : Next}
    (hsp : txn.savepoints = [])
    (hok : ∀ work row, db.exec cfg.schema x txn s = .ok (work, row) →
      Onward cfg db.tables call x { txn with work } (k row))
    (herr : ∀ err, db.exec cfg.schema x txn s = .error err →
      Onward cfg db.tables call x { txn with work := {}, aborted := true } (call.pc.onError err))
    (hr : statement cfg db call.pc x s k = some (db', next)) :
    ∃ txn', db' = db.put x txn' ∧ txn'.savepoints = [] ∧ Onward cfg db.tables call x txn' next := by
  rcases statement_some hx hr with ⟨work, row, hex, rfl, rfl⟩ | ⟨err, hex, rfl, rfl⟩
  · exact ⟨_, rfl, hsp, hok work row hex⟩
  · refine ⟨{ txn with work := {}, aborted := true }, ?_, hsp, herr err hex⟩
    simp only [Db.fail, hsp]
    rfl

theorem plain_onward {db' : Db} {s : Stmt} {k : Option Row.Account → Next} {next : Next}
    (hsp : txn.savepoints = []) (hpc : ∀ y id, call.pc ≠ .claim y id)
    (hok : ∀ work row, db.exec cfg.schema x txn s = .ok (work, row) →
      Onward cfg db.tables call x { txn with work } (k row))
    (hr : statement cfg db call.pc x s k = some (db', next)) :
    ∃ txn', db' = db.put x txn' ∧ txn'.savepoints = [] ∧ Onward cfg db.tables call x txn' next := by
  refine statement_onward hx hsp hok (fun err _ => ?_) hr
  obtain ⟨e, he, hkind⟩ := onError_refusal hpc err
  rw [he]
  exact hkind

include hi

theorem claim_onward {id : Uuid} (hpc : call.pc = .claim x id) (hsp : txn.savepoints = [])
    (hok : SessionOk cfg db.tables call x txn) {db' : Db} {next : Next}
    (hr : statement cfg db call.pc x (claimStmt cfg.sha256 id call.key call.intent)
      (fun _ => .goto (.lock x id (lockOrder call.intent) [])) = some (db', next)) :
    ∃ txn', db' = db.put x txn' ∧ txn'.savepoints = [] ∧ Onward cfg db.tables call x txn' next := by
  simp only [SessionOk, hpc] at hok
  obtain ⟨hab, hsh⟩ := hok
  have hover : (txn.work.overlay db.tables).transactions = db.tables.transactions := by
    rw [Work.overlay_transactions (hi.work hx).untruncated, hsh.transactions, List.append_nil]
  refine statement_onward hx hsp (fun work row hex => ?_) (fun err hex => ?_) hr
  · cases hnul : hasNul call.key || hasNul call.intent.description with
    | true => rw [claim_exec_nul hi _ _ _ hnul] at hex; cases hex
    | false =>
      rw [claim_exec hi cfg.sha256 call 0 id id id hnul] at hex
      obtain ⟨_, -, hex⟩ := Res.bind_ok.mp hex
      obtain ⟨_, -, hex⟩ := Res.bind_ok.mp hex
      cases hex
      have hsh' : ({ txn.work with
          transactions := txn.work.transactions ++ [claimRow cfg call x id txn.now] } : Work).Shape
          [claimRow cfg call x id txn.now] [] [] [] := { hsh with transactions := by rw [hsh.transactions]; rfl }
      refine ⟨rfl, ⟨hab, hsh', rfl, ?_, fun a ha => by cases ha⟩, fun _ hy => by cases hy⟩
      unfold lockOrder
      split <;> simp
  · rw [hpc]
    simp only [Pc.onError]
    by_cases hcol : isIdempotencyKeyCollision err = true
    · rw [if_pos hcol]
      refine ⟨rfl, Work.Shape.empty, fun _ _ => ?_⟩
      -- only the key's index reports this, and only for a committed row
      cases hnul : hasNul call.key || hasNul call.intent.description with
      | true =>
        rw [claim_exec_nul hi _ _ _ hnul] at hex
        cases hex; cases hcol
      | false =>
        rw [claim_exec hi cfg.sha256 call 0 id id id hnul] at hex
        rcases Res.bind_error.mp hex with he | ⟨_, -, hex⟩
        · rw [(Db.unique_error he).2] at hcol; cases hcol
        rcases Res.bind_error.mp hex with he | ⟨_, -, hex⟩
        · obtain ⟨q, hq, hqk⟩ := List.any_eq_true.mp (Db.unique_error he).1
          exact ⟨q, hover ▸ hq, of_decide_eq_true hqk⟩
        · cases hex
    · rw [if_neg hcol]
      intro he; cases he

theorem seen_account (hacc : txn.work.accounts = []) (hup : txn.work.updates = []) (id : Uuid) :
    (txn.work.overlay db.tables).accounts.find? (fun a => decide (a.id = id)) = Spec.findAccount db.tables id := by
  have hcur : ∀ a ∈ db.tables.accounts, txn.work.current a = a := by
    intro a _
    refine Work.current_eq fun u hu => ?_
    rw [hup] at hu; cases hu
  rw [Work.overlay_accounts (hi.work hx).untruncated, hacc, List.append_nil, List.map_congr_left hcur, List.map_id']
  rfl

theorem lock_onward {id accountId : Uuid} {todo : List Uuid} {locked : List AccountRow}
    (hpc : call.pc = .lock x id (accountId :: todo) locked) (hv : Validated call.intent) (hsp : txn.savepoints = [])
    (hok : SessionOk cfg db.tables call x txn) {db' : Db} {next : Next}
    (hr : statement cfg db call.pc x (Accounts.fetchForUpdate accountId)
      (afterLock cfg call.intent x id accountId todo locked) = some (db', next)) :
    ∃ txn', db' = db.put x txn' ∧ txn'.savepoints = [] ∧ Onward cfg db.tables call x txn' next := by
  simp only [SessionOk, hpc] at hok
  obtain ⟨hab, hsh, ho, -, hrows⟩ := hok
  refine plain_onward hx hsp (by simp [hpc]) (fun work row hex => ?_) hr
  rcases selectForUpdate_ok hi.bounded hex with ⟨rfl, rfl, -⟩ | ⟨a, rfl, rfl, hfind, -⟩
  · exact fun _ => rfl
  rw [seen_account hi hx hsh.accounts hsh.updates] at hfind
  simp only [afterLock]
  cases hd : AccountRow.decode cfg.decode a with
  | error e => intro he; cases he
  | ok b =>
    obtain ⟨hbid, hrows'⟩ := Inv.locked_rows hfind hd hrows
    have ho' : ((b :: locked).map (·.id)).reverse ++ todo = lockOrder call.intent := by
      rw [← ho, List.map_cons, List.reverse_cons, hbid, List.append_assoc]
      rfl
    have hsh' : ({ txn.work with locks := (accountId, .update) :: txn.work.locks } : Work).Shape
        [claimRow cfg call x id txn.now] [] [] ((b :: locked).map (·.id)) := by
      refine { hsh with locked := fun i hi => ?_, only := fun l hl => ?_ } <;> rw [List.map_cons, hbid] at *
      · rcases List.mem_cons.mp hi with rfl | hi
        · exact List.mem_cons_self ..
        · exact List.mem_cons_of_mem _ (hsh.locked i hi)
      · rcases List.mem_cons.mp hl with rfl | hl
        · exact List.mem_cons_self ..
        · exact List.mem_cons_of_mem _ (hsh.only l hl)
    cases todo with
    | cons i todo => exact ⟨rfl, ⟨hab, hsh', ho', by simp, hrows'⟩, fun _ hy => by cases hy⟩
    | nil =>
      -- both rows are locked
      rw [List.append_nil] at ho'
      have hmem : ∀ i, i ∈ (b :: locked).map (·.id) ↔ i ∈ ids call.intent := by
        intro i
        rw [← List.mem_reverse, ho']
        unfold lockOrder ids
        split
        · rfl
        · simp [or_comm]
      simp only [nextLock]
      rcases afterLocks_spec hv hrows' (fun i hi => List.mem_map.mp ((hmem i).mpr hi)) x id with
        ⟨sender, receiver, s, r, hu, he⟩ | ⟨err, he, -, hkind⟩
      · rw [he]
        refine ⟨rfl, ⟨hab, s, r, hu, ?_⟩, fun _ hy => by cases hy⟩
        exact { hsh' with
          locked := fun i hi => hsh'.locked i ((hmem i).mpr hi)
          only := fun l hl => (hmem _).mp (hsh'.only l hl) }
      · rw [he]
        exact fun _ => hkind

theorem adjust_moved (hstored : ∀ a ∈ db.tables.accounts, a.Stored) {txs : List Row.Transaction}
    {ups : List Row.Account} {es : List Row.Entry} {is : List Uuid} (hsh : txn.work.Shape txs ups es is)
    {a : Row.Account} (ha : Spec.findAccount db.tables a.id = some a) (hid : a.id ∈ is)
    (hup : ∀ u ∈ ups, u.id ≠ a.id)
    {delta : Decimal} (hd : delta.scale ≤ 8) {work : Work} {row : Option Row.Account}
    (hex : db.exec cfg.schema x txn (adjustBalance a.id delta) = .ok (work, row)) :
    ∃ a', Spec.shift a delta.units = some a' ∧ work.Shape txs (a' :: ups) es is := by
  rw [adjust_exec hi hx cfg.schema (hsh.locked _ hid) hsh.accounts (fun u hu => hup u (hsh.updates ▸ hu)) ha
    (hstored a (Spec.findAccount_some ha).1) hd] at hex
  split at hex
  · cases hex
  · rename_i a' hshift
    split at hex
    · cases hex
      exact ⟨a', hshift, Inv.shape_update hsh (Spec.shift_id hshift ▸ hid)⟩
    · cases hex

theorem adjustFrom_onward (hstored : ∀ a ∈ db.tables.accounts, a.Stored) {id : Uuid} {sender receiver : AccountRow}
    (hpc : call.pc = .adjustFrom x id sender receiver) (hsp : txn.savepoints = [])
    (hok : SessionOk cfg db.tables call x txn) {db' : Db} {next : Next}
    (hr : statement cfg db call.pc x (adjustBalance sender.id call.intent.amount.amount.negate)
      (fun _ => .goto (.adjustTo x id sender receiver)) = some (db', next)) :
    ∃ txn', db' = db.put x txn' ∧ txn'.savepoints = [] ∧ Onward cfg db.tables call x txn' next := by
  simp only [SessionOk, hpc] at hok
  obtain ⟨hab, s, r, hu, hsh⟩ := hok
  have hid : s.id = call.intent.fromAccountId := (Spec.findAccount_some hu.admits.sender).2
  refine plain_onward hx hsp (by simp [hpc]) (fun work row hex => ?_) hr
  rw [(decode_ok hu.sender).1] at hex
  have hfind : Spec.findAccount db.tables s.id = some s := by rw [hid]; exact hu.admits.sender
  have hm : s.id ∈ ids call.intent := by rw [hid]; simp [ids]
  have hscale : call.intent.amount.amount.negate.scale ≤ 8 := call.intent.valid.scale
  have hunits : call.intent.amount.amount.negate.units = -call.intent.units := Decimal.units_negate _
  obtain ⟨s', h1, hsh'⟩ := adjust_moved hi hx hstored hsh hfind hm (fun u hu => by cases hu) hscale hex
  exact ⟨rfl, ⟨hab, s, r, s', hu, hunits ▸ h1, hsh'⟩, fun _ hy => by cases hy⟩

theorem adjustTo_onward (hstored : ∀ a ∈ db.tables.accounts, a.Stored) {id eid : Uuid}
    {sender receiver : AccountRow} (hpc : call.pc = .adjustTo x id sender receiver) (hsp : txn.savepoints = [])
    (hok : SessionOk cfg db.tables call x txn) {db' : Db} {next : Next}
    (hr : statement cfg db call.pc x (adjustBalance receiver.id call.intent.amount.amount)
      (fun _ => .goto (.insertCredit x id sender receiver eid)) = some (db', next)) :
    ∃ txn', db' = db.put x txn' ∧ txn'.savepoints = [] ∧ Onward cfg db.tables call x txn' next := by
  simp only [SessionOk, hpc] at hok
  obtain ⟨hab, s, r, s', hu, h1, hsh⟩ := hok
  have hid : r.id = call.intent.toAccountId := (Spec.findAccount_some hu.admits.receiver).2
  have hne : ∀ u ∈ [s'], u.id ≠ r.id := by
    intro u hm
    rw [List.mem_singleton.mp hm, Spec.shift_id h1, hid, (Spec.findAccount_some hu.admits.sender).2]
    exact hu.admits.distinct
  refine plain_onward hx hsp (by simp [hpc]) (fun work row hex => ?_) hr
  rw [(decode_ok hu.receiver).1] at hex
  have hfind : Spec.findAccount db.tables r.id = some r := by rw [hid]; exact hu.admits.receiver
  have hm : r.id ∈ ids call.intent := by rw [hid]; simp [ids]
  obtain ⟨r', h2, hsh'⟩ := adjust_moved hi hx hstored hsh hfind hm hne call.intent.valid.scale hex
  exact ⟨rfl, ⟨hab, s, r, s', r', hu, h1, h2, hsh'⟩, fun _ hy => by cases hy⟩

theorem entry_written (tr : Spec.Transfer) (hxid : tr.xid = x) (hnow : tr.now = txn.now)
    (hpos : 0 < tr.intent.units) {ups : List Row.Account} {es : List Row.Entry} {is : List Uuid}
    (hsh : txn.work.Shape [tr.row cfg.sha256] ups es is)
    {a : Row.Account} (ha : a ∈ db.tables.accounts) (hcur : a.currency = tr.intent.amount.currency.code)
    (hid : a.id ∈ is) {id : Uuid} {direction : Direction} {work : Work} {row : Option Row.Account}
    (hex : db.exec cfg.schema x txn (insertEntry id tr.id a.id direction tr.intent.amount.amount
      tr.intent.amount.currency) = .ok (work, row)) :
    work.Shape [tr.row cfg.sha256] ups (es ++ [tr.entry id a.id direction]) is := by
  have hw := hi.work hx
  have hterms := hw.current_terms (List.mem_append_left _ ha)
  have hview : ∃ b ∈ (txn.work.overlay db.tables).accounts, b.id = a.id ∧
      b.currency = tr.intent.amount.currency.code := by
    refine ⟨txn.work.current a, ?_, congrArg (·.1) hterms, (congrArg (·.2.2.1) hterms).trans hcur⟩
    rw [Work.overlay_accounts hw.untruncated]
    exact List.mem_map_of_mem (List.mem_append_left _ ha)
  have hrow : tr.row cfg.sha256 ∈ txn.work.transactions := by
    rw [hsh.transactions]; exact List.mem_singleton.mpr rfl
  rw [entry_exec hi hx hxid hnow hrow hpos (hsh.locked _ hid) hview] at hex
  obtain ⟨_, -, hex⟩ := Res.bind_ok.mp hex
  cases hex
  exact Inv.shape_entry (e := tr.entry id a.id direction) hsh hid

theorem insertCredit_onward {id cid eid : Uuid} {sender receiver : AccountRow}
    (hpc : call.pc = .insertCredit x id sender receiver cid) (hv : Validated call.intent)
    (hsp : txn.savepoints = []) (hok : SessionOk cfg db.tables call x txn) {db' : Db} {next : Next}
    (hr : statement cfg db call.pc x (insertEntry cid id sender.id .credit call.intent.amount.amount
      call.intent.amount.currency) (fun _ => .goto (.insertDebit x id sender receiver cid eid)) =
      some (db', next)) :
    ∃ txn', db' = db.put x txn' ∧ txn'.savepoints = [] ∧ Onward cfg db.tables call x txn' next := by
  simp only [SessionOk, hpc] at hok
  obtain ⟨hab, s, r, s', r', hu, h1, h2, hsh⟩ := hok
  obtain ⟨hm, hid⟩ := Spec.findAccount_some hu.admits.sender
  refine plain_onward hx hsp (by simp [hpc]) (fun work row hex => ?_) hr
  rw [(decode_ok hu.sender).1] at hex
  have hlocked : s.id ∈ ids call.intent := by rw [hid]; simp [ids]
  have hsh' := entry_written hi hx (call.transfer 0 x id cid cid txn.now) rfl rfl
    (TransferIntent.units_pos hv.2) hsh hm hu.admits.senderCurrency hlocked hex
  rw [hid] at hsh'
  exact ⟨rfl, ⟨hab, s, r, s', r', hu, h1, h2, hsh'⟩, fun _ hy => by cases hy⟩

theorem insertDebit_onward {id cid did : Uuid} {sender receiver : AccountRow}
    (hpc : call.pc = .insertDebit x id sender receiver cid did) (hv : Validated call.intent)
    (hsp : txn.savepoints = []) (hok : SessionOk cfg db.tables call x txn) {db' : Db} {next : Next}
    (hr : statement cfg db call.pc x (insertEntry did id receiver.id .debit call.intent.amount.amount
      call.intent.amount.currency) (fun _ => .goto (.commit x id sender receiver cid did)) = some (db', next)) :
    ∃ txn', db' = db.put x txn' ∧ txn'.savepoints = [] ∧ Onward cfg db.tables call x txn' next := by
  simp only [SessionOk, hpc] at hok
  obtain ⟨hab, s, r, s', r', hu, h1, h2, hsh⟩ := hok
  obtain ⟨hm, hid⟩ := Spec.findAccount_some hu.admits.receiver
  refine plain_onward hx hsp (by simp [hpc]) (fun work row hex => ?_) hr
  rw [(decode_ok hu.receiver).1] at hex
  have hlocked : r.id ∈ ids call.intent := by rw [hid]; simp [ids]
  have hsh' := entry_written hi hx (call.transfer 0 x id cid did txn.now) rfl rfl
    (TransferIntent.units_pos hv.2) hsh hm hu.admits.receiverCurrency hlocked hex
  rw [hid] at hsh'
  exact ⟨rfl, ⟨hab, s, r, s', r', hu, h1, h2, hsh'⟩, fun _ hy => by cases hy⟩

/-- The `COMMIT` of a transfer is one step of the sequential ledger on the tables it finds. -/
theorem commit_step {id cid did : Uuid} {sender receiver : AccountRow}
    (hpc : call.pc = .commit x id sender receiver cid did) (hok : SessionOk cfg db.tables call x txn) {db' : Db}
    (hcm : db.commit x txn = .ok db') (c : Nat) :
    (∀ q ∈ db.tables.transactions, q.idempotencyKey ≠ call.key ∧ q.id ≠ id) ∧
      Spec.step cfg.sha256 cfg.decode db.tables (.transfer (call.transfer c x id cid did txn.now)) =
        some db'.tables := by
  simp only [SessionOk, hpc] at hok
  obtain ⟨hab, s, r, s', r', hu, h1, h2, hsh⟩ := hok
  have hw := hi.work hx
  have hrow : claimRow cfg call x id txn.now ∈ txn.work.transactions := by
    rw [hsh.transactions]; exact List.mem_singleton.mpr rfl
  have hnew : ∀ q ∈ db.tables.transactions, q.idempotencyKey ≠ call.key ∧ q.id ≠ id := fun q hq =>
    ⟨(distinct_append.mp hw.keys).2.2 q hq _ hrow, (distinct_append.mp hw.transactionIds).2.2 q hq _ hrow⟩
  have hne : s'.id ≠ r'.id := by
    rw [Spec.shift_id h1, Spec.shift_id h2, (Spec.findAccount_some hu.admits.sender).2,
      (Spec.findAccount_some hu.admits.receiver).2]
    exact hu.admits.distinct
  have hover : txn.work.overlay db.tables =
      Spec.settled cfg.sha256 db.tables (call.transfer c x id cid did txn.now) s' r' :=
    hsh.settled hw.untruncated hne
  refine ⟨hnew, (Spec.transfer_iff hi.tables.accountIds).mpr ⟨fun q hq => (hnew q hq).1, s, r, s', r',
    hu.admits, h1, h2, ?_⟩⟩
  rcases Db.commit_ok hcm with ⟨hab', -⟩ | ⟨-, -, rfl⟩
  · rw [hab] at hab'; cases hab'
  · exact hover

end

end Transfers

end Ledger
