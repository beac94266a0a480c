import Ledger.Serialize
import Ledger.Reads
import Ledger.Replays

/-!
# Responses

The single mapping of errors onto HTTP, and what a client may conclude from the answer to
its transfer, down to the texts in the body. A client that is not told what became of its
request sends it again under the same key; `retried` says where that leads.
-/

namespace Ledger

open Keyed Runs Transfers

/-! ## The mapping -/

def MoneyError.text : MoneyError → String
  | tooManyDecimalPlaces scale => "amount has " ++ scale.repr ++
      " decimal places but at most 8 are representable; storing it would silently round"
  | magnitudeTooLarge => "amount magnitude exceeds the 12 integer digits available"
  | currencyMismatch lhs rhs => "cannot combine " ++ lhs.code ++ " and " ++ rhs.code ++
      ": amounts in different currencies are not comparable"
  | unknownCurrency value => "'" ++ value ++ "' is not a recognised ISO 4217 currency code"

/-- The message of the error's body: `Display`, but for a database error, which is logged
and not shown. -/
def LedgerError.message : LedgerError → String
  | accountNotFound id => "account " ++ id.text ++ " does not exist"
  | transactionNotFound id => "transaction " ++ id.text ++ " does not exist"
  | insufficientFunds accountId => "account " ++ accountId.text ++ " has insufficient funds for this transfer"
  | accountCurrencyMismatch accountId accountCurrency transferCurrency => "account " ++ accountId.text ++
      " is denominated in " ++ accountCurrency ++ ", but the transfer is in " ++ transferCurrency
  | selfTransfer => "a transfer must move money between two different accounts"
  | nonPositiveAmount => "transfer amount must be greater than zero"
  | fundingAccountCreationDisabled =>
    "opening an account exempt from the non-negative balance constraint is disabled; " ++
      "it is an operator decision, not a caller's"
  | missingIdempotencyKey => "the Idempotency-Key header is required for this endpoint"
  | idempotencyKeyConflict key => "idempotency key '" ++ key ++ "' was already used with a different payload"
  | validation message => message
  | money err => err.text
  | database _ => "an internal error occurred"

structure Response where
  status : Nat
  body : Option Json

def errorBody (code message : String) : Json :=
  .object [("error", .object [("code", .string code), ("message", .string message)])]

def LedgerError.intoResponse (e : LedgerError) : Response := ⟨e.status, some (errorBody e.code e.message)⟩

def Http.handlePanic : Response := ⟨500, some (errorBody "internal_error" "an internal error occurred")⟩

/-- What the client of a transfer is sent when its call is over; a call that is cancelled
has run into the request timeout, unless nobody is there to be answered. -/
def Transfers.Pc.respond (time : Timestamp → String) : Pc → Option Response
  | .done (.ok ⟨.created, detail⟩) => some ⟨201, some (detail.serialize time)⟩
  | .done (.ok ⟨.replayed, detail⟩) => some ⟨200, some (detail.serialize time)⟩
  | .done (.error e) => some e.intoResponse
  | .panicked => some Http.handlePanic
  | .cancelled => some ⟨408, none⟩
  | _ => none

def Response.detail (f : Formats) (r : Response) : Option TransactionDetail :=
  r.body.bind (TransactionDetail.deserialize f)

/-! ## What a detail tells -/

/-- The transfer, as it was asked for. -/
structure TransactionDetail.Tells (d : TransactionDetail) (tr : Spec.Transfer) : Prop where
  transaction : d.transaction = ⟨tr.id, tr.key, tr.intent.description, tr.now⟩
  sides : (d.entries.map fun e => (e.direction, e.accountId)).Perm
    [(.credit, tr.intent.fromAccountId), (.debit, tr.intent.toAccountId)]
  amounts : ∀ e ∈ d.entries, e.transactionId = tr.id ∧ tr.intent.amount.Same e.amount

theorem Entry.same_sides {es es' : List Entry} (h : List.Forall₂ Entry.Same es es') :
    (es'.map fun e => (e.direction, e.accountId)) = es.map fun e => (e.direction, e.accountId) := by
  induction h with
  | nil => rfl
  | cons he _ ih => rw [List.map_cons, List.map_cons, ih, he.rest]

theorem Entry.same_mem {es es' : List Entry} (h : List.Forall₂ Entry.Same es es') {e' : Entry} (he' : e' ∈ es') :
    ∃ e ∈ es, e.Same e' := by
  induction h with
  | nil => cases he'
  | cons hsame _ ih =>
    rcases List.mem_cons.mp he' with rfl | hin
    · exact ⟨_, List.mem_cons_self .., hsame⟩
    · obtain ⟨e, he, hs⟩ := ih hin
      exact ⟨e, List.mem_cons_of_mem _ he, hs⟩

theorem TransactionDetail.Tells.same {d d' : TransactionDetail} {tr : Spec.Transfer} (h : d.Tells tr)
    (hs : d.Same d') : d'.Tells tr := by
  refine ⟨hs.transaction.trans h.transaction, Entry.same_sides hs.entries ▸ h.sides, fun e' he' => ?_⟩
  obtain ⟨e, he, hsame⟩ := Entry.same_mem hs.entries he'
  obtain ⟨hid, hm⟩ := h.amounts e he
  rw [hsame.rest]
  exact ⟨hid, hsame.amount.currency.trans hm.currency, hsame.amount.amount.trans hm.amount⟩

theorem Spec.Transfer.detail_tells (cfg : Config) (tr : Spec.Transfer) {m : Money}
    (hm : Money.new (cfg.decode.decimal tr.intent.units) tr.intent.amount.currency = .ok m) :
    (tr.detail cfg.sha256 m).Tells tr := by
  obtain ⟨m', hm', hval, hcur⟩ := Spec.money_ok cfg.decode tr.intent
  have he : m' = m := Except.ok.inj (hm'.symm.trans hm)
  subst he
  refine ⟨rfl, ?_, fun e he => ?_⟩
  · unfold Spec.Transfer.detail
    rcases tr.sorted with h | h <;> rw [h]
    · exact List.Perm.refl _
    · exact List.Perm.swap _ _ _
  · obtain ⟨row, hrow, rfl⟩ := Spec.Transfer.mem_detail he
    refine ⟨?_, hcur, hval⟩
    simp only [Spec.Transfer.entries, List.mem_cons, List.not_mem_nil, or_false] at hrow
    rcases hrow with rfl | rfl <;> rfl

theorem Spec.Transfer.body_tells {f : Formats} {time : Timestamp → String} (hf : f.Reads time) (cfg : Config)
    (tr : Spec.Transfer) {m : Money}
    (hm : Money.new (cfg.decode.decimal tr.intent.units) tr.intent.amount.currency = .ok m) :
    ∃ d, TransactionDetail.deserialize f ((tr.detail cfg.sha256 m).serialize time) = some d ∧ d.Tells tr := by
  have htells := tr.detail_tells cfg hm
  obtain ⟨d, hd, hsame⟩ := TransactionDetail.deserialize_serialize hf (d := tr.detail cfg.sha256 m) fun e he => by
    rw [(htells.amounts e he).2.currency]
    exact tr.intent.valid.iso
  exact ⟨d, hd, htells.same hsame⟩

theorem LedgerError.refusal_status {e : LedgerError} (h : e.refusal = true) : e.status ∈ [404, 409, 422] := by
  cases e <;> first | exact absurd h Bool.false_ne_true | (simp only [LedgerError.status]; decide)

theorem LedgerError.untyped {e : LedgerError} (h : e.typed = false) : ∃ err, e = .database err := by
  cases e <;> first | exact absurd h.symm Bool.false_ne_true | exact ⟨_, rfl⟩

/-! ## What a response tells -/

section
variable {cfg : Config} {w : World} (h : Inv cfg w) {c : Nat} {call : Call} (hc : w.calls c = some call)
include h hc

theorem Inv.refused_forever {e : LedgerError} (hd : call.pc = .done (.error e)) (he : e.typed = true) {w' : World}
    (hl : World.Leads cfg w w') : ∀ tr ∈ Spec.transfers w'.log, tr.call ≠ c := by
  have hc' := hl.answered hc (by rw [hd]; rfl)
  exact ((hl.inv h).rejection hc' hd he).1

theorem Inv.responds {f : Formats} {time : Timestamp → String} (hf : f.Reads time) {resp : Response}
    (hresp : call.pc.respond time = some resp) :
    (resp.status ∈ [201, 200] ∧ ∃ d tr, resp.detail f = some d ∧ tr ∈ Spec.transfers w.log ∧ d.Tells tr ∧
      tr.key = call.key ∧ tr.intent.requestHash cfg.sha256 = call.intent.requestHash cfg.sha256 ∧
      (resp.status = 201 → tr.call = c ∧ tr.intent = call.intent)) ∨
    (resp.status ∈ [404, 409, 422] ∧ resp.detail f = none ∧
      ∀ w', World.Leads cfg w w' → ∀ tr ∈ Spec.transfers w'.log, tr.call ≠ c) ∨
    (resp.status ∈ [408, 500] ∧ resp.detail f = none) := by
  unfold Pc.respond at hresp
  split at hresp <;> simp only [Option.some.injEq, reduceCtorEq] at hresp
  case h_1 detail hd =>
    obtain ⟨tr, m, hst, hm, hdet⟩ := h.answer hc hd
    obtain ⟨d, hbody, htells⟩ := tr.body_tells hf cfg hm
    obtain rfl : detail = _ := hdet
    subst hresp
    exact Or.inl ⟨by simp, d, tr, hbody, hst.mem, htells, hst.key, hst.hash,
      fun _ => ⟨hst.own rfl, (h.own hc hst.mem (hst.own rfl)).2⟩⟩
  case h_2 detail hd =>
    obtain ⟨tr, m, hst, hm, hdet⟩ := h.answer hc hd
    obtain ⟨d, hbody, htells⟩ := tr.body_tells hf cfg hm
    obtain rfl : detail = _ := hdet
    subst hresp
    exact Or.inl ⟨by simp, d, tr, hbody, hst.mem, htells, hst.key, hst.hash, fun h => by cases h⟩
  case h_3 e hd =>
    subst hresp
    cases ht : e.typed with
    | false =>
      obtain ⟨err, rfl⟩ := LedgerError.untyped ht
      exact Or.inr (Or.inr ⟨by simp [LedgerError.intoResponse, LedgerError.status], rfl⟩)
    | true =>
      exact Or.inr (Or.inl ⟨LedgerError.refusal_status (h.rejection hc hd ht).2, rfl,
        fun w' hl => h.refused_forever hc hd ht hl⟩)
  case h_4 =>
    subst hresp
    exact Or.inr (Or.inr ⟨by simp [Http.handlePanic], rfl⟩)
  case h_5 =>
    subst hresp
    exact Or.inr (Or.inr ⟨by simp, rfl⟩)

end

/-- **What the response to a transfer tells.** In every state of every run, a response of
201 or 200 carries the committed transfer of the call's key, every amount exact in its
text. Its payload has the hash of the call's, and with 201 the transfer is the call's own,
payload and all. One of 404, 409 or 422 carries no transfer, and the call has moved nothing
and never will; nothing else is sent but 500 and 408, which carry no transfer either. -/
theorem transfer_responses {f : Formats} {time : Timestamp → String} (hf : f.Reads time) (cfg : Config) {w : World}
    (hr : World.Leads cfg World.init w) {c : Nat} {call : Call} (hc : w.calls c = some call) {resp : Response}
    (hresp : call.pc.respond time = some resp) :
    (resp.status ∈ [201, 200] ∧ ∃ d tr, resp.detail f = some d ∧ tr ∈ Spec.transfers w.log ∧ d.Tells tr ∧
      tr.key = call.key ∧ tr.intent.requestHash cfg.sha256 = call.intent.requestHash cfg.sha256 ∧
      (resp.status = 201 → tr.call = c ∧ tr.intent = call.intent)) ∨
    (resp.status ∈ [404, 409, 422] ∧ resp.detail f = none ∧
      ∀ w', World.Leads cfg w w' → ∀ tr ∈ Spec.transfers w'.log, tr.call ≠ c) ∨
    (resp.status ∈ [408, 500] ∧ resp.detail f = none) :=
  (Inv.reach hr).responds hc hf hresp

theorem transfer_responses_sampleRun : ∃ w call resp d, World.Leads (sample true) World.init w ∧
    w.calls 0 = some call ∧ call.pc.respond Nat.repr = some resp ∧ resp.status = 201 ∧
    resp.detail .client = some d ∧ d.transaction.idempotencyKey = "rent-1" := by
  obtain ⟨w, hr, hc, -, -⟩ := sampleRun_leads true
  rcases transfer_responses Formats.client_reads (sample true) hr hc rfl with
    ⟨-, d, tr, hd, -, htells, hkey, -⟩ | ⟨hst, -⟩ | ⟨hst, -⟩
  · exact ⟨w, _, _, d, hr, hc, rfl, rfl, hd, htells.transaction ▸ hkey⟩
  · exact absurd hst (by decide)
  · exact absurd hst (by decide)

/-! ## What an account's body tells -/

def Http.accountResponse (time : Timestamp → String) : Except LedgerError Account → Response
  | .ok account => ⟨200, some (account.serialize time)⟩
  | .error e => e.intoResponse

def Response.balance (r : Response) : Option String :=
  r.body.bind fun body => (body.required 5 2 "balance").bind fun balance =>
    (balance.required 2 0 "amount").bind Json.asString

/-- Accounts are opened in currencies of the table only, as `Currency` promises. -/
def Label.listed : Label → Bool
  | .create _ _ _ currency _ => ISO_4217.contains currency.code
  | _ => true

def World.Listed (_ : World) (l : Label) : Prop := l.listed = true

theorem Decimal.denotes_text (d : Decimal) : Numeral.denotes d.text = some d.toRat := by
  rw [Numeral.denotes, d.parse_text, Option.map_some, d.toRat_numeral]

theorem NewAccount.row_currency {sch : Schema} {now : Timestamp} {id : Uuid} {name code : String} {flag : Bool}
    {row : Row.Account} (h : NewAccount.row sch now
      { id := .val id, name := .val name, currency := .val code, allowsNegativeBalance := .val flag } = .ok row) :
    row.currency = code := by
  simp only [NewAccount.row, Col.eval, Bind.ok, notNull_ok] at h
  obtain ⟨_, _, cu, hcu, _, _, _, _, _, _, cu', hcu', _, _, _, _, _, _, h⟩ := h
  obtain ⟨-, rfl⟩ := text_plain hcu
  cases hcu'
  rw [Row.Account.checks_ok h]

theorem Accounts.create_currency {sch : Schema} {dec : Decode} {db db' : Db} {id : Uuid} {now : Timestamp}
    {name : String} {currency : Currency} {flag : Bool} {rows : List Row.Account}
    {answer : Except LedgerError Account}
    (h : Accounts.create sch dec db id now name currency flag = some (db', rows, answer)) :
    ∀ row ∈ rows, row.currency = currency.code := by
  simp only [Accounts.create] at h
  split at h
  · cases h
  · cases h
    exact fun row hrow => by cases hrow
  · rename_i w r hex
    simp only [Accounts.insertStmt, Db.exec, Db.insertAccount, Res.bind_ok', Res.bind_ok, Res.ofExcept_ok] at hex
    obtain ⟨w', ⟨_, -, row, hrow, _, -, hw⟩, hex⟩ := hex
    cases hw
    cases hex
    split at h <;> cases h
    · exact fun row hrow => by cases hrow
    · intro row' hrow'
      obtain rfl : row' = row := List.mem_singleton.mp hrow'
      exact NewAccount.row_currency hrow

theorem World.step_listed {cfg : Config} {w w' : World} {l : Label} (h : Inv cfg w) (hl : w.Listed l)
    (hs : w.step cfg l = some w') (hiso : ∀ a ∈ w.db.tables.accounts, a.currency ∈ ISO_4217) :
    ∀ a ∈ w'.db.tables.accounts, a.currency ∈ ISO_4217 := by
  rcases h.refines hs with ⟨-, ht⟩ | ⟨ev, hlog, hstep, -⟩
  · rw [ht]
    exact hiso
  cases ev with
  | transfer tr =>
    obtain ⟨-, s, r, s', r', had, hs', hr', ht⟩ := (Spec.transfer_iff h.ledger.ids).mp hstep
    rw [ht]
    intro b hb
    obtain ⟨a, ha, rfl⟩ := List.mem_map.mp hb
    have hterms := Spec.settle_terms h.ledger had hs' hr' ha
    rw [show (Spec.settle s' r' a).currency = a.currency from congrArg (·.2.2.1) hterms]
    exact hiso a ha
  | account row =>
    have hopen : w'.db.tables.accounts = w.db.tables.accounts ++ [row] := by
      simp only [Spec.step, Spec.openAccount] at hstep
      split at hstep
      · rw [← Option.some.inj hstep]
      · cases hstep
    rw [hopen]
    intro a ha
    rcases List.mem_append.mp ha with ha | ha
    · exact hiso a ha
    · obtain rfl : a = row := List.mem_singleton.mp ha
      -- the row was written by the `create` that takes the step
      rcases World.step_log hs with he | ⟨ev, he, hopened, -⟩
      · exact absurd (hlog.symm.trans he) (by simp)
      obtain rfl : Spec.Event.account a = ev := by
        have := hlog.symm.trans he
        simpa using this
      obtain ⟨process, env, name, currency, rfl⟩ := hopened a rfl
      obtain ⟨-, db, rows, answer, hcr, rfl⟩ := World.step_create hs
      have hrows : rows = [a] := by
        have hmap : rows.map Spec.Event.account = [.account a] := by simpa using hlog
        obtain ⟨b, rfl, hb⟩ := List.map_eq_singleton_iff.mp hmap
        cases hb
        rfl
      rw [Accounts.create_currency hcr a (by rw [hrows]; exact List.mem_singleton_self a)]
      exact List.contains_iff_mem.mp hl

theorem World.listed_accounts {cfg : Config} {w : World} (hr : Reach (World.step cfg) World.Listed World.init w) :
    ∀ a ∈ w.db.tables.accounts, a.currency ∈ ISO_4217 :=
  (hr.invariant (P := fun v => Inv cfg v ∧ ∀ a ∈ v.db.tables.accounts, a.currency ∈ ISO_4217)
    (fun _ _ _ hv hl hs => ⟨hv.1.step hs, World.step_listed hv.1 hl hs hv.2⟩) ⟨Inv.init, fun a ha => by cases ha⟩).2

/-- **What the body of an account tells.** In every state of every run, and as long as the
database answers the statement, asking for an account is answered with a 404 if it is not
there, and otherwise with a body that reads back as the account, in which the balance is a
string that denotes exactly what the transfers committed so far have moved. -/
theorem account_responses {f : Formats} {time : Timestamp → String} (hf : f.Reads time) (cfg : Config) {w : World}
    (hr : Reach (World.step cfg) World.Listed World.init w) (id : Uuid) {resp : Response}
    (hresp : resp = Http.accountResponse time (Accounts.get cfg.decode w.db.tables id)) :
    (resp = (LedgerError.accountNotFound id).intoResponse ∧ ∀ a ∈ w.db.tables.accounts, a.id ≠ id) ∨
    ∃ a ∈ w.db.tables.accounts, a.id = id ∧ resp.status = 200 ∧
      (∃ account, resp.body.bind (Account.deserialize f) = some account ∧
        account.Shows a (Spec.net (Spec.transfers w.log) id)) ∧
      ∃ s, resp.balance = some s ∧
      Numeral.denotes s = some ((Spec.net (Spec.transfers w.log) id : ℚ) / 10 ^ 8) := by
  have h := Inv.reach hr
  by_cases hex : ∃ a ∈ w.db.tables.accounts, a.id = id
  · right
    obtain ⟨a, ha, rfl⟩ := hex
    obtain ⟨account, hget, hshows⟩ := h.get_account ha
    have hiso : account.balance.currency.code ∈ ISO_4217 := by
      rw [hshows.currency]
      exact World.listed_accounts hr a ha
    obtain ⟨account', hread, hsame⟩ := Account.deserialize_serialize hf hiso
    rw [hget] at hresp
    subst hresp
    refine ⟨a, ha, rfl, rfl, ⟨account', hread, ?_⟩, account.balance.amount.text, rfl, ?_⟩
    · rw [hsame.rest]
      exact { hshows with
        currency := hsame.balance.currency.trans hshows.currency
        balance := hsame.balance.amount.trans hshows.balance }
    · rw [Decimal.denotes_text, Decimal.toRat, hshows.balance]
      push_cast
      exact congrArg some (by ring)
  · left
    have hne : ∀ a ∈ w.db.tables.accounts, a.id ≠ id := fun a ha he => hex ⟨a, ha, he⟩
    rw [Accounts.get_missing hne] at hresp
    exact ⟨hresp, hne⟩

theorem account_responses_sampleRun : ∃ w resp s, Reach (World.step (sample true)) World.Listed World.init w ∧
    resp = Http.accountResponse Nat.repr (Accounts.get Decode.driver w.db.tables 2) ∧ resp.status = 200 ∧
    resp.balance = some s ∧ Numeral.denotes s = some 5 := by
  have h : (exec (World.step (sample true)) World.init sampleRun).any (fun w => decide (
      Spec.net (Spec.transfers w.log) 2 = 500000000 ∧ w.db.tables.accounts.map (·.id) = [1, 2])) = true := by
    decide +kernel
  obtain ⟨w, hw, h⟩ := (Option.any_eq_true _ _).mp h
  obtain ⟨hnet, hids⟩ := of_decide_eq_true h
  have hlisted : sampleRun.all Label.listed = true := by decide +kernel
  have hr : Reach (World.step (sample true)) World.Listed World.init w :=
    reach_of_exec (fun _ l hl => List.all_eq_true.mp hlisted l hl) hw
  rcases account_responses Formats.client_reads (sample true) hr 2 rfl with
    ⟨-, hne⟩ | ⟨a, -, -, hstatus, -, s, hs, hdenotes⟩
  · have hm : (2 : Uuid) ∈ w.db.tables.accounts.map (·.id) := by rw [hids]; simp
    obtain ⟨a, ha, he⟩ := List.mem_map.mp hm
    exact absurd he (hne a ha)
  · rw [hnet] at hdenotes
    exact ⟨w, _, s, hr, rfl, hstatus, hs, by rw [hdenotes]; norm_num⟩

/-! ## What a transaction's body tells -/

def Http.transactionResponse (time : Timestamp → String) : Except LedgerError TransactionDetail → Response
  | .ok detail => ⟨200, some (detail.serialize time)⟩
  | .error e => e.intoResponse

theorem Inv.told {cfg : Config} {w : World} (h : Inv cfg w) {f : Formats} {time : Timestamp → String}
    (hf : f.Reads time) {c : Nat} {call : Call} (hc : w.calls c = some call) {resp : Response}
    (hresp : call.pc.respond time = some resp) {d : TransactionDetail} (hd : resp.detail f = some d) :
    ∃ tr ∈ Spec.transfers w.log, d.Tells tr := by
  have answered : ∀ {outcome detail}, call.pc = .done (.ok ⟨outcome, detail⟩) →
      TransactionDetail.deserialize f (detail.serialize time) = some d →
      ∃ tr ∈ Spec.transfers w.log, d.Tells tr := by
    intro outcome detail hpc hread
    obtain ⟨tr, m, hst, hm, hdet⟩ := h.answer hc hpc
    obtain ⟨d', hbody, htells⟩ := tr.body_tells hf cfg hm
    obtain rfl : detail = _ := hdet
    rw [hread, Option.some.injEq] at hbody
    exact ⟨tr, hst.mem, hbody ▸ htells⟩
  unfold Pc.respond at hresp
  split at hresp <;> simp only [Option.some.injEq, reduceCtorEq] at hresp <;> subst hresp
  case h_1 detail hpc => exact answered hpc hd
  case h_2 detail hpc => exact answered hpc hd
  case h_3 => cases hd
  case h_4 => cases hd
  case h_5 => cases hd

/-- **What the body of a transaction tells.** Whatever is committed between its two
statements, and as long as the database answers them, asking for a transaction is answered
with a 404 if it was not there, and otherwise with a body that reads back as the committed
transfer, the same however often it is asked for; and whoever was told of this transaction
when it was made, or made again, was told the same transfer. -/
theorem transaction_responses {f : Formats} {time : Timestamp → String} (hf : f.Reads time) (cfg : Config)
    {w w' : World} (hr : World.Leads cfg World.init w) (hl : World.Leads cfg w w') {id : Uuid}
    {scan : List Row.Entry} {answer : Except LedgerError TransactionDetail}
    (hg : Transactions.get cfg.decode w.db.tables w'.db.tables scan id = some answer) {resp : Response}
    (hresp : resp = Http.transactionResponse time answer) :
    (resp = (LedgerError.transactionNotFound id).intoResponse ∧ ∀ r ∈ w.db.tables.transactions, r.id ≠ id) ∨
    ∃ tr ∈ Spec.transfers w.log, tr.id = id ∧ resp.status = 200 ∧ (∃ d, resp.detail f = some d ∧ d.Tells tr) ∧
      (∀ v v', World.Leads cfg w v → World.Leads cfg v v' → ∀ scan' answer',
        Transactions.get cfg.decode v.db.tables v'.db.tables scan' id = some answer' →
        Http.transactionResponse time answer' = resp) ∧
      ∀ v, World.Leads cfg w v → ∀ c call told d, v.calls c = some call → call.pc.respond time = some told →
        told.detail f = some d → d.transaction.id = id → d.Tells tr := by
  have h := Inv.reach hr
  by_cases hex : ∃ r ∈ w.db.tables.transactions, r.id = id
  · right
    obtain ⟨r, hrm, rfl⟩ := hex
    obtain ⟨tr, htr, rfl⟩ := Spec.row_transfer h.spec hrm
    obtain ⟨m, hm, -, -⟩ := Spec.money_ok cfg.decode tr.intent
    obtain ⟨d, hbody, htells⟩ := tr.body_tells hf cfg hm
    rw [h.get_transfer Reach.refl hl htr hm hg] at hresp
    refine ⟨tr, htr, rfl, hresp ▸ rfl, ⟨d, hresp ▸ hbody, htells⟩, fun v v' hv hv' scan' answer' hget => ?_,
      fun v hv c call told d' hc htold hd hid => ?_⟩
    · rw [h.get_transfer hv hv' htr hm hget, hresp]
    · have hiv := hv.inv h
      obtain ⟨tr', htr', htells'⟩ := hiv.told hf hc htold hd
      -- two committed transfers with one id are one
      have he : tr' = tr := (Spec.transfer_ids hiv.spec hiv.keys).eq htr' (hv.transfers htr) (by
        rw [htells'.transaction] at hid
        exact hid)
      exact he ▸ htells'
  · left
    have hne : ∀ r ∈ w.db.tables.transactions, r.id ≠ id := fun r hrm he => hex ⟨r, hrm, he⟩
    rw [Transactions.get_missing hne hg] at hresp
    exact ⟨hresp, hne⟩

theorem transaction_responses_sampleRun : ∃ w resp d, World.Leads (sample true) World.init w ∧
    (∃ answer, Transactions.get Decode.driver w.db.tables w.db.tables [rentPaid.credit, rentPaid.debit] 3 =
        some answer ∧ resp = Http.transactionResponse Nat.repr answer) ∧
    resp.status = 200 ∧ resp.detail .client = some d ∧ d.transaction.idempotencyKey = "rent-1" := by
  have h : (exec (World.step (sample true)) World.init sampleRun).any (fun w => decide (
      Transactions.get Decode.driver w.db.tables w.db.tables [rentPaid.credit, rentPaid.debit] 3 =
        some (.ok rentDetail) ∧ (Spec.transfers w.log).map (·.key) = ["rent-1"])) = true := by decide +kernel
  obtain ⟨w, hw, h⟩ := (Option.any_eq_true _ _).mp h
  obtain ⟨hget, hkeys⟩ := of_decide_eq_true h
  have hr : World.Leads (sample true) World.init w := reach_of_exec (fun _ _ _ => trivial) hw
  rcases transaction_responses Formats.client_reads (sample true) hr Reach.refl hget rfl with
    ⟨he, -⟩ | ⟨tr, htr, -, hstatus, ⟨d, hd, htells⟩, -⟩
  · exact absurd (congrArg Response.status he) (by decide)
  · have hkey : tr.key ∈ ["rent-1"] := hkeys ▸ List.mem_map_of_mem htr
    exact ⟨w, _, d, hr, ⟨_, hget, rfl⟩, hstatus, hd, htells.transaction ▸ List.mem_singleton.mp hkey⟩

/-! ## Sending it again -/

theorem disjoint_success {n : Nat} (h : n ∈ [201, 200]) : n ∉ [404, 409, 422] ∧ n ∉ [408, 500] := by
  simp only [List.mem_cons, List.not_mem_nil, or_false] at h ⊢
  omega

theorem disjoint_refusal {n : Nat} (h : n ∈ [404, 409, 422]) : n ∉ [408, 500] := by
  simp only [List.mem_cons, List.not_mem_nil, or_false] at h ⊢
  omega

theorem Transfers.Call.Late.not_refused {cfg : Config} {tr : Spec.Transfer} {call : Call} (h : call.Late cfg tr)
    (hi : tr.intent = call.intent) {time : Timestamp → String} {resp : Response}
    (hresp : call.pc.respond time = some resp) : resp.status ∉ [404, 409, 422] := by
  unfold Call.Late at h
  unfold Pc.respond at hresp
  split at hresp <;> simp only [Option.some.injEq, reduceCtorEq] at hresp
  case h_3 e hd =>
    rw [hd] at h
    rcases h with ⟨err, rfl⟩ | ⟨-, hne⟩
    · subst hresp
      simp [LedgerError.intoResponse, LedgerError.status]
    · exact absurd (congrArg (·.requestHash cfg.sha256) hi) hne
  all_goals subst hresp; simp [Http.handlePanic]

/-- The calls, the last one first, of a client that sends one request under one key as
often as it likes, but not before the call before is over. The rest of the world does what
it does meanwhile. -/
inductive Attempts (cfg : Config) (key : String) (intent : TransferIntent) : World → List Nat → Prop
  | start {w : World} : World.Leads cfg World.init w → Attempts cfg key intent w []
  | again {w w' : World} {cs : List Nat} {c : Nat} {call : Call} : Attempts cfg key intent w cs → w.calls c = none →
    World.Leads cfg w w' → w'.calls c = some call → call.key = key → call.intent = intent →
    call.pc.running = false → Attempts cfg key intent w' (c :: cs)

section
variable {cfg : Config} {key : String} {intent : TransferIntent}

theorem Attempts.leads {w : World} {cs : List Nat} (h : Attempts cfg key intent w cs) :
    World.Leads cfg World.init w := by
  induction h with
  | start h => exact h
  | again _ _ hl _ _ _ _ ih => exact Reach.trans ih hl

theorem Attempts.over {w : World} {cs : List Nat} (h : Attempts cfg key intent w cs) : ∀ c ∈ cs, ∃ call,
    w.calls c = some call ∧ call.key = key ∧ call.intent = intent ∧ call.pc.running = false := by
  induction h with
  | start => exact fun c hc => by cases hc
  | @again w w' cs c call _ _ hl hc hk hi hover ih =>
    intro a ha
    rcases List.mem_cons.mp ha with rfl | ha
    · exact ⟨call, hc, hk, hi, hover⟩
    · obtain ⟨call', hc', hk', hi', hover'⟩ := ih a ha
      exact ⟨call', hl.answered hc' hover', hk', hi', hover'⟩

theorem World.Leads.over_log {w w' : World} (hl : World.Leads cfg w w') {c : Nat} {call : Call}
    (hc : w.calls c = some call) (hover : call.pc.running = false) :
    ∀ tr ∈ Spec.transfers w'.log, tr.call = c → tr ∈ Spec.transfers w.log := by
  refine (hl.invariant (P := fun v => v.calls c = some call ∧
    ∀ tr ∈ Spec.transfers v.log, tr.call = c → tr ∈ Spec.transfers w.log) ?_ ⟨hc, fun tr h _ => h⟩).2
  rintro v l v' ⟨hv, hmem⟩ - hs
  refine ⟨World.step_answered hs hv hover, fun tr htr hcall => ?_⟩
  rcases World.step_log hs with he | ⟨ev, he, -, hauthor⟩
  · rw [he] at htr
    exact hmem tr htr hcall
  · rw [he, Spec.transfers_append, List.mem_append] at htr
    rcases htr with htr | htr
    · exact hmem tr htr hcall
    · -- the call that commits is at its `COMMIT`
      cases ev with
      | account row => cases htr
      | transfer tr' =>
        obtain rfl : tr = tr' := List.mem_singleton.mp htr
        obtain ⟨-, call', db, -, hc', hland, -⟩ := hauthor tr rfl
        rw [hcall, hv, Option.some.injEq] at hc'
        subst hc'
        unfold World.landing at hland
        split at hland
        · rename_i hpc
          rw [hpc] at hover
          cases hover
        · cases hland

end

/-- **A request that is repeated until it is answered.** A client that repeats a request
under its key, each time the call before is over, whatever that was answered or cut off
by, and whatever else happens, can go by the last response: 201 or 200 means that the
ledger has made one transfer under that key, of a payload with the hash of what was asked
for (with 201: of just that), and never will another; 404, 409 or 422 means that none of
the calls has moved anything or ever will. -/
theorem retried {f : Formats} {time : Timestamp → String} (hf : f.Reads time) (cfg : Config) {key : String}
    {intent : TransferIntent} {w : World} {c : Nat} {cs : List Nat}
    (ha : Attempts cfg.asWritten key intent w (c :: cs))
    {call : Call} (hc : w.calls c = some call) {resp : Response} (hresp : call.pc.respond time = some resp) :
    (resp.status ∈ [201, 200] → ∃ d tr, resp.detail f = some d ∧ d.Tells tr ∧ tr.key = key ∧
      tr.intent.requestHash cfg.sha256 = intent.requestHash cfg.sha256 ∧
      (resp.status = 201 → tr.call = c ∧ tr.intent = intent) ∧ ∀ w', World.Leads cfg.asWritten w w' →
        (Spec.transfers w'.log).filter (fun tr' => tr'.key = key) = [tr]) ∧
    (resp.status ∈ [404, 409, 422] → ∀ w', World.Leads cfg.asWritten w w' →
      ∀ tr ∈ Spec.transfers w'.log, tr.call ∉ c :: cs) := by
  have hr := ha.leads
  have h := Inv.reach hr
  obtain ⟨call', hc', hk, hi, -⟩ := ha.over c (List.mem_cons_self ..)
  obtain rfl : call = call' := Option.some.inj (hc.symm.trans hc')
  refine ⟨fun hok => ?_, fun hno w' hl tr htr hcall => ?_⟩
  · rcases h.responds hc hf hresp with ⟨-, d, tr, hd, htr, htells, hkey, hhash, hown⟩ |
      ⟨hst, -⟩ | ⟨hst, -⟩
    · refine ⟨d, tr, hd, htells, hkey.trans hk, hi ▸ hhash, hi ▸ hown, fun w' hl => ?_⟩
      exact (hl.inv h).transfer_keys.filter (hl.transfers htr) (hkey.trans hk)
    · exact absurd hst (disjoint_success hok).1
    · exact absurd hst (disjoint_success hok).2
  · rcases List.mem_cons.mp hcall with hself | hearlier
    · rcases h.responds hc hf hresp with ⟨hst, -⟩ | ⟨-, -, hnever⟩ | ⟨hst, -⟩
      · exact absurd hno (disjoint_success hst).1
      · exact hnever w' hl tr htr hself
      · exact absurd hst (disjoint_refusal hno)
    · cases ha with
      | @again w₀ _ _ _ call₀ ha₀ hnone hl₀ hc₀ hk₀ hi₀ hover₀ =>
        -- an earlier call that moved money did so before the last one came
        have h₀ := Inv.reach ha₀.leads
        obtain ⟨call₁, hc₁, hk₁, hi₁, hover₁⟩ := ha₀.over tr.call hearlier
        have htr₀ := World.Leads.over_log (Reach.trans hl₀ hl) hc₁ hover₁ tr htr rfl
        obtain ⟨call₂, hc₂, hk₂, hi₂⟩ := h₀.author tr htr₀
        obtain rfl : call₁ = call₂ := Option.some.inj (hc₁.symm.trans hc₂)
        have hlate := (h₀.late_reach htr₀ hnone hl₀).2.2 call hc (hk.trans (hk₁.symm.trans hk₂))
        exact hlate.not_refused (hi₂.symm.trans (hi₁.trans hi.symm)) hresp hno

/-- The rent is paid, but the answer to the `COMMIT` is lost and the tenant is told of an
internal error; so the request is sent again. -/
def lostRun : List Label :=
  twoAccounts ++ [.invoke 0 "rent-1" rent] ++ onPool 0 0 ++ onPool 0 3 ++
  ([0, 0, 0, 0, 4, 5, 0].map fun id => Label.run 0 (sampleEnv id)) ++ [.lostAck 0 .io]

theorem retried_lostRun : ∃ w resp d tr, Attempts (sample true) "rent-1" rent w [1, 0] ∧ resp.status = 200 ∧
    Response.detail .client resp = some d ∧ d.Tells tr ∧
    (Spec.transfers w.log).filter (fun tr' => tr'.key = "rent-1") = [tr] := by
  have h : (exec (World.step (sample true)) World.init lostRun).any (fun w => decide (
      w.calls 0 = some (answered "rent-1" rent (.error (.database .io)))) && decide (w.calls 1 = none) &&
      (exec (World.step (sample true)) w
        ([.invoke 1 "rent-1" rent] ++ onPool 1 0 ++ onPool 1 0 ++ onPool 1 0)).any fun w' => decide (
          w'.calls 1 = some (answered "rent-1" rent (.ok ⟨.replayed, rentDetail⟩)))) = true := by decide +kernel
  obtain ⟨w, hw, h⟩ := (Option.any_eq_true _ _).mp h
  simp only [Bool.and_eq_true] at h
  obtain ⟨⟨h0, h1⟩, h⟩ := h
  obtain ⟨w', hw', h'⟩ := (Option.any_eq_true _ _).mp h
  have hl : World.Leads (sample true) World.init w := reach_of_exec (fun _ _ _ => trivial) hw
  have hl' : World.Leads (sample true) w w' := reach_of_exec (fun _ _ _ => trivial) hw'
  have hfirst : Attempts (sample true) "rent-1" rent w [0] :=
    .again (.start Reach.refl) rfl hl (of_decide_eq_true h0) rfl rfl rfl
  have hboth : Attempts (sample true) "rent-1" rent w' [1, 0] :=
    .again hfirst (of_decide_eq_true h1) hl' (of_decide_eq_true h') rfl rfl rfl
  obtain ⟨hmoved, -⟩ := retried Formats.client_reads (sample true) hboth (of_decide_eq_true h') rfl
  obtain ⟨d, tr, hd, htells, -, -, -, hall⟩ := hmoved (by simp)
  exact ⟨w', _, d, tr, hboth, rfl, hd, htells, hall w' Reach.refl⟩

end Ledger
