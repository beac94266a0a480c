import Ledger.Responses

/-!
# What an error response gives away

Two errors that the service answers with give the same response only if they are the same
error, or both come from the database: a client loses nothing, and learns nothing about
the schema. The texts are taken apart from their ends, where they are fixed.
-/

namespace Ledger

open Keyed Runs Transfers

/-! ## Texts -/

theorem append_inj_of_length {s s' t t' : String} (hl : s.length = s'.length) (h : s ++ t = s' ++ t') :
    s = s' ∧ t = t' := by
  have h' := congrArg String.toList h
  rw [String.toList_append, String.toList_append] at h'
  obtain ⟨h1, h2⟩ := List.append_inj h' (by rw [String.length_toList, String.length_toList, hl])
  exact ⟨String.toList_inj.mp h1, String.toList_inj.mp h2⟩

theorem append_left_cancel {p s t : String} (h : p ++ s = p ++ t) : s = t := (append_inj_of_length rfl h).2

theorem append_right_cancel {q s t : String} (h : s ++ q = t ++ q) : s = t := by
  have h' := congrArg String.toList h
  rw [String.toList_append, String.toList_append] at h'
  exact String.toList_inj.mp (List.append_cancel_right h')

theorem Uuid.text_length (u : Uuid) : u.text.length = 36 := by
  have hhex : (u.nibbles.map hexDigit).length = 32 := by
    rw [List.length_map, Uuid.nibbles, List.length_reverse, List.length_map, List.length_range]
  rw [Uuid.text, String.length_ofList]
  simp only [List.length_append, List.length_cons, List.length_take, List.length_drop, hhex]
  omega

/-- The currency codes in the error are of three letters, as the schema and the table of
currencies have them. -/
def MoneyError.Coded : MoneyError → Prop
  | currencyMismatch lhs rhs => lhs.code.length = 3 ∧ rhs.code.length = 3
  | _ => True

def LedgerError.Coded : LedgerError → Prop
  | accountCurrencyMismatch _ accountCurrency transferCurrency =>
      accountCurrency.length = 3 ∧ transferCurrency.length = 3
  | money err => err.Coded
  | _ => True

/-- What a money error's text begins with tells which it is. -/
def MoneyError.kindOf (text : String) : Nat :=
  match text.toList with
  | '\'' :: _ => 3
  | 'c' :: _ => 2
  | cs => if cs[7]? = some 'h' then 0 else 1

def MoneyError.kind : MoneyError → Nat
  | tooManyDecimalPlaces _ => 0
  | magnitudeTooLarge => 1
  | currencyMismatch .. => 2
  | unknownCurrency _ => 3

theorem MoneyError.kindOf_text (e : MoneyError) : kindOf e.text = e.kind := by
  unfold kindOf text
  cases e with
  | tooManyDecimalPlaces scale =>
    simp only [String.append_assoc, String.toList_append, String.reduceToList, List.cons_append]
    rfl
  | magnitudeTooLarge =>
    simp only [String.reduceToList]
    rfl
  | currencyMismatch lhs rhs =>
    simp only [String.append_assoc, String.toList_append, String.reduceToList, List.cons_append]
    rfl
  | unknownCurrency value =>
    simp only [String.append_assoc, String.toList_append, String.reduceToList, List.cons_append]
    rfl

theorem MoneyError.text_inj {e e' : MoneyError} (he : e.Coded) (he' : e'.Coded) (h : e.text = e'.text) :
    e = e' := by
  have hkind : e.kind = e'.kind := by rw [← kindOf_text, ← kindOf_text, h]
  unfold text at h
  cases e <;> cases e' <;> try cases hkind
  case tooManyDecimalPlaces n m =>
    have hn := append_left_cancel (append_right_cancel h)
    have hd := congrArg (fun s => Nat.ofDigitChars 10 s.toList 0) hn
    simp only [Nat.toList_repr, Nat.ofDigitChars_toDigits (by norm_num : 1 < 10) (by norm_num : 10 ≤ 10)] at hd
    rw [hd]
  case magnitudeTooLarge => rfl
  case currencyMismatch l r l' r' =>
    have hsplit := append_right_cancel h
    rw [String.append_assoc, String.append_assoc, String.append_assoc, String.append_assoc] at hsplit
    obtain ⟨hl, htail⟩ := append_inj_of_length (he.1.trans he'.1.symm) (append_left_cancel hsplit)
    have hr := append_left_cancel htail
    exact congrArg₂ MoneyError.currencyMismatch (congrArg Currency.mk hl) (congrArg Currency.mk hr)
  case unknownCurrency v v' =>
    rw [append_left_cancel (append_right_cancel h)]

namespace LedgerError

def codes : List String := ["account_not_found", "transaction_not_found", "insufficient_funds", "currency_mismatch",
  "self_transfer", "non_positive_amount", "funding_account_creation_disabled", "missing_idempotency_key",
  "idempotency_key_conflict", "validation_failed", "invalid_amount", "internal_error"]

def kind : LedgerError → Nat
  | accountNotFound _ => 0
  | transactionNotFound _ => 1
  | insufficientFunds _ => 2
  | accountCurrencyMismatch .. => 3
  | selfTransfer => 4
  | nonPositiveAmount => 5
  | fundingAccountCreationDisabled => 6
  | missingIdempotencyKey => 7
  | idempotencyKeyConflict _ => 8
  | validation _ => 9
  | money _ => 10
  | database _ => 11

theorem codes_kind (e : LedgerError) : codes[e.kind]? = some e.code := by cases e <;> rfl

theorem kind_lt (e : LedgerError) : e.kind < codes.length := (List.getElem?_eq_some_iff.mp e.codes_kind).1

theorem codes_nodup : codes.Nodup := by decide

theorem kind_of_code {e e' : LedgerError} (h : e.code = e'.code) : e.kind = e'.kind :=
  (List.getElem?_inj e.kind_lt codes_nodup).mp (by rw [codes_kind, codes_kind, h])

theorem message_inj {e e' : LedgerError} (he : e.Coded) (he' : e'.Coded) (hk : e.kind = e'.kind)
    (h : e.message = e'.message) : e = e' ∨ e.typed = false ∧ e'.typed = false := by
  unfold message at h
  cases e <;> cases e' <;> try cases hk
  case accountNotFound => exact Or.inl (congrArg _ (Uuid.text_inj (append_left_cancel (append_right_cancel h))))
  case transactionNotFound => exact Or.inl (congrArg _ (Uuid.text_inj (append_left_cancel (append_right_cancel h))))
  case insufficientFunds => exact Or.inl (congrArg _ (Uuid.text_inj (append_left_cancel (append_right_cancel h))))
  case accountCurrencyMismatch id a t id' a' t' =>
    have hsplit : "account " ++ (id.text ++ (" is denominated in " ++ (a ++ (", but the transfer is in " ++ t)))) =
        "account " ++ (id'.text ++ (" is denominated in " ++ (a' ++ (", but the transfer is in " ++ t')))) := by
      simpa only [String.append_assoc] using h
    obtain ⟨hid, hrest⟩ := append_inj_of_length (id.text_length.trans id'.text_length.symm)
      (append_left_cancel hsplit)
    obtain ⟨ha, htail⟩ := append_inj_of_length (he.1.trans he'.1.symm) (append_left_cancel hrest)
    rw [Uuid.text_inj hid, ha, append_left_cancel htail]
    exact Or.inl rfl
  case idempotencyKeyConflict => exact Or.inl (congrArg _ (append_left_cancel (append_right_cancel h)))
  case validation => exact Or.inl (congrArg _ h)
  case money => exact Or.inl (congrArg _ (MoneyError.text_inj he he' h))
  case database => exact Or.inr ⟨rfl, rfl⟩
  all_goals exact Or.inl rfl

end LedgerError

/-! ## The errors that are sent -/

/-- What the service can answer an error with: a refused transfer of some run, a request
that does not pass the edge, an account that cannot be opened, and a read that fails,
whatever is in the tables. -/
inductive Sent (cfg : Config) : LedgerError → Prop
  | transfer {w : World} {c : Nat} {call : Call} {e : LedgerError} : World.Leads cfg.asWritten World.init w →
    w.calls c = some call → call.pc = .done (.error e) → Sent cfg e
  | transferEdge {header : Option (List UInt8)} {payload : Except String Http.TransferRequest} {e : LedgerError} :
    Http.create header payload = .error e → Sent cfg e
  | accountEdge {allow : Bool} {payload : Except String Http.CreateAccountRequest} {e : LedgerError} :
    Http.createAccount allow payload = .error e → Sent cfg e
  | opening {db db' : Db} {id : Uuid} {now : Timestamp} {name : String} {currency : Currency} {flag : Bool}
    {rows : List Row.Account} {e : LedgerError} :
    Accounts.create cfg.schema cfg.decode db id now name currency flag = some (db', rows, .error e) → Sent cfg e
  | account {t : Tables} {id : Uuid} {e : LedgerError} : Accounts.get cfg.decode t id = .error e → Sent cfg e
  | transaction {t t' : Tables} {scan : List Row.Entry} {id : Uuid} {e : LedgerError} :
    Transactions.get cfg.decode t t' scan id = some (.error e) → Sent cfg e

theorem Money.new_coded {d : Decimal} {c : Currency} {e : MoneyError} (h : Money.new d c = .error e) : e.Coded := by
  rw [Money.new_eq] at h
  split at h
  · split at h <;> cases h
    trivial
  · cases h
    trivial

theorem Account.tryFrom_coded {row : AccountRow} {e : LedgerError} (h : Account.tryFrom row = .error e) :
    e.Coded := by
  unfold Account.tryFrom at h
  split at h
  · rename_i hm
    cases h
    exact Money.new_coded hm
  · cases h

theorem upperThree_length {s : String} (h : upperThree s = true) : s.length = 3 := by
  simp only [upperThree, Bool.and_eq_true, decide_eq_true_eq] at h
  rw [← String.length_toList]
  exact h.1

theorem Money.Valid.code_length {m : Money} (h : m.Valid) : m.currency.code.length = 3 := by
  have hall : ∀ code ∈ ISO_4217, code.length = 3 := by decide +kernel
  exact hall _ h.iso

theorem Spec.refusal_coded {t : Tables} (hs : ∀ a ∈ t.accounts, a.Stored) {i : TransferIntent} {e : LedgerError}
    (h : Spec.refusal t i = some e) : e.Coded := by
  have hcode := i.valid.code_length
  unfold Spec.refusal at h
  split at h
  · cases h; trivial
  split at h
  · cases h; trivial
  split at h
  case h_1 sender receiver hsender hreceiver =>
    have hs₁ := upperThree_length (hs sender (Spec.findAccount_some hsender).1).upper
    have hs₂ := upperThree_length (hs receiver (Spec.findAccount_some hreceiver).1).upper
    unfold Spec.refuses at h
    dsimp only at h
    split at h
    · cases h; exact ⟨hs₁, hcode⟩
    split at h
    · cases h; exact ⟨hs₂, hcode⟩
    split at h <;> cases h
    trivial
  all_goals cases h; trivial

theorem Inv.refused_coded {cfg : Config} {w : World} (hr : World.Leads cfg.asWritten World.init w) :
    ∀ c call e, w.calls c = some call → call.pc = .done (.error e) → e.Coded := by
  refine (hr.invariant (P := fun v => Inv cfg.asWritten v ∧
    ∀ c call e, v.calls c = some call → call.pc = .done (.error e) → e.Coded) ?_
    ⟨Inv.init, fun c call e hc => by cases hc⟩).2
  rintro v l v' ⟨hv, hcoded⟩ - hs
  refine ⟨hv.step hs, fun c call e hc hd => ?_⟩
  rcases hv.answers_now hs hc hd with hold | ⟨call₁, -, -, -, -, hverdict⟩
  · exact hcoded c call e hold hd
  · cases ht : e.typed with
    | false =>
      obtain ⟨err, rfl⟩ := LedgerError.untyped ht
      trivial
    | true =>
      have hv' := hverdict (.rejected e) (by cases e <;> first | rfl | cases ht)
      unfold Spec.verdict at hv'
      split at hv'
      · split at hv' <;> cases hv'
        trivial
      · split at hv' <;> cases hv'
        rename_i hrefusal
        exact Spec.refusal_coded hv.stored hrefusal

theorem Http.extractIdempotencyKey_coded {header : Option (List UInt8)} {e : LedgerError}
    (h : extractIdempotencyKey header = .error e) : e.Coded := by
  unfold extractIdempotencyKey at h
  split at h
  · cases h; trivial
  split at h
  · cases h; trivial
  dsimp only at h
  split at h
  · cases h; trivial
  split at h <;> cases h
  trivial

theorem Http.create_coded {header : Option (List UInt8)} {payload : Except String TransferRequest} {e : LedgerError}
    (h : create header payload = .error e) : e.Coded := by
  unfold create at h
  rcases Bind.error.mp h with hkey | ⟨key, -, h⟩
  · exact extractIdempotencyKey_coded hkey
  rcases Bind.error.mp h with hbody | ⟨request, -, h⟩
  · obtain ⟨message, rfl⟩ := Bind.mapError_error hbody
    trivial
  split at h
  · rename_i hm
    cases h
    exact Money.new_coded hm
  · split at h <;> cases h
    trivial

theorem Http.createAccount_coded {allow : Bool} {payload : Except String CreateAccountRequest} {e : LedgerError}
    (h : createAccount allow payload = .error e) : e.Coded := by
  unfold createAccount at h
  rcases Bind.error.mp h with hbody | ⟨request, -, h⟩
  · obtain ⟨message, rfl⟩ := Bind.mapError_error hbody
    trivial
  split at h
  · cases h; trivial
  dsimp only at h
  split at h
  · cases h; trivial
  split at h <;> cases h
  trivial

theorem Accounts.createError_coded (err : SqlxError) : (createError err).Coded := by
  unfold createError
  split
  · split <;> trivial
  · trivial

theorem Accounts.create_coded {sch : Schema} {dec : Decode} {db db' : Db} {id : Uuid} {now : Timestamp}
    {name : String} {currency : Currency} {flag : Bool} {rows : List Row.Account} {e : LedgerError}
    (h : create sch dec db id now name currency flag = some (db', rows, .error e)) : e.Coded := by
  simp only [create] at h
  split at h
  · cases h
  · cases h
    exact createError_coded _
  split at h
  · cases h
    exact createError_coded _
  · simp only [Option.some.injEq, Prod.mk.injEq] at h
    obtain ⟨-, -, h⟩ := h
    split at h
    · cases h; trivial
    rcases Bind.error.mp h with h | ⟨row, -, h⟩
    · obtain ⟨err, rfl⟩ := Bind.mapError_error h
      trivial
    · exact Account.tryFrom_coded h

theorem Accounts.get_coded {dec : Decode} {t : Tables} {id : Uuid} {e : LedgerError}
    (h : get dec t id = .error e) : e.Coded := by
  unfold get at h
  rcases Bind.error.mp h with h | ⟨row, -, h⟩
  · obtain ⟨err, rfl⟩ := Bind.mapError_error h
    trivial
  · cases row with
    | none => cases h; trivial
    | some row => exact Account.tryFrom_coded h

theorem Entry.tryFrom_coded {row : EntryRow} {e : LedgerError} (h : Entry.tryFrom row = .error e) : e.Coded := by
  unfold Entry.tryFrom at h
  split at h
  · rename_i hm
    cases h
    exact Money.new_coded hm
  · cases h

theorem Transactions.get_coded {dec : Decode} {t t' : Tables} {scan : List Row.Entry} {id : Uuid} {e : LedgerError}
    (h : get dec t t' scan id = some (.error e)) : e.Coded := by
  unfold get at h
  split at h
  · cases h; trivial
  split at h
  · rw [Option.some.injEq, detail] at h
    rcases Bind.error.mp h with h | ⟨rows, -, h⟩
    · obtain ⟨err, rfl⟩ := Bind.mapError_error h
      trivial
    rcases Bind.error.mp h with h | ⟨entries, -, h⟩
    · obtain ⟨row, -, hrow⟩ := Bind.mapM_error h
      exact Entry.tryFrom_coded hrow
    · cases h
  · cases h

theorem Sent.coded {cfg : Config} {e : LedgerError} (h : Sent cfg e) : e.Coded := by
  cases h with
  | transfer hr hc hd => exact Inv.refused_coded hr _ _ e hc hd
  | transferEdge h => exact Http.create_coded h
  | accountEdge h => exact Http.createAccount_coded h
  | opening h => exact Accounts.create_coded h
  | account h => exact Accounts.get_coded h
  | transaction h => exact Transactions.get_coded h

/-- **A response gives away the error, and nothing of the database.** Whatever two errors
the service answers requests with, it sends the same response for both exactly if they are
the same error or both are the database's; and that response is the one a panic gives. -/
theorem error_responses (cfg : Config) {e e' : LedgerError} (he : Sent cfg e) (he' : Sent cfg e') :
    (e.intoResponse = e'.intoResponse ↔ e = e' ∨ e.typed = false ∧ e'.typed = false) ∧
    (e.intoResponse = Http.handlePanic ↔ e.typed = false) := by
  have hbody : ∀ {code message code' message' : String}, errorBody code message = errorBody code' message' →
      code = code' ∧ message = message' := by
    intro code message code' message' h
    simpa [errorBody] using h
  have hpanics : ∀ e : LedgerError, e.typed = false → e.intoResponse = Http.handlePanic := by
    intro e he
    obtain ⟨err, rfl⟩ := LedgerError.untyped he
    rfl
  refine ⟨⟨fun h => ?_, ?_⟩, fun h => ?_, hpanics e⟩
  · obtain ⟨hcode, hmessage⟩ := hbody (Option.some.inj (congrArg Response.body h))
    exact LedgerError.message_inj he.coded he'.coded (LedgerError.kind_of_code hcode) hmessage
  · rintro (rfl | ⟨h, h'⟩)
    · rfl
    · rw [hpanics e h, hpanics e' h']
  · have hstatus : e.status = 500 := congrArg Response.status h
    cases ht : e.typed with
    | false => rfl
    | true => exact absurd hstatus ((LedgerError.typed_iff e).mp ht).1

theorem error_responses_refund : Sent (sample true) (.insufficientFunds 2) ∧
    Sent (sample true) (.accountNotFound 7) ∧
    (LedgerError.insufficientFunds 2).intoResponse ≠ (LedgerError.accountNotFound 7).intoResponse ∧
    (LedgerError.insufficientFunds 2).intoResponse ≠ Http.handlePanic := by
  obtain ⟨w, hr, -, -, hc⟩ := sampleRun_leads true
  have hrefund : Sent (sample true) (.insufficientFunds 2) := .transfer hr hc rfl
  have hmissing : Sent (sample true) (.accountNotFound 7) :=
    .account (t := {}) (Accounts.get_missing fun a ha => by cases ha)
  obtain ⟨hsame, hpanic⟩ := error_responses (sample true) hrefund hmissing
  refine ⟨hrefund, hmissing, fun h => ?_, fun h => Bool.noConfusion (hpanic.mp h)⟩
  rcases hsame.mp h with he | ⟨he, -⟩
  · cases he
  · exact Bool.noConfusion he

end Ledger
