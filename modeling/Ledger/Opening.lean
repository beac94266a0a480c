import Ledger.Reads
import Ledger.Realization

/-!
# Opening an account

What the edge lets through satisfies every check of the `accounts` table, so opening an
account can only fail for a text the database cannot hold or an id that is taken; and an
account that was opened can be read at once.
-/

namespace Ledger

open Keyed Runs Transfers

theorem Http.createAccount_ok {allow : Bool} {payload : Except String Http.CreateAccountRequest} {name : String}
    {currency : Currency} {flag : Bool} (h : Http.createAccount allow payload = .ok (name, currency, flag)) :
    currency.code ∈ ISO_4217 ∧ 1 ≤ name.length ∧ name.length ≤ 255 := by
  unfold Http.createAccount at h
  obtain ⟨request, -, h⟩ := Bind.ok.mp h
  split at h
  · cases h
  · dsimp only at h
    split at h
    · cases h
    · rename_i hne
      split at h
      · cases h
      · rename_i hlen
        cases h
        refine ⟨Currency.tryFrom_iso request.known, ?_, Nat.le_of_not_lt hlen⟩
        rw [Nat.one_le_iff_ne_zero, ne_eq, String.length_eq_zero_iff]
        simpa using hne

section
variable {allow : Bool} {payload : Except String Http.CreateAccountRequest} {name : String} {currency : Currency}
  {flag : Bool} (h : Http.createAccount allow payload = .ok (name, currency, flag))
include h

theorem Http.createAccount_row (sch : Schema) (id : Uuid) (now : Timestamp) :
    NewAccount.row sch now
      { id := .val id, name := .val name, currency := .val currency.code, allowsNegativeBalance := .val flag } =
    if hasNul name then .error unstorableText else .ok ⟨id, name, currency.code, Num20.zero, flag, now⟩ := by
  obtain ⟨hiso, h1, h255⟩ := Http.createAccount_ok h
  obtain ⟨hcnul, hup⟩ := iso_stored _ hiso
  cases hn : hasNul name with
  | true =>
    simp only [NewAccount.row, Col.eval, text_some, hn, if_true]
    rfl
  | false =>
    rw [if_neg Bool.false_ne_true]
    exact NewAccount.row_stored sch (a := ⟨id, name, currency.code, Num20.zero, flag, now⟩)
      ⟨hn, hcnul, by simp [h1, h255], hup⟩ rfl

end

namespace Accounts

variable {sch : Schema} {db : Db} {id : Uuid} {now : Timestamp} {name : String} {currency : Currency} {flag : Bool}

theorem create_failed (dec : Decode) {err : SqlxError} (hex : (db.begin now).exec sch db.nextXid { now }
    (insertStmt id name currency flag) = .error err) :
    ∃ db', create sch dec db id now name currency flag = some (db', [], .error (createError err)) ∧
      db'.tables = db.tables := by
  refine ⟨(db.begin now).close db.nextXid, ?_, rfl⟩
  simp only [create, hex]

theorem create_done (dec : Decode) {row : Row.Account} (hz : row.balance = Num20.zero)
    (hex : (db.begin now).exec sch db.nextXid { now } (insertStmt id name currency flag) =
      .ok ({ accounts := [row] }, none)) :
    ∃ db' r account, create sch dec db id now name currency flag = some (db', [row], .ok account) ∧
      AccountRow.decode dec row = .ok r ∧ Account.tryFrom r = .ok account ∧ account.Shows row 0 ∧
      db'.tables = { db.tables with accounts := db.tables.accounts ++ [row] } := by
  let wrote := (db.begin now).install db.nextXid { now } { accounts := [row] }
  let after : Tables := { db.tables with accounts := db.tables.accounts ++ [row] }
  have hcommit : wrote.commit db.nextXid { now, work := { accounts := [row] } } =
      .ok { wrote.close db.nextXid with tables := after } := by
    show Except.ok { wrote.close db.nextXid with tables := ({ accounts := [row] } : Work).overlay db.tables } = _
    rw [Work.overlay_opened]
  obtain ⟨r, account, hr, haccount, hshows⟩ := Account.of_row dec (a := row) (u := 0) (by rw [hz]; rfl)
  refine ⟨{ wrote.close db.nextXid with tables := after }, r, account, ?_, hr, haccount, hshows, rfl⟩
  simp only [create, hex]
  rw [hcommit]
  simp only [List.head?_cons, hr]
  exact congrArg (fun a => some (_, [row], a)) haccount

end Accounts

/-- **What can come of opening an account.** In every reachable state, whatever the edge
lets through is answered at once: with the account, which has the values asked for and a
zero balance and reads back as answered; or with an opaque error that leaves the tables
alone, exactly if the name holds a `U+0000` or the generated id is taken. The refusal of a
name by the database is never what a client sees. -/
theorem account_opening (cfg : Config) {w : World} (hr : World.Leads cfg World.init w) {allow : Bool}
    {payload : Except String Http.CreateAccountRequest} {name : String} {currency : Currency} {flag : Bool}
    (hedge : Http.createAccount allow payload = .ok (name, currency, flag)) (id : Uuid) (now : Timestamp) :
    (flag = true → allow = true) ∧
    ∃ db rows answer,
      Accounts.create cfg.schema cfg.decode w.db id now name currency flag = some (db, rows, answer) ∧
      ((∃ account, answer = .ok account ∧ hasNul name = false ∧ (∀ a ∈ w.db.tables.accounts, a.id ≠ id) ∧
          account.Shows ⟨id, name, currency.code, Num20.zero, flag, now⟩ 0 ∧
          db.tables = { w.db.tables with
            accounts := w.db.tables.accounts ++ [⟨id, name, currency.code, Num20.zero, flag, now⟩] } ∧
          Accounts.get cfg.decode db.tables id = .ok account) ∨
        (∃ err, answer = .error (.database err) ∧ isRetryableConflict err = false ∧
          (hasNul name = true ∨ ∃ a ∈ w.db.tables.accounts, a.id = id) ∧ db.tables = w.db.tables)) := by
  refine ⟨Http.createAccount_flag hedge, ?_⟩
  have hi := Inv.reach hr
  have hex := hi.insert_account id now name currency flag
  rw [Http.createAccount_row hedge cfg.schema id now] at hex
  cases hnul : hasNul name with
  | true =>
    rw [hnul, if_pos rfl] at hex
    obtain ⟨db, hcr, ht⟩ := Accounts.create_failed cfg.decode hex
    exact ⟨db, _, _, hcr, Or.inr ⟨unstorableText, rfl, rfl, Or.inl rfl, ht⟩⟩
  | false =>
    rw [hnul, if_neg Bool.false_ne_true] at hex
    dsimp only at hex
    by_cases htaken : ∃ a ∈ w.db.tables.accounts, a.id = id
    · rw [if_pos (by simpa using htaken)] at hex
      obtain ⟨db, hcr, ht⟩ := Accounts.create_failed cfg.decode hex
      exact ⟨db, _, _, hcr, Or.inr ⟨_, rfl, rfl, Or.inr htaken, ht⟩⟩
    · have hfree : ∀ a ∈ w.db.tables.accounts, a.id ≠ id := fun a ha he => htaken ⟨a, ha, he⟩
      rw [if_neg (by simpa using htaken)] at hex
      obtain ⟨db, r, account, hcr, hdec, hread, hshows, ht⟩ := Accounts.create_done cfg.decode rfl hex
      refine ⟨db, _, _, hcr, Or.inl ⟨account, rfl, rfl, hfree, hshows, ht, ?_⟩⟩
      rw [ht]
      exact (Accounts.get_found (distinct_concat hi.ledger.ids hfree)
        (List.mem_append_right _ (List.mem_singleton_self _)) hdec).trans hread

theorem Currency.tryFrom_eur : Currency.tryFrom "EUR" = .ok ⟨"EUR"⟩ := by decide +kernel

def bankRequest : Http.CreateAccountRequest where
  name := " bank "
  currency := ⟨"EUR"⟩
  allowsNegativeBalance := true
  known := Currency.tryFrom_eur

theorem account_opening_bank : ∃ account db rows,
    Http.createAccount true (.ok bankRequest) = .ok ("bank", ⟨"EUR"⟩, true) ∧
    Accounts.create (sample true).schema Decode.driver World.init.db 1 0 "bank" ⟨"EUR"⟩ true =
      some (db, rows, .ok account) ∧
    account.name = "bank" ∧ Accounts.get Decode.driver db.tables 1 = .ok account := by
  have hedge : Http.createAccount true (.ok bankRequest) = .ok ("bank", ⟨"EUR"⟩, true) := by decide +kernel
  obtain ⟨-, db, rows, answer, hcr, hcases⟩ := account_opening (sample true) Reach.refl hedge 1 0
  rcases hcases with ⟨account, rfl, -, -, hshows, -, hget⟩ | ⟨err, -, -, hwhy, -⟩
  · exact ⟨account, db, rows, hedge, hcr, hshows.name, hget⟩
  · rcases hwhy with hnul | ⟨a, ha, -⟩
    · exact absurd hnul (by decide +kernel)
    · cases ha

end Ledger
