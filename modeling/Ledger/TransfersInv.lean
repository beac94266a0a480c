import Ledger.Readback
import Ledger.StmtSound

/-!
# The invariant of the service

Per call: what its open transaction has written so far is a function of where the
call is, the rows it has read under lock are the committed ones, and an answer that
was given stands for a committed transfer. Globally: the committed tables are what
the sequential ledger makes of the log.
-/

namespace Ledger

open Keyed Runs Transfers

/-- The answers that refuse a transfer: all that the sequential ledger can refuse it for. -/
def LedgerError.refusal : LedgerError → Bool
  | accountNotFound _ | insufficientFunds _ | accountCurrencyMismatch .. | selfTransfer | nonPositiveAmount
  | idempotencyKeyConflict _ => true
  | _ => false

namespace Transfers

def claimRow (cfg : Config) (call : Call) (x : Xid) (id : Uuid) (now : Timestamp) : Row.Transaction :=
  (call.transfer 0 x id id id now).row cfg.sha256

/-- Both accounts are locked, their rows are the committed ones, and all checks have passed. -/
structure Under (cfg : Config) (t : Tables) (i : TransferIntent) (sender receiver : AccountRow)
    (s r : Row.Account) : Prop where
  admits : Spec.Admits t i s r
  sender : AccountRow.decode cfg.decode s = .ok sender
  receiver : AccountRow.decode cfg.decode r = .ok receiver

def ids (i : TransferIntent) : List Uuid := [i.toAccountId, i.fromAccountId]

/-- What the open transaction of a call has written, by the point the call has reached. -/
def SessionOk (cfg : Config) (t : Tables) (call : Call) (x : Xid) (txn : Txn) : Prop :=
  match call.pc with
  | .claim _ _ => txn.aborted = false ∧ txn.work.Shape [] [] [] []
  | .rollback _ => txn.work.Shape [] [] [] []
  | .lock _ id todo locked => txn.aborted = false ∧
      txn.work.Shape [claimRow cfg call x id txn.now] [] [] (locked.map (·.id)) ∧
      (locked.map (·.id)).reverse ++ todo = lockOrder call.intent ∧ todo ≠ [] ∧
      ∀ a ∈ locked, ∃ row, Spec.findAccount t a.id = some row ∧ AccountRow.decode cfg.decode row = .ok a
  | .adjustFrom _ id sender receiver => txn.aborted = false ∧ ∃ s r, Under cfg t call.intent sender receiver s r ∧
      txn.work.Shape [claimRow cfg call x id txn.now] [] [] (ids call.intent)
  | .adjustTo _ id sender receiver => txn.aborted = false ∧ ∃ s r s', Under cfg t call.intent sender receiver s r ∧
      Spec.shift s (-call.intent.units) = some s' ∧
      txn.work.Shape [claimRow cfg call x id txn.now] [s'] [] (ids call.intent)
  | .insertCredit _ id sender receiver _ => txn.aborted = false ∧ ∃ s r s' r',
      Under cfg t call.intent sender receiver s r ∧ Spec.shift s (-call.intent.units) = some s' ∧
      Spec.shift r call.intent.units = some r' ∧
      txn.work.Shape [claimRow cfg call x id txn.now] [r', s'] [] (ids call.intent)
  | .insertDebit _ id sender receiver creditId _ => txn.aborted = false ∧ ∃ s r s' r',
      Under cfg t call.intent sender receiver s r ∧ Spec.shift s (-call.intent.units) = some s' ∧
      Spec.shift r call.intent.units = some r' ∧
      txn.work.Shape [claimRow cfg call x id txn.now] [r', s']
        [(call.transfer 0 x id creditId creditId txn.now).credit] (ids call.intent)
  | .commit _ id sender receiver creditId debitId => txn.aborted = false ∧ ∃ s r s' r',
      Under cfg t call.intent sender receiver s r ∧ Spec.shift s (-call.intent.units) = some s' ∧
      Spec.shift r call.intent.units = some r' ∧
      txn.work.Shape [claimRow cfg call x id txn.now] [r', s']
        (call.transfer 0 x id creditId debitId txn.now).entries (ids call.intent)
  | _ => True

def Validated (i : TransferIntent) : Prop := i.fromAccountId ≠ i.toAccountId ∧ i.amount.isPositive = true

/-- A committed transfer under the call's key and with its hash. -/
structure Stands (cfg : Config) (log : List Spec.Event) (c : Nat) (key : String) (intent : TransferIntent)
    (outcome : TransferOutcome) (tr : Spec.Transfer) : Prop where
  mem : tr ∈ Spec.transfers log
  key : tr.key = key
  hash : tr.intent.requestHash cfg.sha256 = intent.requestHash cfg.sha256
  own : outcome = .created → tr.call = c

/-- What the client was told, for the answers that say something. -/
def AnswerOk (cfg : Config) (log : List Spec.Event) (c : Nat) (call : Call) :
    Except LedgerError TransferResult → Prop
  | .ok res => ∃ tr m, Stands cfg log c call.key call.intent res.outcome tr ∧
      Money.new (cfg.decode.decimal tr.intent.units) tr.intent.amount.currency = .ok m ∧
      res.detail = tr.detail cfg.sha256 m
  | .error e => e.typed = true → (∀ tr ∈ Spec.transfers log, tr.call ≠ c) ∧
      e.refusal = true

def CallOk (cfg : Config) (log : List Spec.Event) (c : Nat) (call : Call) : Prop :=
  match call.pc with
  | .lookup => cfg.fastPath = true
  | .rollback _ | .relookup => Validated call.intent ∧ ∃ tr ∈ Spec.transfers log, tr.key = call.key
  | .getTransaction outcome id => (cfg.fastPath = false → Validated call.intent) ∧
      ∃ tr, Stands cfg log c call.key call.intent outcome tr ∧ tr.id = id
  | .getEntries outcome id transaction => (cfg.fastPath = false → Validated call.intent) ∧
      ∃ tr, Stands cfg log c call.key call.intent outcome tr ∧ tr.id = id ∧
        transaction = Transaction.ofRow (tr.row cfg.sha256)
  | .done r => AnswerOk cfg log c call r
  | .cancelled => True
  | .panicked => False
  | _ => Validated call.intent

end Transfers

structure Inv (cfg : Config) (w : World) : Prop where
  db : DbInv w.db
  stored : ∀ a ∈ w.db.tables.accounts, a.Stored
  spec : exec (Spec.step cfg.sha256 cfg.decode) {} w.log = some w.db.tables
  session : ∀ c call x, w.calls c = some call → call.pc.session = some x →
    ∃ txn, w.db.txns x = some txn ∧ txn.savepoints = [] ∧ SessionOk cfg w.db.tables call x txn
  owner : ∀ c c' call call' x, w.calls c = some call → w.calls c' = some call' → call.pc.session = some x →
    call'.pc.session = some x → c = c'
  owned : ∀ x txn, w.db.txns x = some txn → ∃ c call, w.calls c = some call ∧ call.pc.session = some x
  call : ∀ c call, w.calls c = some call → CallOk cfg w.log c call
  author : ∀ tr ∈ Spec.transfers w.log,
    ∃ call, w.calls tr.call = some call ∧ call.key = tr.key ∧ call.intent = tr.intent
  held : ∀ c call, w.calls c = some call → call.pc.session.isSome = true → c ∈ w.held
  running : ∀ c ∈ w.held, ∃ call, w.calls c = some call ∧ call.pc.running = true

namespace Transfers

/-! ## What other calls leave alone -/

theorem SessionOk.frame {cfg : Config} {t t' : Tables} {call : Call} {x : Xid} {txn : Txn}
    (h : SessionOk cfg t call x txn)
    (hf : ∀ id, (id, .update) ∈ txn.work.locks → ∀ a, Spec.findAccount t id = some a →
      Spec.findAccount t' id = some a) : SessionOk cfg t' call x txn := by
  have under : ∀ {sender receiver s r}, Under cfg t call.intent sender receiver s r →
      (∀ id ∈ ids call.intent, (id, .update) ∈ txn.work.locks) → Under cfg t' call.intent sender receiver s r := by
    intro sender receiver s r hu hl
    have hs := hf _ (hl call.intent.fromAccountId (by simp [ids])) s hu.admits.sender
    have hr := hf _ (hl call.intent.toAccountId (by simp [ids])) r hu.admits.receiver
    exact ⟨{ hu.admits with sender := hs, receiver := hr }, hu.sender, hu.receiver⟩
  cases hpc : call.pc with
  | claim | rollback => simpa only [SessionOk, hpc] using h
  | lock y id todo locked =>
    simp only [SessionOk, hpc] at h ⊢
    obtain ⟨ha, hs, ho, hne, hr⟩ := h
    refine ⟨ha, hs, ho, hne, fun a hm => ?_⟩
    obtain ⟨row, h1, h2⟩ := hr a hm
    exact ⟨row, hf _ (hs.locked _ (List.mem_map_of_mem hm)) _ h1, h2⟩
  | adjustFrom =>
    simp only [SessionOk, hpc] at h ⊢
    obtain ⟨ha, s, r, hu, hs⟩ := h
    exact ⟨ha, s, r, under hu hs.locked, hs⟩
  | adjustTo =>
    simp only [SessionOk, hpc] at h ⊢
    obtain ⟨ha, s, r, s', hu, h1, hs⟩ := h
    exact ⟨ha, s, r, s', under hu hs.locked, h1, hs⟩
  | insertCredit | insertDebit | commit =>
    simp only [SessionOk, hpc] at h ⊢
    obtain ⟨ha, s, r, s', r', hu, h1, h2, hs⟩ := h
    exact ⟨ha, s, r, s', r', under hu hs.locked, h1, h2, hs⟩
  | lookup | begin | relookup | getTransaction | getEntries | done | cancelled | panicked =>
    simp only [SessionOk, hpc]

/-! ## What the call itself has written -/

def Call.rows (cfg : Config) (call : Call) (x : Xid) (now : Timestamp) : List Row.Transaction :=
  match call.pc with
  | .lock _ id .. | .adjustFrom _ id .. | .adjustTo _ id .. | .insertCredit _ id .. | .insertDebit _ id ..
  | .commit _ id .. => [claimRow cfg call x id now]
  | _ => []

def Call.entries (call : Call) (x : Xid) (now : Timestamp) : List Row.Entry :=
  match call.pc with
  | .insertDebit _ id _ _ creditId _ => [(call.transfer 0 x id creditId creditId now).credit]
  | .commit _ id _ _ creditId debitId => (call.transfer 0 x id creditId debitId now).entries
  | _ => []

def Call.locked (call : Call) : List Uuid :=
  match call.pc with
  | .lock _ _ _ locked => locked.map (·.id)
  | .adjustFrom .. | .adjustTo .. | .insertCredit .. | .insertDebit .. | .commit .. => ids call.intent
  | _ => []

theorem SessionOk.wrote {cfg : Config} {t : Tables} {call : Call} {x : Xid} {txn : Txn}
    (h : SessionOk cfg t call x txn) (hs : call.pc.session = some x) :
    ∃ ups, txn.work.Shape (call.rows cfg x txn.now) ups (call.entries x txn.now) call.locked := by
  cases hpc : call.pc with
  | claim =>
    simp only [SessionOk, Call.rows, Call.entries, Call.locked, hpc] at h ⊢
    exact ⟨_, h.2⟩
  | rollback =>
    simp only [SessionOk, Call.rows, Call.entries, Call.locked, hpc] at h ⊢
    exact ⟨_, h⟩
  | lock =>
    simp only [SessionOk, Call.rows, Call.entries, Call.locked, hpc] at h ⊢
    exact ⟨_, h.2.1⟩
  | adjustFrom =>
    simp only [SessionOk, Call.rows, Call.entries, Call.locked, hpc] at h ⊢
    obtain ⟨-, s, r, -, hsh⟩ := h
    exact ⟨_, hsh⟩
  | adjustTo =>
    simp only [SessionOk, Call.rows, Call.entries, Call.locked, hpc] at h ⊢
    obtain ⟨-, s, r, s', -, -, hsh⟩ := h
    exact ⟨_, hsh⟩
  | insertCredit | insertDebit | commit =>
    simp only [SessionOk, Call.rows, Call.entries, Call.locked, hpc] at h ⊢
    obtain ⟨-, s, r, s', r', -, -, -, hsh⟩ := h
    exact ⟨_, hsh⟩
  | lookup | begin | relookup | getTransaction | getEntries | done | cancelled | panicked =>
    rw [hpc] at hs; cases hs

theorem Stands.mono {cfg : Config} {log log' : List Spec.Event} {c : Nat} {key : String} {intent : TransferIntent}
    {outcome : TransferOutcome} {tr : Spec.Transfer} (h : Stands cfg log c key intent outcome tr) :
    Stands cfg (log ++ log') c key intent outcome tr :=
  { h with mem := by rw [Spec.transfers_append]; exact List.mem_append_left _ h.mem }

theorem CallOk.mono {cfg : Config} {log log' : List Spec.Event} {c : Nat} {call : Call} (h : CallOk cfg log c call)
    (hn : ∀ tr ∈ Spec.transfers log', tr.call ≠ c) : CallOk cfg (log ++ log') c call := by
  have grow : ∀ {P : Spec.Transfer → Prop}, (∃ tr ∈ Spec.transfers log, P tr) →
      ∃ tr ∈ Spec.transfers (log ++ log'), P tr := by
    rintro P ⟨tr, hm, hp⟩
    exact ⟨tr, by rw [Spec.transfers_append]; exact List.mem_append_left _ hm, hp⟩
  cases hpc : call.pc with
  | rollback | relookup =>
    simp only [CallOk, hpc] at h ⊢
    exact ⟨h.1, grow h.2⟩
  | getTransaction | getEntries =>
    simp only [CallOk, hpc] at h ⊢
    obtain ⟨hv, tr, hs, hid⟩ := h
    exact ⟨hv, tr, hs.mono, hid⟩
  | done r =>
    simp only [CallOk, hpc] at h ⊢
    cases r with
    | ok res =>
      obtain ⟨tr, m, hs, hm⟩ := h
      exact ⟨tr, m, hs.mono, hm⟩
    | error e =>
      intro he
      refine ⟨fun tr hm => ?_, (h he).2⟩
      rw [Spec.transfers_append] at hm
      exact (List.mem_append.mp hm).elim ((h he).1 tr) (hn tr)
  | lookup | begin | claim | lock | adjustFrom | adjustTo | insertCredit | insertDebit | commit =>
    simpa only [CallOk, hpc] using h
  | cancelled => simp only [CallOk, hpc]
  | panicked => simp only [CallOk, hpc] at h

end Transfers

/-! ## Commits seen from another transaction -/

theorem DbInv.commit_frame {db : Db} (hi : DbInv db) {x y : Xid} {txn ty : Txn} (hx : db.txns x = some txn)
    (hy : db.txns y = some ty) (hne : y ≠ x) {id : Uuid} (hid : (id, .update) ∈ ty.work.locks) {a : Row.Account}
    (ha : Spec.findAccount db.tables id = some a) : Spec.findAccount (txn.work.overlay db.tables) id = some a := by
  have hw := hi.work hx
  obtain ⟨hm, haid⟩ := Spec.findAccount_some ha
  have hcur : txn.work.current a = a := by
    refine Work.current_eq fun u hu he => ?_
    have hc := (hi.apart y x ty txn hne hy hx).locks _ hid _ (hw.locked u hu) (haid.symm.trans he.symm)
    cases hc
  have hids : Distinct (·.id) ((db.tables.accounts ++ txn.work.accounts).map txn.work.current) :=
    hw.accountIds.map fun b _ => Work.current_id _ b
  have hmem : a ∈ (db.tables.accounts ++ txn.work.accounts).map txn.work.current :=
    hcur ▸ List.mem_map_of_mem (List.mem_append_left _ hm)
  unfold Spec.findAccount
  rw [Work.overlay_accounts hw.untruncated]
  exact hids.find hmem haid

theorem Row.Account.Stored.of_terms {a b : Row.Account} (h : a.Stored) (ht : b.terms = a.terms) : b.Stored := by
  have hn : b.name = a.name := congrArg (·.2.1) ht
  have hc : b.currency = a.currency := congrArg (·.2.2.1) ht
  exact ⟨hn ▸ h.name, hc ▸ h.currency, hn ▸ h.length, hc ▸ h.upper⟩

theorem Work.Shape.settled {w : Work} {t : Tables} {sha256 : List UInt8 → Vector UInt8 32} {tr : Spec.Transfer}
    {s' r' : Row.Account} {ids : List Uuid} (h : w.Shape [tr.row sha256] [r', s'] tr.entries ids)
    (ht : w.truncated = []) (hne : s'.id ≠ r'.id) : w.overlay t = Spec.settled sha256 t tr s' r' := by
  have hcur : ∀ a, w.current a = Spec.settle s' r' a := by
    intro a
    unfold Work.current Spec.settle
    rw [h.updates]
    by_cases h1 : a.id = s'.id
    · simp [h1, hne.symm]
    · by_cases h2 : a.id = r'.id
      · simp [h2, hne.symm]
      · simp [h1, h2, Ne.symm h1, Ne.symm h2]
  have hacc : (w.overlay t).accounts = t.accounts.map (Spec.settle s' r') := by
    rw [Work.overlay_accounts ht, h.accounts, List.append_nil]
    exact List.map_congr_left fun a _ => hcur a
  have htx := Work.overlay_transactions ht t
  have hen := Work.overlay_entries ht t
  rw [h.transactions] at htx
  rw [h.entries] at hen
  cases hov : w.overlay t with
  | mk accounts transactions entries =>
    rw [hov] at hacc htx hen
    simp only at hacc htx hen
    rw [hacc, htx, hen]
    rfl

/-! ## One call moves -/

/-- What a move of one call has to guarantee for the others. -/
structure Move (cfg : Config) (w : World) (c : Nat) (call call' : Call) (db : Db) (evs : List Spec.Event) :
    Prop where
  key : call'.key = call.key
  intent : call'.intent = call.intent
  inv : DbInv db
  stored : ∀ a ∈ db.tables.accounts, a.Stored
  spec : exec (Spec.step cfg.sha256 cfg.decode) {} (w.log ++ evs) = some db.tables
  events : ∀ tr ∈ Spec.transfers evs, tr.call = c ∧ tr.key = call.key ∧ tr.intent = call.intent
  others : ∀ y, call.pc.session ≠ some y → call'.pc.session ≠ some y → db.txns y = w.db.txns y
  frame : ∀ y txn, call.pc.session ≠ some y → w.db.txns y = some txn → ∀ id, (id, .update) ∈ txn.work.locks →
    ∀ a, Spec.findAccount w.db.tables id = some a → Spec.findAccount db.tables id = some a
  opened : ∀ x, call'.pc.session = some x → call.pc.session = some x ∨ w.db.txns x = none
  session : ∀ x, call'.pc.session = some x →
    ∃ txn, db.txns x = some txn ∧ txn.savepoints = [] ∧ SessionOk cfg db.tables call' x txn
  closed : ∀ x, call.pc.session = some x → call'.pc.session = some x ∨ db.txns x = none
  call : CallOk cfg (w.log ++ evs) c call'
  held : call'.pc.session.isSome = true → c ∈ w.held

theorem Pc.running_of_session {pc : Pc} (h : pc.session.isSome = true) : pc.running = true := by
  cases pc <;> simp_all [Pc.session, Pc.running]

namespace Inv

variable {cfg : Config} {w : World} (h : Inv cfg w) {c : Nat} {call : Call} (hc : w.calls c = some call)
include h hc

theorem foreign {c' : Nat} {call' : Call} (hne : c' ≠ c) (hc' : w.calls c' = some call') {x : Xid}
    (hx : call'.pc.session = some x) : call.pc.session ≠ some x :=
  fun he => hne (h.owner c' c call' call x hc' hc hx he)

theorem move {call' : Call} {db : Db} {evs : List Spec.Event} (m : Move cfg w c call call' db evs) :
    Inv cfg (w.moveTo c call' db (w.log ++ evs)) := by
  have hmem : ∀ c', c' ∈ (w.moveTo c call' db (w.log ++ evs)).held → c' ∈ w.held ∧
      (c' = c → call'.pc.session.isSome = true) := by
    intro c' hm
    simp only [World.moveTo] at hm
    split at hm
    · rename_i hs; exact ⟨hm, fun _ => hs⟩
    · have := List.mem_filter.mp hm
      exact ⟨this.1, fun he => by simp [he] at this⟩
  have calls_self : (w.moveTo c call' db (w.log ++ evs)).calls c = some call' := Function.update_self ..
  have calls_ne : ∀ c', c' ≠ c → (w.moveTo c call' db (w.log ++ evs)).calls c' = w.calls c' :=
    fun c' hne => Function.update_of_ne hne ..
  -- another call's session is neither the one left nor the one opened
  have apart : ∀ c' call₁ x, c' ≠ c → w.calls c' = some call₁ → call₁.pc.session = some x →
      call'.pc.session ≠ some x := by
    intro c' call₁ x hne hc₁ hx he
    rcases m.opened x he with h1 | h1
    · exact h.foreign hc hne hc₁ hx h1
    · obtain ⟨txn, ht, -⟩ := h.session c' call₁ x hc₁ hx
      rw [h1] at ht; cases ht
  refine ⟨m.inv, m.stored, m.spec, ?_, ?_, ?_, ?_, ?_, ?_, ?_⟩
  · intro c' call₁ x hc₁ hx
    by_cases hne : c' = c
    · subst hne
      rw [calls_self, Option.some.injEq] at hc₁
      subst hc₁
      exact m.session x hx
    · rw [calls_ne c' hne] at hc₁
      obtain ⟨txn, ht, hsp, hok⟩ := h.session c' call₁ x hc₁ hx
      have hfx := h.foreign hc hne hc₁ hx
      have hsame := m.others x hfx (apart c' call₁ x hne hc₁ hx)
      exact ⟨txn, hsame.trans ht, hsp, hok.frame (m.frame x txn hfx ht)⟩
  · intro c₁ c₂ call₁ call₂ x h1 h2 hx1 hx2
    by_cases e1 : c₁ = c <;> by_cases e2 : c₂ = c
    · rw [e1, e2]
    · subst e1
      rw [calls_self, Option.some.injEq] at h1
      rw [calls_ne c₂ e2] at h2
      subst h1
      exact absurd hx1 (apart c₂ call₂ x e2 h2 hx2)
    · subst e2
      rw [calls_self, Option.some.injEq] at h2
      rw [calls_ne c₁ e1] at h1
      subst h2
      exact absurd hx2 (apart c₁ call₁ x e1 h1 hx1)
    · rw [calls_ne c₁ e1] at h1
      rw [calls_ne c₂ e2] at h2
      exact h.owner c₁ c₂ call₁ call₂ x h1 h2 hx1 hx2
  · intro x txn hx
    by_cases hnew : call'.pc.session = some x
    · exact ⟨c, call', calls_self, hnew⟩
    by_cases hold : call.pc.session = some x
    · rcases m.closed x hold with h1 | h1
      · exact absurd h1 hnew
      · rw [show (w.moveTo c call' db (w.log ++ evs)).db = db from rfl, h1] at hx; cases hx
    · have hx' : w.db.txns x = some txn := (m.others x hold hnew).symm.trans hx
      obtain ⟨c₁, call₁, h1, h2⟩ := h.owned x txn hx'
      have hne : c₁ ≠ c := fun e => by
        subst e
        rw [hc, Option.some.injEq] at h1
        exact hold (h1 ▸ h2)
      exact ⟨c₁, call₁, (calls_ne c₁ hne).trans h1, h2⟩
  · intro c' call₁ hc₁
    by_cases hne : c' = c
    · subst hne
      rw [calls_self, Option.some.injEq] at hc₁
      exact hc₁ ▸ m.call
    · rw [calls_ne c' hne] at hc₁
      exact (h.call c' call₁ hc₁).mono fun tr htr he => hne (he.symm.trans (m.events tr htr).1)
  · intro tr htr
    rw [show (w.moveTo c call' db (w.log ++ evs)).log = w.log ++ evs from rfl, Spec.transfers_append] at htr
    rcases List.mem_append.mp htr with htr | htr
    · obtain ⟨call₁, h1, h2, h3⟩ := h.author tr htr
      by_cases hne : tr.call = c
      · rw [hne, hc, Option.some.injEq] at h1
        subst h1
        exact ⟨call', hne ▸ calls_self, m.key.trans h2, m.intent.trans h3⟩
      · exact ⟨call₁, (calls_ne _ hne).trans h1, h2, h3⟩
    · obtain ⟨h1, h2, h3⟩ := m.events tr htr
      exact ⟨call', h1 ▸ calls_self, m.key.trans h2.symm, m.intent.trans h3.symm⟩
  · intro c' call₁ hc₁ hs
    have keep : ∀ c'', c'' ∈ w.held → (c'' = c → call'.pc.session.isSome = true) →
        c'' ∈ (w.moveTo c call' db (w.log ++ evs)).held := by
      intro c'' hm hcs
      simp only [World.moveTo]
      split
      · exact hm
      · rename_i hns
        exact List.mem_filter.mpr ⟨hm, by simpa using fun e => hns (hcs e)⟩
    by_cases hne : c' = c
    · subst hne
      rw [calls_self, Option.some.injEq] at hc₁
      subst hc₁
      exact keep c' (m.held hs) fun _ => hs
    · rw [calls_ne c' hne] at hc₁
      exact keep c' (h.held c' call₁ hc₁ hs) fun e => absurd e hne
  · intro c' hm
    obtain ⟨hw, hs⟩ := hmem c' hm
    by_cases hne : c' = c
    · exact ⟨call', hne ▸ calls_self, Pc.running_of_session (hs hne)⟩
    · obtain ⟨call₁, h1, h2⟩ := h.running c' hw
      exact ⟨call₁, (calls_ne c' hne).trans h1, h2⟩

theorem quiet {call' : Call} {db : Db} (hkey : call'.key = call.key) (hintent : call'.intent = call.intent)
    (hdb : DbInv db) (ht : db.tables = w.db.tables)
    (others : ∀ y, call.pc.session ≠ some y → call'.pc.session ≠ some y → db.txns y = w.db.txns y)
    (opened : ∀ x, call'.pc.session = some x → call.pc.session = some x ∨ w.db.txns x = none)
    (session : ∀ x, call'.pc.session = some x →
      ∃ txn, db.txns x = some txn ∧ txn.savepoints = [] ∧ SessionOk cfg db.tables call' x txn)
    (closed : ∀ x, call.pc.session = some x → call'.pc.session = some x ∨ db.txns x = none)
    (hcall : CallOk cfg w.log c call') (held : call'.pc.session.isSome = true → c ∈ w.held) :
    Inv cfg (w.moveTo c call' db w.log) := by
  have m : Move cfg w c call call' db [] :=
    { key := hkey
      intent := hintent
      inv := hdb
      stored := ht ▸ h.stored
      spec := by rw [List.append_nil, ht]; exact h.spec
      events := fun tr htr => by cases htr
      others := others
      frame := fun y txn _ _ id _ a ha => by rw [ht]; exact ha
      opened := opened
      session := session
      closed := closed
      call := by rw [List.append_nil]; exact hcall
      held := held }
  have := h.move hc m
  rwa [List.append_nil] at this

theorem stay {call' : Call} (hkey : call'.key = call.key) (hintent : call'.intent = call.intent)
    (hs : call.pc.session = none) (hs' : call'.pc.session = none) (hcall : CallOk cfg w.log c call') :
    Inv cfg (w.moveTo c call' w.db w.log) := by
  refine h.quiet hc hkey hintent h.db rfl (fun _ _ _ => rfl) ?_ ?_ ?_ hcall ?_
  · intro x hx; rw [hs'] at hx; cases hx
  · intro x hx; rw [hs'] at hx; cases hx
  · intro x hx; rw [hs] at hx; cases hx
  · intro hx; rw [hs'] at hx; cases hx

theorem puts {call' : Call} {x : Xid} {txn : Txn} (hkey : call'.key = call.key)
    (hintent : call'.intent = call.intent)
    (hs : call.pc.session = some x) (hs' : call'.pc.session = some x) (hdb : DbInv (w.db.put x txn))
    (hsp : txn.savepoints = []) (hok : SessionOk cfg w.db.tables call' x txn) (hcall : CallOk cfg w.log c call') :
    Inv cfg (w.moveTo c call' (w.db.put x txn) w.log) := by
  refine h.quiet hc hkey hintent hdb rfl ?_ ?_ ?_ ?_ hcall ?_
  · intro y hy _
    have hne : y ≠ x := fun e => hy (e ▸ hs)
    exact Function.update_of_ne hne ..
  · intro y hy
    exact Or.inl (hs.trans (hs'.symm.trans hy))
  · intro y hy
    rw [hs', Option.some.injEq] at hy
    subst hy
    exact ⟨txn, Function.update_self .., hsp, hok⟩
  · intro y hy
    exact Or.inl (hs'.trans (hs.symm.trans hy))
  · intro _
    exact h.held c call hc (by rw [hs]; rfl)

theorem closes {call' : Call} {x : Xid} (hkey : call'.key = call.key) (hintent : call'.intent = call.intent)
    (hs : call.pc.session = some x) (hs' : call'.pc.session = none) (hcall : CallOk cfg w.log c call') :
    Inv cfg (w.moveTo c call' (w.db.close x) w.log) := by
  refine h.quiet hc hkey hintent h.db.close rfl ?_ ?_ ?_ ?_ hcall ?_
  · intro y hy _
    have hne : y ≠ x := fun e => hy (e ▸ hs)
    exact Function.update_of_ne hne ..
  · intro y hy; rw [hs'] at hy; cases hy
  · intro y hy; rw [hs'] at hy; cases hy
  · intro y hy
    rw [hs, Option.some.injEq] at hy
    subst hy
    exact Or.inr (Function.update_self ..)
  · intro hy; rw [hs'] at hy; cases hy

theorem opens {call' : Call} {now : Timestamp} (hkey : call'.key = call.key) (hintent : call'.intent = call.intent)
    (hs : call.pc.session = none) (hs' : call'.pc.session = some w.db.nextXid)
    (hok : SessionOk cfg w.db.tables call' w.db.nextXid { now }) (hcall : CallOk cfg w.log c call')
    (hheld : c ∈ w.held) : Inv cfg (w.moveTo c call' (w.db.begin now) w.log) := by
  refine h.quiet hc hkey hintent (h.db.begin now) rfl ?_ ?_ ?_ ?_ hcall fun _ => hheld
  · intro y _ hy
    rw [hs'] at hy
    have hne : y ≠ w.db.nextXid := fun e => hy (e ▸ rfl)
    exact Function.update_of_ne hne ..
  · intro y hy
    rw [hs', Option.some.injEq] at hy
    exact Or.inr (hy ▸ h.db.bounded _ (Nat.le_refl _))
  · intro y hy
    rw [hs', Option.some.injEq] at hy
    subst hy
    exact ⟨{ now }, Function.update_self .., rfl, hok⟩
  · intro y hy; rw [hs] at hy; cases hy

omit hc in
theorem keys : Spec.Keys w.db.tables :=
  ⟨h.db.tables.transactionIds, h.db.tables.keys, h.db.tables.entryIds⟩

omit hc in
theorem transactions : w.db.tables.transactions = (Spec.transfers w.log).map (·.row cfg.sha256) := by
  rw [(Spec.exec_log h.spec).1, List.nil_append]

theorem commits {call' : Call} {db : Db} {ev : Spec.Event} (hl : World.landing w.db c call = some (db, ev))
    (hkey : call'.key = call.key) (hintent : call'.intent = call.intent) (hs' : call'.pc.session = none)
    (hcall : CallOk cfg (w.log ++ [ev]) c call') : Inv cfg (w.moveTo c call' db (w.log ++ [ev])) := by
  cases hpc : call.pc with
  | commit x id sender receiver cid did =>
    have hs : call.pc.session = some x := by rw [hpc]; rfl
    obtain ⟨txn, hx, -, hok⟩ := h.session c call x hc hs
    simp only [World.landing, hpc, hx, Option.bind_some] at hl
    split at hl
    · rename_i db' hcm
      cases hl
      simp only [SessionOk, hpc] at hok
      obtain ⟨hab, s, r, s', r', hu, h1, h2, hsh⟩ := hok
      have hw := h.db.work hx
      have hid : s'.id ≠ r'.id := by
        rw [Spec.shift_id h1, Spec.shift_id h2, (Spec.findAccount_some hu.admits.sender).2,
          (Spec.findAccount_some hu.admits.receiver).2]
        exact hu.admits.distinct
      have hover : txn.work.overlay w.db.tables = Spec.settled cfg.sha256 w.db.tables
          (call.transfer c x id cid did txn.now) s' r' := hsh.settled hw.untruncated hid
      have hdb := h.db.commit hx hcm
      obtain ⟨hab', -⟩ | ⟨-, hd, rfl⟩ := Db.commit_ok hcm
      · rw [hab] at hab'; cases hab'
      have hnokey : ∀ q ∈ w.db.tables.transactions, q.idempotencyKey ≠ call.key := by
        intro q hq
        have hkeys := (distinct_append.mp hw.keys).2.2 q hq
        rw [hsh.transactions] at hkeys
        exact hkeys _ (List.mem_singleton.mpr rfl)
      refine h.move hc (?_ : Move cfg w c call call' _ [_])
      refine ⟨hkey, hintent, hdb, ?_, ?_, ?_, ?_, ?_, ?_, ?_, ?_, hcall, ?_⟩
      · intro a ha
        rw [show (({ w.db.close x with tables := txn.work.overlay w.db.tables } : Db).tables) =
          txn.work.overlay w.db.tables from rfl, Work.overlay_accounts hw.untruncated, hsh.accounts,
          List.append_nil] at ha
        obtain ⟨b, hb, rfl⟩ := List.mem_map.mp ha
        exact (h.stored b hb).of_terms (hw.current_terms (List.mem_append_left _ hb))
      · rw [exec_concat, h.spec, Option.bind_some]
        exact (Spec.transfer_iff (Spec.exec_inv h.spec).ids).mpr
          ⟨hnokey, s, r, s', r', hu.admits, h1, h2, hover⟩
      · intro tr htr
        rw [List.mem_singleton.mp (show tr ∈ [call.transfer c x id cid did txn.now] from htr)]
        exact ⟨rfl, rfl, rfl⟩
      · intro y hy _
        have hne : y ≠ x := fun e => hy (e ▸ hs)
        exact Function.update_of_ne hne ..
      · intro y ty hy hty i hlock a ha
        exact h.db.commit_frame hx hty (fun e => hy (e ▸ hs)) hlock ha
      · intro y hy; rw [hs'] at hy; cases hy
      · intro y hy; rw [hs'] at hy; cases hy
      · intro y hy
        rw [hs, Option.some.injEq] at hy
        subst hy
        exact Or.inr (Function.update_self ..)
      · intro hy; rw [hs'] at hy; cases hy
    · cases hl
  | _ => simp [World.landing, hpc] at hl

end Inv

end Ledger
