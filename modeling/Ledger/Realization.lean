import Ledger.Moves
import Mathlib.Data.Fintype.Card

/-!
# What the sequential ledger allows, the service does

Accounts opened and transfers accepted one after the other by the sequential ledger are
committed and acknowledged by some run of the service: refusing to serve is not how it
keeps its promises.
-/

namespace Ledger

open Keyed Runs Transfers

/-! ## Opening an account -/

theorem text_of_plain {s : String} (h : hasNul s = false) : text (some s) = .ok (some s) := by
  rw [text_some, h]
  rfl

theorem NewAccount.row_stored (sch : Schema) {a : Row.Account} (hs : a.Stored) (hz : a.balance = Num20.zero) :
    NewAccount.row sch a.createdAt
      { id := .val a.id, name := .val a.name, currency := .val a.currency,
        allowsNegativeBalance := .val a.allowsNegativeBalance } = .ok a := by
  have hzero : castCol (some (.num 0 0)) = .ok (some Num20.zero) := rfl
  have hpos : (!sch.balanceNonNegative || a.allowsNegativeBalance || !Num20.zero.val.lt (.num 0)) = true := by
    rw [show Num20.zero.val.lt (.num 0) = false from rfl]
    simp
  have hself : ({ a with balance := Num20.zero } : Row.Account) = a := by rw [← hz]
  simp only [NewAccount.row, Col.eval, text_of_plain hs.name, text_of_plain hs.currency, hzero, notNull, bind,
    Except.bind]
  rw [show Row.Account.checks sch _ = _ from hs.checks sch Num20.zero, if_pos hpos, hself]

theorem Accounts.opened_stored (sch : Schema) {accounts : List Row.Account} {a : Row.Account} (hs : a.Stored)
    (hz : a.balance = Num20.zero) (hid : ∀ b ∈ accounts, b.id ≠ a.id) :
    Accounts.opened sch accounts a.id a.createdAt a.name ⟨a.currency⟩ a.allowsNegativeBalance = [a] := by
  have hnew : (accounts.any fun b => decide (b.id = a.id)) = false := by
    rw [List.any_eq_false]
    exact fun b hb => by simpa using hid b hb
  simp only [Accounts.opened, NewAccount.row_stored sch hs hz, hnew, Bool.false_eq_true, if_false]

theorem Inv.opens_row {cfg : Config} {w : World} (h : Inv cfg w) {process : Nat} {row : Row.Account}
    (hfree : w.free cfg process = true) (hs : row.Stored) (hz : row.balance = Num20.zero)
    (hid : ∀ a ∈ w.db.tables.accounts, a.id ≠ row.id) :
    ∃ db, w.step cfg
        (.create process ⟨row.id, row.createdAt, []⟩ row.name ⟨row.currency⟩ row.allowsNegativeBalance) =
        some { w with db := db, log := w.log ++ [.account row] } ∧
      db.tables = { w.db.tables with accounts := w.db.tables.accounts ++ [row] } ∧
      ∀ x, db.txns x = w.db.txns x := by
  obtain ⟨db, rows, hrows, hcr, ht, htxns⟩ := h.create_opens row.id row.createdAt row.name ⟨row.currency⟩
    row.allowsNegativeBalance
  rw [Accounts.opened_stored cfg.schema hs hz hid] at hrows
  subst hrows
  obtain ⟨⟨db', rows', answer⟩, hcreate, he⟩ := Option.map_eq_some_iff.mp hcr
  obtain ⟨rfl, rfl⟩ : db' = db ∧ rows' = [row] := by simpa using he
  refine ⟨db', ?_, ht, htxns⟩
  simp only [World.step, World.create, hfree, if_true, hcreate, Option.map_some]
  rfl

/-! ## The events -/

namespace Spec

def Transfer.request (tr : Transfer) : String × TransferIntent := (tr.key, tr.intent)

/-- What the columns hold. -/
def Event.Storable : Event → Prop
  | .account row => row.Stored
  | .transfer tr => hasNul tr.key = false ∧ hasNul tr.intent.description = false

theorem Admits.of_accounts {t t' : Tables} {i : TransferIntent} {s r : Row.Account} (ha : Admits t i s r)
    (h : t'.accounts = t.accounts) : Admits t' i s r := by
  have hfind : ∀ id, findAccount t' id = findAccount t id := fun id => by unfold findAccount; rw [h]
  exact { ha with sender := (hfind _).trans ha.sender, receiver := (hfind _).trans ha.receiver }

theorem Admits.unique {t : Tables} {i : TransferIntent} {s r s' r' : Row.Account} (h : Admits t i s r)
    (h' : Admits t i s' r') : s = s' ∧ r = r' :=
  ⟨Option.some.inj (h.sender.symm.trans h'.sender), Option.some.inj (h.receiver.symm.trans h'.receiver)⟩

theorem unused_iff {sha256 : List UInt8 → Vector UInt8 32} {dec : Decode} {log : List Event} {t : Tables}
    (h : exec (step sha256 dec) {} log = some t) (key : String) :
    Unused t key ↔ ∀ q ∈ (transfers log).map (·.request), q.1 ≠ key := by
  unfold Unused
  rw [(exec_log h).1, List.nil_append, List.forall_mem_map, List.forall_mem_map]
  rfl

end Spec

/-! ## The service at rest -/

/-- The service has committed what the sequential ledger has, acknowledged all of it, and
is at rest. -/
structure World.Realizes (cfg : Config) (log : List Spec.Event) (t : Tables) (w : World) : Prop where
  leads : World.Leads cfg World.init w
  idle : w.held = []
  quiet : ∀ x, w.db.txns x = none
  answered : ∀ c call, w.calls c = some call → ∃ detail, call.pc = .done (.ok ⟨.created, detail⟩)
  unborn : ∃ n, ∀ c, n ≤ c → w.calls c = none
  accounts : w.db.tables.accounts = t.accounts
  requests : (Spec.transfers w.log).map (·.request) = (Spec.transfers log).map (·.request)

namespace World.Realizes

variable {cfg : Config} {log : List Spec.Event} {t : Tables} {w : World} (h : w.Realizes cfg log t)
include h

theorem free (hpool : ∀ p, 1 ≤ cfg.poolSize p) (p : Nat) : w.free cfg p = true := by
  unfold World.free
  rw [h.idle]
  exact decide_eq_true (hpool p)

theorem new_ids (hids : 3 * (Spec.transfers log).length + 3 ≤ 2 ^ 128) :
    ∃ ids : List Uuid, ids.Nodup ∧ 3 ≤ ids.length ∧ ∀ id ∈ ids, w.New id := by
  let used := w.db.tables.transactions.map (·.id) ++ w.db.tables.entries.map (·.id)
  have hlen : used.length = 3 * (Spec.transfers log).length := by
    have hn := congrArg List.length h.requests
    rw [List.length_map, List.length_map] at hn
    have hi := (Inv.reach h.leads).spec
    have hentries : ((Spec.transfers w.log).flatMap (·.entries)).length = 2 * (Spec.transfers w.log).length := by
      rw [List.length_flatMap, show (fun tr : Spec.Transfer => tr.entries.length) = fun _ => 2 from rfl]
      simp [mul_comm]
    simp only [used, List.length_append, List.length_map, (Spec.exec_log hi).1, (Spec.exec_log hi).2,
      List.nil_append, hentries, hn]
    omega
  refine ⟨(Finset.univ \ used.toFinset).toList, Finset.nodup_toList _, ?_, fun id hid => ?_⟩
  · have hcard : used.toFinset.card ≤ used.length := List.toFinset_card_le used
    rw [Finset.length_toList, Finset.card_sdiff_of_subset (Finset.subset_univ _), Finset.card_univ,
      Fintype.card_fin]
    omega
  · have hnot : id ∉ used := by
      rw [Finset.mem_toList, Finset.mem_sdiff, List.mem_toFinset] at hid
      exact hid.2
    refine ⟨fun c call hc => ?_, fun r hr he => hnot ?_, fun e hm he => hnot ?_⟩
    · obtain ⟨detail, hd⟩ := h.answered c call hc
      rw [hd]
      exact List.not_mem_nil
    · exact List.mem_append_left _ (he ▸ List.mem_map_of_mem hr)
    · exact List.mem_append_right _ (he ▸ List.mem_map_of_mem hm)

theorem opens {t' : Tables} {row : Row.Account} (hpool : ∀ p, 1 ≤ cfg.poolSize p) (hs : row.Stored)
    (ho : Spec.openAccount t row = some t') : ∃ w' : World, w'.Realizes cfg (log ++ [.account row]) t' := by
  unfold Spec.openAccount at ho
  split at ho
  · rename_i hrow
    obtain ⟨hz, hid⟩ := hrow
    cases ho
    obtain ⟨db, hstep, ht, htxns⟩ := (Inv.reach h.leads).opens_row (h.free hpool 0) hs hz (h.accounts ▸ hid)
    refine ⟨_, Reach.snoc _ h.leads trivial hstep, h.idle, fun x => (htxns x).trans (h.quiet x), h.answered,
      h.unborn, ?_, ?_⟩
    · rw [ht]
      exact congrArg (· ++ [row]) h.accounts
    · rw [Spec.transfers_append, Spec.transfers_append]
      simpa [Spec.transfers] using h.requests
  · cases ho

end World.Realizes

theorem Spec.shift_inRange {a a' : Row.Account} {delta : ℤ} (h : Spec.shift a delta = some a') :
    (a.balance.val + .num delta).inRange = true := by
  by_contra hn
  rw [Spec.shift_none.mpr (by simpa using hn)] at h
  cases h

theorem World.Leads.new_transfer {cfg : Config} {w w₂ : World} (hl : World.Leads cfg w w₂) (hi : Inv cfg w)
    {c : Nat} {call : Call} (hc : w₂.calls c = some call) {detail : TransactionDetail}
    (hd : call.pc = .done (.ok ⟨.created, detail⟩)) {row : Row.Transaction}
    (ht : w₂.db.tables.transactions = w.db.tables.transactions ++ [row]) (hk : row.idempotencyKey = call.key) :
    (Spec.transfers w₂.log).map (·.request) =
      (Spec.transfers w.log).map (·.request) ++ [(call.key, call.intent)] := by
  have hi₂ := hl.inv hi
  obtain ⟨evs, hlog⟩ := hl.log
  have hrows : (Spec.transfers evs).map (·.row cfg.sha256) = [row] := by
    have h := ht
    rw [hi₂.transactions, hi.transactions, hlog, Spec.transfers_append, List.map_append] at h
    exact List.append_cancel_left h
  obtain ⟨tr, htr, hrow⟩ := List.map_eq_singleton_iff.mp hrows
  have hmem : tr ∈ Spec.transfers w₂.log := by
    rw [hlog, Spec.transfers_append, htr]
    exact List.mem_append_right _ (List.mem_singleton_self _)
  have hkey : tr.key = call.key := (congrArg Row.Transaction.idempotencyKey hrow).trans hk
  -- the answer of the call says that the transfer under its key is its own
  obtain ⟨tr', -, hst, -, -⟩ := hi₂.answer hc hd
  have he : tr' = tr := hi₂.transfer_keys.eq hst.mem hmem (hst.key.trans hkey.symm)
  obtain ⟨call', hc', -, hintent⟩ := hi₂.author tr hmem
  rw [show tr.call = c from he ▸ hst.own rfl, hc, Option.some.injEq] at hc'
  rw [hlog, Spec.transfers_append, htr, List.map_append, List.map_singleton]
  simp only [Spec.Transfer.request, hkey, ← hintent, ← hc']

namespace World.Realizes

variable {cfg : Config} {log : List Spec.Event} {t : Tables} {w : World} (h : w.Realizes cfg log t)
include h

theorem accepts {t' : Tables} {tr : Spec.Transfer} (hpool : ∀ p, 1 ≤ cfg.poolSize p) (hfast : cfg.fastPath = true)
    (hspec : exec (Spec.step cfg.sha256 cfg.decode) {} log = some t) (hs : Spec.Event.Storable (.transfer tr))
    (hids : 3 * (Spec.transfers log).length + 3 ≤ 2 ^ 128)
    (ht : Spec.transfer cfg.sha256 cfg.decode t tr = some t') :
    ∃ w' : World, w'.Realizes cfg (log ++ [.transfer tr]) t' := by
  have hi := Inv.reach h.leads
  obtain ⟨n, hn⟩ := h.unborn
  obtain ⟨hu, s, r, s', r', ha, hs', hr', rfl⟩ := (Spec.transfer_iff (Spec.exec_inv hspec).ids).mp ht
  have ha' := ha.of_accounts h.accounts
  have hu' : Unused w.db.tables tr.key := by
    rw [Spec.unused_iff hi.spec, h.requests, ← Spec.unused_iff hspec]
    exact hu
  have hfits : Fits w.db.tables tr.key tr.intent := by
    refine Or.inr (Or.inr (Or.inr ⟨hs.2, fun s₂ r₂ ha₂ => ?_⟩))
    obtain ⟨rfl, rfl⟩ := ha'.unique ha₂
    exact ⟨Spec.shift_inRange hs', Spec.shift_inRange hr'⟩
  have hstep : w.step cfg (.invoke n tr.key tr.intent) = some
      { w with calls := Function.update w.calls n (some ⟨tr.key, tr.intent, 0, startPc cfg tr.intent⟩) } := by
    simp only [World.step, World.invoke, hn n (le_refl n)]
  obtain ⟨hquiet, hheld, hsolo⟩ := Solo.start hi h.quiet (Or.inl hfast) hstep
  obtain ⟨ids, hnd, hlen, hnew⟩ := h.new_ids hids
  obtain ⟨w₂, call, detail, hrun, hc, hk, hint, hd⟩ :=
    hsolo.commits hquiet hheld hs.1 (h.free hpool _) hnd hlen hnew hfast hfits hu' ha'
  have hsolo₂ := hsolo.reach hquiet hheld hs.1 hrun
  have hleads : World.Leads cfg w w₂ := (Reach.one _ trivial hstep : World.Leads cfg w _).trans
    (hrun.mono (P := fun _ => True) (fun _ _ _ _ _ _ => trivial) (fun _ _ _ _ => trivial) trivial)
  obtain ⟨tables, htables⟩ : ∃ tables, tables = w₂.db.tables := ⟨_, rfl⟩
  have hout : Outcome cfg w.db.tables tr.key tr.intent (.ok ⟨.created, detail⟩) tables := by
    obtain ⟨call', hc', -, -, hp⟩ := hsolo₂.call
    rw [hc, Option.some.injEq] at hc'
    rw [← hc', hd, ← htables] at hp
    exact hp
  cases hout with
  | @creates _ tr₂ s₂ r₂ s₂' r₂' _ _ ha₂ hs₂ hr₂ hk₂ hi₂ =>
    obtain ⟨rfl, rfl⟩ := ha'.unique ha₂
    obtain rfl := Option.some.inj (hs'.symm.trans hs₂)
    obtain rfl := Option.some.inj (hr'.symm.trans hr₂)
    have hanswered : ∀ c call, w₂.calls c = some call → ∃ detail, call.pc = .done (.ok ⟨.created, detail⟩) := by
      intro c call₂ hc₂
      by_cases hcn : c = n
      · subst hcn
        rw [hc, Option.some.injEq] at hc₂
        exact ⟨detail, hc₂ ▸ hd⟩
      · exact h.answered c call₂ (by rw [← hsolo₂.same c hcn]; exact hc₂)
    refine ⟨w₂, h.leads.trans hleads, ?_, fun x => ?_, hanswered, ⟨n + 1, fun c hcn => ?_⟩, ?_, ?_⟩
    · rcases hsolo₂.held with he | he
      · rw [he, h.idle]
      · obtain ⟨call₂, hc₂, hrunning⟩ := hsolo₂.inv.running n (by rw [he]; exact List.mem_cons_self ..)
        obtain ⟨detail₂, hd₂⟩ := hanswered n call₂ hc₂
        rw [hd₂] at hrunning
        cases hrunning
    · cases hx : w₂.db.txns x with
      | none => rfl
      | some txn =>
        obtain ⟨c, call₂, hc₂, hsess⟩ := hsolo₂.inv.owned x txn hx
        obtain ⟨detail₂, hd₂⟩ := hanswered c call₂ hc₂
        rw [hd₂] at hsess
        cases hsess
    · rw [hsolo₂.same c (by omega), hn c (by omega)]
    · rw [← htables]
      exact congrArg (List.map (Spec.settle s' r')) h.accounts
    · have htransactions : w₂.db.tables.transactions = w.db.tables.transactions ++ [tr₂.row cfg.sha256] := by
        rw [← htables]; rfl
      rw [hleads.new_transfer hi hc hd htransactions (hk₂.trans hk.symm), h.requests, Spec.transfers_append,
        List.map_append, hk, hint]
      rfl

end World.Realizes

/-- **The sequential ledger promises nothing the service cannot do.** Whatever sequence of
account openings and transfers the sequential ledger accepts, as far as the columns can
hold the texts and there are ids for it, some run of the service commits the same
requests in the same order, acknowledges every one of them, leaves the same accounts with
the same balances, and comes to rest with no connection in use and nothing open. -/
theorem realizable (cfg : Config) (hpool : ∀ p, 1 ≤ cfg.poolSize p) {log : List Spec.Event} {t : Tables}
    (hspec : exec (Spec.step cfg.sha256 cfg.decode) {} log = some t) (hs : ∀ ev ∈ log, ev.Storable)
    (hids : 3 * (Spec.transfers log).length ≤ 2 ^ 128) : ∃ w : World, w.Realizes cfg.asWritten log t := by
  induction log using List.reverseRecOn generalizing t with
  | nil =>
    cases hspec
    exact ⟨World.init, Reach.refl, rfl, fun _ => rfl, nofun, ⟨0, fun _ _ => rfl⟩, rfl, rfl⟩
  | append_singleton log ev ih =>
    rw [exec_concat] at hspec
    obtain ⟨t₀, hspec₀, hev⟩ := Option.bind_eq_some_iff.mp hspec
    have hlen : (Spec.transfers (log ++ [ev])).length =
        (Spec.transfers log).length + (Spec.transfers [ev]).length := by
      rw [Spec.transfers_append, List.length_append]
    obtain ⟨w, hw⟩ := ih hspec₀ (fun e he => hs e (List.mem_append_left _ he)) (by omega)
    have hsev := hs ev (List.mem_append_right _ (List.mem_singleton_self _))
    cases ev with
    | account row => exact hw.opens hpool hsev hev
    | transfer tr =>
      rw [show (Spec.transfers [.transfer tr]).length = 1 from rfl] at hlen
      exact hw.accepts hpool rfl hspec₀ hsev (by omega) hev

def openedRow (id : Uuid) (name : String) (funding : Bool) : Row.Account where
  id := id
  name := name
  currency := "EUR"
  balance := Num20.zero
  allowsNegativeBalance := funding
  createdAt := 0

def rentLog : List Spec.Event :=
  [.account (openedRow 1 "bank" true), .account (openedRow 2 "landlord" false), .transfer rentPaid]

theorem realizable_rentLog : ∃ t, exec (Spec.step digest Decode.driver) {} rentLog = some t ∧
    ∃ w : World, w.Realizes (sample true) rentLog t := by
  have h : (exec (Spec.step digest Decode.driver) {} rentLog).isSome = true := by decide +kernel
  obtain ⟨t, ht⟩ := Option.isSome_iff_exists.mp h
  refine ⟨t, ht, realizable (sample true) (fun _ => Nat.le_refl 1) ht ?_ (by decide)⟩
  intro ev hev
  simp only [rentLog, List.mem_cons, List.not_mem_nil, or_false] at hev
  rcases hev with rfl | rfl | rfl
  · exact ⟨by decide +kernel, by decide +kernel, by decide +kernel, by decide +kernel⟩
  · exact ⟨by decide +kernel, by decide +kernel, by decide +kernel, by decide +kernel⟩
  · exact ⟨by decide +kernel, by decide +kernel⟩

end Ledger
