import Ledger.Solo

/-!
# Where money comes from

A caller of the HTTP interface whose operator has not allowed it opens no funding
account. What accounts that are none hold together then grows exactly by what is sent to
them out of the funding accounts already there. Anyone may send that, since
`POST /transfers` looks at no more than the two accounts.
-/

namespace Ledger

open Keyed Runs Transfers

/-! ## The sequential ledger -/

namespace Spec

variable {sha256 : List UInt8 → Vector UInt8 32} {dec : Decode} {t t' : Tables}

def opened (log : List Event) : List Row.Account :=
  log.filterMap fun
    | .account row => some row
    | .transfer _ => none

theorem mem_opened {log : List Event} {row : Row.Account} : row ∈ opened log ↔ .account row ∈ log := by
  simp only [opened, List.mem_filterMap]
  constructor
  · rintro ⟨ev, hev, he⟩
    cases ev with
    | account r => cases he; exact hev
    | transfer tr => cases he
  · intro h
    exact ⟨_, h, rfl⟩

theorem step_terms {ev : Event} (h : LedgerInv t) (hs : step sha256 dec t ev = some t') :
    t'.accounts.map (·.terms) = t.accounts.map (·.terms) ++ (opened [ev]).map (·.terms) := by
  cases ev with
  | account row =>
    simp only [step, openAccount] at hs
    split at hs <;> cases hs
    simp [opened]
  | transfer tr =>
    obtain ⟨-, s, r, s', r', ha, hs', hr', rfl⟩ := (transfer_iff h.ids).mp hs
    simp only [settled, opened, List.filterMap_cons, List.filterMap_nil, List.map_nil, List.append_nil,
      List.map_map]
    exact List.map_congr_left fun a hm => settle_terms h ha hs' hr' hm

theorem exec_terms : ∀ {log : List Event} {t t' : Tables}, LedgerInv t → exec (step sha256 dec) t log = some t' →
    t'.accounts.map (·.terms) = t.accounts.map (·.terms) ++ (opened log).map (·.terms)
  | [], t, t', _, h => by
    cases h
    simp [opened]
  | ev :: log, t, t', hi, h => by
    simp only [exec, Option.bind_eq_some_iff] at h
    obtain ⟨t₁, h1, h2⟩ := h
    have hsplit : opened (ev :: log) = opened [ev] ++ opened log := by
      simp only [opened, ← List.filterMap_append, List.singleton_append]
    rw [exec_terms (hi.step h1) h2, step_terms hi h1, hsplit, List.map_append, List.append_assoc]

/-- What the accounts of a currency that are not for funding hold together. -/
def held (t : Tables) (c : String) : Numeric :=
  ((t.accounts.filter fun a => a.currency = c && !a.allowsNegativeBalance).map (·.balance.val)).sum

def holder (t : Tables) (c : String) (id : Uuid) : Bool :=
  t.accounts.any fun a => a.id = id && (a.currency = c && !a.allowsNegativeBalance)

def funding (t : Tables) (id : Uuid) : Bool := t.accounts.any fun a => a.id = id && a.allowsNegativeBalance

/-- The transfer takes its amount out of a funding account, to one that is none. -/
def issues (t : Tables) (intent : TransferIntent) : Bool :=
  funding t intent.fromAccountId && !funding t intent.toAccountId

def issued (t : Tables) (c : String) (trs : List Transfer) : ℤ :=
  ((trs.filter fun tr => tr.intent.amount.currency.code = c && issues t tr.intent).map (·.intent.units)).sum

theorem issued_eq_zero (c : String) {trs : List Transfer} (h : ∀ tr ∈ trs, issues t tr.intent = false) :
    issued t c trs = 0 := by
  unfold issued
  rw [List.filter_eq_nil_iff.mpr fun tr htr => by simp [h tr htr], List.map_nil, List.sum_nil]

theorem holder_eq (hd : Distinct (·.id) t.accounts) {a : Row.Account} (ha : a ∈ t.accounts) (c : String) :
    holder t c a.id = (decide (a.currency = c) && !a.allowsNegativeBalance) := by
  unfold holder
  rw [Bool.eq_iff_iff, List.any_eq_true]
  constructor
  · rintro ⟨b, hb, hp⟩
    rw [Bool.and_eq_true, decide_eq_true_eq] at hp
    rw [← hd.eq hb ha hp.1]
    exact hp.2
  · intro hp
    exact ⟨a, ha, by simpa using hp⟩

theorem held_entries (h : LedgerInv t) (c : String) :
    held t c = Sweep.net (t.entries.filter fun e => holder t c e.accountId) := by
  have howner : ∀ e ∈ t.entries, ∃ a ∈ t.accounts, a.id = e.accountId ∧
      (decide (a.currency = c) && !a.allowsNegativeBalance) = holder t c e.accountId := by
    intro e he
    obtain ⟨a, ha, hid, -⟩ := h.account e he
    exact ⟨a, ha, hid, by rw [← hid, holder_eq h.ids ha]⟩
  have hsum := h.ids.sum_labelled Row.Entry.accountId Row.Entry.signed id howner
  refine Eq.trans ?_ hsum
  exact congrArg List.sum (List.map_congr_left fun a hm => h.balance a (List.mem_filter.mp hm).1)

theorem net_append (es es' : List Row.Entry) : Sweep.net (es ++ es') = Sweep.net es + Sweep.net es' := by
  simp [Sweep.net]

/-- From `t` to `t'` the accounts have kept their terms, and none for funding has come up. -/
structure Unfunded (t t' : Tables) : Prop where
  terms : ∃ rows : List Row.Account, t'.accounts.map (·.terms) = t.accounts.map (·.terms) ++ rows.map (·.terms) ∧
    ∀ row ∈ rows, row.allowsNegativeBalance = false

namespace Unfunded

variable (h : Unfunded t t')
include h

theorem kept {a : Row.Account} (ha : a ∈ t.accounts) : ∃ b ∈ t'.accounts, b.terms = a.terms := by
  obtain ⟨rows, hrows, -⟩ := h.terms
  have hm : a.terms ∈ t'.accounts.map (·.terms) := by
    rw [hrows]
    exact List.mem_append_left _ (List.mem_map_of_mem ha)
  exact List.mem_map.mp hm

theorem old {a : Row.Account} (ha : a ∈ t'.accounts) (hf : a.allowsNegativeBalance = true) :
    ∃ b ∈ t.accounts, b.terms = a.terms := by
  obtain ⟨rows, hrows, hplain⟩ := h.terms
  have hm : a.terms ∈ t.accounts.map (·.terms) ++ rows.map (·.terms) := by
    rw [← hrows]
    exact List.mem_map_of_mem ha
  rcases List.mem_append.mp hm with hm | hm
  · exact List.mem_map.mp hm
  · obtain ⟨row, hrow, he⟩ := List.mem_map.mp hm
    have hflag : row.allowsNegativeBalance = a.allowsNegativeBalance := congrArg (·.2.2.2.1) he
    rw [hplain row hrow, hf] at hflag
    cases hflag

theorem held_old (hi : LedgerInv t) (hi' : LedgerInv t') (c : String) :
    Sweep.net (t.entries.filter fun e => holder t' c e.accountId) = held t c := by
  rw [held_entries hi]
  congr 1
  refine List.filter_congr fun e he => ?_
  obtain ⟨a, ha, hid, -⟩ := hi.account e he
  obtain ⟨b, hb, hterms⟩ := h.kept ha
  have hbid : b.id = e.accountId := (congrArg (·.1) hterms).trans hid
  have hcur : b.currency = a.currency := congrArg (·.2.2.1) hterms
  have hflag : b.allowsNegativeBalance = a.allowsNegativeBalance := congrArg (·.2.2.2.1) hterms
  rw [← hbid, holder_eq hi'.ids hb, hbid, ← hid, holder_eq hi.ids ha, hcur, hflag]

theorem funding_eq (hi' : LedgerInv t') {a : Row.Account} (ha : a ∈ t'.accounts) :
    funding t a.id = a.allowsNegativeBalance := by
  unfold funding
  rw [Bool.eq_iff_iff, List.any_eq_true]
  constructor
  · rintro ⟨b, hb, hp⟩
    rw [Bool.and_eq_true, decide_eq_true_eq] at hp
    obtain ⟨b', hb', hterms⟩ := h.kept hb
    have hid : b'.id = a.id := (congrArg (·.1) hterms).trans hp.1
    rw [← hi'.ids.eq hb' ha hid]
    exact (congrArg (·.2.2.2.1) hterms).trans hp.2
  · intro hf
    obtain ⟨b, hb, hterms⟩ := h.old ha hf
    have hid : b.id = a.id := congrArg (·.1) hterms
    have hflag : b.allowsNegativeBalance = a.allowsNegativeBalance := congrArg (·.2.2.2.1) hterms
    exact ⟨b, hb, by simp [hid, hflag, hf]⟩

theorem holder_entry (hi' : LedgerInv t') {e : Row.Entry} (he : e ∈ t'.entries) (c : String) :
    holder t' c e.accountId = (decide (e.currency = c) && !funding t e.accountId) := by
  obtain ⟨a, ha, hid, hcur⟩ := hi'.account e he
  rw [← hid, holder_eq hi'.ids ha, h.funding_eq hi' ha, hcur]

/-- What a transfer adds to the accounts that are not for funding: its amount if it goes to
one of them, less its amount if it comes from one. -/
theorem flow (hi' : LedgerInv t') {tr : Transfer} (hm : ∀ e ∈ tr.entries, e ∈ t'.entries) (c : String) :
    Sweep.net (tr.entries.filter fun e => holder t' c e.accountId) = .num
      (if tr.intent.amount.currency.code = c then
        (if funding t tr.intent.toAccountId then 0 else tr.intent.units) -
          (if funding t tr.intent.fromAccountId then 0 else tr.intent.units)
      else 0) := by
  have hfrom : holder t' c tr.credit.accountId = (decide (tr.intent.amount.currency.code = c) &&
      !funding t tr.intent.fromAccountId) := h.holder_entry hi' (hm _ (by simp [Transfer.entries])) c
  have hto : holder t' c tr.debit.accountId = (decide (tr.intent.amount.currency.code = c) &&
      !funding t tr.intent.toAccountId) := h.holder_entry hi' (hm _ (by simp [Transfer.entries])) c
  simp only [Transfer.entries, List.filter_cons, List.filter_nil, hfrom, hto]
  by_cases hc : tr.intent.amount.currency.code = c
  · cases funding t tr.intent.fromAccountId <;> cases funding t tr.intent.toAccountId <;>
      simp [hc, Sweep.net, Transfer.credit_signed, Transfer.debit_signed, Numeric.zero_def]
  · simp [hc, Sweep.net, Numeric.zero_def]

theorem flows (hi' : LedgerInv t') (c : String) : ∀ {trs : List Transfer}, (∀ tr ∈ trs, 0 < tr.intent.units) →
    (∀ tr ∈ trs, ∀ e ∈ tr.entries, e ∈ t'.entries) →
    ∃ k : ℤ, Sweep.net ((trs.flatMap (·.entries)).filter fun e => holder t' c e.accountId) = .num k ∧
      k ≤ issued t c trs
  | [], _, _ => ⟨0, rfl, Int.le_refl _⟩
  | tr :: trs, hpos, hm => by
    have hk := h.flow hi' (hm tr (List.mem_cons_self ..)) c
    obtain ⟨n, hn, hle⟩ := flows hi' c (fun q hq => hpos q (List.mem_cons_of_mem _ hq))
      fun q hq => hm q (List.mem_cons_of_mem _ hq)
    refine ⟨_, by rw [List.flatMap_cons, List.filter_append, net_append, hk, hn, Numeric.num_add], ?_⟩
    have hunits := hpos tr (List.mem_cons_self ..)
    have hissued : issued t c (tr :: trs) =
        (if tr.intent.amount.currency.code = c && issues t tr.intent then tr.intent.units else 0) +
          issued t c trs := by
      unfold issued
      rw [List.filter_cons]
      split <;> simp
    rw [hissued]
    unfold issues
    by_cases hc : tr.intent.amount.currency.code = c
    · cases funding t tr.intent.fromAccountId <;> cases funding t tr.intent.toAccountId <;> simp [hc] <;> omega
    · simp [hc, hle]

end Unfunded

end Spec

/-! ## Runs over HTTP -/

/-- What a step of the service comes from: requests arrive through the two routes, and
the rest is the service's own doing. -/
def Label.Http (allowFundingAccountCreation : Bool) : Label → Prop
  | .invoke _ key intent => ∃ header payload, Http.create header payload = .ok (key, intent)
  | .create _ _ name currency flag => ∃ payload,
      Http.createAccount allowFundingAccountCreation payload = .ok (name, currency, flag)
  | _ => True

section
variable {cfg : Config} {w w' : World}

theorem Http.log (h : Reach (World.step cfg) (fun _ l => l.Http false) w w') :
    ∃ evs, w'.log = w.log ++ evs ∧ ∀ row ∈ Spec.opened evs, row.allowsNegativeBalance = false := by
  refine h.rel (R := fun a b => ∃ evs, b.log = a.log ++ evs ∧ ∀ row ∈ Spec.opened evs,
    row.allowsNegativeBalance = false) (P := fun _ => True) ?_ ?_ (fun _ _ _ _ _ _ => trivial) ?_ trivial
  · intro a
    exact ⟨[], (List.append_nil _).symm, List.forall_mem_nil _⟩
  · rintro a b d ⟨e₁, h1, p1⟩ ⟨e₂, h2, p2⟩
    refine ⟨e₁ ++ e₂, by rw [h2, h1, List.append_assoc], fun row hrow => ?_⟩
    rw [Spec.opened, List.filterMap_append] at hrow
    exact (List.mem_append.mp hrow).elim (p1 row) (p2 row)
  · intro a l b _ hl hs
    rcases World.step_log hs with he | ⟨ev, he, hev, -⟩
    · exact ⟨[], by rw [he, List.append_nil], List.forall_mem_nil _⟩
    · refine ⟨[ev], he, fun row hrow => ?_⟩
      obtain ⟨process, env, name, currency, rfl⟩ := hev row (List.mem_singleton.mp (Spec.mem_opened.mp hrow)).symm
      obtain ⟨payload, hp⟩ := hl
      rw [Bool.eq_false_iff]
      exact fun hf => absurd (Http.createAccount_flag hp hf) (by decide)

end

/-- A `COMMIT` takes effect that moves money out of a funding account to one that is none. -/
def World.Issues (w : World) (l : Label) : Prop :=
  ∃ c call, l.commits = some c ∧ w.calls c = some call ∧ (World.landing w.db c call).isSome = true ∧
    Spec.issues w.db.tables call.intent = true

instance (w : World) (l : Label) : Decidable (w.Issues l) :=
  decidable_of_iff ((l.commits.any fun c => (w.calls c).any fun call =>
      (World.landing w.db c call).isSome && Spec.issues w.db.tables call.intent) = true) (by
    simp only [Option.any_eq_true, Bool.and_eq_true, World.Issues, exists_and_left])

section
variable {cfg : Config} {w w' : World} {l : Label}

theorem World.issues_iff (hs : w.step cfg l = some w') : w.Issues l ↔ ∃ tr : Spec.Transfer,
    w'.log = w.log ++ [.transfer tr] ∧ Spec.issues w.db.tables tr.intent = true := by
  constructor
  · rintro ⟨c, call, hl, hc, hland, hi⟩
    obtain ⟨⟨db, ev⟩, hland⟩ := Option.isSome_iff_exists.mp hland
    obtain ⟨x, id, sender, receiver, cid, did, txn, -, -, -, rfl⟩ := Inv.landing_commit hland
    exact ⟨_, World.landing_log hs hl hc hland, hi⟩
  · rintro ⟨tr, he, hi⟩
    rcases World.step_log hs with he' | ⟨ev, he', -, hland⟩
    · rw [he, List.append_right_eq_self] at he'
      cases he'
    · rw [he, List.append_cancel_left_eq, List.singleton_inj] at he'
      obtain ⟨hcommits, call, db, -, hc, hl, -⟩ := hland tr he'.symm
      obtain ⟨x, id, sender, receiver, cid, did, txn, -, -, -, hev⟩ := Inv.landing_commit hl
      have hintent : tr.intent = call.intent := congrArg (·.intent) (Spec.Event.transfer.inj (he'.trans hev))
      exact ⟨tr.call, call, hcommits, hc, by rw [hl]; rfl, by rw [← hintent]; exact hi⟩

theorem Http.held_num (hi : Inv cfg w) (c : String) : ∃ u : ℤ, Spec.held w.db.tables c = .num u := by
  obtain ⟨u, hu⟩ := net_filter_num (Spec.reconciled hi.spec hi.keys).global
    fun e => Spec.holder w.db.tables c e.accountId
  exact ⟨u, (Spec.held_entries hi.ledger c).trans hu⟩

theorem Http.held (hi : Inv cfg w) (hi' : Inv cfg w') {evs : List Spec.Event} (hlog : w'.log = w.log ++ evs)
    (hplain : ∀ row ∈ Spec.opened evs, row.allowsNegativeBalance = false) :
    Spec.Unfunded w.db.tables w'.db.tables ∧
    w'.db.tables.transactions = w.db.tables.transactions ++ (Spec.transfers evs).map (·.row cfg.sha256) ∧
    w'.db.tables.entries = w.db.tables.entries ++ (Spec.transfers evs).flatMap (·.entries) ∧
    (∀ tr ∈ Spec.transfers evs, 0 < tr.intent.units ∧ ∀ e ∈ tr.entries, e ∈ w'.db.tables.entries) ∧
    ∀ c, ∃ u, Spec.held w.db.tables c = .num u ∧ Spec.held w'.db.tables c = .num u + Sweep.net
      (((Spec.transfers evs).flatMap (·.entries)).filter fun e => Spec.holder w'.db.tables c e.accountId) := by
  have hexec : exec (Spec.step cfg.sha256 cfg.decode) w.db.tables evs = some w'.db.tables := by
    have := hi'.spec
    rwa [hlog, exec_append, hi.spec, Option.bind_some] at this
  have hun : Spec.Unfunded w.db.tables w'.db.tables := ⟨_, Spec.exec_terms hi.ledger hexec, hplain⟩
  obtain ⟨htx, hen⟩ := Spec.exec_log hexec
  refine ⟨hun, htx, hen, fun tr htr => ⟨TransferIntent.units_pos (Spec.exec_admitted hexec tr htr).2,
    fun e he => ?_⟩, fun c => ?_⟩
  · rw [hen]
    exact List.mem_append_right _ (List.mem_flatMap.mpr ⟨tr, htr, he⟩)
  · obtain ⟨u, hu⟩ := Http.held_num hi c
    refine ⟨u, hu, ?_⟩
    rw [Spec.held_entries hi'.ledger, hen, List.filter_append, Spec.net_append,
      hun.held_old hi.ledger hi'.ledger, hu]

theorem Http.held_le (hi : Inv cfg w) (hi' : Inv cfg w') {evs : List Spec.Event} (hlog : w'.log = w.log ++ evs)
    (hplain : ∀ row ∈ Spec.opened evs, row.allowsNegativeBalance = false) (c : String) :
    ∃ u u' : ℤ, Spec.held w.db.tables c = .num u ∧ Spec.held w'.db.tables c = .num u' ∧
      u' ≤ u + Spec.issued w.db.tables c (Spec.transfers evs) := by
  obtain ⟨hun, -, -, hadm, hheld⟩ := Http.held hi hi' hlog hplain
  obtain ⟨k, hk, hle⟩ := hun.flows hi'.ledger c (fun tr htr => (hadm tr htr).1) fun tr htr => (hadm tr htr).2
  obtain ⟨u, hu, hu'⟩ := hheld c
  exact ⟨u, u + k, hu, by rw [hu', hk, Numeric.num_add], by omega⟩

theorem Http.step_kept (hi : Inv cfg w) (hl : l.Http false) (hs : w.step cfg l = some w') (hno : ¬ w.Issues l)
    (c : String) : ∃ u u' : ℤ, Spec.held w.db.tables c = .num u ∧ Spec.held w'.db.tables c = .num u' ∧ u' ≤ u := by
  have hi' := hi.step hs
  have hone : Reach (World.step cfg) (fun _ l => l.Http false) w w' := Reach.one l hl hs
  obtain ⟨evs, hlog, hplain⟩ := Http.log hone
  have hnone : ∀ tr ∈ Spec.transfers evs, Spec.issues w.db.tables tr.intent = false := by
    intro tr htr
    rw [Bool.eq_false_iff]
    intro hissues
    rcases World.step_log hs with he | ⟨ev, he, -⟩
    · rw [hlog, List.append_right_eq_self] at he
      rw [he] at htr
      cases htr
    · rw [hlog, List.append_cancel_left_eq] at he
      rw [he] at htr hlog
      cases ev with
      | account row => cases htr
      | transfer tr' =>
        cases List.mem_singleton.mp htr
        exact hno ((World.issues_iff hs).mpr ⟨tr, hlog, hissues⟩)
  obtain ⟨u, u', hu, hu', hle⟩ := Http.held_le hi hi' hlog hplain c
  rw [Spec.issued_eq_zero c hnone, Int.add_zero] at hle
  exact ⟨u, u', hu, hu', hle⟩

theorem Http.step_issued (hi : Inv cfg w) (hl : l.Http false) (hs : w.step cfg l = some w') (hissues : w.Issues l) :
    ∃ c, ∃ u u' : ℤ, Spec.held w.db.tables c = .num u ∧ Spec.held w'.db.tables c = .num u' ∧ u < u' := by
  have hi' := hi.step hs
  have hone : Reach (World.step cfg) (fun _ l => l.Http false) w w' := Reach.one l hl hs
  obtain ⟨evs, hlog, hplain⟩ := Http.log hone
  obtain ⟨hun, -, -, hadm, hheld⟩ := Http.held hi hi' hlog hplain
  obtain ⟨tr, he, hissues⟩ := (World.issues_iff hs).mp hissues
  rw [hlog, List.append_cancel_left_eq] at he
  have htr : tr ∈ Spec.transfers evs := by rw [he]; exact List.mem_singleton.mpr rfl
  obtain ⟨hpos, hm⟩ := hadm tr htr
  have hflow := hun.flow hi'.ledger hm tr.intent.amount.currency.code
  unfold Spec.issues at hissues
  rw [Bool.and_eq_true, Bool.not_eq_true'] at hissues
  rw [if_pos rfl, hissues.1, hissues.2, if_neg Bool.false_ne_true, if_pos rfl, Int.sub_zero] at hflow
  obtain ⟨u, hu, hu'⟩ := hheld tr.intent.amount.currency.code
  have hnet : (Spec.transfers evs).flatMap (·.entries) = tr.entries := by
    rw [he]
    exact List.append_nil _
  exact ⟨_, u, u + tr.intent.units, hu, by rw [hu', hnet, hflow, Numeric.num_add], by omega⟩

end

/-- With funding accounts locked down: no funding account is added, and what the others of
a currency hold grows by no more than the transfers committed meanwhile have brought them
out of the funding accounts already there. -/
theorem http_issues_only_from_funding (cfg : Config) {w w' : World} (hr : World.Leads cfg World.init w)
    (hr' : Reach (World.step cfg) (fun _ l => l.Http false) w w') :
    (∀ a ∈ w'.db.tables.accounts, a.allowsNegativeBalance = true →
      ∃ b ∈ w.db.tables.accounts, b.terms = a.terms) ∧
    ∃ trs : List Spec.Transfer,
      w'.db.tables.transactions = w.db.tables.transactions ++ trs.map (·.row cfg.sha256) ∧
      w'.db.tables.entries = w.db.tables.entries ++ trs.flatMap (·.entries) ∧
      ∀ c, ∃ u u' : ℤ, Spec.held w.db.tables c = .num u ∧ Spec.held w'.db.tables c = .num u' ∧
        u' ≤ u + Spec.issued w.db.tables c trs := by
  have hi := Inv.reach hr
  have hleads : World.Leads cfg w w' :=
    hr'.mono (P := fun _ => True) (fun _ _ _ _ _ _ => trivial) (fun _ _ _ _ => trivial) trivial
  have hi' : Inv cfg w' := hleads.inv hi
  obtain ⟨evs, hlog, hplain⟩ := Http.log hr'
  obtain ⟨hun, htx, hen, -⟩ := Http.held hi hi' hlog hplain
  exact ⟨fun a ha hf => hun.old ha hf, Spec.transfers evs, htx, hen, Http.held_le hi hi' hlog hplain⟩

/-- **When an HTTP caller creates no value.** With funding accounts locked down, from every
reachable state: in a run of requests to the two routes in which no transfer out of a
funding account reaches one that is none, what these hold together never grows, in any
currency, and a step that commits such a transfer makes it grow. -/
theorem http_grows_only_by_issuing (cfg : Config) {w w' : World} (hr : World.Leads cfg World.init w)
    (hr' : Reach (World.step cfg) (fun a l => l.Http false ∧ ¬ a.Issues l) w w') :
    (∀ c, ∃ u u' : ℤ, Spec.held w.db.tables c = .num u ∧ Spec.held w'.db.tables c = .num u' ∧ u' ≤ u) ∧
    ∀ l w'', l.Http false → w'.Issues l → w'.step cfg l = some w'' → ∃ c, ∃ u u' : ℤ,
      Spec.held w'.db.tables c = .num u ∧ Spec.held w''.db.tables c = .num u' ∧ u < u' := by
  have hi := Inv.reach hr
  have hi' : Inv cfg w' := hr'.invariant (fun _ _ _ hp _ hs => hp.step hs) hi
  refine ⟨fun c => ?_, fun l w'' hl hissues hs => Http.step_issued hi' hl hs hissues⟩
  have hgrows : ∀ u : ℤ, Spec.held w.db.tables c = .num u →
      ∃ u' : ℤ, Spec.held w'.db.tables c = .num u' ∧ u' ≤ u := by
    refine hr'.rel (R := fun a b => ∀ u : ℤ, Spec.held a.db.tables c = .num u →
      ∃ u' : ℤ, Spec.held b.db.tables c = .num u' ∧ u' ≤ u) (P := Inv cfg) ?_ ?_ (fun _ _ _ hp _ hs => hp.step hs)
      ?_ hi
    · exact fun _ u hu => ⟨u, hu, Int.le_refl u⟩
    · intro _ _ _ hab hbd u hu
      obtain ⟨v, hv, hvu⟩ := hab u hu
      obtain ⟨x, hx, hxv⟩ := hbd v hv
      exact ⟨x, hx, Int.le_trans hxv hvu⟩
    · intro a l b ha hl hs u hu
      obtain ⟨v, v', hv, hv', hle⟩ := Http.step_kept ha hl.1 hs hl.2 c
      cases hu.symm.trans hv
      exact ⟨v', hv', hle⟩
  obtain ⟨u, hu⟩ := Http.held_num hi c
  obtain ⟨u', hu', hle⟩ := hgrows u hu
  exact ⟨u, u', hu, hu', hle⟩

/-! ### The rent is paid and given back -/

def overHttp (c : Nat) (key : String) (intent : TransferIntent) (id creditId debitId : Uuid) : List Label :=
  [.invoke c key intent] ++ onPool c 0 ++ onPool c id ++
    [0, 0, 0, 0, creditId, debitId, 0, 0].map fun id => .run c (sampleEnv id)

theorem overHttp_http {c : Nat} {key : String} {intent : TransferIntent} (id creditId debitId : Uuid)
    {header : Option (List UInt8)} {payload : Except String Http.TransferRequest}
    (h : Http.create header payload = .ok (key, intent)) :
    ∀ l ∈ overHttp c key intent id creditId debitId, l.Http false := by
  have hinvoke : ∃ header payload, Http.create header payload = .ok (key, intent) := ⟨header, payload, h⟩
  simpa [overHttp, onPool, Label.Http] using hinvoke

def rentOverHttp : List Label := overHttp 0 "rent-1" rent 3 4 5

/-- The operator has opened an account for funding; the rent is requested out of it. -/
theorem rentOverHttp_held : ∃ w w', World.Leads (sample true) World.init w ∧
    Reach (World.step (sample true)) (fun _ l => l.Http false) w w' ∧
    Spec.held w.db.tables "EUR" = .num 0 ∧ Spec.held w'.db.tables "EUR" = .num 500000000 := by
  have hrun : ((exec (World.step (sample true)) World.init twoAccounts).bind fun w =>
      (exec (World.step (sample true)) w rentOverHttp).map fun w' =>
        (Spec.held w.db.tables "EUR", Spec.held w'.db.tables "EUR")) = some (.num 0, .num 500000000) := by
    decide +kernel
  obtain ⟨w, hw, hrun⟩ := Option.bind_eq_some_iff.mp hrun
  obtain ⟨w', hw', hrun⟩ := Option.map_eq_some_iff.mp hrun
  obtain ⟨h0, h1⟩ := Prod.mk.inj hrun
  exact ⟨w, w', reach_of_exec (fun _ _ _ => trivial) hw,
    reach_of_exec (fun _ => overHttp_http 3 4 5 rentRequest_edge) hw', h0, h1⟩

theorem http_issues_only_from_funding_rent : ∃ w w' trs, World.Leads (sample true) World.init w ∧
    Reach (World.step (sample true)) (fun _ l => l.Http false) w w' ∧
    500000000 ≤ Spec.issued w.db.tables "EUR" trs := by
  obtain ⟨w, w', hr, hr', h0, h1⟩ := rentOverHttp_held
  obtain ⟨-, trs, -, -, hall⟩ := http_issues_only_from_funding (sample true) hr hr'
  obtain ⟨u, u', hu, hu', hle⟩ := hall "EUR"
  cases h0.symm.trans hu
  cases h1.symm.trans hu'
  exact ⟨w, w', trs, hr, hr', by omega⟩

def rentBackRequest : Http.TransferRequest := { rentRequest "rent" with fromAccountId := 2, toAccountId := 1 }

def rentBack : TransferIntent where
  fromAccountId := 2
  toAccountId := 1
  amount := rent.amount
  description := "rent"
  valid := rent.valid

/-- `back-1` -/
def rentBackHeader : List UInt8 := [98, 97, 99, 107, 45, 49]

theorem rentBackRequest_edge :
    Http.create (some rentBackHeader) (.ok rentBackRequest) = .ok ("back-1", rentBack) := by
  decide +kernel

theorem http_grows_only_by_issuing_back : ∃ w w', World.Leads (sample true) World.init w ∧
    Reach (World.step (sample true)) (fun a l => l.Http false ∧ ¬ a.Issues l) w w' ∧
    Spec.held w.db.tables "EUR" = .num 500000000 ∧
    ∃ u' : ℤ, Spec.held w'.db.tables "EUR" = .num u' ∧ u' ≤ 500000000 ∧
      w'.db.tables.transactions.length = 2 := by
  have hrun : ((exec (World.step (sample true)) World.init (twoAccounts ++ rentOverHttp)).bind fun w =>
      (execIf (fun a l => !decide (a.Issues l)) (World.step (sample true)) w
        (overHttp 1 "back-1" rentBack 6 7 8)).map fun w' =>
        (Spec.held w.db.tables "EUR", w'.db.tables.transactions.length)) = some (.num 500000000, 2) := by
    decide +kernel
  obtain ⟨w, hw, hrun⟩ := Option.bind_eq_some_iff.mp hrun
  obtain ⟨w', hw', hrun⟩ := Option.map_eq_some_iff.mp hrun
  obtain ⟨h0, h1⟩ := Prod.mk.inj hrun
  have hr : World.Leads (sample true) World.init w := reach_of_exec (fun _ _ _ => trivial) hw
  have hr' : Reach (World.step (sample true)) (fun a l => l.Http false ∧ ¬ a.Issues l) w w' :=
    reach_of_execIf (fun _ l hl hp => ⟨overHttp_http 6 7 8 rentBackRequest_edge l hl, by simpa using hp⟩) hw'
  obtain ⟨u, u', hu, hu', hle⟩ := (http_grows_only_by_issuing (sample true) hr hr').1 "EUR"
  cases h0.symm.trans hu
  exact ⟨w, w', hr, hr', h0, u', hu', hle, h1⟩

/-- A request is enough to issue money where a funding account has been provisioned. -/
theorem http_can_issue : ∃ w w', World.Leads (sample true) World.init w ∧
    Reach (World.step (sample true)) (fun _ l => l.Http false) w w' ∧ ∃ u u' : ℤ,
    Spec.held w.db.tables "EUR" = .num u ∧ Spec.held w'.db.tables "EUR" = .num u' ∧ u < u' := by
  obtain ⟨w, w', hr, hr', h0, h1⟩ := rentOverHttp_held
  exact ⟨w, w', hr, hr', 0, 500000000, h0, h1, by decide⟩

end Ledger
