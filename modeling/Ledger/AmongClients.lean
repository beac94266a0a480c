import Ledger.Among

/-!
# Runs shared with other clients

A transfer is one step of the sequential ledger on the tables it commits into, whoever
else has been at them, and what the service answers is what the ledger has.
-/

namespace Ledger

open Keyed Runs Transfers

/-! ## Shared runs -/

/-- A step of the service, or a command of one of the other clients. -/
def World.mixed (cfg : Config) (w : World) : Label ⊕ Cmd → Option World
  | .inl l => w.step cfg l
  | .inr cmd => (w.db.step cfg.schema cmd).map fun db => { w with db }

/-- Other clients truncate nothing and have no access to the service's connections. -/
def World.Civil (w : World) : Label ⊕ Cmd → Prop
  | .inl _ => True
  | .inr cmd => cmd.truncates = false ∧
      ∀ c call x, w.calls c = some call → call.pc.session = some x → cmd.session ≠ some x

def World.Shares (cfg : Config) : World → World → Prop := Reach (World.mixed cfg) World.Civil

structure World.Since (w w' : World) : Prop where
  ages : w.db.tables.Ages w'.db.tables
  log : ∃ evs, w'.log = w.log ++ evs
  answered : ∀ c call, w.calls c = some call → call.pc.running = false → w'.calls c = some call

theorem World.Since.refl (w : World) : w.Since w :=
  ⟨Tables.Ages.refl _, ⟨[], (List.append_nil _).symm⟩, fun _ _ hc _ => hc⟩

theorem World.Since.trans {w₁ w₂ w₃ : World} (h : w₁.Since w₂) (h' : w₂.Since w₃) : w₁.Since w₃ where
  ages := h.ages.trans h'.ages
  log := by
    obtain ⟨evs, he⟩ := h.log
    obtain ⟨evs', he'⟩ := h'.log
    exact ⟨evs ++ evs', by rw [he', he, List.append_assoc]⟩
  answered c call hc hr := h'.answered c call (h.answered c call hc hr) hr

def World.Refines (cfg : Config) (w w' : World) : Prop :=
  ∃ evs, w'.log = w.log ++ evs ∧ exec (Spec.step cfg.sha256 cfg.decode) w.db.tables evs = some w'.db.tables

namespace Among

variable {cfg : Config} {w w' : World} (h : Among cfg w)

theorem init : Among cfg World.init where
  db := DbInv.init
  stored := ⟨fun _ ha => (by cases ha), fun _ _ hx => (by cases hx)⟩
  session _ _ _ hc := by cases hc
  owner _ _ _ _ _ hc := by cases hc
  met _ _ hc := by cases hc
  landed _ htr := by cases htr
  once := distinct_nil _
  author _ htr := by cases htr

include h

theorem moved {c : Nat} {call call' : Call} {db : Db} {evs : List Spec.Event} (hc : w.calls c = some call)
    (g : Goes cfg w c call call' db evs) : Among cfg (w.moveTo c call' db (w.log ++ evs)) ∧
      w.Refines cfg (w.moveTo c call' db (w.log ++ evs)) :=
  ⟨h.goes hc g, evs, rfl, g.spec⟩

/-- **Step lemma.** A step of the service keeps the invariant, and is steps of the sequential ledger. -/
theorem step (hfast : cfg.fastPath = true) {l : Label} (hs : w.step cfg l = some w') :
    Among cfg w' ∧ w.Refines cfg w' := by
  have still : ∀ {v : World}, v.log = w.log → v.db = w.db → w.Refines cfg v :=
    fun hl hd => ⟨[], by rw [hl, List.append_nil], by rw [hd]; rfl⟩
  have quiet : ∀ {c : Nat} {call call' : Call} {db : Db}, w.calls c = some call → Goes cfg w c call call' db [] →
      Among cfg (w.moveTo c call' db w.log) ∧ w.Refines cfg (w.moveTo c call' db w.log) := by
    intro c call call' db hc g
    have := h.moved hc g
    rwa [List.append_nil] at this
  cases l with
  | invoke c key intent =>
    obtain ⟨hnone, rfl⟩ := World.step_invoke hs
    exact ⟨h.invoked hfast hnone, still rfl rfl⟩
  | acquire c =>
    obtain ⟨call, -, -, -, -, -, rfl⟩ := World.step_acquire hs
    exact ⟨⟨h.db, h.stored, h.session, h.owner, h.met, h.landed, h.once, h.author⟩, still rfl rfl⟩
  | run c env =>
    obtain ⟨call, db, next, hc, -, hr, rfl⟩ := World.step_run hs
    exact h.moved hc (h.run_goes hc hfast hr)
  | fault c err =>
    obtain ⟨call, hc, -, he, rfl⟩ := World.step_fault hs
    rw [Inv.onError_spontaneous he]
    exact quiet hc (h.broke_goes hc hfast err)
  | lostAck c err =>
    obtain ⟨call, db, ev, hc, he, hl, rfl⟩ := World.step_lostAck hs
    rw [Inv.onError_spontaneous he]
    have hsame : (call.finish cfg (.error (.database err))).key = call.key ∧
        (call.finish cfg (.error (.database err))).intent = call.intent := call.finish_same _
    obtain ⟨hk, hi⟩ := hsame
    refine h.moved hc (h.lands hc hl hk hi (call.finish_session _) ?_ fun tr => ?_)
    · exact (refused_met (by intro he; cases he) : Next.Met cfg db.tables (w.log ++ [ev]) c call _).follow hfast
    · have hlate : Next.Late cfg tr call (.ret (.error (.database err))) := Or.inl ⟨err, rfl⟩
      exact hlate.follow hfast
  | cancel c took =>
    obtain ⟨call, hc, ⟨-, db, ev, hl, rfl⟩ | ⟨-, -, rfl⟩⟩ := World.step_cancel hs
    · exact h.moved hc (h.lands hc hl rfl rfl rfl trivial fun _ => trivial)
    · exact quiet hc (h.left_goes hc)
  | create process env name currency flag =>
    obtain ⟨-, db, rows, answer, hcr, rfl⟩ := World.step_create hs
    have hevs : Spec.transfers (rows.map .account) = [] := by
      rcases Accounts.create_rows hcr with rfl | ⟨row, rfl, -⟩ <;> rfl
    refine ⟨h.spared ((Accounts.create_leads hcr).spares h.db h.stored) ?_ hevs, rows.map .account, rfl,
      Accounts.create_spec h.db hcr cfg.sha256⟩
    rintro c call x hc hx rfl
    obtain ⟨txn, ht, -⟩ := h.session c call _ hc hx
    rw [h.db.bounded _ (Nat.le_refl _)] at ht
    cases ht

theorem foreign {cmd : Cmd} {db : Db} (hc : w.Civil (.inr cmd)) (hs : w.db.step cfg.schema cmd = some db) :
    Among cfg { w with db } := by
  have hsp : Among cfg { w with db, log := w.log ++ [] } :=
    h.spared (Db.spares_step h.db h.stored hc.1 hs) hc.2 rfl
  rwa [List.append_nil] at hsp

theorem mixed_step (hfast : cfg.fastPath = true) {l : Label ⊕ Cmd} (hc : w.Civil l) (hs : w.mixed cfg l = some w') :
    Among cfg w' ∧ w.Since w' := by
  cases l with
  | inl l =>
    obtain ⟨h', evs, hlog, -⟩ := h.step hfast hs
    exact ⟨h', ((World.step_leads h.live hs).spares h.db h.stored).ages, ⟨evs, hlog⟩,
      fun _ _ hc hr => World.step_answered hs hc hr⟩
  | inr cmd =>
    obtain ⟨db, hdb, rfl⟩ := Option.map_eq_some_iff.mp hs
    exact ⟨h.foreign hc hdb, (Db.spares_step h.db h.stored hc.1 hdb).ages, ⟨[], (List.append_nil _).symm⟩,
      fun _ _ hc _ => hc⟩

theorem shares (hfast : cfg.fastPath = true) (hr : World.Shares cfg w w') : Among cfg w' ∧ w.Since w' := by
  refine hr.invariant (P := fun v => Among cfg v ∧ w.Since v) ?_ ⟨h, World.Since.refl w⟩
  rintro v l v' ⟨hv, hsince⟩ hc hs
  obtain ⟨hv', hone⟩ := hv.mixed_step hfast hc hs
  exact ⟨hv', hsince.trans hone⟩

end Among

/-! ## What the service promises -/

theorem Spec.replay_transaction {dec : Decode} {t : Tables} {r : Row.Transaction} {detail : TransactionDetail}
    (h : Spec.replay dec t r = .ok detail) : detail.transaction = Transaction.ofRow r := by
  obtain ⟨_, -, h⟩ := Bind.ok.mp h
  obtain ⟨_, -, h⟩ := Bind.ok.mp h
  cases h
  rfl

theorem Spec.ReadAs.transaction {sha256 : List UInt8 → Vector UInt8 32} {dec : Decode} {t : Tables}
    {log : List Spec.Event} {r : Row.Transaction} {detail : TransactionDetail}
    (h : ReadAs sha256 dec t log r detail) : detail.transaction = Transaction.ofRow r := by
  rcases h with h | ⟨rfl, -⟩
  · exact replay_transaction h
  · rfl

theorem Spec.ReadAs.get {sha256 : List UInt8 → Vector UInt8 32} {dec : Decode} {t t₁ t₂ : Tables}
    {log : List Spec.Event} {r : Row.Transaction} {detail : TransactionDetail}
    (h : ReadAs sha256 dec t log r detail)
    (hr : r ∈ t.transactions) (hne : detail.entries ≠ []) (h₁ : t.Ages t₁) (h₂ : t₁.Ages t₂) (hi₁ : TablesInv t₁)
    (hi₂ : TablesInv t₂) {scan : List Row.Entry} {answer : Except LedgerError TransactionDetail}
    (hg : Transactions.get dec t₁ t₂ scan r.id = some answer) : answer = .ok detail := by
  rcases h with h | ⟨rfl, -⟩
  · have hent : Transactions.entriesOf t r.id ≠ [] := by
      intro he
      simp only [replay, he] at h
      cases h
      exact hne rfl
    have hsame : Transactions.entriesOf t₂ r.id = Transactions.entriesOf t r.id := (h₁.trans h₂).entries r.id hent
    have hfind : t₁.transactions.find? (fun q => decide (q.id = r.id)) = some r :=
      hi₁.transactionIds.find (h₁.transactions r hr) rfl
    simp only [Transactions.get, Transactions.fetchTransaction, hfind, Option.map_some] at hg
    split at hg
    · rename_i hscan
      cases hg
      have hsort : scan.insertionSort Row.Entry.before =
          (Transactions.entriesOf t r.id).insertionSort Row.Entry.before :=
        hsame ▸ sort_perm (hi₂.entryIds.sublist List.filter_sublist) hscan
      rw [← h]
      simp only [replay, Transactions.fetchEntries, hsort]
    · cases hg
  · exact absurd rfl hne

namespace Among

variable {cfg : Config} {w : World} (h : Among cfg w) {c : Nat} {call : Call} (hc : w.calls c = some call)
include h hc

theorem answer {res : TransferResult} (hd : call.pc = .done (.ok res)) :
    ∃ r, Found cfg w.db.tables w.log c call res.outcome r ∧
      Spec.ReadAs cfg.sha256 cfg.decode w.db.tables w.log r res.detail := by
  have hmet := h.met c call hc
  unfold Call.Met at hmet
  rwa [hd] at hmet

theorem not_panicked : call.pc ≠ .panicked := by
  intro hp
  have hmet := h.met c call hc
  unfold Call.Met at hmet
  rwa [hp] at hmet

theorem refusal {e : LedgerError} (hd : call.pc = .done (.error e)) (he : e.typed = true) : e.refusal = true := by
  have hmet := h.met c call hc
  unfold Call.Met at hmet
  rw [hd] at hmet
  exact hmet he

theorem tells {res : TransferResult} (hd : call.pc = .done (.ok res)) {tr : Spec.Transfer}
    (htr : tr ∈ Spec.transfers w.log) (hk : tr.key = call.key) : res.detail.Tells tr := by
  obtain ⟨r, hf, hread⟩ := h.answer hc hd
  have hl := h.landed tr htr
  have hrow : tr.row cfg.sha256 = r := h.db.tables.keys.eq hl.row hf.mem (hk.trans hf.key.symm)
  rcases hread with hread | ⟨-, hne⟩
  · subst hrow
    obtain ⟨m, hm, -, -⟩ := Spec.money_ok cfg.decode tr.intent
    have hids : Distinct (·.id) (Transactions.entriesOf w.db.tables tr.id) :=
      h.db.tables.entryIds.sublist List.filter_sublist
    have hperm : (Transactions.entriesOf w.db.tables tr.id).Perm tr.entries := by rw [hl.entries]
    rw [hl.entries] at hids
    have he : res.detail = tr.detail cfg.sha256 m :=
      Except.ok.inj (hread.symm.trans (Spec.detail_ok hm hids hperm))
    rw [he]
    exact tr.detail_tells cfg hm
  · exact absurd hrow (hne tr htr)

theorem refused {e : LedgerError} (hd : call.pc = .done (.error e)) (he : e.typed = true) :
    ∀ tr ∈ Spec.transfers w.log, tr.call ≠ c := by
  intro tr htr hcall
  obtain ⟨-, hi, hl⟩ := h.own_late hc htr hcall
  unfold Call.Late at hl
  rw [hd] at hl
  rcases hl with ⟨err, rfl⟩ | ⟨-, hne⟩
  · cases he
  · exact hne (by rw [hi])

end Among

theorem shared_inv {cfg : Config} {w : World} (hr : World.Shares cfg.asWritten World.init w) :
    Among cfg.asWritten w :=
  (Among.init.shares rfl hr).1

/-- **A transfer is atomic whoever else uses the database.** In every run that the
service shares with other clients, each of its steps is steps of the sequential ledger
on the tables as those clients have left them, under every key it commits one transfer
at most, and what it has committed stays, with the two entries of the transfer and
never another. -/
theorem refines_among_clients (cfg : Config) {w : World} (hr : World.Shares cfg.asWritten World.init w) :
    (∀ l w', w.step cfg.asWritten l = some w' → ∃ evs, w'.log = w.log ++ evs ∧
      exec (Spec.step cfg.sha256 cfg.decode) w.db.tables evs = some w'.db.tables) ∧
    (∀ key, ((Spec.transfers w.log).filter fun tr => tr.key = key).length ≤ 1) ∧
    ∀ w', World.Shares cfg.asWritten w w' → ∀ tr ∈ Spec.transfers w.log,
      tr.row cfg.sha256 ∈ w'.db.tables.transactions ∧ Transactions.entriesOf w'.db.tables tr.id = tr.entries := by
  have h := shared_inv hr
  refine ⟨fun l w' hs => (h.step rfl hs).2, fun key => h.once.filter_le_one key, fun w' hl tr htr => ?_⟩
  have hlanded := (h.landed tr htr).ages (h.shares rfl hl).2.ages
  exact ⟨hlanded.row, hlanded.entries⟩

/-- **Answers among other clients.** No call ever panics. A success is told with what
the ledger has under the key, which later reads confirm for ever once it has entries, and
where the key is one of the service's own transfers it tells that transfer; who is told to
have created it has. A typed error is a refusal, and whoever gets it moves no money, then or later. -/
theorem answers_among_clients (cfg : Config) {w : World} (hr : World.Shares cfg.asWritten World.init w) {c : Nat}
    {call : Call} (hc : w.calls c = some call) :
    call.pc ≠ .panicked ∧
    (∀ res, call.pc = .done (.ok res) →
      (∃ r ∈ w.db.tables.transactions, r.idempotencyKey = call.key ∧
        r.requestHash = (call.intent.requestHash cfg.sha256).toList ∧
        res.detail.transaction = Transaction.ofRow r ∧ (res.detail.entries ≠ [] → ∀ w₁ w₂,
          World.Shares cfg.asWritten w w₁ → World.Shares cfg.asWritten w₁ w₂ → ∀ scan answer,
          Transactions.get cfg.decode w₁.db.tables w₂.db.tables scan r.id = some answer →
          answer = .ok res.detail)) ∧
      (∀ tr ∈ Spec.transfers w.log, tr.key = call.key → res.detail.Tells tr) ∧
      (res.outcome = .created → ∃ tr ∈ Spec.transfers w.log, tr.call = c ∧ tr.key = call.key ∧
        tr.intent = call.intent)) ∧
    ∀ e, call.pc = .done (.error e) → e.typed = true → e.refusal = true ∧
      ∀ w', World.Shares cfg.asWritten w w' → ∀ tr ∈ Spec.transfers w'.log, tr.call ≠ c := by
  have h := shared_inv hr
  refine ⟨h.not_panicked hc, fun res hd => ⟨?_, fun tr htr hk => h.tells hc hd htr hk, fun ho => ?_⟩,
    fun e hd he => ?_⟩
  · obtain ⟨r, hf, hread⟩ := h.answer hc hd
    refine ⟨r, hf.mem, hf.key, hf.hash, hread.transaction, fun hne w₁ w₂ hl₁ hl₂ scan answer hg => ?_⟩
    obtain ⟨h₁, hs₁⟩ := h.shares rfl hl₁
    obtain ⟨h₂, hs₂⟩ := h₁.shares rfl hl₂
    exact hread.get hf.mem hne hs₁.ages hs₂.ages h₁.db.tables h₂.db.tables hg
  · obtain ⟨r, hf, -⟩ := h.answer hc hd
    obtain ⟨tr, htr, hcall, -⟩ := hf.own ho
    obtain ⟨hk, hi, -⟩ := h.own_late hc htr hcall
    exact ⟨tr, htr, hcall, hk.symm, hi.symm⟩
  · refine ⟨h.refusal hc hd he, fun w' hl => ?_⟩
    obtain ⟨h', hs⟩ := h.shares rfl hl
    exact h'.refused (hs.answered c call hc (by rw [hd]; rfl)) hd he

/-! Another client raises the landlord's balance behind the ledger's back. -/

theorem World.Leads.shared {cfg : Config} {w w' : World} (h : World.Leads cfg w w') : World.Shares cfg w w' :=
  h.invariant (P := World.Shares cfg w) (fun _ l _ hr _ hs => Reach.snoc (.inl l) hr trivial hs) Reach.refl

theorem Among.intrudes {cfg : Config} {w : World} (h : Among cfg w) : ∀ {cmds : List Cmd} {d db : Db},
    (∀ cmd ∈ cmds, cmd.truncates = false ∧ ∀ x, cmd.session = some x → w.db.nextXid ≤ x) →
    exec (Db.step cfg.schema) d cmds = some db → World.Shares cfg { w with db := d } { w with db }
  | [], _, _, _, hx => by
    cases hx
    exact Reach.refl
  | cmd :: cmds, d, db, hall, hx => by
    obtain ⟨d', hd, hx⟩ := Option.bind_eq_some_iff.mp hx
    obtain ⟨hplain, hnew⟩ := hall cmd (List.mem_cons_self ..)
    have hcivil : World.Civil { w with db := d } (.inr cmd) := by
      refine ⟨hplain, fun c call x hc hs he => ?_⟩
      obtain ⟨txn, ht, -⟩ := h.session c call x hc hs
      exact absurd (h.db.lt_nextXid ht) (Nat.not_lt.mpr (hnew x he))
    have hstep : World.mixed cfg { w with db := d } (.inr cmd) = some { w with db := d' } := by
      simp only [World.mixed, hd, Option.map_some]
    exact (Reach.one (.inr cmd) hcivil hstep).trans
      (h.intrudes (fun c hc => hall c (List.mem_cons_of_mem _ hc)) hx)

def raise : List Cmd :=
  [.begin 0,
    .stmt 4 (.updateAccounts (fun a => a.id = 2) fun a =>
      { id := some a.id
        name := some a.name
        currency := some a.currency
        balance := some (.num 100 0)
        allowsNegativeBalance := some a.allowsNegativeBalance
        createdAt := some a.createdAt }),
    .commit 4]

theorem sampleRun_raised : ∃ w w', World.Leads (sample true) World.init w ∧ World.Shares (sample true) w w' ∧
    w.calls 0 = some (answered "rent-1" rent (.ok ⟨.created, rentDetail⟩)) ∧ Spec.transfers w.log = [rentPaid] ∧
    w'.db.tables.accounts.map (·.balance.val) = [.num (-500000000), .num 10000000000] := by
  have h : ((exec (World.step (sample true)) World.init sampleRun).bind fun w =>
      (exec (Db.step {}) w.db raise).map fun db => (w, db)).any (fun p => decide (
        p.1.calls 0 = some (answered "rent-1" rent (.ok ⟨.created, rentDetail⟩)) ∧
        Spec.transfers p.1.log = [rentPaid] ∧ p.1.db.nextXid = 4 ∧
        p.2.tables.accounts.map (·.balance.val) = [.num (-500000000), .num 10000000000])) = true := by
    decide +kernel
  obtain ⟨⟨w, db⟩, hp, h⟩ := (Option.any_eq_true _ _).mp h
  obtain ⟨w', hw, hp⟩ := Option.bind_eq_some_iff.mp hp
  obtain ⟨db', hdb, he⟩ := Option.map_eq_some_iff.mp hp
  cases he
  obtain ⟨hcall, hlog, hnext, hbal⟩ := of_decide_eq_true h
  have hl : World.Leads (sample true) World.init w := reach_of_exec (fun _ _ _ => trivial) hw
  have hshared : World.Shares (sample true).asWritten World.init w := hl.shared
  have hi : Among (sample true) w := shared_inv hshared
  refine ⟨w, { w with db }, hl, hi.intrudes ?_ hdb, hcall, hlog, hbal⟩
  have hx : w.db.nextXid = 4 := hnext
  unfold raise
  simp [Cmd.truncates, Stmt.isTruncate, Cmd.session, hx]

theorem refines_among_clients_raised : ∃ w w', World.Shares (sample true) World.init w ∧
    World.Shares (sample true) w w' ∧
    w'.db.tables.accounts.map (·.balance.val) = [.num (-500000000), .num 10000000000] ∧
    Transactions.entriesOf w'.db.tables 3 = rentPaid.entries := by
  obtain ⟨w, w', hl, hs, -, hlog, hbal⟩ := sampleRun_raised
  have h := refines_among_clients (sample true) hl.shared
  exact ⟨w, w', hl.shared, hs, hbal, (h.2.2 w' hs rentPaid (by rw [hlog]; exact List.mem_singleton.mpr rfl)).2⟩

theorem answers_among_clients_raised : ∃ w w' call, World.Shares (sample true) World.init w ∧
    World.Shares (sample true) w w' ∧ w.calls 0 = some call ∧ call.pc = .done (.ok ⟨.created, rentDetail⟩) ∧
    rentDetail.Tells rentPaid ∧ ∃ r ∈ w.db.tables.transactions, ∀ scan answer,
      Transactions.get Decode.driver w'.db.tables w'.db.tables scan r.id = some answer →
      answer = .ok rentDetail := by
  obtain ⟨w, w', hl, hs, hcall, hlog, -⟩ := sampleRun_raised
  obtain ⟨-, hok, -⟩ := answers_among_clients (sample true) hl.shared hcall
  obtain ⟨⟨r, hr, -, -, -, hget⟩, htells, -⟩ := hok _ rfl
  refine ⟨w, w', _, hl.shared, hs, hcall, rfl, htells rentPaid ?_ rfl, r, hr, fun scan answer hg => ?_⟩
  · rw [hlog]
    exact List.mem_singleton.mpr rfl
  · exact hget (by decide +kernel) w' w' hs Reach.refl scan answer hg

end Ledger
