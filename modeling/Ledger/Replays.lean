import Ledger.Lookup

/-!
# Requests under a used key

A request that comes when its key is already used never gets past the first lookup: it
is answered from the log by its payload alone, and holds up nobody.
-/

namespace Ledger

open Keyed Runs Transfers

/-- Where a call can be whose key was used when it came. -/
def Transfers.Call.Late (cfg : Config) (tr : Spec.Transfer) (call : Call) : Prop :=
  match call.pc with
  | .lookup | .getTransaction .. | .getEntries .. | .cancelled | .done (.ok _) => True
  | .done (.error err) => (∃ e, err = .database e) ∨ (err = .idempotencyKeyConflict call.key ∧
      tr.intent.requestHash cfg.sha256 ≠ call.intent.requestHash cfg.sha256)
  | _ => False

/-- What is answered under a key that stands for `tr`, whose amount reads as `m`. -/
def Spec.Transfer.answers (sha256 : List UInt8 → Vector UInt8 32) (tr : Spec.Transfer) (m : Money) (key : String)
    (i : TransferIntent) : Except LedgerError TransferResult :=
  if tr.intent.requestHash sha256 = i.requestHash sha256 then .ok ⟨.replayed, tr.detail sha256 m⟩
  else .error (.idempotencyKeyConflict key)

section
variable {cfg : Config} {tr : Spec.Transfer} {call : Call}

theorem Transfers.Call.Late.session (h : call.Late cfg tr) : call.pc.session = none := by
  unfold Call.Late at h
  cases hpc : call.pc <;> rw [hpc] at h <;> first | rfl | exact h.elim

theorem Transfers.Call.late_broke (err : SqlxError) :
    (call.finish cfg.asWritten (.error (.database err))).Late cfg tr := by
  unfold Call.finish
  dsimp only
  split
  · trivial
  · exact Or.inl ⟨err, rfl⟩

theorem Transfers.Call.Late.keeps {call' : Call} (h : call'.Late cfg tr) (hk : call.key = call'.key)
    (hi : call.intent = call'.intent) (hpc : call.pc = call'.pc) : call.Late cfg tr := by
  unfold Call.Late at h ⊢
  rw [hk, hi, hpc]
  exact h

end

section
variable {cfg : Config} {w : World} (h : Inv cfg.asWritten w) {tr : Spec.Transfer} (htr : tr ∈ Spec.transfers w.log)
  {c : Nat} {call : Call} (hc : w.calls c = some call) (hkey : call.key = tr.key)
include h htr hkey

theorem Inv.find_late : Transactions.findByIdempotencyKey w.db.tables call.key =
    some ⟨tr.id, (tr.intent.requestHash cfg.sha256).toList⟩ := by
  have hfind : w.db.tables.transactions.find? (fun r => decide (r.idempotencyKey = call.key)) =
      some (tr.row cfg.sha256) := h.keys.keys.find (h.row_mem htr) hkey.symm
  simp only [Transactions.findByIdempotencyKey, hfind]
  rfl

include hc

theorem Inv.late_run (hl : call.Late cfg tr) {env : Env} {db : Db} {next : Next}
    (hr : call.run cfg.asWritten w.db env = some (db, next)) : (call.follow cfg.asWritten next).Late cfg tr := by
  have hpc := hl
  unfold Call.Late at hpc
  cases hp : call.pc <;> rw [hp] at hpc <;> simp only [Call.run, hp] at hr <;> try exact hpc.elim
  case lookup =>
    cases hr
    rw [h.find_late htr hkey]
    simp only [afterLookup, replay]
    split
    · rename_i hne
      exact Or.inr ⟨rfl, fun he => hne (congrArg Vector.toList he)⟩
    · trivial
  case getTransaction outcome id =>
    cases hr
    have hok := h.call c call hc
    simp only [CallOk, hp] at hok
    obtain ⟨-, tr', hst, rfl⟩ := hok
    have hfind : w.db.tables.transactions.find? (fun r => decide (r.id = tr'.id)) = some (tr'.row cfg.sha256) :=
      h.keys.transactionIds.find (h.row_mem hst.mem) rfl
    simp only [Transactions.fetchTransaction, hfind]
    trivial
  case getEntries outcome id transaction =>
    split at hr
    · rename_i hscan
      cases hr
      obtain ⟨detail, hdet, -, -⟩ := h.getEntries_outcome hc hp hscan
      rw [hdet]
      trivial
    · cases hr
  all_goals cases hr

end

theorem Inv.late_step {cfg : Config} {w w' : World} {l : Label} (h : Inv cfg.asWritten w) {tr : Spec.Transfer}
    (htr : tr ∈ Spec.transfers w.log) {c : Nat}
    (hl : ∀ call, w.calls c = some call → call.key = tr.key → call.Late cfg tr)
    (hs : w.step cfg.asWritten l = some w') {call' : Call} (hc' : w'.calls c = some call')
    (hkey : call'.key = tr.key) : call'.Late cfg tr := by
  rcases World.step_call hs hc' with hc | ⟨-, hpc⟩ | ⟨call, hc, -, hw⟩
  · exact hl call' hc hkey
  · unfold Call.Late
    rw [hpc]
    trivial
  · have hk : call.key = tr.key := hw.same.1.symm.trans hkey
    have hlate := hl call hc hk
    cases hw with
    | ran hr => exact h.late_run htr hc hk hlate hr
    | broke => exact Call.late_broke _
    | left => trivial

theorem Inv.late_reach {cfg : Config} {w w' : World} (h : Inv cfg.asWritten w) {tr : Spec.Transfer}
    (htr : tr ∈ Spec.transfers w.log) {c : Nat} (hnone : w.calls c = none) (hl : World.Leads cfg.asWritten w w') :
    Inv cfg.asWritten w' ∧ tr ∈ Spec.transfers w'.log ∧
      ∀ call, w'.calls c = some call → call.key = tr.key → call.Late cfg tr := by
  refine hl.invariant (P := fun v => Inv cfg.asWritten v ∧ tr ∈ Spec.transfers v.log ∧
    ∀ call, v.calls c = some call → call.key = tr.key → call.Late cfg tr) ?_
    ⟨h, htr, fun call hc _ => by rw [hnone] at hc; cases hc⟩
  rintro v l v' ⟨hv, hmem, hlate⟩ - hs
  have hone : World.Leads cfg.asWritten v v' := Reach.one l trivial hs
  exact ⟨hv.step hs, hone.transfers hmem, fun call hc hk => hv.late_step hmem hlate hs hc hk⟩

/-- **A request under a used key is answered by its payload alone.** If a key has moved
money before a request with it comes, the request is, in every run, only ever looking
things up: it has no database transaction, waits for no other one, moves nothing, and what it
is answered is the transaction of the key if the payloads hash alike and a conflict if
not, whatever else is wrong with the request and whatever has happened since; only the
database can fail it. -/
theorem late_requests (cfg : Config) {w : World} (hr : World.Leads cfg.asWritten World.init w) {tr : Spec.Transfer}
    (htr : tr ∈ Spec.transfers w.log) {c : Nat} (hnone : w.calls c = none) :
    ∃ m, Money.new (cfg.decode.decimal tr.intent.units) tr.intent.amount.currency = .ok m ∧
      ∀ w', World.Leads cfg.asWritten w w' → ∀ call, w'.calls c = some call → call.key = tr.key →
        call.pc.session = none ∧ call.blockers cfg.asWritten w'.db = [] ∧
        (∀ tr' ∈ Spec.transfers w'.log, tr'.call ≠ c) ∧
        ∀ r, call.pc = .done r → (∃ err, r = .error (.database err)) ∨
          r = tr.answers cfg.sha256 m call.key call.intent := by
  have h := Inv.reach hr
  obtain ⟨m, hm, -, -⟩ := Spec.money_ok cfg.decode tr.intent
  refine ⟨m, hm, fun w' hl call hc hkey => ?_⟩
  obtain ⟨h', htr', hlate⟩ := h.late_reach htr hnone hl
  have hl' := hlate call hc hkey
  have hmoved : ∀ tr' ∈ Spec.transfers w'.log, tr'.call ≠ c := by
    rintro tr' hm' rfl
    obtain ⟨call', hc', hk, -⟩ := h'.author tr' hm'
    rw [hc, Option.some.injEq] at hc'
    have he : tr' = tr := h'.transfer_keys.eq hm' htr' (hk.symm.trans (hc' ▸ hkey))
    obtain ⟨call₀, hc₀, -⟩ := h.author tr htr
    rw [← he, hnone] at hc₀
    cases hc₀
  refine ⟨hl'.session, ?_, hmoved, fun r hd => ?_⟩
  · have hs := hl'.session
    unfold Call.blockers
    cases hp : call.pc <;> rw [hp] at hs <;> simp [Call.stmt, hp, Pc.session] at hs ⊢
  · unfold Call.Late at hl'
    rw [hd] at hl'
    cases r with
    | error err =>
      rcases hl' with ⟨e, rfl⟩ | ⟨rfl, hne⟩
      · exact Or.inl ⟨e, rfl⟩
      · exact Or.inr (by rw [Spec.Transfer.answers, if_neg hne])
    | ok res =>
      obtain ⟨tr', m', hst, hm', hdet⟩ := h'.answer hc hd
      have he : tr' = tr := h'.transfer_keys.eq hst.mem htr' (hst.key.trans hkey)
      subst he
      have hread : m' = m := Except.ok.inj (hm'.symm.trans hm)
      subst hread
      have hout : res.outcome = .replayed := by
        cases ho : res.outcome with
        | replayed => rfl
        | created => exact absurd (hst.own ho) (hmoved tr' hst.mem)
      have hsame : tr'.intent.requestHash cfg.sha256 = call.intent.requestHash cfg.sha256 := hst.hash
      have hres : res = ⟨.replayed, tr'.detail cfg.sha256 m'⟩ := congrArg₂ TransferResult.mk hout hdet
      exact Or.inr (by rw [Spec.Transfer.answers, if_pos hsame, hres])

theorem late_requests_rentRun : ∃ w w' call m, World.Leads (sample true) World.init w ∧ w.calls 1 = none ∧
    World.Leads (sample true) w w' ∧ w'.calls 1 = some call ∧
    call.pc = .done (rentPaid.answers digest m "rent-1" rent) := by
  have h : (exec (World.freshStep (sample true) 1) World.init rentRun).any (fun w =>
      (exec (World.step (sample true)) w
        ([.invoke 1 "rent-1" rent] ++ onPool 1 0 ++ onPool 1 0 ++ onPool 1 0)).any fun w' => decide (
          Spec.transfers w.log = [rentPaid] ∧
          w'.calls 1 = some (answered "rent-1" rent (.ok ⟨.replayed, rentDetail⟩)))) =
      true := by decide +kernel
  obtain ⟨w, hw, h⟩ := (Option.any_eq_true _ _).mp h
  obtain ⟨w', hw', h⟩ := (Option.any_eq_true _ _).mp h
  obtain ⟨hlog, hanswer⟩ := of_decide_eq_true h
  obtain ⟨hcalls, hr⟩ := World.reach_fresh (fun _ => True) (fun _ _ => rfl) (fun _ _ => trivial) hw
  have hleads : World.Leads (sample true) World.init w :=
    hr.mono (P := fun _ => True) (fun _ _ _ _ _ _ => trivial) (fun _ _ _ _ => trivial) trivial
  have hl : World.Leads (sample true) w w' := reach_of_exec (fun _ _ _ => trivial) hw'
  have hmem : rentPaid ∈ Spec.transfers w.log := by rw [hlog]; exact List.mem_singleton_self _
  obtain ⟨m, -, hall⟩ := late_requests (sample true) hleads hmem (hcalls 1 (Nat.le_refl 1))
  obtain ⟨-, -, -, hdone⟩ := hall w' hl _ hanswer rfl
  rcases hdone _ rfl with ⟨err, he⟩ | he
  · cases he
  · exact ⟨w, w', _, m, hleads, hcalls 1 (Nat.le_refl 1), hl, hanswer, congrArg Pc.done he⟩

end Ledger
