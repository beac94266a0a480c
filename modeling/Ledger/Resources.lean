import Ledger.Minting
import Ledger.Moves
import Mathlib.Combinatorics.Enumerative.DoubleCounting

/-!
# Connections and database transactions are accounted for

Whatever fails or is cancelled, a connection is checked out by a call under way and a
database transaction is open for one. So nothing is left of a call that is over.
-/

namespace Ledger

open Keyed Runs Transfers

/-- `x` is the database transaction of the call `c`, which is under way. -/
def World.Works (w : World) (c : Nat) (x : Xid) : Prop :=
  ∃ call, w.calls c = some call ∧ call.pc.running = true ∧ call.pc.session = some x

structure World.Accounted (cfg : Config) (w : World) : Prop where
  nodup : w.held.Nodup
  pool : ∀ process, (w.held.filter fun c => cfg.process c = process).length ≤ cfg.poolSize process
  held : ∀ c ∈ w.held, ∃ call, w.calls c = some call ∧ call.pc.running = true
  owner : ∀ x txn, w.db.txns x = some txn → ∃ c ∈ w.held, w.Works c x
  owned : ∀ c x, w.Works c x → c ∈ w.held ∧ ∃ txn, w.db.txns x = some txn
  one : ∀ c c' x, w.Works c x → w.Works c' x → c = c'
  exclusive : ∀ x y tx ty, w.db.txns x = some tx → w.db.txns y = some ty → ∀ l ∈ tx.work.locks, ∀ m ∈ ty.work.locks,
    l.1 = m.1 → l.2.conflicts m.2 = true → x = y

section
variable {cfg : Config} {w w' : World}

theorem World.Leads.pooled (hr : World.Leads cfg World.init w) :
    w.held.Nodup ∧ ∀ process, (w.held.filter fun c => cfg.process c = process).length ≤ cfg.poolSize process := by
  refine hr.invariant (P := fun v => v.held.Nodup ∧
    ∀ process, (v.held.filter fun c => cfg.process c = process).length ≤ cfg.poolSize process) ?_
    ⟨List.nodup_nil, fun _ => Nat.zero_le _⟩
  rintro a l b ⟨hn, hp⟩ - hs
  rcases World.step_held hs with ⟨c, he, hm, hfree⟩ | hsub
  · rw [he]
    refine ⟨List.nodup_cons.mpr ⟨hm, hn⟩, fun process => ?_⟩
    by_cases hc : cfg.process c = process
    · rw [List.filter_cons_of_pos (by simpa using hc), List.length_cons, ← hc]
      exact of_decide_eq_true hfree
    · rw [List.filter_cons_of_neg (by simpa using hc)]
      exact hp process
  · exact ⟨hn.sublist hsub, fun process => (hsub.filter _).length_le.trans (hp process)⟩

theorem World.works_of {c : Nat} {call : Call} {x : Xid} (hc : w.calls c = some call)
    (hs : call.pc.session = some x) : w.Works c x :=
  ⟨call, hc, Pc.running_of_session (by rw [hs]; rfl), hs⟩

theorem World.Leads.accounted (hr : World.Leads cfg World.init w) : w.Accounted cfg := by
  have h := Inv.reach hr
  obtain ⟨hnodup, hpool⟩ := hr.pooled
  refine ⟨hnodup, hpool, h.running, fun x txn hx => ?_, ?_, ?_, ?_⟩
  · obtain ⟨c, call, hc, hs⟩ := h.owned x txn hx
    exact ⟨c, h.held c call hc (by rw [hs]; rfl), World.works_of hc hs⟩
  · rintro c x ⟨call, hc, -, hs⟩
    obtain ⟨txn, hx, -⟩ := h.session c call x hc hs
    exact ⟨h.held c call hc (by rw [hs]; rfl), txn, hx⟩
  · rintro c c' x ⟨call, hc, -, hs⟩ ⟨call', hc', -, hs'⟩
    exact h.owner c c' call call' x hc hc' hs hs'
  · intro x y tx ty hx hy l hl m hm he hconf
    by_contra hne
    rw [(h.db.apart x y tx ty hne hx hy).locks l hl m hm he] at hconf
    cases hconf

theorem World.Accounted.transactions_le (h : w.Accounted cfg) {process : Nat} {xs : Finset Xid}
    (hxs : ∀ x ∈ xs, ∃ c, cfg.process c = process ∧ w.Works c x) : xs.card ≤ cfg.poolSize process := by
  refine le_trans ?_ (h.pool process)
  rw [← List.toFinset_card_of_nodup (h.nodup.filter _)]
  refine Finset.card_le_card_of_forall_subsingleton (fun x c => w.Works c x) (fun x hx => ?_) ?_
  · obtain ⟨c, hp, hc⟩ := hxs x hx
    refine ⟨c, ?_, hc⟩
    rw [List.mem_toFinset, List.mem_filter]
    exact ⟨(h.owned c x hc).1, by simpa using hp⟩
  · -- a call has one transaction at a time
    rintro c - x ⟨-, call, hc, -, hs⟩ y ⟨-, call', hc', -, hs'⟩
    rw [hc, Option.some.injEq] at hc'
    rw [← hc', hs, Option.some.injEq] at hs'
    exact hs'

theorem World.Accounted.quiet (h : w.Accounted cfg)
    (hover : ∀ c call, w.calls c = some call → call.pc.running = false) :
    w.held = [] ∧ ∀ x, w.db.txns x = none := by
  have hheld : w.held = [] := List.eq_nil_iff_forall_not_mem.mpr fun c hm => by
    obtain ⟨call, hc, hrun⟩ := h.held c hm
    rw [hover c call hc] at hrun
    cases hrun
  refine ⟨hheld, fun x => ?_⟩
  cases hx : w.db.txns x with
  | none => rfl
  | some txn =>
    obtain ⟨c, hm, -⟩ := h.owner x txn hx
    rw [hheld] at hm
    cases hm

end

/-- **Nothing leaks.** In every state of every run, with failures, lost acknowledgements and
cancellations at any point: connections are checked out by calls under way, no more than
the pool has; every open database transaction belongs to one such call and no lock is held
twice; no process has more transactions open than connections; and when all calls are over
every connection is back and no transaction is open. -/
theorem nothing_leaks (cfg : Config) {w : World} (hr : World.Leads cfg World.init w) :
    w.Accounted cfg ∧
    (∀ process (xs : Finset Xid), (∀ x ∈ xs, ∃ c, cfg.process c = process ∧ w.Works c x) →
      xs.card ≤ cfg.poolSize process) ∧
    ((∀ c call, w.calls c = some call → call.pc.running = false) → w.held = [] ∧ ∀ x, w.db.txns x = none) :=
  ⟨hr.accounted, fun _ _ hxs => hr.accounted.transactions_le hxs, fun hover => hr.accounted.quiet hover⟩

def rentBegun : List Label := twoAccounts ++ [.invoke 0 "rent-1" rent] ++ onPool 0 0 ++ onPool 0 3

theorem nothing_leaks_rentBegun : ∃ w, World.Leads (sample true) World.init w ∧ w.Works 0 2 ∧
    ({2} : Finset Xid).card ≤ (sample true).poolSize 0 := by
  have h : (exec (World.step (sample true)) World.init rentBegun).any (fun w => decide
      ((w.calls 0).map (fun call => (call.pc.running, call.pc.session)) = some (true, some 2))) = true := by
    decide +kernel
  obtain ⟨w, hw, h⟩ := (Option.any_eq_true _ _).mp h
  obtain ⟨call, hc, h⟩ := Option.map_eq_some_iff.mp (of_decide_eq_true h)
  obtain ⟨hrun, hs⟩ := Prod.mk.inj h
  have hr : World.Leads (sample true) World.init w := reach_of_exec (fun _ _ _ => trivial) hw
  have hworks : w.Works 0 2 := ⟨call, hc, hrun, hs⟩
  refine ⟨w, hr, hworks, (nothing_leaks (sample true) hr).2.1 0 {2} fun x hx => ?_⟩
  rw [Finset.mem_singleton.mp hx]
  exact ⟨0, rfl, hworks⟩

end Ledger
