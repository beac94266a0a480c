import Ledger.Environment
import Ledger.Termination
import Ledger.Minting
import Ledger.Opening
import Ledger.Realization

/-!
# The service as it is started

Each process has read its own environment. Its pool has as many connections as it was told,
and its route for accounts opens funding accounts if it was told to.
-/

namespace Ledger

open Keyed Runs Transfers Startup

/-- However far a run has come, as long as a call is under way some call can go on. -/
def NeverStuck (cfg : Config) : Prop :=
  ∀ w, Reach (World.step cfg) World.Fresh World.init w → (∀ c, ¬ w.CanStep cfg c) →
    ∀ c call, w.calls c = some call → call.pc.running = false

section
variable {cfg : Config}

theorem neverStuck_of_pool (hpool : ∀ p, 1 ≤ cfg.poolSize p) : NeverStuck cfg := by
  intro w hr hstuck c call hc
  by_contra hrun
  obtain ⟨c', -, -, hcan⟩ := (Inv.reach hr).someone_moves (World.Apart.reach hr) hpool hc (by simpa using hrun)
  exact hstuck c' hcan

theorem startPc_rent (cfg : Config) : (startPc cfg rent).running = true := by
  cases hfast : cfg.fastPath with
  | true => simp only [startPc, start, hfast, if_true, Pc.running]
  | false =>
    have hv : validate rent = .goto .begin := rfl
    simp only [startPc, start, hfast, Bool.false_eq_true, if_false, hv, Pc.running]

theorem stuck_of_no_connections {c : Nat} (hzero : cfg.poolSize (cfg.process c) = 0) : ¬ NeverStuck cfg := by
  intro h
  let w : World :=
    { World.init with calls := Function.update World.init.calls c (some ⟨"rent-1", rent, 0, startPc cfg rent⟩) }
  have hr : Reach (World.step cfg) World.Fresh World.init w :=
    Reach.snoc (.invoke c "rent-1" rent) Reach.refl (fun _ _ _ he => (by cases he)) rfl
  have hstuck : ∀ c', ¬ w.CanStep cfg c' := by
    rintro c' (hacq | hrun)
    · obtain ⟨w', hs⟩ := Option.isSome_iff_exists.mp hacq
      obtain ⟨call, hc', -, -, -, hfree, -⟩ := World.step_acquire hs
      obtain rfl : c' = c := by
        by_contra hne
        cases (Function.update_of_ne hne _ _).symm.trans hc'
      exact absurd (of_decide_eq_true hfree) (by omega)
    · obtain ⟨scan, hsome⟩ := hrun 0 0
      obtain ⟨w', hs⟩ := Option.isSome_iff_exists.mp hsome
      obtain ⟨call, db, next, -, hm, -⟩ := World.step_run hs
      cases hm
  cases (startPc_rent cfg).symm.trans (h w hr hstuck c _ (Function.update_self ..))

end

section
variable {SocketAddr : Type} [FromStr SocketAddr] {cfg : Config} {config : Nat → ServiceConfig SocketAddr}

/-- **The service starts only if it can serve.** Give every process the pool that its
configuration asks for. If each was accepted from some environment, no run gets stuck; and
no run gets stuck only if no process that is sent requests has an empty pool. -/
theorem starts_serving (hpool : ∀ p, cfg.poolSize p = (config p).pool.maxConnections.toNat) :
    ((∀ p, ∃ env, ServiceConfig.fromEnv env = .ok (config p)) → NeverStuck cfg) ∧
    (NeverStuck cfg → ∀ c, (config (cfg.process c)).pool.maxConnections ≠ 0) := by
  constructor
  · intro h
    refine neverStuck_of_pool fun p => ?_
    obtain ⟨env, henv⟩ := h p
    rw [hpool p]
    exact (ServiceConfig.fromEnv_ok.mp henv).2.connections
  · intro h c hzero
    have hempty : cfg.poolSize (cfg.process c) = 0 := by rw [hpool, hzero]; rfl
    exact stuck_of_no_connections hempty h

def crowd : Config := { sample true with poolSize := fun _ => 16 }

theorem shipped_started :
    @ServiceConfig.fromEnv String ServiceConfig.anyInterface (ServiceConfig.shipped.written "0.0.0.0:3000") =
      .ok ServiceConfig.shipped :=
  (@ServiceConfig.fromEnv_ok String _ _ ServiceConfig.anyInterface).mpr
    ⟨@ServiceConfig.given_written String _ ServiceConfig.anyInterface "0.0.0.0:3000" rfl,
      ServiceConfig.shipped_coherent⟩

theorem starts_serving_shipped : NeverStuck crowd :=
  (@starts_serving String ServiceConfig.anyInterface crowd (fun _ => ServiceConfig.shipped) fun _ => rfl).1 fun _ =>
    ⟨_, shipped_started⟩

/-! ## Who may open funding accounts -/

/-- Requests arrive through the two routes of a process; the rest is the service's own doing. -/
def Label.Served (config : Nat → ServiceConfig SocketAddr) : Label → Prop
  | .invoke _ key intent => ∃ header payload, Http.create header payload = .ok (key, intent)
  | .create process _ name currency flag => ∃ payload,
      Http.createAccount (config process).allowFundingAccountCreation payload = .ok (name, currency, flag)
  | _ => True

omit [FromStr SocketAddr] in
theorem Label.Served.locked {l : Label} (h : l.Served config)
    (hlocked : ∀ p, (config p).allowFundingAccountCreation = false) : l.Http false := by
  cases l with
  | create process env name currency flag => exact hlocked process ▸ h
  | invoke c key intent => exact h
  | acquire | run | fault | lostAck | cancel => trivial

omit [FromStr SocketAddr] in
theorem Http.unfunded {w w' : World} (hi : Inv cfg w) (hr : Reach (World.step cfg) (fun _ l => l.Http false) w w') :
    Spec.Unfunded w.db.tables w'.db.tables := by
  have hi' : Inv cfg w' := World.Leads.inv
    (hr.mono (P := fun _ => True) (fun _ _ _ _ _ _ => trivial) (fun _ _ _ _ => trivial) trivial) hi
  obtain ⟨evs, hlog, hplain⟩ := Http.log hr
  have hexec : exec (Spec.step cfg.sha256 cfg.decode) w.db.tables evs = some w'.db.tables := by
    have := hi'.spec
    rwa [hlog, exec_append, hi.spec, Option.bind_some] at this
  exact ⟨_, Spec.exec_terms hi.ledger hexec, hplain⟩

omit [FromStr SocketAddr] in
theorem opens_funding {p : Nat} (hpool : 0 < cfg.poolSize p)
    (hallow : (config p).allowFundingAccountCreation = true) :
    ∃ w, Reach (World.step cfg) (fun _ l => l.Served config) World.init w ∧
      ∃ a ∈ w.db.tables.accounts, a.allowsNegativeBalance = true := by
  have hi : Inv cfg World.init := Inv.init
  have hstored : (openedRow 1 "bank" true).Stored := ⟨by decide, by decide, by decide, by decide⟩
  obtain ⟨db, hs, ht, -⟩ := hi.opens_row (decide_eq_true hpool : World.init.free cfg p = true) hstored rfl
    fun _ h => (by cases h)
  have hserved : (Label.create p ⟨1, 0, []⟩ "bank" ⟨"EUR"⟩ true).Served config := by
    refine ⟨.ok bankRequest, ?_⟩
    rw [hallow]
    decide +kernel
  refine ⟨_, Reach.snoc _ Reach.refl hserved hs, openedRow 1 "bank" true, ?_, rfl⟩
  dsimp only
  rw [ht]
  exact List.mem_append_right _ (List.mem_singleton_self _)

/-- **Who decides where money comes from.** Requests to the routes open a funding account,
in some run from some reachable state, exactly if some process found
`ALLOW_FUNDING_ACCOUNT_CREATION` in its environment with the value `true` to the letter. -/
theorem funding_over_http {env : Nat → Environment}
    (hstart : ∀ p, ServiceConfig.fromEnv (env p) = .ok (config p))
    (hpool : ∀ p, cfg.poolSize p = (config p).pool.maxConnections.toNat) :
    (∃ p, env p "ALLOW_FUNDING_ACCOUNT_CREATION" = .ok "true") ↔
      ∃ w w', World.Leads cfg World.init w ∧ Reach (World.step cfg) (fun _ l => l.Served config) w w' ∧
        ∃ a ∈ w'.db.tables.accounts, a.allowsNegativeBalance = true ∧
          ∀ b ∈ w.db.tables.accounts, b.terms ≠ a.terms := by
  have hallow := fun p => ServiceConfig.allow_iff (hstart p)
  constructor
  · rintro ⟨p, hp⟩
    have hconn : 0 < cfg.poolSize p := hpool p ▸ (ServiceConfig.fromEnv_ok.mp (hstart p)).2.connections
    obtain ⟨w, hr, a, ha, hf⟩ := opens_funding hconn ((hallow p).mpr hp)
    exact ⟨World.init, w, Reach.refl, hr, a, ha, hf, fun b hb => (by cases hb)⟩
  · rintro ⟨w, w', hr, hr', a, ha, hf, hnew⟩
    by_contra hnone
    have hlocked : ∀ p, (config p).allowFundingAccountCreation = false := fun p =>
      Bool.eq_false_iff.mpr fun hc => hnone ⟨p, (hallow p).mp hc⟩
    have hr₁ : Reach (World.step cfg) (fun _ l => l.Http false) w w' :=
      hr'.mono (P := fun _ => True) (fun _ _ _ _ _ _ => trivial) (fun _ _ _ hl => hl.locked hlocked) trivial
    obtain ⟨b, hb, ht⟩ := (Http.unfunded (Inv.reach hr) hr₁).old ha hf
    exact hnew b hb ht

theorem funding_over_http_shipped : ¬ ∃ w w', World.Leads crowd World.init w ∧
    Reach (World.step crowd) (fun _ l => l.Served fun _ => ServiceConfig.shipped) w w' ∧
    ∃ a ∈ w'.db.tables.accounts, a.allowsNegativeBalance = true ∧
      ∀ b ∈ w.db.tables.accounts, b.terms ≠ a.terms := by
  rw [← @funding_over_http String ServiceConfig.anyInterface crowd (fun _ => ServiceConfig.shipped)
    (fun _ => ServiceConfig.shipped.written "0.0.0.0:3000") (fun _ => shipped_started) fun _ => rfl]
  rintro ⟨p, hp⟩
  exact absurd (Except.ok.inj hp) (by decide)

end

end Ledger
