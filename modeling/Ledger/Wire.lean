import Ledger.Constructors
import Ledger.Solo

/-!
# From the wire to the ledger

The string of a request's amount is read by the library, checked by `Money.new` and
stored. `Money.new` sees what the library has left of the string, so an amount with more
digits than a decimal holds may come out as one that can be stored.
-/

namespace Ledger

open Keyed Runs Transfers

namespace Wire

def Stores (t : Tables) (id : Uuid) (q : ℚ) : Prop :=
  (Transactions.entriesOf t id).length = 2 ∧
    ∀ e ∈ Transactions.entriesOf t id, ∃ u : ℤ, e.amount.val = .num u ∧ (u : ℚ) / 10 ^ 8 = q

def NoCollision (cfg : Config) (w : World) (call : Call) : Prop :=
  ∀ c' call', w.calls c' = some call' → cfg.sha256 call'.intent.encoding = cfg.sha256 call.intent.encoding →
    call'.intent.encoding = call.intent.encoding

/-- Whoever sends `s` as an amount, and however the run goes: if the transfer is created,
both entries hold what `s` denotes, and if that cannot be stored, the call has committed
nothing and is not told otherwise. -/
def Unaltered (f : Formats) (s : String) : Prop :=
  ∀ (rejection : String) (header : Option (List UInt8)) (body : Json) (key : String) (i : TransferIntent),
    body.required 5 2 "amount" = some (.string s) → Http.post f rejection header body = .ok (key, i) →
    ∀ (cfg : Config) (w : World) (c : Nat) (call : Call), World.Leads cfg World.init w → w.calls c = some call →
      call.key = key → call.intent = i →
      (∀ detail, call.pc = .done (.ok ⟨.created, detail⟩) →
        ∃ q, Numeral.denotes s = some q ∧ Stores w.db.tables detail.transaction.id q) ∧
      ∀ q, Numeral.denotes s = some q → ¬ StorableRat q → NoCollision cfg w call →
        (∀ tr ∈ Spec.transfers w.log, tr.call ≠ c) ∧ ∀ r, call.pc = .done r → ∃ err, r = .error err

/-- What the library reads is not an amount that can be transferred, or it is what `s` denotes. -/
def Exact (f : Formats) (s : String) : Prop :=
  ∀ d, f.decimal s = some d → d.Storable → 0 < d.val → Numeral.denotes s = some d.toRat

theorem post_amount {f : Formats} {rejection : String} {header : Option (List UInt8)} {body : Json} {key : String}
    {i : TransferIntent} {s : String} (hs : body.required 5 2 "amount" = some (.string s))
    (h : Http.post f rejection header body = .ok (key, i)) :
    ∃ d, f.decimal s = some d ∧ d.Storable ∧ i.amount.amount.val = d.val := by
  obtain ⟨request, hp, -, hm⟩ := Http.create_ok h
  split at hp
  · cases hp
  · rename_i r hr
    cases hp
    exact ⟨request.amount, Http.TransferRequest.deserialize_amount hr hs, Money.new_ok_iff.mp ⟨_, hm⟩,
      (Money.new_ok hm).2.1⟩

theorem stores_transfer {cfg : Config} {w : World} (h : Inv cfg w) {tr : Spec.Transfer}
    (htr : tr ∈ Spec.transfers w.log) : Stores w.db.tables tr.id tr.intent.amount.amount.toRat := by
  have hent := Spec.entriesOf_transfer h.spec h.keys htr
  have hval := tr.intent.valid.val_eq
  have hq : ((tr.intent.units : ℤ) : ℚ) / 10 ^ 8 = tr.intent.amount.amount.toRat := by
    rw [Decimal.toRat, hval, div_eq_div_iff (by norm_num) (by norm_num)]
    unfold TransferIntent.units
    push_cast
    ring
  refine ⟨by rw [hent]; rfl, ?_⟩
  rw [hent]
  intro e he
  simp only [Spec.Transfer.entries, List.mem_cons, List.not_mem_nil, or_false] at he
  rcases he with rfl | rfl <;> exact ⟨tr.intent.units, rfl, hq⟩

theorem unaltered_of_exact {f : Formats} {s : String} (hx : Exact f s) : Unaltered f s := by
  intro rejection header body key i hs hpost cfg w c call hr hc hk hi
  obtain ⟨d, hd, hstorable, hval⟩ := post_amount hs hpost
  have h := Inv.reach hr
  -- what a call has committed carries its amount, and that is positive
  have positive : ∀ tr ∈ Spec.transfers w.log, tr.intent.amount.amount.val = d.val →
      Numeral.denotes s = some d.toRat := by
    intro tr htr hv
    refine hx d hd hstorable ?_
    rw [← hv]
    exact (Money.isPositive_iff _).mp (Spec.exec_admitted h.spec tr htr).2
  refine ⟨fun detail hdone => ?_, fun q hq hnot hcollide => ?_⟩
  · obtain ⟨tr, m, hst, -, hdet⟩ := h.answer hc hdone
    obtain ⟨-, hintent⟩ := h.own hc hst.mem (hst.own rfl)
    have hv : tr.intent.amount.amount.val = d.val := by rw [hintent, hi, hval]
    refine ⟨d.toRat, positive tr hst.mem hv, ?_⟩
    have hid : detail.transaction.id = tr.id := by rw [show detail = tr.detail cfg.sha256 m from hdet]; rfl
    rw [hid, show d.toRat = tr.intent.amount.amount.toRat by rw [Decimal.toRat, Decimal.toRat, hv]]
    exact stores_transfer h hst.mem
  · -- an amount that cannot be stored was not read as one that can be transferred
    have absurd' : ∀ tr ∈ Spec.transfers w.log, tr.intent.amount.amount.val ≠ d.val := by
      intro tr htr hv
      have := positive tr htr hv
      rw [hq, Option.some.injEq] at this
      exact hnot (this ▸ d.storable_iff.mp hstorable)
    refine ⟨fun tr htr he => ?_, fun r hdone => ?_⟩
    · obtain ⟨-, hintent⟩ := h.own hc htr he
      exact absurd' tr htr (by rw [hintent, hi, hval])
    · cases r with
      | error err => exact ⟨err, rfl⟩
      | ok res =>
        obtain ⟨tr, m, hst, -, -⟩ := h.answer hc hdone
        obtain ⟨author, hauthor, -, hintent⟩ := h.author tr hst.mem
        have henc : tr.intent.encoding = call.intent.encoding :=
          hintent ▸ hcollide tr.call author hauthor (hintent ▸ hst.hash)
        obtain ⟨-, -, hv, -, -⟩ := TransferIntent.encoding_inj henc
        exact absurd (by rw [hv, hi, hval]) (absurd' tr hst.mem)

/-! ## A request for any amount that can be transferred -/

def transferBody (s : String) : Json :=
  .object [("from_account_id", .string "00000000-0000-0000-0000-000000000001"),
    ("to_account_id", .string "00000000-0000-0000-0000-000000000002"), ("amount", .string s),
    ("currency", .string "EUR")]

section
variable {f : Formats} (h1 : f.uuid "00000000-0000-0000-0000-000000000001" = some 1)
  (h2 : f.uuid "00000000-0000-0000-0000-000000000002" = some 2) {s : String} {d : Decimal}
  (hd : f.decimal s = some d)
include h1 h2 hd

theorem transferBody_read : ∃ request, Http.TransferRequest.deserialize f (transferBody s) = some request ∧
    request.fromAccountId = 1 ∧ request.toAccountId = 2 ∧ request.amount = d ∧ request.currency = ⟨"EUR"⟩ ∧
    request.description = "" := by
  have e0 : ((transferBody s).required 5 0 "from_account_id").bind f.readUuid = some 1 := h1
  have e1 : ((transferBody s).required 5 1 "to_account_id").bind f.readUuid = some 2 := h2
  have e2 : ((transferBody s).required 5 2 "amount").bind f.readDecimal = some d := hd
  have e3 : ((transferBody s).required 5 3 "currency").bind Currency.deserialize = some ⟨"EUR"⟩ := by
    show (Currency.tryFrom "EUR").toOption = some ⟨"EUR"⟩
    decide +kernel
  have e4 : (transferBody s).optional 5 4 "description" "" Json.asString = some "" := rfl
  simp only [Http.TransferRequest.deserialize, e0, e1, e2, Option.bind_eq_bind, Option.bind_some]
  split
  · rename_i hn
    rw [e3] at hn; cases hn
  · rename_i currency hsome
    rw [e3, Option.some.injEq] at hsome
    subst hsome
    exact ⟨_, by rw [e4]; rfl, rfl, rfl, rfl, rfl, rfl⟩

theorem created_run (hs : d.Storable) (hpos : 0 < d.val) (rejection : String) : ∃ i w call detail,
    Http.post f rejection (some rentHeader) (transferBody s) = .ok ("rent-1", i) ∧
    i.amount.amount.val = d.val ∧ World.Leads (sample true) World.init w ∧ w.calls 0 = some call ∧
    call.key = "rent-1" ∧ call.intent = i ∧ call.pc = .done (.ok ⟨.created, detail⟩) := by
  obtain ⟨request, hreq, hfrom, hto, hamount, hcur, hdesc⟩ := transferBody_read h1 h2 hd
  obtain ⟨m, hm⟩ := (Money.new_ok_iff (c := request.currency)).mpr hs
  obtain ⟨hmc, hmv, -, -⟩ := Money.new_ok hm
  have hkey : Http.extractIdempotencyKey (some rentHeader) = .ok "rent-1" := by decide +kernel
  have hnew : Money.new request.amount request.currency = .ok m := by rw [hamount, hm]
  obtain ⟨i, hcreate, hif, hit, him, hid⟩ := Http.create_of hkey hnew (by rw [hdesc]; decide)
  have hpost : Http.post f rejection (some rentHeader) (transferBody s) = .ok ("rent-1", i) := by
    unfold Http.post
    rw [hreq]
    exact hcreate
  obtain ⟨w, sender, receiver, hw, hfree, htx, hen, hsend, hsc, hsb, hsf, hrecv, hrc, hrb⟩ := twoAccounts_open
  obtain ⟨hleads, hcalls, hquiet⟩ := twoAccounts_quiet hw
  have hcode : i.amount.currency.code = "EUR" := by rw [him, hmc, hcur]
  have ha : Spec.Admits w.db.tables i sender receiver :=
    { distinct := by rw [hif, hit, hfrom, hto]; decide
      positive := (Money.isPositive_iff _).mpr (by rw [him, hmv]; exact hpos)
      sender := by rw [hif, hfrom, hsend]
      receiver := by rw [hit, hto, hrecv]
      senderCurrency := by rw [hsc, hcode]
      receiverCurrency := by rw [hrc, hcode]
      funds := Or.inl hsf }
  have hlt := i.valid.units_lt
  have hfits : Fits w.db.tables "rent-1" i := by
    refine Or.inr (Or.inr (Or.inr ⟨by rw [hid, hdesc]; rfl, fun s' r' ha' => ⟨?_, ?_⟩⟩))
    · cases ha.sender.symm.trans ha'.sender
      rw [hsb]
      simpa [Num20.zero, Numeric.inRange, TransferIntent.units] using hlt
    · cases ha.receiver.symm.trans ha'.receiver
      rw [hrb]
      simpa [Num20.zero, Numeric.inRange, TransferIntent.units] using hlt
  have hstep : w.step (sample true) (.invoke 0 "rent-1" i) = some
      { w with calls := Function.update w.calls 0 (some ⟨"rent-1", i, 0, startPc (sample true) i⟩) } := by
    simp only [World.step, World.invoke, hcalls 0]
  obtain ⟨hq, hheld, hsolo⟩ := Solo.start (Inv.reach hleads) hquiet (Or.inl rfl) hstep
  have hunused : Unused w.db.tables "rent-1" := by
    unfold Unused
    rw [htx]
    exact List.forall_mem_nil _
  have hids : ∀ id ∈ [3, 4, 5], w.New id := fun id _ => new_of_empty hcalls htx hen id
  obtain ⟨w₂, call, detail, hrun, hc, hk, hint, hdone⟩ := hsolo.commits hq hheld (by decide +kernel) hfree
    (by decide) (by decide) hids rfl hfits hunused ha
  have hall : World.Leads (sample true) World.init w₂ :=
    (hleads.trans (Reach.one _ trivial hstep)).trans
      (hrun.mono (P := fun _ => True) (fun _ _ _ _ _ _ => trivial) (fun _ _ _ _ => trivial) trivial)
  exact ⟨i, w₂, call, detail, hpost, by rw [him, hmv], hall, hc, hk, hint, hdone⟩

end

section
variable {f : Formats} (h1 : f.uuid "00000000-0000-0000-0000-000000000001" = some 1)
  (h2 : f.uuid "00000000-0000-0000-0000-000000000002" = some 2) {s : String}
include h1 h2

theorem exact_of_unaltered (hu : Unaltered f s) : Exact f s := by
  intro d hd hs hpos
  obtain ⟨i, w, call, detail, hpost, hv, hr, hc, hk, hi, hdone⟩ := created_run h1 h2 hd hs hpos ""
  obtain ⟨q, hq, hstores⟩ := (hu "" _ _ _ _ rfl hpost (sample true) w 0 call hr hc hk hi).1 detail hdone
  -- the entries hold one number, and it is the one that was read
  have h := Inv.reach hr
  obtain ⟨tr, m, hst, -, hdet⟩ := h.answer hc hdone
  have hid : detail.transaction.id = tr.id := by rw [show detail = tr.detail (sample true).sha256 m from hdet]; rfl
  have hval : tr.intent.amount.amount.val = d.val := by rw [(h.own hc hst.mem (hst.own rfl)).2, hi, hv]
  have hread := stores_transfer h hst.mem
  rw [← hid] at hread
  obtain ⟨e, he⟩ := List.exists_mem_of_length_pos (l := Transactions.entriesOf w.db.tables detail.transaction.id)
    (by rw [hstores.1]; decide)
  obtain ⟨u, hu, huq⟩ := hstores.2 e he
  obtain ⟨u', hu', hud⟩ := hread.2 e he
  rw [hu, Numeric.num.injEq] at hu'
  rw [hq, ← huq, hu', hud, Decimal.toRat, Decimal.toRat, hval]

end

/-- **When an amount reaches the ledger as it was sent.** For a string `s`, sent by anyone
in any run: what is stored is what `s` denotes and what cannot be stored is refused,
exactly when the library reads `s` without rounding it to a positive amount that can be
stored. -/
theorem amount_unaltered_iff (f : Formats) (h1 : f.uuid "00000000-0000-0000-0000-000000000001" = some 1)
    (h2 : f.uuid "00000000-0000-0000-0000-000000000002" = some 2) (s : String) : Unaltered f s ↔ Exact f s :=
  ⟨exact_of_unaltered h1 h2, unaltered_of_exact⟩

/-- What the library makes of a text without an exponent that it reads: exactly what it
denotes, if that has 28 decimal places and 96 bits at most, and where it has more places
that number rounded to 28, half away from zero. -/
structure Rounds (f : Formats) : Prop where
  exact : ∀ s n d, Numeral.Plain s → Numeral.parse s = some n → n.places ≤ 28 → n.num.natAbs < 2 ^ 96 →
    f.decimal s = some d → d.toRat = n.value
  rounded : ∀ s n d, Numeral.Plain s → Numeral.parse s = some n → 28 < n.places →
    (n.toPlaces 28).num.natAbs < 2 ^ 96 → f.decimal s = some d → d.toRat = (n.toPlaces 28).value

section
variable {f : Formats} (hf : Rounds f) {s : String} {n : Numeral} (hplain : Numeral.Plain s)
  (hn : Numeral.parse s = some n) (hfit : (n.toPlaces 28).num.natAbs < 2 ^ 96)
include hf hplain hn hfit

theorem Rounds.reads {d : Decimal} (hd : f.decimal s = some d) : d.toRat = (n.toPlaces 28).value := by
  by_cases hp : n.places ≤ 28
  · rw [Numeral.toPlaces_of_le hp] at hfit ⊢
    exact hf.exact s n d hplain hn hp hfit hd
  · exact hf.rounded s n d hplain hn (Nat.lt_of_not_le hp) hfit hd

/-- Whether a text is stored as it was sent can be seen from its digits: if rounding it to
28 places makes no amount of it that could be transferred, or changes nothing. -/
theorem unaltered_text_iff (h1 : f.uuid "00000000-0000-0000-0000-000000000001" = some 1)
    (h2 : f.uuid "00000000-0000-0000-0000-000000000002" = some 2) (hread : (f.decimal s).isSome = true) :
    Unaltered f s ↔
      (StorableRat (n.toPlaces 28).value → 0 < (n.toPlaces 28).value → (n.toPlaces 28).value = n.value) := by
  obtain ⟨d, hd⟩ := Option.isSome_iff_exists.mp hread
  have hval := hf.reads hplain hn hfit hd
  have hden : Numeral.denotes s = some n.value := by rw [Numeral.denotes, hn, Option.map_some]
  have hpos : 0 < d.val ↔ 0 < (n.toPlaces 28).value := by
    rw [← hval, Decimal.toRat, div_pos_iff_of_pos_right (by norm_num), Int.cast_pos]
  refine ⟨fun hu hs hp => ?_, fun h => unaltered_of_exact fun d' hd' hs hp => ?_⟩
  · have hexact := exact_of_unaltered h1 h2 hu d hd (d.storable_iff.mpr (hval ▸ hs)) (hpos.mpr hp)
    rw [hden, Option.some.injEq, hval] at hexact
    exact hexact.symm
  · cases hd.symm.trans hd'
    rw [hden, hval, h (hval ▸ d.storable_iff.mp hs) (hpos.mp hp)]

end

theorem plain_rounds : Rounds .plain := by
  have reads : ∀ s n d, Numeral.parse s = some n → (n.toPlaces 28).num.natAbs < 2 ^ 96 →
      Formats.plain.decimal s = some d → d.toRat = (n.toPlaces 28).value := by
    intro s n d hn hfit hd
    obtain ⟨d', hd', hval⟩ := Numeral.ofNumeral_fits hfit
    have hplain : Formats.plain.decimal s = (Numeral.parse s).bind Decimal.ofNumeral := rfl
    rw [hplain, hn, Option.bind_some, hd', Option.some.injEq] at hd
    rw [← hd, hval]
  refine ⟨fun s n d _ hn hp hfit hd => ?_, fun s n d _ hn _ hfit hd => reads s n d hn hfit hd⟩
  have := reads s n d hn (by rw [Numeral.toPlaces_of_le hp]; exact hfit) hd
  rwa [Numeral.toPlaces_of_le hp] at this

theorem plain_five : Formats.plain.decimal "5.00" = some five ∧
    Numeral.parse "5.00" = some ⟨500, 2⟩ := by decide +kernel

theorem amount_unaltered_iff_five : Formats.plain.uuid "00000000-0000-0000-0000-000000000001" = some 1 ∧
    Formats.plain.uuid "00000000-0000-0000-0000-000000000002" = some 2 ∧ Unaltered .plain "5.00" := by
  refine ⟨by decide +kernel, by decide +kernel,
    (amount_unaltered_iff .plain (by decide +kernel) (by decide +kernel) "5.00").mpr fun d hd _ _ => ?_⟩
  rw [plain_five.1, Option.some.injEq] at hd
  subst hd
  rw [Numeral.denotes, plain_five.2, Option.map_some, Numeral.value, Decimal.toRat,
    show five.val = 5 * 10 ^ 28 by decide +kernel]
  norm_num

def tooLong : String := "1.00000000000000000000000000001"

def roundedOne : Decimal := ⟨false, 10 ^ 28, 28, by norm_num, by omega⟩

theorem plain_tooLong : Formats.plain.decimal tooLong = some roundedOne ∧
    Numeral.parse tooLong = some ⟨10 ^ 29 + 1, 29⟩ := by decide +kernel

example : ¬ Unaltered .plain tooLong := by
  have hrounded : (⟨10 ^ 29 + 1, 29⟩ : Numeral).toPlaces 28 = ⟨10 ^ 28, 28⟩ := by decide +kernel
  rw [unaltered_text_iff plain_rounds (by decide +kernel) plain_tooLong.2 (by decide +kernel) (by decide +kernel)
    (by decide +kernel) (by rw [plain_tooLong.1]; rfl), hrounded]
  intro h
  have := h ⟨10 ^ 8, by norm_num [Numeral.value], by norm_num⟩ (by norm_num [Numeral.value])
  norm_num [Numeral.value] at this

/-- The 29th decimal place is rounded away before anyone looks at it: the request is
answered with a transfer of exactly one. -/
theorem tooLong_is_stored_rounded : ∃ i w call detail q,
    Http.post .plain "" (some rentHeader) (transferBody tooLong) = .ok ("rent-1", i) ∧
    World.Leads (sample true) World.init w ∧ w.calls 0 = some call ∧ call.key = "rent-1" ∧ call.intent = i ∧
    call.pc = .done (.ok ⟨.created, detail⟩) ∧ Numeral.denotes tooLong = some q ∧ q = 1 + 1 / 10 ^ 29 ∧
    ¬ StorableRat q ∧ Stores w.db.tables detail.transaction.id 1 ∧
    ¬ Stores w.db.tables detail.transaction.id q := by
  obtain ⟨hread, hparse⟩ := plain_tooLong
  obtain ⟨i, w, call, detail, hpost, hv, hr, hc, hk, hi, hdone⟩ := created_run (f := .plain) (by decide +kernel)
    (by decide +kernel) hread (by decide +kernel) (by decide +kernel) ""
  have h := Inv.reach hr
  obtain ⟨tr, m, hst, -, hdet⟩ := h.answer hc hdone
  have hid : detail.transaction.id = tr.id := by rw [show detail = tr.detail (sample true).sha256 m from hdet]; rfl
  have hone : Stores w.db.tables detail.transaction.id 1 := by
    have := stores_transfer h hst.mem
    rw [← hid, (h.own hc hst.mem (hst.own rfl)).2, hi, Decimal.toRat, hv,
      show roundedOne.val = 10 ^ 28 by decide +kernel] at this
    norm_num at this
    exact this
  refine ⟨i, w, call, detail, 1 + 1 / 10 ^ 29, hpost, hr, hc, hk, hi, hdone, ?_, rfl, ?_, hone, ?_⟩
  · rw [Numeral.denotes, hparse, Option.map_some, Numeral.value]
    norm_num
  · rintro ⟨k, hk, -⟩
    rw [eq_div_iff (by norm_num)] at hk
    have hscaled : ((10 ^ 29 + 1 : ℤ) : ℚ) * 10 ^ 8 = ((k * 10 ^ 29 : ℤ) : ℚ) := by
      push_cast
      rw [← hk]
      norm_num
    have : (10 ^ 29 + 1 : ℤ) * 10 ^ 8 = k * 10 ^ 29 := by exact_mod_cast hscaled
    omega
  · intro hq
    obtain ⟨e, he⟩ := List.exists_mem_of_length_pos (l := Transactions.entriesOf w.db.tables detail.transaction.id)
      (by rw [hq.1]; decide)
    obtain ⟨u, hu, hu1⟩ := hone.2 e he
    obtain ⟨u', hu', huq⟩ := hq.2 e he
    rw [hu, Numeric.num.injEq] at hu'
    rw [← hu', hu1] at huq
    norm_num at huq

end Wire

end Ledger
