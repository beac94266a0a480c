import Ledger.Money
import Mathlib.Data.List.Basic

/-!
# Domain types

The shape of the ledger without SQL: directions, accounts, entries, transactions,
and the transfer intent with the encoding its fingerprint is computed from.
-/

namespace Ledger

/-- A UUID is its 128-bit value; comparing values compares the sixteen bytes
left to right, in the program as in Postgres. -/
abbrev Uuid := Fin (2 ^ 128)

instance uuidNeZero : NeZero (2 ^ 128) := ⟨by norm_num⟩

abbrev Timestamp := Nat

def asBytes (u : Uuid) : List UInt8 :=
  (List.range 16).map fun i => UInt8.ofNat (u.val / 256 ^ (15 - i) % 256)

def utf8 (s : String) : List UInt8 := s.toUTF8.data.toList

inductive Direction
  | debit
  | credit
deriving DecidableEq

structure Account where
  id : Uuid
  name : String
  balance : Money
  allowsNegativeBalance : Bool
  createdAt : Timestamp
deriving DecidableEq

structure Entry where
  id : Uuid
  transactionId : Uuid
  accountId : Uuid
  direction : Direction
  amount : Money
  createdAt : Timestamp
deriving DecidableEq

structure Transaction where
  id : Uuid
  idempotencyKey : String
  description : String
  createdAt : Timestamp
deriving DecidableEq

structure TransactionDetail where
  transaction : Transaction
  entries : List Entry
deriving DecidableEq

inductive TransferOutcome
  | created
  | replayed
deriving DecidableEq

structure TransferResult where
  outcome : TransferOutcome
  detail : TransactionDetail
deriving DecidableEq

/-- A validated request to move money: the edge builds its amount with `Money.new`. -/
structure TransferIntent where
  fromAccountId : Uuid
  toAccountId : Uuid
  amount : Money
  description : String
  valid : amount.Valid
deriving DecidableEq

/-! ## The text of a decimal -/

def digitByte (n : Nat) : UInt8 := UInt8.ofNat (48 + n)

/-- The digits of a coefficient, most significant first, with at least one before the point. -/
def Decimal.digits (d : Decimal) : List Nat :=
  let ds := (Nat.digits 10 d.coeff).reverse
  List.replicate (d.scale + 1 - ds.length) 0 ++ ds

def Decimal.whole (d : Decimal) : List UInt8 := (d.digits.take (d.digits.length - d.scale)).map digitByte

def Decimal.fraction (d : Decimal) : List UInt8 := (d.digits.drop (d.digits.length - d.scale)).map digitByte

def Decimal.display (d : Decimal) : List UInt8 :=
  (if d.neg then [45] else []) ++ d.whole ++ (if d.scale = 0 then [] else 46 :: d.fraction)

def Money.canonical (m : Money) : List UInt8 :=
  m.amount.normalize.display ++ 32 :: utf8 m.currency.code

def TransferIntent.encoding (i : TransferIntent) : List UInt8 :=
  utf8 "ledger-rs/transfer/v1\n" ++ (utf8 "from=" ++ (asBytes i.fromAccountId ++
    (utf8 "\nto=" ++ (asBytes i.toAccountId ++ (utf8 "\namount=" ++ (i.amount.canonical ++
      (utf8 "\ndescription=" ++ (utf8 i.description ++ utf8 "\n"))))))))

def TransferIntent.requestHash (sha256 : List UInt8 → Vector UInt8 32) (i : TransferIntent) : Vector UInt8 32 :=
  sha256 i.encoding

/-! ## What the encoding determines -/

theorem utf8_inj {s t : String} (h : utf8 s = utf8 t) : s = t := by
  unfold utf8 at h
  exact String.toByteArray_inj.mp (ByteArray.ext (Array.toList_inj.mp h))

theorem base256_inj : ∀ (k a b : Nat), a < 256 ^ k → b < 256 ^ k →
    (∀ i < k, a / 256 ^ i % 256 = b / 256 ^ i % 256) → a = b
  | 0, a, b, ha, hb, _ => by simp at ha hb; omega
  | k + 1, a, b, ha, hb, h => by
    have h0 := h 0 (by omega)
    simp only [pow_zero, Nat.div_one] at h0
    have hq : a / 256 = b / 256 := by
      refine base256_inj k _ _ ?_ ?_ fun i hi => ?_
      · rw [pow_succ] at ha; omega
      · rw [pow_succ] at hb; omega
      · have := h (i + 1) (by omega)
        rwa [pow_succ', ← Nat.div_div_eq_div_mul, ← Nat.div_div_eq_div_mul] at this
    omega

@[simp] theorem asBytes_length (u : Uuid) : (asBytes u).length = 16 := by simp [asBytes]

theorem asBytes_inj {u v : Uuid} (h : asBytes u = asBytes v) : u = v := by
  apply Fin.ext
  have hp : (2 : Nat) ^ 128 = 256 ^ 16 := by norm_num
  refine base256_inj 16 _ _ (by rw [← hp]; exact u.isLt) (by rw [← hp]; exact v.isLt) fun i hi => ?_
  have hm := List.map_inj_left.mp h (15 - i) (List.mem_range.mpr (by omega))
  have := congrArg UInt8.toNat hm
  simpa [show 15 - (15 - i) = i by omega] using this

theorem append_cons_inj {α} {a : α} : ∀ {l₁ l₂ r₁ r₂ : List α}, a ∉ l₁ → a ∉ l₂ →
    l₁ ++ a :: r₁ = l₂ ++ a :: r₂ → l₁ = l₂ ∧ r₁ = r₂
  | [], [], _, _, _, _, h => by simpa using h
  | [], b :: l₂, _, _, _, h₂, h => by
    simp only [List.nil_append, List.cons_append, List.cons.injEq] at h
    exact absurd h.1 (by simp at h₂; exact h₂.1)
  | b :: l₁, [], _, _, h₁, _, h => by
    simp only [List.nil_append, List.cons_append, List.cons.injEq] at h
    exact absurd h.1.symm (by simp at h₁; exact h₁.1)
  | b :: l₁, c :: l₂, _, _, h₁, h₂, h => by
    simp only [List.cons_append, List.cons.injEq] at h
    obtain ⟨rfl, h⟩ := h
    obtain ⟨rfl, hr⟩ := append_cons_inj (fun hm => h₁ (List.mem_cons_of_mem _ hm))
      (fun hm => h₂ (List.mem_cons_of_mem _ hm)) h
    exact ⟨rfl, hr⟩

namespace Decimal

theorem digits_lt (d : Decimal) : ∀ n ∈ d.digits, n < 10 := by
  intro n hn
  simp only [digits, List.mem_append, List.mem_replicate, List.mem_reverse] at hn
  rcases hn with ⟨_, rfl⟩ | hn
  · omega
  · exact Nat.digits_lt_base (by omega) hn

theorem digits_length (d : Decimal) : d.scale < d.digits.length := by
  simp only [digits, List.length_append, List.length_replicate]
  omega

theorem ofDigits_digits (d : Decimal) : Nat.ofDigits 10 d.digits.reverse = d.coeff := by
  simp only [digits, List.reverse_append, List.reverse_reverse, List.reverse_replicate]
  rw [Nat.ofDigits_append, Nat.ofDigits_digits, Nat.ofDigits_replicate_zero, mul_zero, add_zero]

theorem digitByte_toNat {n : Nat} (h : n < 10) : (digitByte n).toNat = 48 + n := by
  simp only [digitByte, UInt8.toNat_ofNat']
  omega

theorem map_digitByte_inj {l m : List Nat} (hl : ∀ n ∈ l, n < 10) (hm : ∀ n ∈ m, n < 10)
    (h : l.map digitByte = m.map digitByte) : l = m := by
  induction l generalizing m with
  | nil => simpa using h.symm
  | cons a l ih =>
    cases m with
    | nil => simp at h
    | cons b m =>
      simp only [List.map_cons, List.cons.injEq] at h
      have hab := congrArg UInt8.toNat h.1
      rw [digitByte_toNat (hl a (by simp)), digitByte_toNat (hm b (by simp))] at hab
      rw [ih (fun n hn => hl n (by simp [hn])) (fun n hn => hm n (by simp [hn])) h.2,
        show a = b by omega]

theorem mem_digitBytes {d : Decimal} {b : UInt8} (h : b ∈ d.digits.map digitByte) :
    48 ≤ b.toNat ∧ b.toNat < 58 := by
  obtain ⟨n, hn, rfl⟩ := List.mem_map.mp h
  have := d.digits_lt n hn
  rw [digitByte_toNat this]
  omega

theorem whole_append_fraction (d : Decimal) : d.whole ++ d.fraction = d.digits.map digitByte := by
  rw [whole, fraction, ← List.map_append, List.take_append_drop]

theorem mem_whole {d : Decimal} {b : UInt8} (h : b ∈ d.whole) : 48 ≤ b.toNat ∧ b.toNat < 58 :=
  mem_digitBytes (d := d) (by rw [← whole_append_fraction]; exact List.mem_append_left _ h)

theorem mem_fraction {d : Decimal} {b : UInt8} (h : b ∈ d.fraction) : 48 ≤ b.toNat ∧ b.toNat < 58 :=
  mem_digitBytes (d := d) (by rw [← whole_append_fraction]; exact List.mem_append_right _ h)

theorem whole_ne_nil (d : Decimal) : d.whole ≠ [] := by
  have := d.digits_length
  intro h
  have := congrArg List.length h
  simp only [whole, List.length_map, List.length_take, List.length_nil] at this
  omega

theorem fraction_length (d : Decimal) : d.fraction.length = d.scale := by
  have := d.digits_length
  simp only [fraction, List.length_map, List.length_drop]
  omega

theorem mem_display {d : Decimal} {b : UInt8} (h : b ∈ d.display) : 45 ≤ b.toNat := by
  simp only [display, List.mem_append] at h
  rcases h with (h | h) | h
  · split at h
    · simp at h; subst h; decide
    · simp at h
  · have := mem_whole h; omega
  · split at h
    · simp at h
    · rcases List.mem_cons.mp h with rfl | h
      · decide
      · have := mem_fraction h; omega

theorem body_inj {d e : Decimal}
    (h : d.whole ++ (if d.scale = 0 then [] else 46 :: d.fraction) =
      e.whole ++ (if e.scale = 0 then [] else 46 :: e.fraction)) :
    d.whole = e.whole ∧ d.fraction = e.fraction := by
  have nodot : ∀ x : Decimal, (46 : UInt8) ∉ x.whole := fun x hm => by
    have := mem_whole hm
    simp at this
  have empty : ∀ x : Decimal, x.scale = 0 → x.fraction = [] := fun x hx =>
    List.eq_nil_of_length_eq_zero (by rw [fraction_length, hx])
  by_cases hd : d.scale = 0 <;> by_cases he : e.scale = 0
  · simp only [hd, he, ite_true, List.append_nil] at h
    exact ⟨h, by rw [empty d hd, empty e he]⟩
  · simp only [hd, he, ite_true, ite_false, List.append_nil] at h
    exact absurd (h ▸ List.mem_append_right _ (List.mem_cons_self ..)) (nodot d)
  · simp only [hd, he, ite_true, ite_false, List.append_nil] at h
    exact absurd (h ▸ List.mem_append_right _ (List.mem_cons_self ..)) (nodot e)
  · simp only [hd, he, ite_false] at h
    exact append_cons_inj (nodot d) (nodot e) h

theorem sign_inj {d e : Decimal} (h : d.display = e.display) : d.neg = e.neg ∧
    d.whole ++ (if d.scale = 0 then [] else 46 :: d.fraction) =
      e.whole ++ (if e.scale = 0 then [] else 46 :: e.fraction) := by
  have headDigit : ∀ (x : Decimal) (l : List UInt8) (r : List UInt8), x.whole ++ l ≠ 45 :: r := by
    intro x l r hx
    cases hw : x.whole with
    | nil => exact whole_ne_nil x hw
    | cons b w =>
      rw [hw] at hx
      simp only [List.cons_append, List.cons.injEq] at hx
      have := mem_whole (d := x) (b := b) (by rw [hw]; simp)
      rw [hx.1] at this
      simp at this
  unfold display at h
  rw [List.append_assoc, List.append_assoc] at h
  cases hd : d.neg <;> cases he : e.neg <;> simp only [hd, he, ite_true, Bool.false_eq_true, ite_false,
    List.nil_append, List.cons_append, List.cons.injEq, true_and] at h
  · exact ⟨rfl, h⟩
  · exact absurd h (headDigit d _ _)
  · exact absurd h.symm (headDigit e _ _)
  · exact ⟨rfl, h⟩

theorem display_inj {d e : Decimal} (h : d.display = e.display) : d = e := by
  obtain ⟨hneg, hbody⟩ := sign_inj h
  obtain ⟨hw, hf⟩ := body_inj hbody
  have hs : d.scale = e.scale := by rw [← fraction_length, ← fraction_length, hf]
  have hds : d.digits = e.digits := by
    refine map_digitByte_inj d.digits_lt e.digits_lt ?_
    rw [← whole_append_fraction, ← whole_append_fraction, hw, hf]
  have hc : d.coeff = e.coeff := by rw [← ofDigits_digits, ← ofDigits_digits, hds]
  cases d; cases e
  simp only at hneg hs hc
  subst hneg; subst hs; subst hc
  rfl

end Decimal

theorem iso_no_newline : ∀ c ∈ ISO_4217, (10 : UInt8) ∉ utf8 c := by decide +kernel

theorem Money.Valid.canonical_no_newline {m : Money} (h : m.Valid) : (10 : UInt8) ∉ m.canonical := by
  intro hm
  simp only [canonical, List.mem_append, List.mem_cons] at hm
  rcases hm with hm | hm | hm
  · have := Decimal.mem_display hm
    simp at this
  · simp at hm
  · exact iso_no_newline _ h.iso hm

theorem Money.canonical_inj {m n : Money} (h : m.canonical = n.canonical) :
    m.amount.val = n.amount.val ∧ m.currency = n.currency := by
  have nospace : ∀ d : Decimal, (32 : UInt8) ∉ d.display := fun d hm => by
    have := Decimal.mem_display hm
    simp at this
  obtain ⟨hd, hc⟩ := append_cons_inj (nospace _) (nospace _) h
  refine ⟨?_, ?_⟩
  · rw [← Decimal.val_normalize m.amount, ← Decimal.val_normalize n.amount, Decimal.display_inj hd]
  · have := utf8_inj hc
    cases hm : m.currency; cases hn : n.currency
    rw [hm, hn] at this
    exact congrArg Currency.mk this

theorem TransferIntent.encoding_inj {i j : TransferIntent} (h : i.encoding = j.encoding) :
    i.fromAccountId = j.fromAccountId ∧ i.toAccountId = j.toAccountId ∧
      i.amount.amount.val = j.amount.amount.val ∧ i.amount.currency = j.amount.currency ∧
      i.description = j.description := by
  unfold encoding at h
  have h := List.append_cancel_left (List.append_cancel_left h)
  obtain ⟨hf, h⟩ := List.append_inj h (by simp)
  have h := List.append_cancel_left h
  obtain ⟨ht, h⟩ := List.append_inj h (by simp)
  have h := List.append_cancel_left h
  have hl : utf8 "\ndescription=" = 10 :: utf8 "description=" := by decide +kernel
  rw [hl, List.cons_append, List.cons_append] at h
  obtain ⟨hc, h⟩ := append_cons_inj i.valid.canonical_no_newline j.valid.canonical_no_newline h
  have h := List.append_cancel_right (List.append_cancel_left h)
  obtain ⟨hv, hcur⟩ := Money.canonical_inj hc
  exact ⟨asBytes_inj hf, asBytes_inj ht, hv, hcur, utf8_inj h⟩

/-- **The encoding is unambiguous.** Two intents are encoded alike exactly when they have
the same accounts, currency and description and their amounts are the same number. -/
theorem encoding_eq_iff (i j : TransferIntent) : i.encoding = j.encoding ↔
    i.fromAccountId = j.fromAccountId ∧ i.toAccountId = j.toAccountId ∧
      i.amount.currency = j.amount.currency ∧ i.description = j.description ∧
      i.amount.amount.val = j.amount.amount.val := by
  constructor
  · intro h
    obtain ⟨hf, ht, hv, hc, hd⟩ := TransferIntent.encoding_inj h
    exact ⟨hf, ht, hc, hd, hv⟩
  · rintro ⟨hf, ht, hc, hd, hv⟩
    have hcanonical : i.amount.canonical = j.amount.canonical := by
      unfold Money.canonical
      rw [Decimal.normalize_congr hv, hc]
    unfold TransferIntent.encoding
    rw [hf, ht, hcanonical, hd]

end Ledger
