import Ledger.Http
import Ledger.Lib.Trim

/-!
# The idempotency key in the header

Which header values are accepted, and when two of them are the same key.
-/

namespace Ledger.Http

def blankByte (b : UInt8) : Bool := b = 32 || b = 9

/-- The key that a header value between blanks becomes. -/
def keyText (core : List UInt8) : String := String.ofList (core.map fun b => Char.ofNat b.toNat)

theorem toNat_ofByte (b : UInt8) : (Char.ofNat b.toNat).toNat = b.toNat := by
  have hb := b.toNat_lt
  have hv : b.toNat.isValidChar := Or.inl (by omega)
  rw [Char.ofNat, dif_pos hv]
  rfl

theorem ofByte_inj {a b : UInt8} : Char.ofNat a.toNat = Char.ofNat b.toNat ↔ a = b := by
  refine ⟨fun h => ?_, fun h => by rw [h]⟩
  have hn := congrArg Char.toNat h
  rw [toNat_ofByte, toNat_ofByte] at hn
  exact UInt8.toNat_inj.mp hn

theorem isBlank_ofByte (b : UInt8) : isBlank (Char.ofNat b.toNat) = blankByte b := by
  have h32 : ' ' = Char.ofNat (32 : UInt8).toNat := rfl
  have h9 : '\t' = Char.ofNat (9 : UInt8).toNat := rfl
  unfold isBlank blankByte
  rw [h32, h9]
  simp only [ofByte_inj]

theorem keyText_inj {core core' : List UInt8} : keyText core = keyText core' ↔ core = core' := by
  refine ⟨fun h => ?_, fun h => by rw [h]⟩
  have hl := String.ofList_injective h
  exact List.map_injective_iff.mpr (fun a b hab => ofByte_inj.mp hab) hl

theorem visible_lt {b : UInt8} (h : isVisibleAscii b = true) : b.toNat < 127 := by
  unfold isVisibleAscii at h
  simp only [Bool.or_eq_true, Bool.and_eq_true, decide_eq_true_eq] at h
  rcases h with ⟨-, h⟩ | rfl
  · exact UInt8.lt_iff_toNat_lt.mp h
  · decide

theorem keyText_size : ∀ {core : List UInt8}, (∀ b ∈ core, isVisibleAscii b = true) →
    (keyText core).utf8ByteSize = core.length
  | [], _ => rfl
  | b :: core, h => by
    have hsize : (Char.ofNat b.toNat).utf8Size = 1 := by
      rw [Char.utf8Size_eq_one_iff, UInt32.le_iff_toNat_le]
      have := visible_lt (h b (List.mem_cons_self ..))
      have hn := toNat_ofByte b
      unfold Char.toNat at hn
      rw [hn]
      exact Nat.le_of_lt_succ (Nat.lt_succ_of_lt this)
    have ih := keyText_size fun a ha => h a (List.mem_cons_of_mem _ ha)
    unfold keyText at ih ⊢
    rw [List.map_cons, String.ofList_cons, String.utf8ByteSize_append, String.utf8ByteSize_singleton, hsize, ih,
      List.length_cons, Nat.add_comm]

/-- Visible text with something in it, neither end blank, that is not too long for a key. -/
structure KeyBytes (core : List UInt8) : Prop where
  visible : ∀ b ∈ core, isVisibleAscii b = true
  trimmed : Trim.Core blankByte core
  nonempty : 1 ≤ core.length
  short : core.length ≤ MAX_IDEMPOTENCY_KEY_LEN

def Around (core raw : List UInt8) : Prop := ∃ before after, raw = before ++ core ++ after ∧
  (∀ b ∈ before, blankByte b = true) ∧ ∀ b ∈ after, blankByte b = true

theorem blank_visible {b : UInt8} (h : blankByte b = true) : isVisibleAscii b = true := by
  unfold blankByte at h
  simp only [Bool.or_eq_true, decide_eq_true_eq] at h
  rcases h with rfl | rfl <;> decide

theorem trim_ofByte (raw : List UInt8) :
    trim (raw.map fun b => Char.ofNat b.toNat) = (Trim.trim blankByte raw).map fun b => Char.ofNat b.toNat := by
  have hcomp : (isBlank ∘ fun b : UInt8 => Char.ofNat b.toNat) = blankByte := funext isBlank_ofByte
  show Trim.trim isBlank _ = _
  rw [Trim.trim_map, hcomp]

section
variable {raw : List UInt8}

theorem extractIdempotencyKey_visible_iff (hv : ∀ b ∈ raw, isVisibleAscii b = true) :
    extractIdempotencyKey (some raw) =
      if Trim.trim blankByte raw = [] then .error .missingIdempotencyKey
      else if MAX_IDEMPOTENCY_KEY_LEN < (Trim.trim blankByte raw).length then
        .error (.validation "Idempotency-Key must be at most 255 bytes")
      else .ok (keyText (Trim.trim blankByte raw)) := by
  have hcore : ∀ b ∈ Trim.trim blankByte raw, isVisibleAscii b = true := by
    obtain ⟨before, after, he, -⟩ := Trim.split blankByte raw
    intro b hb
    exact hv b (he ▸ List.mem_append_left _ (List.mem_append_right _ hb))
  have hto : toStr raw = some (raw.map fun b => Char.ofNat b.toNat) := if_pos (List.all_eq_true.mpr hv)
  have hempty : (keyText (Trim.trim blankByte raw)).isEmpty = true ↔ Trim.trim blankByte raw = [] := by
    rw [String.isEmpty_iff, ← String.toList_eq_nil_iff, keyText, String.toList_ofList, List.map_eq_nil_iff]
  unfold extractIdempotencyKey
  simp only [hto, trim_ofByte]
  rw [show String.ofList ((Trim.trim blankByte raw).map fun b => Char.ofNat b.toNat) =
    keyText (Trim.trim blankByte raw) from rfl, keyText_size hcore]
  simp only [hempty]

theorem extractIdempotencyKey_invisible (hv : ¬ ∀ b ∈ raw, isVisibleAscii b = true) :
    extractIdempotencyKey (some raw) = .error (.validation "Idempotency-Key must be valid UTF-8") := by
  have hto : toStr raw = none := if_neg fun h => hv (List.all_eq_true.mp h)
  unfold extractIdempotencyKey
  simp only [hto]

theorem Around.trim {core : List UInt8} (h : Around core raw) (hc : Trim.Core blankByte core) :
    Trim.trim blankByte raw = core := by
  obtain ⟨before, after, rfl, hb, ha⟩ := h
  exact Trim.trim_around hb hc ha

theorem extractIdempotencyKey_ok {key : String} :
    extractIdempotencyKey (some raw) = .ok key ↔ ∃ core, KeyBytes core ∧ Around core raw ∧ key = keyText core := by
  constructor
  · intro h
    by_cases hv : ∀ b ∈ raw, isVisibleAscii b = true
    · rw [extractIdempotencyKey_visible_iff hv] at h
      split at h
      · cases h
      · rename_i hne
        split at h
        · cases h
        · rename_i hlen
          obtain ⟨before, after, he, hb, ha, -⟩ := Trim.split blankByte raw
          exact ⟨_, ⟨fun b hb => hv b (he ▸ List.mem_append_left _ (List.mem_append_right _ hb)),
            Trim.core_trim .., List.length_pos_iff.mpr hne, Nat.le_of_not_lt hlen⟩,
            ⟨before, after, he, hb, ha⟩, (Except.ok.inj h).symm⟩
    · rw [extractIdempotencyKey_invisible hv] at h
      cases h
  · rintro ⟨core, hk, haround, rfl⟩
    have htrim := haround.trim hk.trimmed
    have hv : ∀ b ∈ raw, isVisibleAscii b = true := by
      obtain ⟨before, after, rfl, hb, ha⟩ := haround
      intro b hm
      rcases List.mem_append.mp hm with hm | hm
      · exact (List.mem_append.mp hm).elim (fun h => blank_visible (hb b h)) (hk.visible b)
      · exact blank_visible (ha b hm)
    rw [extractIdempotencyKey_visible_iff hv, htrim, if_neg (List.length_pos_iff.mp hk.nonempty),
      if_neg (Nat.not_lt.mpr hk.short)]

/-- **Which header values are keys, and which are the same key.** A value is accepted
exactly if it is a visible text of at most 255 bytes with blanks around it, and blanks alone
are no key; two values are the same key exactly if they differ in those blanks only. -/
theorem key_header (raw raw' : List UInt8) :
    (∀ key, extractIdempotencyKey (some raw) = .ok key ↔
      ∃ core, KeyBytes core ∧ Around core raw ∧ key = keyText core) ∧
    (extractIdempotencyKey (some raw) = .error .missingIdempotencyKey ↔ ∀ b ∈ raw, blankByte b = true) ∧
    ((∃ key, extractIdempotencyKey (some raw) = .ok key ∧ extractIdempotencyKey (some raw') = .ok key) ↔
      ∃ core, KeyBytes core ∧ Around core raw ∧ Around core raw') := by
  refine ⟨fun key => extractIdempotencyKey_ok, ?_, ?_⟩
  · constructor
    · intro h
      by_cases hv : ∀ b ∈ raw, isVisibleAscii b = true
      · rw [extractIdempotencyKey_visible_iff hv] at h
        split at h
        · exact Trim.trim_nil_iff.mp ‹_›
        · split at h <;> cases h
      · rw [extractIdempotencyKey_invisible hv] at h
        cases h
    · intro h
      rw [extractIdempotencyKey_visible_iff fun b hb => blank_visible (h b hb), if_pos (Trim.trim_nil_iff.mpr h)]
  · constructor
    · rintro ⟨key, h, h'⟩
      obtain ⟨core, hk, ha, rfl⟩ := extractIdempotencyKey_ok.mp h
      obtain ⟨core', -, ha', he⟩ := extractIdempotencyKey_ok.mp h'
      exact ⟨core, hk, ha, keyText_inj.mp he ▸ ha'⟩
    · rintro ⟨core, hk, ha, ha'⟩
      exact ⟨keyText core, extractIdempotencyKey_ok.mpr ⟨core, hk, ha, rfl⟩,
        extractIdempotencyKey_ok.mpr ⟨core, hk, ha', rfl⟩⟩

end

end Ledger.Http
