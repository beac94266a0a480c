import Ledger.Lib.Split

/-!
# The logged connection string

`redact_url` finds the password by four searches: the first `://`, the end of the
authority, the last `@` before it, and the first `:` before that.
-/

namespace Ledger.Startup

def authorityEnd (c : Char) : Bool := c = '/' || c = '?' || c = '#'

def redact (url : List Char) : List Char :=
  match Split.once [':', '/', '/'] url with
  | none => url
  | some (scheme, rest) =>
    match Split.before authorityEnd rest with
    | (authority, tail) =>
      match Split.last '@' authority with
      | none => url
      | some (userinfo, host) =>
        match Split.once [':'] userinfo with
        | some (user, _) => scheme ++ [':', '/', '/'] ++ user ++ [':', '*', '*', '*', '*', '@'] ++ host ++ tail
        -- userinfo with no password: nothing to hide
        | none => url

def redactUrl (url : String) : String := String.ofList (redact url.toList)

structure Config where
  databaseUrl : String

def Config.redactedDatabaseUrl (config : Config) : String := redactUrl config.databaseUrl

/-! ## The shapes of a connection string -/

def Free (delimiters : List Char) (l : List Char) : Prop := ∀ c ∈ l, c ∉ delimiters

/-- Empty, or begins where an authority ends. -/
def Tail (l : List Char) : Prop := ∀ c ∈ l.head?, c ∈ ['/', '?', '#']

/-- Every string has one of these shapes. -/
inductive Shape : List Char → Prop
  | noScheme {url} : ¬ [':', '/', '/'] <:+: url → Shape url
  | noAt {scheme authority tail} : ¬ [':', '/', '/'] <:+: scheme → Free ['@', '/', '?', '#'] authority → Tail tail →
      Shape (scheme ++ [':', '/', '/'] ++ (authority ++ tail))
  | noColon {scheme userinfo host tail} : ¬ [':', '/', '/'] <:+: scheme → Free [':', '/', '?', '#'] userinfo →
      Free ['@', '/', '?', '#'] host → Tail tail →
      Shape (scheme ++ [':', '/', '/'] ++ (userinfo ++ '@' :: host ++ tail))
  | password {scheme user password host tail} : ¬ [':', '/', '/'] <:+: scheme → Free [':', '/', '?', '#'] user →
      Free ['/', '?', '#'] password → Free ['@', '/', '?', '#'] host → Tail tail →
      Shape (scheme ++ [':', '/', '/'] ++ (user ++ ':' :: password ++ '@' :: host ++ tail))

theorem borderless_sep : Split.Borderless [':', '/', '/'] := by decide

theorem authorityEnd_iff {c : Char} : authorityEnd c = true ↔ c ∈ ['/', '?', '#'] := by
  simp [authorityEnd, or_assoc]

theorem authorityEnd_false {c : Char} : authorityEnd c = false ↔ c ∉ ['/', '?', '#'] := by
  rw [← authorityEnd_iff, Bool.not_eq_true]

theorem free_append {ds l r : List Char} : Free ds (l ++ r) ↔ Free ds l ∧ Free ds r := List.forall_mem_append

theorem free_cons {ds l : List Char} {c : Char} : Free ds (c :: l) ↔ c ∉ ds ∧ Free ds l := List.forall_mem_cons

theorem free_cons_delimiter {ds l : List Char} {d : Char} : Free (d :: ds) l ↔ d ∉ l ∧ Free ds l := by
  unfold Free
  constructor
  · intro h
    exact ⟨fun hd => h d hd (List.mem_cons_self ..), fun c hc hm => h c hc (List.mem_cons_of_mem _ hm)⟩
  · rintro ⟨hd, h⟩ c hc hm
    rcases List.mem_cons.mp hm with rfl | hm
    · exact hd hc
    · exact h c hc hm

theorem once_sep_iff {s l r : List Char} :
    Split.once [':', '/', '/'] s = some (l, r) ↔ s = l ++ [':', '/', '/'] ++ r ∧ ¬ [':', '/', '/'] <:+: l :=
  borderless_sep.once_eq_some_iff (by decide)

theorem before_authorityEnd_iff {s l r : List Char} :
    Split.before authorityEnd s = (l, r) ↔ s = l ++ r ∧ Free ['/', '?', '#'] l ∧ Tail r := by
  rw [Split.before_eq_iff]
  simp only [authorityEnd_iff, authorityEnd_false, Free, Tail]

theorem shape (url : List Char) : Shape url := by
  cases hs : Split.once [':', '/', '/'] url with
  | none => exact .noScheme (Split.once_eq_none_iff.mp hs)
  | some x =>
    obtain ⟨scheme, rest⟩ := x
    obtain ⟨rfl, hscheme⟩ := once_sep_iff.mp hs
    rcases hb : Split.before authorityEnd rest with ⟨authority, tail⟩
    obtain ⟨rfl, hauth, htail⟩ := before_authorityEnd_iff.mp hb
    cases ha : Split.last '@' authority with
    | none => exact .noAt hscheme (free_cons_delimiter.mpr ⟨Split.last_eq_none_iff.mp ha, hauth⟩) htail
    | some x =>
      obtain ⟨userinfo, host⟩ := x
      obtain ⟨rfl, hhost⟩ := Split.last_eq_some_iff.mp ha
      obtain ⟨huserinfo, hrest⟩ := free_append.mp hauth
      have hhost : Free ['@', '/', '?', '#'] host := free_cons_delimiter.mpr ⟨hhost, (free_cons.mp hrest).2⟩
      cases hc : Split.once [':'] userinfo with
      | none =>
        exact .noColon hscheme (free_cons_delimiter.mpr ⟨Split.once_singleton_none.mp hc, huserinfo⟩) hhost htail
      | some x =>
        obtain ⟨user, password⟩ := x
        obtain ⟨rfl, huser⟩ := Split.once_singleton_iff.mp hc
        obtain ⟨hu, hp⟩ := free_append.mp huserinfo
        exact .password hscheme (free_cons_delimiter.mpr ⟨huser, hu⟩) (free_cons.mp hp).2 hhost htail

/-! ## What becomes of each -/

theorem redact_noScheme {url : List Char} (h : ¬ [':', '/', '/'] <:+: url) : redact url = url := by
  rw [redact, Split.once_eq_none_iff.mpr h]

section
variable {scheme tail : List Char} (hscheme : ¬ [':', '/', '/'] <:+: scheme) (htail : Tail tail)
include hscheme htail

theorem redact_authority {authority : List Char} (h : Free ['/', '?', '#'] authority) :
    redact (scheme ++ [':', '/', '/'] ++ (authority ++ tail)) =
      match Split.last '@' authority with
      | none => scheme ++ [':', '/', '/'] ++ (authority ++ tail)
      | some (userinfo, host) =>
        match Split.once [':'] userinfo with
        | some (user, _) => scheme ++ [':', '/', '/'] ++ user ++ [':', '*', '*', '*', '*', '@'] ++ host ++ tail
        | none => scheme ++ [':', '/', '/'] ++ (authority ++ tail) := by
  rw [redact, once_sep_iff.mpr ⟨rfl, hscheme⟩]
  simp only [before_authorityEnd_iff.mpr ⟨rfl, h, htail⟩]

theorem redact_noAt {authority : List Char} (h : Free ['@', '/', '?', '#'] authority) :
    redact (scheme ++ [':', '/', '/'] ++ (authority ++ tail)) =
      scheme ++ [':', '/', '/'] ++ (authority ++ tail) := by
  obtain ⟨hat, h⟩ := free_cons_delimiter.mp h
  rw [redact_authority hscheme htail h, Split.last_eq_none_iff.mpr hat]

theorem redact_noColon {userinfo host : List Char} (hu : Free [':', '/', '?', '#'] userinfo)
    (hhost : Free ['@', '/', '?', '#'] host) :
    redact (scheme ++ [':', '/', '/'] ++ (userinfo ++ '@' :: host ++ tail)) =
      scheme ++ [':', '/', '/'] ++ (userinfo ++ '@' :: host ++ tail) := by
  obtain ⟨hcolon, hu⟩ := free_cons_delimiter.mp hu
  obtain ⟨hat, hhost⟩ := free_cons_delimiter.mp hhost
  rw [redact_authority hscheme htail (free_append.mpr ⟨hu, free_cons.mpr ⟨by decide, hhost⟩⟩),
    Split.last_append hat]
  simp only [Split.once_singleton_none.mpr hcolon]

theorem redact_password {user password host : List Char} (hu : Free [':', '/', '?', '#'] user)
    (hp : Free ['/', '?', '#'] password) (hhost : Free ['@', '/', '?', '#'] host) :
    redact (scheme ++ [':', '/', '/'] ++ (user ++ ':' :: password ++ '@' :: host ++ tail)) =
      scheme ++ [':', '/', '/'] ++ user ++ [':', '*', '*', '*', '*', '@'] ++ host ++ tail := by
  obtain ⟨hcolon, hu⟩ := free_cons_delimiter.mp hu
  obtain ⟨hat, hhost⟩ := free_cons_delimiter.mp hhost
  have hinfo : Free ['/', '?', '#'] (user ++ ':' :: password) := free_append.mpr ⟨hu, free_cons.mpr ⟨by decide, hp⟩⟩
  rw [redact_authority hscheme htail (free_append.mpr ⟨hinfo, free_cons.mpr ⟨by decide, hhost⟩⟩),
    Split.last_append hat]
  simp only [Split.once_singleton_iff.mpr ⟨rfl, hcolon⟩]

end

/-- What replaced the password has the shape of one, so it is replaced by itself. -/
theorem redact_idempotent (url : List Char) : redact (redact url) = redact url := by
  cases shape url with
  | noScheme h => rw [redact_noScheme h, redact_noScheme h]
  | noAt hs ha ht => rw [redact_noAt hs ht ha, redact_noAt hs ht ha]
  | noColon hs hu hh ht => rw [redact_noColon hs ht hu hh, redact_noColon hs ht hu hh]
  | password hs hu hp hh ht =>
    rw [redact_password hs ht hu hp hh]
    have hstars : Free ['/', '?', '#'] ['*', '*', '*', '*'] := by simp [Free]
    simpa using redact_password hs ht hu hstars hh

/-! ## As strings -/

theorem redactUrl_eq_iff {url printed : String} : redactUrl url = printed ↔ redact url.toList = printed.toList := by
  rw [redactUrl, ← String.toList_inj, String.toList_ofList]

/-- **`redact_url` replaces the userinfo password and nothing else.** The password reaches
from the first `:` to the last `@` of the authority, whatever it and the tail contain;
strings without one are left alone, and redacting twice is redacting once. -/
theorem redact_url_exact :
    (∀ scheme user password host tail : String, ¬ "://".toList <:+: scheme.toList →
      Free [':', '/', '?', '#'] user.toList → Free ['/', '?', '#'] password.toList →
      Free ['@', '/', '?', '#'] host.toList → Tail tail.toList →
      redactUrl (scheme ++ "://" ++ user ++ ":" ++ password ++ "@" ++ host ++ tail) =
        scheme ++ "://" ++ user ++ ":****@" ++ host ++ tail) ∧
    (∀ url : String, ¬ "://".toList <:+: url.toList → redactUrl url = url) ∧
    (∀ scheme authority tail : String, ¬ "://".toList <:+: scheme.toList →
      Free ['@', '/', '?', '#'] authority.toList → Tail tail.toList →
      redactUrl (scheme ++ "://" ++ authority ++ tail) = scheme ++ "://" ++ authority ++ tail) ∧
    (∀ scheme userinfo host tail : String, ¬ "://".toList <:+: scheme.toList →
      Free [':', '/', '?', '#'] userinfo.toList → Free ['@', '/', '?', '#'] host.toList → Tail tail.toList →
      redactUrl (scheme ++ "://" ++ userinfo ++ "@" ++ host ++ tail) =
        scheme ++ "://" ++ userinfo ++ "@" ++ host ++ tail) ∧
    ∀ url : String, redactUrl (redactUrl url) = redactUrl url := by
  have hsep : "://".toList = [':', '/', '/'] := rfl
  rw [hsep]
  refine ⟨fun scheme user password host tail hs hu hp hh ht => ?_, fun url h => ?_,
    fun scheme authority tail hs ha ht => ?_, fun scheme userinfo host tail hs hu hh ht => ?_, fun url => ?_⟩
  · rw [redactUrl_eq_iff]
    simpa [String.toList_append] using redact_password hs ht hu hp hh
  · rw [redactUrl_eq_iff, redact_noScheme h]
  · rw [redactUrl_eq_iff]
    simpa [String.toList_append] using redact_noAt hs ht ha
  · rw [redactUrl_eq_iff]
    simpa [String.toList_append] using redact_noColon hs ht hu hh
  · rw [redactUrl, redactUrl, String.toList_ofList, redact_idempotent]

theorem redact_url_exact_shard :
    redactUrl ("postgres" ++ "://" ++ "ledger" ++ ":" ++ "a@b:c" ++ "@" ++ "db.internal" ++ "/ledger@shard1") =
      "postgres" ++ "://" ++ "ledger" ++ ":****@" ++ "db.internal" ++ "/ledger@shard1" := by
  refine redact_url_exact.1 "postgres" "ledger" "a@b:c" "db.internal" "/ledger@shard1" (by decide) ?_ ?_ ?_ ?_ <;>
    simp [Free, Tail]

end Ledger.Startup
