import Ledger.Redact

/-!
# What the driver reads from a connection string

The driver's parser, as far as passwords go: it cuts the string where `redact_url` does,
and a `password` parameter in the query overrides the password of the userinfo.
`redact_url` leaves the query alone.
-/

namespace Ledger.Startup

/-! ## Reading -/

structure Userinfo where
  user : List Char
  password : Option (List Char)
deriving DecidableEq

inductive Param
  | password (value : List Char)
  | other (text : List Char)
deriving DecidableEq

structure Rest where
  path : List Char
  query : Option (List Param)
  fragment : List Char
deriving DecidableEq

structure Connection where
  scheme : List Char
  userinfo : Option Userinfo
  host : List Char
  rest : Rest
deriving DecidableEq

def Userinfo.read (text : List Char) : Userinfo :=
  match Split.once [':'] text with
  | some (user, password) => ⟨user, some password⟩
  | none => ⟨text, none⟩

def passwordKey : List Char := "password".toList

def Param.read (text : List Char) : Param :=
  match Split.once ['='] text with
  | some (key, value) => if key = passwordKey then .password value else .other text
  | none => .other text

def queryOrFragment (c : Char) : Bool := c = '?' || c = '#'

def Rest.read (tail : List Char) : Rest :=
  match Split.before queryOrFragment tail with
  | (path, rest) =>
    match rest with
    | '?' :: rest =>
      match Split.before (fun c => c = '#') rest with
      | (query, fragment) => ⟨path, some ((query.splitOn '&').map Param.read), fragment⟩
    | fragment => ⟨path, none, fragment⟩

/-- What is assumed of the driver's URL parser: each part ends where its first delimiter
stands (the userinfo at the last `@`), parameters are cut at `&` and their first `=`, and
keys and values are compared as they stand. The real one decodes percent escapes first, so
that a `password` with an escaped letter counts too; such a spelling is another key here. -/
def Connection.read (url : List Char) : Option Connection :=
  match Split.once [':', '/', '/'] url with
  | none => none
  | some (scheme, rest) =>
    match Split.before authorityEnd rest with
    | (authority, tail) =>
      match Split.last '@' authority with
      | none => some ⟨scheme, none, authority, Rest.read tail⟩
      | some (userinfo, host) => some ⟨scheme, some (Userinfo.read userinfo), host, Rest.read tail⟩

def Param.value? : Param → Option (List Char)
  | password value => some value
  | other _ => none

def Rest.passwords (r : Rest) : List (List Char) := (r.query.getD []).filterMap Param.value?

/-- The password the driver connects with. -/
def Connection.password (c : Connection) : Option (List Char) :=
  c.rest.passwords.getLast?.or (c.userinfo.bind (·.password))

/-! ## Writing -/

def Userinfo.text (i : Userinfo) : List Char :=
  match i.password with
  | some password => i.user ++ ':' :: password
  | none => i.user

def Param.text : Param → List Char
  | password value => passwordKey ++ '=' :: value
  | other text => text

def Rest.text (r : Rest) : List Char :=
  match r.query with
  | some params => r.path ++ '?' :: ['&'].intercalate (params.map Param.text) ++ r.fragment
  | none => r.path ++ r.fragment

def Connection.text (c : Connection) : List Char :=
  match c.userinfo with
  | some i => c.scheme ++ [':', '/', '/'] ++ (i.text ++ '@' :: c.host ++ c.rest.text)
  | none => c.scheme ++ [':', '/', '/'] ++ (c.host ++ c.rest.text)

/-! ## Two strings that differ in their passwords -/

def Userinfo.withPassword (stars : List Char) (i : Userinfo) : Userinfo :=
  { i with password := i.password.map fun _ => stars }

def Param.mapPassword (f : List Char → List Char) : Param → Param
  | password value => password (f value)
  | other text => other text

def Rest.mapPasswords (f : List Char → List Char) (r : Rest) : Rest :=
  { r with query := r.query.map (List.map (Param.mapPassword f)) }

def Rest.masked (r : Rest) : Rest := r.mapPasswords fun _ => []

def Connection.withPassword (stars : List Char) (c : Connection) : Connection :=
  { c with userinfo := c.userinfo.map (Userinfo.withPassword stars) }

def Connection.mapPasswords (f : List Char → List Char) (c : Connection) : Connection :=
  { c with rest := c.rest.mapPasswords f }

def Connection.masked (c : Connection) : Connection :=
  { c.withPassword [] with rest := c.rest.masked }

/-- The driver reads both alike but for the texts it takes as passwords. A string it cannot
read has none. -/
def SameButPassword (url url' : String) : Prop :=
  (Connection.read url.toList).map Connection.masked = (Connection.read url'.toList).map Connection.masked ∧
    (Connection.read url.toList = none → url = url')

instance decidableSameButPassword (url url' : String) : Decidable (SameButPassword url url') :=
  inferInstanceAs (Decidable (_ ∧ _))

def queryPasswords (url : String) : List (List Char) :=
  match Connection.read url.toList with
  | some c => c.rest.passwords
  | none => []

/-! ## Writing is the inverse of reading -/

theorem Userinfo.text_read (text : List Char) : (Userinfo.read text).text = text := by
  unfold read
  cases h : Split.once [':'] text with
  | none => rfl
  | some x => exact (Split.once_singleton_iff.mp h).1.symm

theorem Param.text_read (text : List Char) : (Param.read text).text = text := by
  unfold read
  cases h : Split.once ['='] text with
  | none => rfl
  | some x =>
    by_cases hk : x.1 = passwordKey
    · simp only [if_pos hk, Param.text]
      rw [← hk]
      exact (Split.once_singleton_iff.mp h).1.symm
    · simp only [if_neg hk, Param.text]

theorem params_text_read (texts : List (List Char)) : (texts.map Param.read).map Param.text = texts := by
  rw [List.map_map]
  exact (List.map_congr_left fun t _ => Param.text_read t).trans (List.map_id texts)

theorem Rest.text_read (tail : List Char) : (Rest.read tail).text = tail := by
  unfold read
  rcases h : Split.before queryOrFragment tail with ⟨path, rest⟩
  obtain ⟨rfl, -, -⟩ := Split.before_eq_iff.mp h
  simp only
  split
  · rename_i rest'
    rcases hq : Split.before (fun c => c = '#') rest' with ⟨query, fragment⟩
    obtain ⟨rfl, -, -⟩ := Split.before_eq_iff.mp hq
    simp only [Rest.text]
    rw [params_text_read, List.intercalate_splitOn]
    simp
  · rfl

theorem Connection.read_eq_some {url : List Char} {c : Connection} (h : Connection.read url = some c) :
    ∃ authority tail, ¬ [':', '/', '/'] <:+: c.scheme ∧ Free ['/', '?', '#'] authority ∧ Tail tail ∧
      url = c.scheme ++ [':', '/', '/'] ++ (authority ++ tail) ∧ c.rest = Rest.read tail ∧
      (c.userinfo = none ∧ c.host = authority ∧ '@' ∉ authority ∨
        ∃ userinfo, c.userinfo = some (Userinfo.read userinfo) ∧ authority = userinfo ++ '@' :: c.host ∧
        '@' ∉ c.host) := by
  unfold read at h
  cases hs : Split.once [':', '/', '/'] url with
  | none => rw [hs] at h; cases h
  | some x =>
    obtain ⟨scheme, rest⟩ := x
    obtain ⟨rfl, hscheme⟩ := once_sep_iff.mp hs
    rcases hb : Split.before authorityEnd rest with ⟨authority, tail⟩
    obtain ⟨rfl, hauth, htail⟩ := before_authorityEnd_iff.mp hb
    simp only [hs, hb] at h
    cases ha : Split.last '@' authority with
    | none =>
      rw [ha] at h
      cases h
      exact ⟨authority, tail, hscheme, hauth, htail, rfl, rfl, .inl ⟨rfl, rfl, Split.last_eq_none_iff.mp ha⟩⟩
    | some x =>
      obtain ⟨userinfo, host⟩ := x
      rw [ha] at h
      cases h
      obtain ⟨rfl, hhost⟩ := Split.last_eq_some_iff.mp ha
      exact ⟨_, tail, hscheme, hauth, htail, rfl, rfl, .inr ⟨userinfo, rfl, rfl, hhost⟩⟩

theorem Connection.text_read {url : List Char} {c : Connection} (h : Connection.read url = some c) :
    c.text = url := by
  obtain ⟨authority, tail, -, -, -, rfl, hrest, ⟨hu, hh, -⟩ | ⟨userinfo, hu, rfl, -⟩⟩ := Connection.read_eq_some h
  · simp only [text, hu, hh, hrest, Rest.text_read]
  · simp only [text, hu, hrest, Rest.text_read, Userinfo.text_read]

/-! ## Reading is the inverse of writing -/

structure Param.WellFormed (p : Param) : Prop where
  read : Param.read p.text = p
  delimiters : Free ['&', '#'] p.text

structure Rest.WellFormed (r : Rest) : Prop where
  path : Free ['?', '#'] r.path
  query : ∀ params ∈ r.query, params ≠ [] ∧ ∀ p ∈ params, p.WellFormed
  fragment : ∀ c ∈ r.fragment.head?, c = '#'

structure Connection.WellFormed (c : Connection) : Prop where
  scheme : ¬ [':', '/', '/'] <:+: c.scheme
  userinfo : ∀ i ∈ c.userinfo, Userinfo.read i.text = i ∧ Free ['/', '?', '#'] i.text
  host : Free ['@', '/', '?', '#'] c.host
  tail : Tail c.rest.text
  rest : c.rest.WellFormed

theorem queryOrFragment_iff {c : Char} : queryOrFragment c = true ↔ c ∈ ['?', '#'] := by simp [queryOrFragment]

theorem queryOrFragment_false {c : Char} : queryOrFragment c = false ↔ c ∉ ['?', '#'] := by
  rw [← queryOrFragment_iff, Bool.not_eq_true]

theorem Rest.read_path {path rest : List Char} (hp : Free ['?', '#'] path) (hr : ∀ c ∈ rest.head?, c ∈ ['?', '#']) :
    Split.before queryOrFragment (path ++ rest) = (path, rest) :=
  Split.before_append (fun c hc => queryOrFragment_false.mpr (hp c hc))
    fun c hc => queryOrFragment_iff.mpr (hr c hc)

theorem before_hash_iff {s l r : List Char} :
    Split.before (fun c => c = '#') s = (l, r) ↔ s = l ++ r ∧ '#' ∉ l ∧ ∀ c ∈ r.head?, c = '#' := by
  rw [Split.before_eq_iff]
  simp only [decide_eq_false_iff_not, decide_eq_true_eq]
  have : (∀ c ∈ l, ¬ c = '#') ↔ '#' ∉ l := ⟨fun h hc => h _ hc rfl, fun h c hc he => h (he ▸ hc)⟩
  rw [this]

theorem Rest.read_text {r : Rest} (h : r.WellFormed) : Rest.read r.text = r := by
  obtain ⟨path, query, fragment⟩ := r
  cases query with
  | none =>
    have hf : ∀ c ∈ fragment.head?, c ∈ ['?', '#'] := fun c hc => by rw [h.fragment c hc]; decide
    simp only [text, read, Rest.read_path h.path hf]
    split
    · have := h.fragment '?' rfl
      exact absurd this (by decide)
    · rfl
  | some params =>
    obtain ⟨hne, hps⟩ := h.query params rfl
    have hhash : '#' ∉ ['&'].intercalate (params.map Param.text) := by
      intro hm
      rcases Split.mem_intercalate hm with he | ⟨t, ht, hm⟩
      · exact absurd he (by decide)
      · obtain ⟨p, hp, rfl⟩ := List.mem_map.mp ht
        exact (hps p hp).delimiters '#' hm (by decide)
    have hamp : ∀ t ∈ params.map Param.text, '&' ∉ t := by
      intro t ht hm
      obtain ⟨p, hp, rfl⟩ := List.mem_map.mp ht
      exact (hps p hp).delimiters '&' hm (by decide)
    have hread : (params.map Param.text).map Param.read = params := by
      rw [List.map_map]
      exact (List.map_congr_left fun p hp => (hps p hp).read).trans (List.map_id params)
    have hq : ∀ c ∈ ('?' :: (['&'].intercalate (params.map Param.text) ++ fragment)).head?, c ∈ ['?', '#'] := by
      intro c hc
      cases hc
      decide
    simp only [text, read, List.append_assoc, List.cons_append, Rest.read_path h.path hq,
      before_hash_iff.mpr ⟨rfl, hhash, h.fragment⟩,
      List.splitOn_intercalate '&' hamp (fun e => hne (List.map_eq_nil_iff.mp e)), hread]

theorem Connection.read_text {c : Connection} (h : c.WellFormed) : Connection.read c.text = some c := by
  obtain ⟨scheme, userinfo, host, rest⟩ := c
  obtain ⟨hat, hhost⟩ := free_cons_delimiter.mp h.host
  cases userinfo with
  | none =>
    simp only [text, read, once_sep_iff.mpr ⟨rfl, h.scheme⟩, before_authorityEnd_iff.mpr ⟨rfl, hhost, h.tail⟩,
      Split.last_eq_none_iff.mpr hat, Rest.read_text h.rest]
  | some i =>
    obtain ⟨hread, hfree⟩ := h.userinfo i rfl
    have hauth : Free ['/', '?', '#'] (i.text ++ '@' :: host) :=
      free_append.mpr ⟨hfree, free_cons.mpr ⟨by decide, hhost⟩⟩
    simp only [text, read, once_sep_iff.mpr ⟨rfl, h.scheme⟩, before_authorityEnd_iff.mpr ⟨rfl, hauth, h.tail⟩,
      Split.last_append hat, hread, Rest.read_text h.rest]

theorem Userinfo.read_free {text : List Char} (h : Free ['/', '?', '#'] text) :
    Userinfo.read (Userinfo.read text).text = Userinfo.read text ∧
    Free ['/', '?', '#'] (Userinfo.read text).text := by
  rw [Userinfo.text_read]
  exact ⟨rfl, h⟩

theorem Param.read_wellFormed {text : List Char} (h : Free ['&', '#'] text) : (Param.read text).WellFormed where
  read := by rw [Param.text_read]
  delimiters := by rw [Param.text_read]; exact h

theorem Rest.read_wellFormed (tail : List Char) : (Rest.read tail).WellFormed := by
  unfold Rest.read
  rcases h : Split.before queryOrFragment tail with ⟨path, rest⟩
  obtain ⟨rfl, hpath, hrest⟩ := Split.before_eq_iff.mp h
  have hpath : Free ['?', '#'] path := fun c hc => queryOrFragment_false.mp (hpath c hc)
  simp only
  split
  · rename_i rest'
    rcases hq : Split.before (fun c => c = '#') rest' with ⟨query, fragment⟩
    obtain ⟨rfl, hhash, hfragment⟩ := before_hash_iff.mp hq
    refine ⟨hpath, fun params hp => ?_, hfragment⟩
    cases hp
    refine ⟨fun e => List.splitOn_ne_nil '&' query (List.map_eq_nil_iff.mp e), fun p hp => ?_⟩
    obtain ⟨text, ht, rfl⟩ := List.mem_map.mp hp
    refine Param.read_wellFormed (free_cons_delimiter.mpr ⟨Split.not_mem_splitOn ht, fun c hc hm => ?_⟩)
    rw [List.mem_singleton] at hm
    exact hhash (Split.mem_of_mem_splitOn ht (hm ▸ hc))
  · rename_i hne
    refine ⟨hpath, nofun, fun c hc => ?_⟩
    have := queryOrFragment_iff.mp (hrest c hc)
    simp only [List.mem_cons, List.not_mem_nil, or_false] at this
    rcases this with rfl | rfl
    · obtain ⟨rest', he⟩ := List.head?_eq_some_iff.mp hc
      exact absurd he (hne rest')
    · rfl

theorem Connection.read_wellFormed {url : List Char} {c : Connection} (h : Connection.read url = some c) :
    c.WellFormed := by
  obtain ⟨authority, tail, hscheme, hauth, htail, -, hrest, ⟨hu, hh, hat⟩ | ⟨userinfo, hu, rfl, hat⟩⟩ :=
    Connection.read_eq_some h
  · refine ⟨hscheme, fun i hi => ?_, ?_, ?_, ?_⟩
    · rw [hu] at hi; cases hi
    · rw [hh]; exact free_cons_delimiter.mpr ⟨hat, hauth⟩
    · rw [hrest, Rest.text_read]; exact htail
    · rw [hrest]; exact Rest.read_wellFormed tail
  · obtain ⟨hinfo, hhost⟩ := free_append.mp hauth
    refine ⟨hscheme, fun i hi => ?_, ?_, ?_, ?_⟩
    · rw [hu] at hi
      cases hi
      exact Userinfo.read_free hinfo
    · exact free_cons_delimiter.mpr ⟨hat, (free_cons.mp hhost).2⟩
    · rw [hrest, Rest.text_read]; exact htail
    · rw [hrest]; exact Rest.read_wellFormed tail

/-! ## What is printed -/

def stars : List Char := ['*', '*', '*', '*']

/-- `redact_url` prints what the driver reads, with stars for the password of the userinfo. -/
theorem redact_read {url : List Char} {c : Connection} (h : Connection.read url = some c) :
    redact url = (c.withPassword stars).text := by
  obtain ⟨authority, tail, hscheme, hauth, htail, rfl, hrest, ⟨hu, hh, hat⟩ | ⟨userinfo, hu, rfl, hat⟩⟩ :=
    Connection.read_eq_some h
  · rw [redact_noAt hscheme htail (free_cons_delimiter.mpr ⟨hat, hauth⟩)]
    simp only [Connection.withPassword, Connection.text, hu, hh, hrest, Rest.text_read, Option.map_none]
  · rw [redact_authority hscheme htail hauth, Split.last_append hat]
    simp only [Connection.withPassword, Connection.text, hu, hrest, Rest.text_read, Option.map_some, Userinfo.read]
    cases hc : Split.once [':'] userinfo with
    | none => simp [Userinfo.withPassword, Userinfo.text]
    | some x => simp [Userinfo.withPassword, Userinfo.text, stars]

theorem params_ext {f : List Char → List Char} : ∀ {ps qs : List Param},
    ps.map (Param.mapPassword f) = qs.map (Param.mapPassword f) →
    ps.filterMap Param.value? = qs.filterMap Param.value? → ps = qs
  | [], [], _, _ => rfl
  | [], _ :: _, h, _ => by cases h
  | _ :: _, [], h, _ => by cases h
  | p :: ps, q :: qs, h, hv => by
    obtain ⟨hp, hps⟩ := List.cons.inj h
    cases p with
    | password v =>
      cases q with
      | password w =>
        obtain ⟨rfl, hvs⟩ := List.cons.inj hv
        rw [params_ext hps hvs]
      | other u => cases hp
    | other t =>
      cases q with
      | password w => cases hp
      | other u =>
        cases hp
        rw [params_ext hps hv]

theorem Rest.ext_passwords {r r' : Rest} (h : r.masked = r'.masked) (hp : r.passwords = r'.passwords) : r = r' := by
  obtain ⟨path, query, fragment⟩ := r
  obtain ⟨path', query', fragment'⟩ := r'
  simp only [masked, mapPasswords, Rest.mk.injEq] at h
  obtain ⟨rfl, hq, rfl⟩ := h
  cases query with
  | none =>
    cases query' with
    | none => rfl
    | some _ => cases hq
  | some ps =>
    cases query' with
    | none => cases hq
    | some qs => rw [params_ext (Option.some.inj hq) hp]

theorem Connection.masked_userinfo (stars : List Char) (c : Connection) :
    c.masked.userinfo.map (Userinfo.withPassword stars) = c.userinfo.map (Userinfo.withPassword stars) := by
  simp only [masked, withPassword, Option.map_map]
  congr 1
  funext i
  simp [Userinfo.withPassword, Function.comp_def]

section
variable {url url' : List Char} {c c' : Connection} (h : Connection.read url = some c)
  (h' : Connection.read url' = some c') (hm : c.masked = c'.masked)
include h h' hm

theorem redact_eq_iff_rest : redact url = redact url' ↔ c.rest.text = c'.rest.text := by
  have hinfo : c.userinfo.map (Userinfo.withPassword stars) = c'.userinfo.map (Userinfo.withPassword stars) := by
    rw [← Connection.masked_userinfo stars c, ← Connection.masked_userinfo stars c', hm]
  have hscheme : c.masked.scheme = c'.masked.scheme := by rw [hm]
  have hhost : c.masked.host = c'.masked.host := by rw [hm]
  change c.scheme = c'.scheme at hscheme
  change c.host = c'.host at hhost
  rw [redact_read h, redact_read h']
  simp only [Connection.text, Connection.withPassword, hinfo, hscheme, hhost]
  cases c'.userinfo.map (Userinfo.withPassword stars) with
  | none => simp
  | some i => simp

theorem redact_eq_iff_passwords : redact url = redact url' ↔ c.rest.passwords = c'.rest.passwords := by
  rw [redact_eq_iff_rest h h' hm]
  obtain ⟨-, tail, -, -, -, -, hrest, -⟩ := Connection.read_eq_some h
  obtain ⟨-, tail', -, -, -, -, hrest', -⟩ := Connection.read_eq_some h'
  constructor
  · intro htext
    rw [hrest, hrest', Rest.text_read, Rest.text_read] at htext
    rw [hrest, hrest', htext]
  · intro hp
    rw [Rest.ext_passwords (congrArg Connection.rest hm) hp]

end

/-- **What the logged connection string reveals.** Of two strings that differ only in the
texts the driver takes as the password, the same is logged exactly when the `password`
parameters of their queries agree: the password of the userinfo is hidden, the one in the
query is printed. -/
theorem redacted_alike_iff (config config' : Config)
    (h : SameButPassword config.databaseUrl config'.databaseUrl) :
    config.redactedDatabaseUrl = config'.redactedDatabaseUrl ↔
      queryPasswords config.databaseUrl = queryPasswords config'.databaseUrl := by
  unfold Config.redactedDatabaseUrl
  obtain ⟨hm, hnone⟩ := h
  cases hc : Connection.read config.databaseUrl.toList with
  | none =>
    rw [hnone hc]
    exact ⟨fun _ => rfl, fun _ => rfl⟩
  | some c =>
    rw [hc, Option.map_some] at hm
    obtain ⟨c', hc', hm⟩ := Option.map_eq_some_iff.mp hm.symm
    rw [redactUrl, redactUrl, String.ofList_inj, redact_eq_iff_passwords hc hc' hm.symm, queryPasswords,
      queryPasswords, hc, hc']

theorem redacted_alike_iff_userinfo :
    Config.redactedDatabaseUrl ⟨"postgres://ledger:p@ss@db/l"⟩ =
      Config.redactedDatabaseUrl ⟨"postgres://ledger:a:b@db/l"⟩ :=
  (redacted_alike_iff ⟨"postgres://ledger:p@ss@db/l"⟩ ⟨"postgres://ledger:a:b@db/l"⟩ (by decide +kernel)).mpr
    (by decide +kernel)

/-- The driver connects with the password of the query, and the log line shows it. -/
theorem query_password_is_printed :
    ((Connection.read "postgres://ledger@db/l?password=hunter2".toList).bind Connection.password =
      some "hunter2".toList) ∧
    ¬ ∀ config config' : Config, SameButPassword config.databaseUrl config'.databaseUrl →
      config.redactedDatabaseUrl = config'.redactedDatabaseUrl := by
  refine ⟨by decide +kernel, fun h => ?_⟩
  have hsame := h ⟨"postgres://ledger@db/l?password=hunter2"⟩ ⟨"postgres://ledger@db/l?password=swordfish"⟩
    (by decide +kernel)
  exact absurd hsame (by decide +kernel)

/-! ### One string -/

theorem Param.WellFormed.mapPassword {f : List Char → List Char}
    (hf : ∀ v, Free ['&', '#'] v → Free ['&', '#'] (f v)) {p : Param} (h : p.WellFormed) :
    (p.mapPassword f).WellFormed := by
  cases p with
  | other text => exact h
  | password v =>
    obtain ⟨hkey, hv⟩ := free_append.mp h.delimiters
    refine ⟨?_, free_append.mpr ⟨hkey, free_cons.mpr ⟨by decide, hf v (free_cons.mp hv).2⟩⟩⟩
    have hnot : '=' ∉ passwordKey := by decide
    simp only [Param.mapPassword, Param.text, Param.read, Split.once_singleton_iff.mpr ⟨rfl, hnot⟩, if_true]

theorem Rest.WellFormed.mapPasswords {f : List Char → List Char}
    (hf : ∀ v, Free ['&', '#'] v → Free ['&', '#'] (f v)) {r : Rest} (h : r.WellFormed) :
    (r.mapPasswords f).WellFormed := by
  refine ⟨h.path, fun params hp => ?_, h.fragment⟩
  obtain ⟨ps, hps, rfl⟩ := Option.map_eq_some_iff.mp hp
  obtain ⟨hne, hall⟩ := h.query ps hps
  refine ⟨fun e => hne (List.map_eq_nil_iff.mp e), fun p hp => ?_⟩
  obtain ⟨q, hq, rfl⟩ := List.mem_map.mp hp
  exact (hall q hq).mapPassword hf

theorem Rest.head_mapPasswords (f : List Char → List Char) (r : Rest) :
    (r.mapPasswords f).text.head? = r.text.head? := by
  obtain ⟨path, query, fragment⟩ := r
  cases query with
  | none => rfl
  | some ps => cases path <;> rfl

theorem Rest.masked_mapPasswords (f : List Char → List Char) (r : Rest) : (r.mapPasswords f).masked = r.masked := by
  have : Param.mapPassword (fun _ => []) ∘ Param.mapPassword f = Param.mapPassword fun _ => [] := by
    funext p
    cases p <;> rfl
  simp only [masked, mapPasswords, Option.map_map, List.map_comp_map, this]

theorem Rest.passwords_mapPasswords (f : List Char → List Char) (r : Rest) :
    (r.mapPasswords f).passwords = r.passwords.map f := by
  have : Param.value? ∘ Param.mapPassword f = Option.map f ∘ Param.value? := by
    funext p
    cases p <;> rfl
  obtain ⟨path, query, fragment⟩ := r
  cases query with
  | none => rfl
  | some ps => simp only [passwords, mapPasswords, Option.map_some, Option.getD_some, List.filterMap_map, this,
      List.map_filterMap, Function.comp_def]

theorem Connection.read_mapPasswords {f : List Char → List Char}
    (hf : ∀ v, Free ['&', '#'] v → Free ['&', '#'] (f v)) {url : List Char} {c : Connection}
    (h : Connection.read url = some c) : Connection.read (c.mapPasswords f).text = some (c.mapPasswords f) := by
  have hwf := Connection.read_wellFormed h
  refine Connection.read_text ⟨hwf.scheme, hwf.userinfo, hwf.host, fun a ha => ?_, hwf.rest.mapPasswords hf⟩
  exact hwf.tail a (by rw [← Rest.head_mapPasswords f]; exact ha)

theorem Connection.masked_mapPasswords (f : List Char → List Char) (c : Connection) :
    (c.mapPasswords f).masked = c.masked := by
  simp only [masked, mapPasswords, withPassword, Rest.masked_mapPasswords]

theorem passwords_length {c c' : Connection} (h : c.masked = c'.masked) :
    c.rest.passwords.length = c'.rest.passwords.length := by
  have := congrArg (fun c : Connection => c.rest.passwords.length) h
  simpa only [Connection.masked, Rest.masked, Rest.passwords_mapPasswords, List.length_map] using this

/-- A string keeps its passwords to itself exactly when none is in the query. -/
theorem reveals_nothing_iff (url : String) :
    (∀ url', SameButPassword url url' → redactUrl url = redactUrl url') ↔ queryPasswords url = [] := by
  cases hc : Connection.read url.toList with
  | none =>
    simp only [queryPasswords, hc, iff_true]
    rintro url' ⟨-, h⟩
    rw [h hc]
  | some c =>
    simp only [queryPasswords, hc]
    constructor
    · intro h
      -- every password of the query made longer
      let f : List Char → List Char := fun v => v ++ ['x']
      have hf : ∀ v, Free ['&', '#'] v → Free ['&', '#'] (f v) := fun v hv =>
        free_append.mpr ⟨hv, free_cons.mpr ⟨by decide, nofun⟩⟩
      have hread : Connection.read (c.mapPasswords f).text = some (c.mapPasswords f) :=
        Connection.read_mapPasswords hf hc
      have hm := Connection.masked_mapPasswords f c
      have hsame := h (String.ofList (c.mapPasswords f).text) (by
        unfold SameButPassword
        rw [String.toList_ofList, hread, hc, Option.map_some, Option.map_some, hm]
        exact ⟨rfl, nofun⟩)
      rw [redactUrl, redactUrl, String.ofList_inj, String.toList_ofList, redact_eq_iff_passwords hc hread hm.symm,
        Connection.mapPasswords, Rest.passwords_mapPasswords] at hsame
      cases hp : c.rest.passwords with
      | nil => rfl
      | cons v vs =>
        rw [hp, List.map_cons] at hsame
        exact absurd (List.cons.inj hsame).1.symm (by simp [f])
    · rintro hp url' ⟨hm, -⟩
      rw [hc, Option.map_some] at hm
      obtain ⟨c', hc', hm⟩ := Option.map_eq_some_iff.mp hm.symm
      have hlen := passwords_length hm
      rw [hp, List.length_nil] at hlen
      rw [redactUrl, redactUrl, String.ofList_inj, redact_eq_iff_passwords hc hc' hm.symm, hp,
        List.eq_nil_of_length_eq_zero hlen]

end Ledger.Startup
