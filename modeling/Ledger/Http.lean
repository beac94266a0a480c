import Ledger.Error
import Ledger.Lib.Bind

/-!
# The HTTP edge

`POST /transfers` and `POST /accounts` up to the call of the database layer, and the
status of a transfer's answer. The body arrives parsed or refused by the JSON layer,
which is not part of this code base; the currency in it has come through
`Currency.tryFrom`.
-/

namespace Ledger.Http

def MAX_IDEMPOTENCY_KEY_LEN : Nat := 255

def MAX_DESCRIPTION_LEN : Nat := 512

structure TransferRequest where
  fromAccountId : Uuid
  toAccountId : Uuid
  amount : Decimal
  currency : Currency
  description : String := ""
  known : Currency.tryFrom currency.code = .ok currency

/-- What is assumed of `HeaderValue::to_str`: it lets the visible ASCII characters, the
space and the tab through, each byte as the character of its number, and nothing else. -/
def isVisibleAscii (b : UInt8) : Bool := 32 ≤ b && b < 127 || b = 9

def toStr (raw : List UInt8) : Option (List Char) :=
  if raw.all isVisibleAscii then some (raw.map fun b => Char.ofNat b.toNat) else none

/-- All the white space there is among visible characters. -/
def isBlank (ch : Char) : Bool := ch = ' ' || ch = '\t'

def trim (cs : List Char) : List Char := ((cs.dropWhile isBlank).reverse.dropWhile isBlank).reverse

/-- `header` is the value of `Idempotency-Key`, if there is one. -/
def extractIdempotencyKey (header : Option (List UInt8)) : Except LedgerError String :=
  match header with
  | none => .error .missingIdempotencyKey
  | some raw => match toStr raw with
    | none => .error (.validation "Idempotency-Key must be valid UTF-8")
    | some cs =>
      let key := String.ofList (trim cs)
      if key.isEmpty then .error .missingIdempotencyKey
      else if MAX_IDEMPOTENCY_KEY_LEN < key.utf8ByteSize then
        .error (.validation "Idempotency-Key must be at most 255 bytes")
      else .ok key

theorem Money.new_valid {d : Decimal} {c : Currency} {m : Money} (h : Money.new d c = .ok m)
    (hc : Currency.tryFrom c.code = .ok c) : m.Valid := by
  obtain ⟨hcur, -, hscale, hmag⟩ := Money.new_ok h
  exact ⟨hscale, hmag, hcur ▸ Currency.tryFrom_iso hc⟩

/-- `create`, up to the call of `execute`: the key and the intent it is called with. -/
def create (header : Option (List UInt8)) (payload : Except String TransferRequest) :
    Except LedgerError (String × TransferIntent) := do
  let key ← extractIdempotencyKey header
  let request ← payload.mapError LedgerError.validation
  match h : Money.new request.amount request.currency with
  | .error e => throw (.money e)
  | .ok amount =>
    if MAX_DESCRIPTION_LEN < request.description.length then
      throw (.validation "description must be at most 512 characters")
    else
      return (key,
        { fromAccountId := request.fromAccountId
          toAccountId := request.toAccountId
          amount
          description := request.description
          valid := Money.new_valid h request.known })

theorem create_ok {header : Option (List UInt8)} {payload : Except String TransferRequest} {key : String}
    {i : TransferIntent} (h : create header payload = .ok (key, i)) :
    ∃ request, payload = .ok request ∧ extractIdempotencyKey header = .ok key ∧
      Money.new request.amount request.currency = .ok i.amount := by
  unfold create at h
  obtain ⟨key', hk, h₁⟩ := Bind.ok.mp h
  obtain ⟨request, hp, h₂⟩ := Bind.ok.mp h₁
  clear h h₁
  cases payload with
  | error e => cases hp
  | ok r =>
    cases hp
    split at h₂
    · cases h₂
    · rename_i amount hm
      split at h₂
      · cases h₂
      · cases h₂; exact ⟨_, rfl, hk, hm⟩

theorem create_of {header : Option (List UInt8)} {request : TransferRequest} {key : String} {m : Money}
    (hk : extractIdempotencyKey header = .ok key) (hm : Money.new request.amount request.currency = .ok m)
    (hd : request.description.length ≤ MAX_DESCRIPTION_LEN) :
    ∃ i : TransferIntent, create header (.ok request) = .ok (key, i) ∧ i.fromAccountId = request.fromAccountId ∧
      i.toAccountId = request.toAccountId ∧ i.amount = m ∧ i.description = request.description := by
  have hnot : ¬ MAX_DESCRIPTION_LEN < request.description.length := by omega
  refine ⟨⟨request.fromAccountId, request.toAccountId, m, request.description, Money.new_valid hm request.known⟩,
    ?_, rfl, rfl, rfl, rfl⟩
  unfold create
  rw [hk]
  simp only [Except.mapError, bind, Except.bind]
  split
  · rename_i e he
    rw [hm] at he; cases he
  · rename_i amount he
    rw [hm] at he
    cases he
    rw [if_neg hnot]
    rfl

def status : Except LedgerError TransferResult → Nat
  | .ok result => match result.outcome with
    | .created => 201
    | .replayed => 200
  | .error e => e.status

/-! ## Opening an account -/

def MAX_NAME_LEN : Nat := 255

structure CreateAccountRequest where
  name : String
  currency : Currency
  allowsNegativeBalance : Bool := false
  known : Currency.tryFrom currency.code = .ok currency

/-- The characters with the Unicode property `White_Space`. -/
def isWhitespace (ch : Char) : Bool :=
  (0x09 ≤ ch.toNat && ch.toNat ≤ 0x0D) || ch.toNat = 0x20 || ch.toNat = 0x85 || ch.toNat = 0xA0 ||
    ch.toNat = 0x1680 || (0x2000 ≤ ch.toNat && ch.toNat ≤ 0x200A) || ch.toNat = 0x2028 || ch.toNat = 0x2029 ||
    ch.toNat = 0x202F || ch.toNat = 0x205F || ch.toNat = 0x3000

def trimName (name : String) : String :=
  String.ofList ((name.toList.dropWhile isWhitespace).reverse.dropWhile isWhitespace).reverse

/-- `create` of the accounts' route, up to the call of the database layer: the name, the
currency and the flag it is called with. -/
def createAccount (allowFundingAccountCreation : Bool) (payload : Except String CreateAccountRequest) :
    Except LedgerError (String × Currency × Bool) := do
  let request ← payload.mapError LedgerError.validation
  if request.allowsNegativeBalance && !allowFundingAccountCreation then throw .fundingAccountCreationDisabled
  else
    let name := trimName request.name
    if name.isEmpty then throw (.validation "name must not be empty")
    else if MAX_NAME_LEN < name.length then throw (.validation "name must be at most 255 characters")
    else return (name, request.currency, request.allowsNegativeBalance)

theorem createAccount_flag {allow : Bool} {payload : Except String CreateAccountRequest} {name : String}
    {currency : Currency} {flag : Bool} (h : createAccount allow payload = .ok (name, currency, flag)) :
    flag = true → allow = true := by
  unfold createAccount at h
  obtain ⟨request, -, h⟩ := Bind.ok.mp h
  split at h
  · cases h
  · rename_i hgate
    dsimp only at h
    split at h
    · cases h
    · split at h
      · cases h
      · cases h
        intro hf
        simpa [hf] using hgate

theorem trim_subset (cs : List Char) : trim cs ⊆ cs := by
  intro ch h
  have h1 := (List.dropWhile_sublist isBlank).subset (List.mem_reverse.mp h)
  exact (List.dropWhile_sublist isBlank).subset (List.mem_reverse.mp h1)

theorem extractIdempotencyKey_visible {header : Option (List UInt8)} {key : String}
    (h : extractIdempotencyKey header = .ok key) : ∀ ch ∈ key.toList, ∃ b : UInt8, isVisibleAscii b = true ∧
      ch = Char.ofNat b.toNat := by
  unfold extractIdempotencyKey at h
  split at h
  · cases h
  · rename_i raw
    cases hs : toStr raw with
    | none => rw [hs] at h; cases h
    | some cs =>
      rw [hs] at h
      have hkey : key = String.ofList (trim cs) := by
        dsimp only at h
        split at h
        · cases h
        · split at h <;> cases h
          rfl
      unfold toStr at hs
      split at hs
      · rename_i hall
        cases hs
        intro ch hch
        rw [hkey, String.toList_ofList] at hch
        obtain ⟨b, hb, rfl⟩ := List.mem_map.mp (trim_subset _ hch)
        exact ⟨b, List.all_eq_true.mp hall b hb, rfl⟩
      · cases hs

end Ledger.Http
