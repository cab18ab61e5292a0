import Sprax.Serde
import Sprax.Devnet
import Sprax.Runs

/-!
# Wallet authentication of the backend

`/challenge` stores a nonce for an address, `/verify` takes it back once, checks
a signature over it and issues a token for the address. The request brings the
address and the public key as separate fields. The nonce is tied to the address
and the signature to the key, but nothing ties the key to the address: tokens
are bound to wallets exactly as far as the requests that pass happen to name the
key of their address.
-/
namespace Sprax.Auth
open Std FiniteMap

/-- `^sprax1[a-zA-Z0-9]{38}$`; the end of the pattern also matches before a last
line break. -/
def isValidAddress (address : String) : Bool :=
  let cs := address.toList
  let line := if cs.getLast? = some '\n' then cs.dropLast else cs
  line.take 6 = "sprax1".toList && (line.drop 6).length = 38 && (line.drop 6).all Char.isAlphanum

def isHexDigit (c : Char) : Bool := c.isDigit || ('a' ≤ c && c ≤ 'f')

/-- The text of a UUID. -/
def isUuid (s : String) : Bool :=
  s.length = 36 && (s.toList.zipIdx).all (fun e =>
    if e.2 = 8 ∨ e.2 = 13 ∨ e.2 = 18 ∨ e.2 = 23 then e.1 = '-' else isHexDigit e.1)

/-- A nonce, made by `uuid4`. -/
structure Nonce where
  text : String
  format : isUuid text = true

/-- How a library call fails: with a `ValueError`, or with another exception. -/
inductive LibraryError
  | valueError (message : String)
  | other (message : String)
  deriving DecidableEq

/-- The library functions the handlers call. JSON does not read a UUID, which
starts with a dash after eight digits. -/
structure Runtime where
  strip : String → String
  fromhex : String → Option Bytes
  b64decode : String → Option Bytes
  loads : String → Option Value
  fromPublicBytes : Bytes → Except LibraryError Unit
  verify : Bytes → Bytes → Bytes → Bool
  loads_uuid : ∀ s, isUuid s = true → loads s = none

structure VerifyRequest where
  address : String
  nonce : String
  signature : String
  publicKey : String
  deriving DecidableEq

/-- An error answer, or an exception that no handler catches. -/
inductive AuthError
  | sprax (code message : String) (status : ℕ)
  | unboundLocal
  | database
  deriving DecidableEq

structure User where
  id : String
  address : String
  deriving DecidableEq

/-- The claims of an access token that name its owner. -/
structure Token where
  sub : String
  address : String
  deriving DecidableEq

/-- The stored challenges and the users. -/
structure State where
  redis : ExtTreeMap String String compare
  users : List User

/-- A request, with what the environment adds to it: the nonce that is drawn, the
id of a new user and whether the database accepts the session. A stored
challenge may expire at any time. -/
inductive Request
  | challenge (address : String) (nonce : Nonce)
  | verify (req : VerifyRequest) (newId : String) (dbAccepts : Bool)
  | expire (key : String)

/-- What the handlers hand out. -/
inductive Output
  | nonce (address nonce : String)
  | token (token : Token) (req : VerifyRequest)
  deriving DecidableEq

def challengeKey (address : String) : String := "auth:challenge:" ++ address

theorem challengeKey_injective : Function.Injective challengeKey :=
  fun _ _ h => (String.append_right_inj _).mp h

section Handlers
variable (rt : Runtime)

/-- `redis_get`: a text that is not JSON is returned as it is. -/
def redisGet (redis : ExtTreeMap String String compare) (key : String) : Option Value :=
  redis[key]?.map (fun val => (rt.loads val).getD (.string val))

def requestChallenge (s : State) (address : String) (nonce : Nonce) :
    State × Except AuthError String :=
  if isValidAddress address then
    ({ s with redis := s.redis.insert (challengeKey address) nonce.text }, .ok nonce.text)
  else (s, .error (.sprax "INVALID_REQUEST" "Invalid Sprax address" 400))

/-- Whether the stored nonce is there, not empty and the one of the request. -/
def nonceMatches (redis : ExtTreeMap String String compare) (req : VerifyRequest) : Bool :=
  match redisGet rt redis (challengeKey req.address) with
  | some (.string stored) => stored ≠ "" ∧ stored = req.nonce
  | _ => false

/-- Hexadecimal with or without a mark, or else base64. -/
def decodeField (text : String) : Option Bytes :=
  let clean := Text.stripMark (rt.strip text)
  (rt.fromhex clean).or (rt.b64decode clean)

/-- The signature check. A field that does not decode raises before the name
`InvalidSignature` of the handler is bound. -/
def checkSignature (req : VerifyRequest) : Except AuthError Unit :=
  let refuse (message : String) : Except AuthError Unit :=
    .error (.sprax "UNAUTHORIZED" message 401)
  match decodeField rt req.publicKey, decodeField rt req.signature with
  | some key, some signature =>
    if key.length ≠ 32 ∨ signature.length ≠ 64 then
      refuse "Invalid public key or signature byte length"
    else match rt.fromPublicBytes key with
      | .error (.valueError e) => refuse s!"Signature verification failed: {e}"
      | .error (.other e) => refuse s!"Cryptographic verification error: {e}"
      | .ok () =>
        if rt.verify key req.nonce.toUTF8.data.toList signature then .ok ()
        else refuse "Signature verification failed: "
  | _, _ => .error .unboundLocal

/-- The user of an address, made if there is none. -/
def findOrCreate (users : List User) (address newId : String) : List User × User :=
  match users.find? (fun u => u.address = address) with
  | some user => (users, user)
  | none => (users ++ [⟨newId, address⟩], ⟨newId, address⟩)

def verifySignature (s : State) (req : VerifyRequest) (newId : String) (dbAccepts : Bool) :
    State × Except AuthError Token :=
  if isValidAddress req.address then
    if nonceMatches rt s.redis req then
      let s := { s with redis := s.redis.erase (challengeKey req.address) }
      match checkSignature rt req with
      | .error e => (s, .error e)
      | .ok () =>
        let found := findOrCreate s.users req.address newId
        if dbAccepts then ({ s with users := found.1 }, .ok ⟨found.2.id, found.2.address⟩)
        else (s, .error .database)
    else (s, .error (.sprax "UNAUTHORIZED" "Invalid or expired challenge nonce" 401))
  else (s, .error (.sprax "INVALID_REQUEST" "Invalid Sprax address" 400))

def step (s : State) : Request → State × List Output
  | .challenge address nonce =>
    let answer := requestChallenge s address nonce
    (answer.1, match answer.2 with
      | .ok text => [.nonce address text]
      | .error _ => [])
  | .verify req newId dbAccepts =>
    let answer := verifySignature rt s req newId dbAccepts
    (answer.1, match answer.2 with
      | .ok token => [.token token req]
      | .error _ => [])
  | .expire key => ({ s with redis := s.redis.erase key }, [])

end Handlers

section Checks
variable {rt : Runtime}

/-- The request passes every check of the handler. -/
def Passes (rt : Runtime) (s : State) (req : VerifyRequest) : Prop :=
  isValidAddress req.address = true ∧ nonceMatches rt s.redis req = true ∧
    checkSignature rt req = .ok ()

/-- The signature of the request over its nonce verifies under a key. -/
def SignedUnder (rt : Runtime) (req : VerifyRequest) (key : Bytes) : Prop :=
  ∃ signature, decodeField rt req.signature = some signature ∧
    rt.verify key req.nonce.toUTF8.data.toList signature = true

theorem checkSignature_ok {req : VerifyRequest} (h : checkSignature rt req = .ok ()) :
    ∃ key, decodeField rt req.publicKey = some key ∧ SignedUnder rt req key := by
  unfold checkSignature at h
  dsimp only at h
  split at h
  · rename_i key signature hkey hsignature
    split at h
    · cases h
    · split at h
      · cases h
      · cases h
      · split at h
        · rename_i hverify
          exact ⟨key, hkey, signature, hsignature, hverify⟩
        · cases h
  · cases h

/-- A challenge that was drawn as a UUID is compared as it was stored. -/
theorem nonceMatches_stored {redis : ExtTreeMap String String compare} {req : VerifyRequest}
    (hstored : ∀ n, redis[challengeKey req.address]? = some n → isUuid n = true)
    (h : nonceMatches rt redis req = true) : redis[challengeKey req.address]? = some req.nonce := by
  unfold nonceMatches redisGet at h
  cases hget : redis[challengeKey req.address]? with
  | none =>
    rw [hget] at h
    cases h
  | some n =>
    rw [hget, Option.map_some, rt.loads_uuid n (hstored n hget)] at h
    have hnonce : n ≠ "" ∧ n = req.nonce := by simpa using h
    rw [hnonce.2]

theorem findOrCreate_address (users : List User) (address newId : String) :
    (findOrCreate users address newId).2.address = address := by
  unfold findOrCreate
  split
  · rename_i user hfind
    simpa using List.find?_some hfind
  · rfl

/-- A token is issued exactly to a request that passes, for the address it names. -/
theorem verify_outputs (s : State) (req : VerifyRequest) (newId : String) (dbAccepts : Bool) :
    (step rt s (.verify req newId dbAccepts)).2 = [] ∧ ¬ (Passes rt s req ∧ dbAccepts = true) ∨
      Passes rt s req ∧ dbAccepts = true ∧
        ∃ token, token.address = req.address ∧
          (step rt s (.verify req newId dbAccepts)).2 = [.token token req] := by
  simp only [step, verifySignature, Passes]
  by_cases haddress : isValidAddress req.address = true
  · by_cases hnonce : nonceMatches rt s.redis req = true
    · cases hcheck : checkSignature rt req with
      | error e => exact Or.inl (by simp [haddress, hnonce])
      | ok u =>
        cases dbAccepts with
        | false => exact Or.inl (by simp [haddress, hnonce])
        | true =>
          refine Or.inr ⟨⟨haddress, hnonce, rfl⟩, rfl,
            ⟨(findOrCreate s.users req.address newId).2.id, _⟩,
            findOrCreate_address s.users req.address newId, ?_⟩
          simp [haddress, hnonce]
    · exact Or.inl (by simp [haddress, hnonce])
  · exact Or.inl (by simp [haddress])

/-- `/verify` stores no challenge. -/
theorem verify_redis {s : State} {req : VerifyRequest} {newId : String} {dbAccepts : Bool}
    {key n : String} (h : (step rt s (.verify req newId dbAccepts)).1.redis[key]? = some n) :
    s.redis[key]? = some n := by
  have herase : ∀ k, (s.redis.erase k)[key]? = some n → s.redis[key]? = some n :=
    fun _ hk => (getElem?_of_erase hk).2
  simp only [step, verifySignature] at h
  split at h
  · split at h
    · split at h
      · exact herase _ h
      · split at h
        · exact herase _ h
        · exact herase _ h
    · exact h
  · exact h

end Checks

section Binding
variable (P : Primitives) (rt : Runtime)

/-- The chain address of the key a request brings is the address it names. -/
def KeyOfAddress (req : VerifyRequest) : Prop :=
  ∀ key, decodeField rt req.publicKey = some key →
    (addressOfPublicKey P key).display P = req.address

/-- The token goes back to a nonce issued for its address and signed under a key
whose chain address it is. -/
def TokenBound (outputs : List Output) (token : Token) (req : VerifyRequest) : Prop :=
  .nonce token.address req.nonce ∈ outputs ∧
    ∃ key, decodeField rt req.publicKey = some key ∧ SignedUnder rt req key ∧
      (addressOfPublicKey P key).display P = token.address

def Bound (outputs : List Output) : Prop :=
  ∀ token req, .token token req ∈ outputs → TokenBound P rt outputs token req

/-- A request that passes names the key of its address. -/
def KeyMatches (s : State) : Request → Prop
  | .verify req _ dbAccepts => Passes rt s req → dbAccepts = true → KeyOfAddress P rt req
  | _ => True

/-- Every stored challenge was issued for its address. -/
def Issued (m : State × List Output) : Prop :=
  ∀ a n, m.1.redis[challengeKey a]? = some n → isUuid n = true ∧ .nonce a n ∈ m.2

variable {P rt}

theorem TokenBound.mono {outputs later : List Output} {token : Token} {req : VerifyRequest}
    (h : TokenBound P rt outputs token req) : TokenBound P rt (outputs ++ later) token req :=
  ⟨List.mem_append_left _ h.1, h.2⟩

theorem bound_append_of_no_token {outputs later : List Output} (hbound : Bound P rt outputs)
    (hlater : ∀ token req, .token token req ∉ later) : Bound P rt (outputs ++ later) := by
  intro token req htoken
  rcases List.mem_append.mp htoken with hold | hnew
  · exact (hbound token req hold).mono
  · exact absurd hnew (hlater token req)

theorem Issued.next {m : State × List Output} (hm : Issued m) (ev : Request) :
    Issued (Runs.recorded (step rt) m ev) := by
  intro a n hget
  have hkept : m.1.redis[challengeKey a]? = some n →
      isUuid n = true ∧ .nonce a n ∈ m.2 ++ (step rt m.1 ev).2 := fun h =>
    ⟨(hm a n h).1, List.mem_append_left _ (hm a n h).2⟩
  cases ev with
  | challenge address nonce =>
    simp only [Runs.recorded, step, requestChallenge] at hget hkept ⊢
    split at hget
    · rename_i hvalid
      simp only [hvalid, if_true] at hkept ⊢
      by_cases ha : address = a
      · subst ha
        rw [ExtTreeMap.getElem?_insert_self] at hget
        cases hget
        exact ⟨nonce.format, List.mem_append_right _ (List.mem_singleton_self _)⟩
      · rw [getElem?_insert_ne _ _ (fun hkey => ha (challengeKey_injective hkey))] at hget
        exact hkept hget
    · exact hkept hget
  | verify req newId dbAccepts => exact hkept (verify_redis hget)
  | expire key =>
    exact hkept (getElem?_of_erase hget).2

/-- One request keeps the tokens bound exactly if it does not pass with the key of
another address. -/
theorem bound_next_iff {m : State × List Output} (hm : Issued m) (hbound : Bound P rt m.2)
    (ev : Request) : Bound P rt (Runs.recorded (step rt) m ev).2 ↔ KeyMatches P rt m.1 ev := by
  cases ev with
  | challenge address nonce =>
    refine iff_of_true (bound_append_of_no_token hbound ?_) trivial
    intro token req htoken
    simp only [step] at htoken
    split at htoken <;> simp at htoken
  | expire key => exact iff_of_true (bound_append_of_no_token hbound (by simp [step])) trivial
  | verify req newId dbAccepts =>
    rcases @verify_outputs rt m.1 req newId dbAccepts with
      ⟨hnone, hfails⟩ | ⟨hpasses, haccepts, token, haddress, hone⟩
    · refine iff_of_true ?_ (fun hpasses haccepts => absurd ⟨hpasses, haccepts⟩ hfails)
      simp only [Runs.recorded, hnone, List.append_nil]
      exact hbound
    · obtain ⟨key, hkey, hsigned⟩ := checkSignature_ok hpasses.2.2
      simp only [Runs.recorded, hone, KeyMatches]
      constructor
      · intro hafter _ _ key' hkey'
        obtain ⟨-, key'', hkey'', -, hderived⟩ := hafter token req (by simp)
        rw [hkey''] at hkey'
        cases hkey'
        exact hderived.trans haddress
      · intro hmatch token' req' htoken
        rcases List.mem_append.mp htoken with hold | hnew
        · exact (hbound token' req' hold).mono
        · cases List.mem_singleton.mp hnew
          have hstored := nonceMatches_stored (fun n hn => (hm _ n hn).1) hpasses.2.1
          have hissued := (hm _ _ hstored).2
          rw [← haddress] at hissued
          refine ⟨List.mem_append_left _ hissued, key, hkey, hsigned, ?_⟩
          rw [haddress]
          exact hmatch hpasses haccepts key hkey

/-- In every run, all tokens issued are bound to the wallet of their address
exactly if every request that passes brings the key of the address it names. -/
theorem tokens_bound_iff (requests : List Request) :
    Runs.Throughout (fun m => Bound P rt m.2) (Runs.recorded (step rt)) (⟨∅, []⟩, []) requests ↔
      Runs.Along (fun m ev => KeyMatches P rt m.1 ev) (Runs.recorded (step rt)) (⟨∅, []⟩, [])
        requests := by
  refine Runs.throughout_iff_along (I := Issued) (Q := fun _ => True)
    (fun m ev _ hm hbound => bound_next_iff hm hbound ev) (fun m ev _ hm _ _ => hm.next ev)
    (fun _ _ => trivial) ?_ ?_
  · intro a n hget
    simp at hget
  · intro token req htoken
    cases htoken

end Binding

section Scenario
open Devnet

/-- Hexadecimal texts only, and the signatures of the development chain. -/
def devRuntime : Runtime where
  strip := id
  fromhex := fun s => (Text.hexDecode s).toOption
  b64decode := fun _ => none
  loads := fun _ => none
  fromPublicBytes := fun _ => .ok ()
  verify := primitives.ed25519VerifyStrict
  loads_uuid := fun _ _ => rfl

def devNonce : Nonce := ⟨"00000000-0000-4000-8000-000000000000", by decide⟩

/-- The wallet of somebody else. -/
def victim : String := "sprax1" ++ String.ofList (List.replicate 38 'q')

/-- A request for the victim's address, made and signed with keypair 7 alone. -/
def foreignRequest : VerifyRequest where
  address := victim
  nonce := devNonce.text
  signature := hexEncode ((keypair 7).sign primitives devNonce.text.toUTF8.data.toList)
  publicKey := hexEncode ((keypair 7).publicKeyBytes primitives)

def foreignRun : List Request := [.challenge victim devNonce, .verify foreignRequest "user" true]

/-- Anybody obtains a token for any address. -/
theorem foreign_key_gets_token :
    (addressOf 7).display primitives ≠ victim ∧
      .token ⟨"user", victim⟩ foreignRequest ∈
        (Runs.run (Runs.recorded (step devRuntime)) (⟨∅, []⟩, []) foreignRun).2 ∧
      ¬ Bound primitives devRuntime
        (Runs.run (Runs.recorded (step devRuntime)) (⟨∅, []⟩, []) foreignRun).2 := by
  have hforeign : (addressOf 7).display primitives ≠ victim := by decide +kernel
  have hissued : .token ⟨"user", victim⟩ foreignRequest ∈
      (Runs.run (Runs.recorded (step devRuntime)) (⟨∅, []⟩, []) foreignRun).2 := by decide +kernel
  refine ⟨hforeign, hissued, ?_⟩
  intro hbound
  obtain ⟨-, key, hkey, -, hderived⟩ := hbound _ _ hissued
  have hseven : decodeField devRuntime foreignRequest.publicKey =
      some ((keypair 7).publicKeyBytes primitives) := by decide +kernel
  rw [hseven] at hkey
  cases hkey
  exact hforeign hderived

end Scenario

end Sprax.Auth
