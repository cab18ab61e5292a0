import Sprax.Auth

/-!
# Concurrent logins

`/verify` awaits Redis twice, once to read the challenge and once to delete it, and other
requests run in between. A request in flight is either about to delete the challenge it
has compared, or about to have its signature checked. Requests are told apart by what
they carry only. A challenge lets one request through as long as no two requests hold it
before either has deleted it.
-/
namespace Sprax.Auth
open Std FiniteMap

/-- The server with the requests that are waiting for Redis: those that have compared their
challenge, and those that have deleted it. -/
structure Flight where
  server : State
  compared : List VerifyRequest
  deleted : List VerifyRequest

/-- One turn of the event loop, up to the next await. The database and the token are one turn; the
environment adds what it adds to a request. -/
inductive Turn
  | challenge (address : String) (nonce : Nonce)
  | get (req : VerifyRequest)
  | delete (req : VerifyRequest)
  | finish (req : VerifyRequest) (newId : String) (dbAccepts : Bool)
  | expire (key : String)

section Turns
variable (rt : Runtime)

def turn (f : Flight) : Turn → Flight × List Output
  | .challenge address nonce =>
    let answer := requestChallenge f.server address nonce
    ({ f with server := answer.1 }, match answer.2 with
      | .ok text => [.nonce address text]
      | .error _ => [])
  | .get req =>
    if isValidAddress req.address ∧ nonceMatches rt f.server.redis req then
      ({ f with compared := f.compared ++ [req] }, [])
    else (f, [])
  | .delete req =>
    if req ∈ f.compared then
      ({ server := { f.server with redis := f.server.redis.erase (challengeKey req.address) }
         compared := f.compared.erase req
         deleted := f.deleted ++ [req] }, [])
    else (f, [])
  | .finish req newId dbAccepts =>
    if req ∈ f.deleted then
      let rest := { f with deleted := f.deleted.erase req }
      match checkSignature rt req with
      | .error _ => (rest, [])
      | .ok () =>
        let found := findOrCreate f.server.users req.address newId
        if dbAccepts then
          ({ rest with server := { f.server with users := found.1 } },
            [.token ⟨found.2.id, found.2.address⟩ req])
        else (rest, [])
    else (f, [])
  | .expire key => ({ f with server := { f.server with redis := f.server.redis.erase key } }, [])

/-- The server before the first request. -/
def Flight.new : Flight := ⟨⟨∅, []⟩, [], []⟩

/-- The turns of one request, without anything in between, are the handler. -/
theorem turns_eq_step (s : State) (outputs : List Output) (req : VerifyRequest) (newId : String)
    (dbAccepts : Bool) :
    Runs.run (Runs.recorded (turn rt)) (⟨s, [], []⟩, outputs)
        [.get req, .delete req, .finish req newId dbAccepts] =
      (⟨(step rt s (.verify req newId dbAccepts)).1, [], []⟩,
        outputs ++ (step rt s (.verify req newId dbAccepts)).2) := by
  by_cases hpasses : isValidAddress req.address = true ∧ nonceMatches rt s.redis req = true
  · obtain ⟨haddress, hnonce⟩ := hpasses
    cases hcheck : checkSignature rt req with
    | error e => simp [Runs.recorded, turn, step, verifySignature, haddress, hnonce, hcheck]
    | ok u =>
      cases dbAccepts <;> simp [Runs.recorded, turn, step, verifySignature, haddress, hnonce,
        hcheck]
  · by_cases haddress : isValidAddress req.address = true
    · have hnonce : ¬ nonceMatches rt s.redis req = true := fun h => hpasses ⟨haddress, h⟩
      simp [Runs.recorded, turn, step, verifySignature, haddress, hnonce]
    · simp [Runs.recorded, turn, step, verifySignature, haddress]

end Turns

section Counting

/-- The request carries the challenge. -/
def carries (address nonce : String) (req : VerifyRequest) : Bool :=
  req.address = address && req.nonce = nonce

/-- How often the challenge was issued. -/
def issuedCount (address nonce : String) (outputs : List Output) : ℕ :=
  outputs.countP (fun o => o = .nonce address nonce)

def Output.logsIn (address nonce : String) : Output → Bool
  | .token _ req => carries address nonce req
  | .nonce _ _ => false

/-- How many tokens were issued for the challenge. -/
def tokenCount (address nonce : String) (outputs : List Output) : ℕ :=
  outputs.countP (Output.logsIn address nonce)

section Outputs
variable (address nonce : String)

@[simp] theorem issuedCount_append (outputs later : List Output) :
    issuedCount address nonce (outputs ++ later) =
      issuedCount address nonce outputs + issuedCount address nonce later := List.countP_append

@[simp] theorem tokenCount_append (outputs later : List Output) :
    tokenCount address nonce (outputs ++ later) =
      tokenCount address nonce outputs + tokenCount address nonce later := List.countP_append

@[simp] theorem issuedCount_token (token : Token) (req : VerifyRequest) :
    issuedCount address nonce [.token token req] = 0 := by
  simp [issuedCount]

@[simp] theorem tokenCount_token (token : Token) (req : VerifyRequest) :
    tokenCount address nonce [.token token req] = [req].countP (carries address nonce) := by
  rw [tokenCount, List.countP_singleton, List.countP_singleton]
  rfl

@[simp] theorem tokenCount_nonce (issuedTo text : String) :
    tokenCount address nonce [.nonce issuedTo text] = 0 := by
  simp [tokenCount, Output.logsIn]

end Outputs

def storedCount (address nonce : String) (redis : ExtTreeMap String String compare) : ℕ :=
  if redis[challengeKey address]? = some nonce then 1 else 0

/-- The uses of a challenge that are made or still open are covered by what was issued. A stored
challenge and the request that has compared it are one use. -/
def Covered (address nonce : String) (m : Flight × List Output) : Prop :=
  tokenCount address nonce m.2 + m.1.deleted.countP (carries address nonce) +
    max (storedCount address nonce m.1.server.redis) (m.1.compared.countP (carries address nonce)) ≤
      issuedCount address nonce m.2

/-- Only nonces are stored as challenges. -/
def StoresNonces (f : Flight) : Prop :=
  ∀ address n, f.server.redis[challengeKey address]? = some n → isUuid n = true

/-- No request finds its challenge while another has compared the same one and not deleted it. -/
def Exclusive (rt : Runtime) (f : Flight) : Turn → Prop
  | .get req => nonceMatches rt f.server.redis req = true →
      ∀ other ∈ f.compared, carries req.address req.nonce other = false
  | _ => True

instance decidableExclusive (rt : Runtime) (f : Flight) : ∀ t, Decidable (Exclusive rt f t)
  | .get _ => inferInstanceAs (Decidable (_ → _))
  | .challenge _ _ => isTrue trivial
  | .delete _ => isTrue trivial
  | .finish _ _ _ => isTrue trivial
  | .expire _ => isTrue trivial

theorem storedCount_erase_le (address nonce key : String)
    (redis : ExtTreeMap String String compare) :
    storedCount address nonce (redis.erase key) ≤ storedCount address nonce redis := by
  unfold storedCount
  by_cases hget : (redis.erase key)[challengeKey address]? = some nonce
  · rw [if_pos hget, if_pos (getElem?_of_erase hget).2]
  · rw [if_neg hget]
    exact Nat.zero_le _

theorem storedCount_erase_self (address nonce : String) (redis : ExtTreeMap String String compare) :
    storedCount address nonce (redis.erase (challengeKey address)) = 0 := by
  simp [storedCount]

variable {rt : Runtime} {f : Flight} {address nonce : String}

/-- What a turn can do. -/
inductive Turned (rt : Runtime) (f : Flight) : Turn → Flight × List Output → Prop
  | idle (t : Turn) : Turned rt f t (f, [])
  | issued (address : String) (nonce : Nonce) :
      Turned rt f (.challenge address nonce)
        ({ f with server := { f.server with
            redis := f.server.redis.insert (challengeKey address) nonce.text } },
          [.nonce address nonce.text])
  | compared (req : VerifyRequest) (hmatches : nonceMatches rt f.server.redis req = true) :
      Turned rt f (.get req) ({ f with compared := f.compared ++ [req] }, [])
  | deleted (req : VerifyRequest) (hmem : req ∈ f.compared) :
      Turned rt f (.delete req)
        ({ server := { f.server with redis := f.server.redis.erase (challengeKey req.address) }
           compared := f.compared.erase req
           deleted := f.deleted ++ [req] }, [])
  | refused (req : VerifyRequest) (newId : String) (dbAccepts : Bool) :
      Turned rt f (.finish req newId dbAccepts) ({ f with deleted := f.deleted.erase req }, [])
  | admitted (req : VerifyRequest) (newId : String) (dbAccepts : Bool) (users : List User)
      (token : Token) (hmem : req ∈ f.deleted) :
      Turned rt f (.finish req newId dbAccepts)
        ({ f with server := { f.server with users := users }, deleted := f.deleted.erase req },
          [.token token req])
  | expired (key : String) :
      Turned rt f (.expire key)
        ({ f with server := { f.server with redis := f.server.redis.erase key } }, [])

theorem turn_turned (rt : Runtime) (f : Flight) (t : Turn) : Turned rt f t (turn rt f t) := by
  cases t with
  | challenge address nonce =>
    by_cases hvalid : isValidAddress address = true
    · simpa [turn, requestChallenge, hvalid] using (Turned.issued address nonce : Turned rt f _ _)
    · simpa [turn, requestChallenge, hvalid] using (Turned.idle _ : Turned rt f _ _)
  | get req =>
    simp only [turn]
    split
    · rename_i h
      exact .compared req h.2
    · exact .idle _
  | delete req =>
    simp only [turn]
    split
    · rename_i h
      exact .deleted req h
    · exact .idle _
  | finish req newId dbAccepts =>
    simp only [turn]
    split
    · rename_i hmem
      split
      · exact .refused req newId dbAccepts
      · split
        · exact .admitted req newId dbAccepts _ _ hmem
        · exact .refused req newId dbAccepts
    · exact .idle _
  | expire key => exact .expired key

theorem getElem?_insert_challenge {redis : ExtTreeMap String String compare} {a n text : String}
    (h : (redis.insert (challengeKey address) text)[challengeKey a]? = some n) :
    address = a ∧ n = text ∨ address ≠ a ∧ redis[challengeKey a]? = some n := by
  by_cases ha : address = a
  · subst ha
    rw [ExtTreeMap.getElem?_insert_self] at h
    exact Or.inl ⟨rfl, (Option.some.inj h).symm⟩
  · rw [getElem?_insert_ne _ _ (fun hkey => ha (challengeKey_injective hkey))] at h
    exact Or.inr ⟨ha, h⟩

theorem StoresNonces.turn (h : StoresNonces f) (t : Turn) : StoresNonces (turn rt f t).1 := by
  have hturned := turn_turned rt f t
  generalize Auth.turn rt f t = result at hturned
  intro a n hget
  cases hturned with
  | idle | compared | refused | admitted => exact h a n hget
  | issued address nonce =>
    rcases getElem?_insert_challenge hget with ⟨-, rfl⟩ | ⟨-, hold⟩
    · exact nonce.format
    · exact h a n hold
  | deleted | expired => exact h a n (getElem?_of_erase hget).2

theorem countP_erase_add {p : VerifyRequest → Bool} {req : VerifyRequest}
    {reqs : List VerifyRequest} (h : req ∈ reqs) : (reqs.erase req).countP p + [req].countP p =
      reqs.countP p := by
  rw [List.countP_singleton, ← List.countP_cons, (List.perm_cons_erase h).countP_eq p]

/-- One more challenge in the store is one that was issued. -/
theorem storedCount_insert_le (address nonce : String) (redis : ExtTreeMap String String compare)
    (issuedTo text : String) :
    storedCount address nonce (redis.insert (challengeKey issuedTo) text) ≤
      storedCount address nonce redis + issuedCount address nonce [.nonce issuedTo text] := by
  unfold storedCount
  by_cases hget : (redis.insert (challengeKey issuedTo) text)[challengeKey address]? = some nonce
  · rw [if_pos hget]
    rcases getElem?_insert_challenge hget with ⟨rfl, rfl⟩ | ⟨-, hold⟩
    · simp [issuedCount]
    · rw [if_pos hold]
      omega
  · rw [if_neg hget]
    exact Nat.zero_le _

/-- A request that finds its challenge alone accounts for the stored one. -/
theorem compared_le (address nonce : String) (hstores : StoresNonces f) {req : VerifyRequest}
    (hmatches : nonceMatches rt f.server.redis req = true)
    (hexclusive : ∀ other ∈ f.compared, carries req.address req.nonce other = false) :
    f.compared.countP (carries address nonce) + [req].countP (carries address nonce) ≤
      max (storedCount address nonce f.server.redis)
        (f.compared.countP (carries address nonce)) := by
  by_cases hcarries : carries address nonce req = true
  · obtain ⟨rfl, rfl⟩ : req.address = address ∧ req.nonce = nonce := by
      simpa [carries] using hcarries
    have hstored := nonceMatches_stored (fun n hn => hstores _ n hn) hmatches
    have hone : storedCount req.address req.nonce f.server.redis = 1 := if_pos hstored
    have hnobody : f.compared.countP (carries req.address req.nonce) = 0 := by
      rw [List.countP_eq_zero]
      exact fun other hother => by simp [hexclusive other hother]
    rw [hone, hnobody, List.countP_singleton, if_pos hcarries]
    omega
  · rw [List.countP_singleton, if_neg hcarries]
    omega

/-- A deletion takes the challenge of the request out of the store. -/
theorem deleted_le (address nonce : String) {req : VerifyRequest} (hmem : req ∈ f.compared) :
    [req].countP (carries address nonce) +
      max (storedCount address nonce (f.server.redis.erase (challengeKey req.address)))
        ((f.compared.erase req).countP (carries address nonce)) ≤
      max (storedCount address nonce f.server.redis)
        (f.compared.countP (carries address nonce)) := by
  have hsplit := countP_erase_add (p := carries address nonce) hmem
  have hstored := storedCount_erase_le address nonce (challengeKey req.address) f.server.redis
  rw [List.countP_singleton] at hsplit ⊢
  by_cases hcarries : carries address nonce req = true
  · obtain ⟨rfl, rfl⟩ : req.address = address ∧ req.nonce = nonce := by
      simpa [carries] using hcarries
    rw [if_pos hcarries] at hsplit ⊢
    rw [storedCount_erase_self]
    omega
  · rw [if_neg hcarries] at hsplit ⊢
    omega

theorem Covered.turn {m : Flight × List Output} (hstores : StoresNonces m.1) {t : Turn}
    (hexclusive : Exclusive rt m.1 t) (h : Covered address nonce m) :
    Covered address nonce (Runs.recorded (turn rt) m t) := by
  obtain ⟨f, outputs⟩ := m
  change StoresNonces f at hstores
  have hturned := turn_turned rt f t
  unfold Runs.recorded
  generalize Auth.turn rt f t = result at hturned
  cases hturned with
  | idle t => simpa [Covered] using h
  | issued issuedTo issuedNonce =>
    have hstored := storedCount_insert_le address nonce f.server.redis issuedTo issuedNonce.text
    simp only [Covered, tokenCount_append, tokenCount_nonce, issuedCount_append] at h ⊢
    omega
  | compared req hmatches =>
    have hle := compared_le address nonce hstores hmatches (hexclusive hmatches)
    simp only [Covered, List.append_nil, List.countP_append] at h ⊢
    omega
  | deleted req hmem =>
    have hle := deleted_le address nonce hmem
    simp only [Covered, List.append_nil, List.countP_append] at h ⊢
    omega
  | refused req newId dbAccepts =>
    have hfewer : (f.deleted.erase req).countP (carries address nonce) ≤
        f.deleted.countP (carries address nonce) := List.erase_sublist.countP_le
    simp only [Covered, List.append_nil] at h ⊢
    omega
  | admitted req newId dbAccepts users token hmem =>
    have hsplit := countP_erase_add (p := carries address nonce) hmem
    simp only [Covered, tokenCount_append, tokenCount_token, issuedCount_append,
      issuedCount_token] at h ⊢
    omega
  | expired key =>
    have hstored := storedCount_erase_le address nonce key f.server.redis
    simp only [Covered, List.append_nil] at h ⊢
    omega

/-- A challenge lets at most as many requests log in as it was issued times, in every interleaving
in which no request finds it between the comparison and the deletion of another. -/
theorem challenge_single_use (rt : Runtime) (turns : List Turn)
    (hexclusive : Runs.Along (fun m t => Exclusive rt m.1 t) (Runs.recorded (turn rt))
      (Flight.new, []) turns) (address nonce : String) :
    let outputs := (Runs.run (Runs.recorded (turn rt)) (Flight.new, []) turns).2
    tokenCount address nonce outputs ≤ issuedCount address nonce outputs := by
  intro outputs
  have hstart : StoresNonces Flight.new ∧ Covered address nonce (Flight.new, []) := by
    simp [StoresNonces, Covered, Flight.new, tokenCount, issuedCount, storedCount]
  obtain ⟨-, hcovered⟩ := hexclusive.invariant
    (I := fun m => StoresNonces m.1 ∧ Covered address nonce m)
    (fun m t ht h => ⟨h.1.turn t, h.2.turn h.1 ht⟩) hstart
  change tokenCount address nonce outputs + _ + _ ≤ issuedCount address nonce outputs at hcovered
  omega

end Counting

section Scenario

/-- The same signed request twice, one after the other. -/
def patientTurns : List Turn :=
  [.challenge victim devNonce, .get foreignRequest, .delete foreignRequest,
   .finish foreignRequest "user" true, .get foreignRequest, .delete foreignRequest,
   .finish foreignRequest "user" true]

theorem challenge_single_use_patient :
    Runs.Along (fun m t => Exclusive devRuntime m.1 t) (Runs.recorded (turn devRuntime))
      (Flight.new, []) patientTurns ∧
    tokenCount victim devNonce.text
      (Runs.run (Runs.recorded (turn devRuntime)) (Flight.new, []) patientTurns).2 ≤
      issuedCount victim devNonce.text
        (Runs.run (Runs.recorded (turn devRuntime)) (Flight.new, []) patientTurns).2 := by
  have hexclusive : Runs.Along (fun m t => Exclusive devRuntime m.1 t)
      (Runs.recorded (turn devRuntime)) (Flight.new, []) patientTurns := by decide +kernel
  exact ⟨hexclusive, challenge_single_use devRuntime patientTurns hexclusive victim devNonce.text⟩

/-- The same signed request twice at once: both read the challenge before either deletes it. -/
def hastyTurns : List Turn :=
  [.challenge victim devNonce, .get foreignRequest, .get foreignRequest, .delete foreignRequest,
   .delete foreignRequest, .finish foreignRequest "user" true, .finish foreignRequest "user" true]

theorem challenge_used_twice :
    let outputs := (Runs.run (Runs.recorded (turn devRuntime)) (Flight.new, []) hastyTurns).2
    issuedCount victim devNonce.text outputs = 1 ∧ tokenCount victim devNonce.text outputs = 2 := by
  decide +kernel

end Scenario

end Sprax.Auth
