import Sprax.Effects
import Sprax.Faucet
import Sprax.Throttle

/-!
# The rate limiter of the faucet

`check_and_record` checks and updates two maps, by address and by client IP, and
can return between the checks. A call is a visit under the address and, unless it
comes from the local host, under the trimmed IP; the maps together are the last
visits. So accepted calls that share one of the two are a window apart, also if the
clock jumps back, and a rejected call leaves both maps as they were.
-/
namespace Sprax.Faucet
open Std Effects FiniteMap Runs Throttle

/-- The arguments of `check_and_record`. -/
structure Attempt where
  address : Address
  clientIp : String
  nowUnix : ℕ
  deriving DecidableEq

namespace RateLimiter

/-- `check_and_record`, statement by statement. -/
def checkAndRecordSteps (c : Attempt) : EStateM FaucetError RateLimiter Unit := do
  let r ← get
  match retryAfter r.windowDurationSecs c.nowUnix r.lastClaimByAddress[c.address]? with
  | some secs => throw (.rateLimitExceeded secs)
  | none => do
    let cleanIp := Text.trim c.clientIp
    if ¬ (cleanIp = "" ∨ cleanIp = "127.0.0.1" ∨ cleanIp = "localhost") then do
      match retryAfter r.windowDurationSecs c.nowUnix r.lastClaimByIp[cleanIp]? with
      | some secs => throw (.rateLimitExceeded secs)
      | none =>
        modify (fun r => { r with lastClaimByIp := r.lastClaimByIp.insert cleanIp c.nowUnix })
    modify (fun r =>
      { r with lastClaimByAddress := r.lastClaimByAddress.insert c.address c.nowUnix })

/-- The limiter after a call, and what the call returns. -/
def attempt (r : RateLimiter) (c : Attempt) : RateLimiter × Except FaucetError Unit :=
  match checkAndRecordSteps c r with
  | .ok _ t => (t, .ok ())
  | .error e t => (t, .error e)

/-- No branch returns an error after a map was changed. -/
theorem attempt_eq (r : RateLimiter) (c : Attempt) :
    attempt r c = match r.checkAndRecord c.address c.clientIp c.nowUnix with
      | .ok t => (t, .ok ())
      | .error e => (r, .error e) := by
  have hget : (get : EStateM FaucetError RateLimiter RateLimiter) r = .ok r r := rfl
  rw [attempt, checkAndRecordSteps, bind_of_ok hget, checkAndRecord]
  cases haddress : retryAfter r.windowDurationSecs c.nowUnix r.lastClaimByAddress[c.address]? with
  | some secs => rfl
  | none =>
    by_cases hlocal : Text.trim c.clientIp = "" ∨ Text.trim c.clientIp = "127.0.0.1" ∨
        Text.trim c.clientIp = "localhost"
    · simp only [hlocal, not_true_eq_false, if_false, if_true]
      rfl
    · simp only [hlocal, not_false_eq_true, if_true, if_false]
      cases hip : retryAfter r.windowDurationSecs c.nowUnix
        r.lastClaimByIp[Text.trim c.clientIp]? with
      | some secs => rfl
      | none => rfl

/-- What a claim is limited by. -/
inductive Key
  | address (address : Address)
  | ip (cleanIp : String)

/-- The trimmed IPs that are not limited. -/
def Unlimited (cleanIp : String) : Prop :=
  cleanIp = "" ∨ cleanIp = "127.0.0.1" ∨ cleanIp = "localhost"

instance decidableUnlimited (cleanIp : String) : Decidable (Unlimited cleanIp) :=
  inferInstanceAs (Decidable (_ ∨ _))

/-- The visit that a call is. -/
def asVisit (c : Attempt) : Visit Key where
  keys := { key | key = .address c.address ∨
    ¬ Unlimited (Text.trim c.clientIp) ∧ key = .ip (Text.trim c.clientIp) }
  time := c.nowUnix

/-- The two maps as one. -/
def lastClaim (r : RateLimiter) : Key → Option ℕ
  | .address address => r.lastClaimByAddress[address]?
  | .ip cleanIp => r.lastClaimByIp[cleanIp]?

theorem retryAfter_eq_none_iff (window nowUnix : ℕ) (last : Option ℕ) :
    retryAfter window nowUnix last = none ↔ ∀ time, last = some time → window ≤ nowUnix - time := by
  cases last with
  | none => simp [retryAfter]
  | some lastTime => simp [retryAfter]

/-- What `check_and_record` can return: it records the visit if that is admitted. -/
inductive Checked (r : RateLimiter) (c : Attempt) : Except FaucetError RateLimiter → Prop
  | recorded (t : RateLimiter) (hadmits : Admits r.windowDurationSecs (lastClaim r) (asVisit c))
      (hwindow : t.windowDurationSecs = r.windowDurationSecs)
      (hlast : lastClaim t = visit r.windowDurationSecs (lastClaim r) (asVisit c)) :
      Checked r c (.ok t)
  | refused (e : FaucetError) (hrests : ¬ Admits r.windowDurationSecs (lastClaim r) (asVisit c)) :
      Checked r c (.error e)

theorem admits_asVisit_iff (r : RateLimiter) (c : Attempt) :
    Admits r.windowDurationSecs (lastClaim r) (asVisit c) ↔
      retryAfter r.windowDurationSecs c.nowUnix r.lastClaimByAddress[c.address]? = none ∧
      (¬ Unlimited (Text.trim c.clientIp) →
        retryAfter r.windowDurationSecs c.nowUnix r.lastClaimByIp[Text.trim c.clientIp]? =
          none) := by
  rw [retryAfter_eq_none_iff, retryAfter_eq_none_iff]
  constructor
  · intro h
    exact ⟨h (.address c.address) (Or.inl rfl), fun hlimited => h (.ip _) (Or.inr ⟨hlimited, rfl⟩)⟩
  · rintro ⟨haddress, hip⟩ key (rfl | ⟨hlimited, rfl⟩)
    · exact haddress
    · exact hip hlimited

@[simp] theorem address_mem_asVisit {c : Attempt} {address : Address} :
    Key.address address ∈ (asVisit c).keys ↔ address = c.address := by
  simp [asVisit]

@[simp] theorem ip_mem_asVisit {c : Attempt} {cleanIp : String} :
    Key.ip cleanIp ∈ (asVisit c).keys ↔
      ¬ Unlimited (Text.trim c.clientIp) ∧ cleanIp = Text.trim c.clientIp := by
  simp [asVisit]

/-- Of an admitted call the address is recorded in any case. -/
theorem visit_address {r : RateLimiter} {c : Attempt}
    (h : Admits r.windowDurationSecs (lastClaim r) (asVisit c)) (address : Address) :
    (r.lastClaimByAddress.insert c.address c.nowUnix)[address]? =
      visit r.windowDurationSecs (lastClaim r) (asVisit c) (.address address) := by
  by_cases haddress : address = c.address
  · subst haddress
    rw [visit_of_admits h (address_mem_asVisit.mpr rfl), ExtTreeMap.getElem?_insert_self]
    rfl
  · rw [visit_of_not_mem (by simpa using haddress), getElem?_insert_ne _ _ (Ne.symm haddress)]
    rfl

/-- The IP is recorded too if it is limited. -/
theorem visit_ip {r : RateLimiter} {c : Attempt}
    (h : Admits r.windowDurationSecs (lastClaim r) (asVisit c))
    (hlimited : ¬ Unlimited (Text.trim c.clientIp)) (cleanIp : String) :
    (r.lastClaimByIp.insert (Text.trim c.clientIp) c.nowUnix)[cleanIp]? =
      visit r.windowDurationSecs (lastClaim r) (asVisit c) (.ip cleanIp) := by
  by_cases hip : cleanIp = Text.trim c.clientIp
  · subst hip
    rw [visit_of_admits h (ip_mem_asVisit.mpr ⟨hlimited, rfl⟩), ExtTreeMap.getElem?_insert_self]
    rfl
  · rw [visit_of_not_mem (fun hmem => hip (ip_mem_asVisit.mp hmem).2),
      getElem?_insert_ne _ _ (Ne.symm hip)]
    rfl

theorem visit_local_ip {r : RateLimiter} {c : Attempt} (hlocal : Unlimited (Text.trim c.clientIp))
    (cleanIp : String) :
    r.lastClaimByIp[cleanIp]? = visit r.windowDurationSecs (lastClaim r) (asVisit c)
      (.ip cleanIp) := by
  rw [visit_of_not_mem (fun hmem => (ip_mem_asVisit.mp hmem).1 hlocal)]
  rfl

theorem checkAndRecord_checked (r : RateLimiter) (c : Attempt) :
    Checked r c (r.checkAndRecord c.address c.clientIp c.nowUnix) := by
  have hadmits := admits_asVisit_iff r c
  unfold checkAndRecord
  split
  · rename_i secs haddress
    refine .refused _ (fun h => ?_)
    cases haddress.symm.trans (hadmits.mp h).1
  · rename_i haddress
    dsimp only
    split
    · rename_i hlocal
      have h := hadmits.mpr ⟨haddress, fun hlimited => absurd hlocal hlimited⟩
      refine .recorded _ h rfl (funext fun key => ?_)
      cases key with
      | address address => exact visit_address h address
      | ip cleanIp => exact visit_local_ip (r := r) hlocal cleanIp
    · rename_i hlimited
      split
      · rename_i secs hip
        refine .refused _ (fun h => ?_)
        cases hip.symm.trans ((hadmits.mp h).2 hlimited)
      · rename_i hip
        have h := hadmits.mpr ⟨haddress, fun _ => hip⟩
        refine .recorded _ h rfl (funext fun key => ?_)
        cases key with
        | address address => exact visit_address h address
        | ip cleanIp => exact visit_ip h hlimited cleanIp

/-- A call is a visit: accepted if that is admitted, and without effect otherwise. -/
theorem attempt_visits (r : RateLimiter) (c : Attempt) :
    (attempt r c).1.windowDurationSecs = r.windowDurationSecs ∧
    lastClaim (attempt r c).1 = visit r.windowDurationSecs (lastClaim r) (asVisit c) ∧
    ((attempt r c).2 = .ok () ↔ Admits r.windowDurationSecs (lastClaim r) (asVisit c)) := by
  have hcall := checkAndRecord_checked r c
  rw [attempt_eq]
  generalize r.checkAndRecord c.address c.clientIp c.nowUnix = result at hcall ⊢
  cases hcall with
  | recorded t hadmits hwindow hlast => exact ⟨hwindow, hlast, by simpa using hadmits⟩
  | refused e hrests => exact ⟨rfl, (visit_of_not_admits hrests).symm, by simpa using hrests⟩

theorem attempt_of_error {r : RateLimiter} {c : Attempt} {e : FaucetError}
    (h : (attempt r c).2 = .error e) : (attempt r c).1 = r := by
  rw [attempt_eq] at h ⊢
  cases hcall : r.checkAndRecord c.address c.clientIp c.nowUnix with
  | ok t => simp [hcall] at h
  | error e' => rfl

/-- The limiter after the calls. -/
def serve (r : RateLimiter) (calls : List Attempt) : RateLimiter :=
  run (fun r c => (attempt r c).1) r calls

/-- What the calls return. -/
def replies (r : RateLimiter) : List Attempt → List (Except FaucetError Unit)
  | [] => []
  | c :: calls => (attempt r c).2 :: replies (attempt r c).1 calls

theorem serve_visits (r : RateLimiter) (calls : List Attempt) :
    (serve r calls).windowDurationSecs = r.windowDurationSecs ∧
    lastClaim (serve r calls) = run (visit r.windowDurationSecs) (lastClaim r)
      (calls.map asVisit) := by
  induction calls generalizing r with
  | nil => exact ⟨rfl, rfl⟩
  | cons c calls ih =>
    obtain ⟨hwindow, hlast, -⟩ := attempt_visits r c
    obtain ⟨hwindow', hlast'⟩ := ih (attempt r c).1
    refine ⟨hwindow'.trans hwindow, ?_⟩
    rw [hwindow, hlast] at hlast'
    exact hlast'

theorem accepted_iff (r : RateLimiter) (calls : List Attempt) (d : Attempt) :
    (attempt (serve r calls) d).2 = .ok () ↔ Admits r.windowDurationSecs
      (run (visit r.windowDurationSecs) (lastClaim r) (calls.map asVisit)) (asVisit d) := by
  obtain ⟨hwindow, hlast⟩ := serve_visits r calls
  rw [(attempt_visits _ d).2.2, hwindow, hlast]

/-- The calls claim for one address, or from one limited IP. -/
def Related (c d : Attempt) : Prop :=
  c.address = d.address ∨
    Text.trim c.clientIp = Text.trim d.clientIp ∧ ¬ Unlimited (Text.trim c.clientIp)

theorem Related.exists_key {c d : Attempt} (h : Related c d) :
    ∃ key, key ∈ (asVisit c).keys ∧ key ∈ (asVisit d).keys := by
  rcases h with haddress | ⟨hip, hlimited⟩
  · exact ⟨.address c.address, address_mem_asVisit.mpr rfl, address_mem_asVisit.mpr haddress⟩
  · refine ⟨.ip (Text.trim c.clientIp), ip_mem_asVisit.mpr ⟨hlimited, rfl⟩, ip_mem_asVisit.mpr ?_⟩
    rw [hip] at hlimited
    exact ⟨hlimited, hip⟩

theorem serve_append_cons (r : RateLimiter) (before between : List Attempt) (c : Attempt) :
    serve r (before ++ c :: between) = serve (attempt (serve r before) c).1 between := by
  simp [serve]

/-- The limiter enforces a window that is not empty, and a rejected call leaves no trace. -/
theorem limiter_enforces_window (window : ℕ) (before between : List Attempt) (c d : Attempt) :
    (0 < window → Related c d →
      (attempt (serve (new window) before) c).2 = .ok () →
      (attempt (serve (new window) (before ++ c :: between)) d).2 = .ok () →
      c.nowUnix + window ≤ d.nowUnix) ∧
    (∀ e, (attempt (serve (new window) before) c).2 = .error e →
      (attempt (serve (new window) before) c).1 = serve (new window) before ∧
      ∀ later, replies (serve (new window) (before ++ [c])) later =
        replies (serve (new window) before) later) := by
  constructor
  · intro hwindow hrelated hc hd
    obtain ⟨key, hkey, hkey'⟩ := hrelated.exists_key
    rw [accepted_iff] at hc hd
    rw [List.map_append, run_append] at hd
    exact admitted_apart hwindow (between.map asVisit) hc hd hkey hkey'
  · intro e he
    have hsame := attempt_of_error he
    refine ⟨hsame, fun later => ?_⟩
    rw [serve_append_cons, hsame]
    rfl

/-- A call for one address. -/
def callAt (nowUnix : ℕ) : Attempt := ⟨⟨List.replicate 20 7, rfl⟩, "203.0.113.5", nowUnix⟩

/-- The second call is a window later, and one in between is rejected. -/
theorem limiter_enforces_window_hour :
    (callAt 10).nowUnix + 3600 ≤ (callAt 3610).nowUnix ∧
    (attempt (serve (new 3600) [callAt 10]) (callAt 11)).1 = serve (new 3600) [callAt 10] :=
  ⟨(limiter_enforces_window 3600 [] [] (callAt 10) (callAt 3610)).1 (by decide) (Or.inl rfl)
      (by decide +kernel) (by decide +kernel),
    ((limiter_enforces_window 3600 [callAt 10] [] (callAt 11) (callAt 11)).2
      (.rateLimitExceeded 3599) (by decide +kernel)).1⟩

/-- An empty window limits nothing: a claim is accepted although the clock went back. -/
theorem empty_window_clock_back :
    (attempt (serve (new 0) []) (callAt 1)).2 = .ok () ∧
    (attempt (serve (new 0) [callAt 1]) (callAt 0)).2 = .ok () ∧
    Related (callAt 1) (callAt 0) ∧ ¬ (callAt 1).nowUnix + 0 ≤ (callAt 0).nowUnix := by
  refine ⟨by decide +kernel, by decide +kernel, Or.inl rfl, by decide⟩

end RateLimiter

end Sprax.Faucet
