import Sprax.Limiter
import Sprax.Payouts

/-!
# The HTTP server of the faucet

`handle_claim` takes the client IP from the body of the request if there is one and
from the connection otherwise. Between two claims the ledger belongs to the node
and may have changed in any way. A peer that leaves the field out, or fills in its
own address, is limited under that address, so within a window one of its claims
succeeds at most.
-/
namespace Sprax.Faucet
open Runs Throttle

/-- The `Display` text of the error. -/
def FaucetError.display : FaucetError → String
  | .rateLimitExceeded secs => s!"Rate limit exceeded for address/IP: retry in {secs} seconds"
  | .amountExceedsLimit requested maxAllowed =>
    s!"Requested amount ({requested}) exceeds maximum allowed payout ({maxAllowed})"
  | .invalidAddress reason => s!"Invalid recipient address: {reason}"
  | .insufficientFunds => "Insufficient faucet pool balance"
  | .submissionError reason => s!"Transaction execution/submission failed: {reason}"

structure ClaimRequest where
  recipient : String
  amountSprx : Option ℕ
  clientIp : Option String

/-- The server listens on an IPv4 socket. -/
structure Ipv4Addr where
  a : UInt8
  b : UInt8
  c : UInt8
  d : UInt8
  deriving DecidableEq

namespace Ipv4Addr

def isLoopback (peer : Ipv4Addr) : Bool := peer.a == 127

/-- The decimal text of an octet. -/
def octet (n : UInt8) : List Char := Nat.toDigits 10 n.toNat

/-- The `Display` text. -/
def display (peer : Ipv4Addr) : String :=
  String.ofList (octet peer.a ++ '.' ::
    (octet peer.b ++ '.' :: (octet peer.c ++ '.' :: octet peer.d)))

theorem isDigit_of_mem_octet {n : UInt8} {c : Char} (h : c ∈ octet n) : c.isDigit = true :=
  Nat.isDigit_of_mem_toDigits (by decide) (by decide) h

theorem trim_display (peer : Ipv4Addr) : Text.trim peer.display = peer.display := by
  refine Text.trim_eq_self (fun c hc => ?_)
  rw [display, String.toList_ofList] at hc
  simp only [List.mem_append, List.mem_cons] at hc
  have hdot : Text.isWhiteSpace '.' = false := by decide
  have hoctet : ∀ n : UInt8, c ∈ octet n → Text.isWhiteSpace c = false :=
    fun n hn => Text.isWhiteSpace_of_isDigit (isDigit_of_mem_octet hn)
  rcases hc with h | rfl | h | rfl | h | rfl | h
  exacts [hoctet _ h, hdot, hoctet _ h, hdot, hoctet _ h, hdot, hoctet _ h]

/-- The first octet can be read off the text. -/
theorem takeWhile_display (peer : Ipv4Addr) :
    peer.display.toList.takeWhile Char.isDigit = octet peer.a := by
  rw [display, String.toList_ofList,
    List.takeWhile_append_of_pos (fun c hc => isDigit_of_mem_octet hc)]
  simp

theorem limited_of_not_isLoopback {peer : Ipv4Addr} (h : peer.isLoopback = false) :
    ¬ RateLimiter.Unlimited peer.display := by
  have hfirst := takeWhile_display peer
  rintro (htext | htext | htext)
  · rw [htext] at hfirst
    exact Nat.toDigits_ne_nil hfirst.symm
  · rw [htext] at hfirst
    have hread : Nat.ofDigitChars 10 (octet peer.a) 0 = peer.a.toNat :=
      Nat.ofDigitChars_ten_toDigits
    have hvalue : peer.a.toNat = 127 := by
      rw [← hread, ← hfirst]
      decide
    have hloopback : peer.a = 127 := UInt8.toNat_inj.mp hvalue
    simp [isLoopback, hloopback] at h
  · rw [htext] at hfirst
    exact Nat.toDigits_ne_nil hfirst.symm

end Ipv4Addr

inductive Response
  | ok (claim : ClaimResponse)
  | badRequest (error : String)
  /-- The body is no `ClaimRequest`, and the handler is not called. -/
  | rejected
  deriving DecidableEq

def Response.isSuccess : Response → Bool
  | .ok _ => true
  | _ => false

section Server
variable {P : Primitives} (B : Bech32 P)

def handleClaim (F : FaucetService) (L : ChainLedger) (peer : Ipv4Addr) (nowUnix : ℕ)
    (req : ClaimRequest) :
    (FaucetService × ChainLedger) × Response :=
  let clientIp := req.clientIp.getD peer.display
  match F.requestFunds B L ⟨req.recipient, req.amountSprx, clientIp, nowUnix⟩ with
  | (s, .ok claim) => (s, .ok claim)
  | (s, .error e) => (s, .badRequest e.display)

/-- A claim as it reaches the server, with the ledger and the clock it finds. -/
structure HttpClaim where
  peer : Ipv4Addr
  body : Option ClaimRequest
  ledger : ChainLedger
  nowUnix : ℕ

def respond (F : FaucetService) (h : HttpClaim) : FaucetService × Response :=
  match h.body with
  | none => (F, .rejected)
  | some req =>
    let result := handleClaim B F h.ledger h.peer h.nowUnix req
    (result.1.1, result.2)

/-- The claims with their responses. -/
def answers (F : FaucetService) : List HttpClaim → List (HttpClaim × Response)
  | [] => []
  | h :: hs => (h, (respond B F h).2) :: answers (respond B F h).1 hs

/-- The claims of a peer that succeed from `start` on for `window` seconds. -/
def succeeded (peer : Ipv4Addr) (start window : ℕ) (as : List (HttpClaim × Response)) :
    List (HttpClaim × Response) :=
  as.filter (fun a => a.2.isSuccess ∧ a.1.peer = peer ∧ start ≤ a.1.nowUnix ∧
    a.1.nowUnix < start + window)

variable {B}

/-- A request reaches the limiter with its recipient, and succeeds only if that accepts. -/
theorem requestFunds_limiter (F : FaucetService) (L : ChainLedger) (c : Claim) :
    (F.requestFunds B L c).1.1.limiter = F.limiter ∧ (F.requestFunds B L c).2.isOk = false ∨
    ∃ recipient, (F.requestFunds B L c).1.1.limiter =
        (RateLimiter.attempt F.limiter ⟨recipient, c.clientIp, c.nowUnix⟩).1 ∧
      ((F.requestFunds B L c).2.isOk = true →
        (RateLimiter.attempt F.limiter ⟨recipient, c.clientIp, c.nowUnix⟩).2 = .ok ()) := by
  unfold FaucetService.requestFunds
  split
  · exact Or.inl ⟨rfl, rfl⟩
  · rename_i recipient payoutSprx amount hvet
    split
    · exact Or.inl ⟨rfl, rfl⟩
    · rename_i limiter hlimit
      refine Or.inr ⟨recipient, ?_⟩
      rw [RateLimiter.attempt_eq, hlimit]
      refine ⟨?_, fun _ => rfl⟩
      dsimp only
      split
      · rfl
      · split <;> rfl

/-- What a claim does to the limiter: nothing, or one call, without which it does not succeed. -/
inductive Limits (F : FaucetService) (h : HttpClaim) : FaucetService × Response → Prop
  | untouched (G : FaucetService) (r : Response) (hlimiter : G.limiter = F.limiter)
      (hfails : r.isSuccess = false) : Limits F h (G, r)
  | called (G : FaucetService) (r : Response) (req : ClaimRequest) (recipient : Address)
      (hbody : h.body = some req)
      (hlimiter : G.limiter = (RateLimiter.attempt F.limiter
        ⟨recipient, req.clientIp.getD h.peer.display, h.nowUnix⟩).1)
      (haccepted : r.isSuccess = true → (RateLimiter.attempt F.limiter
        ⟨recipient, req.clientIp.getD h.peer.display, h.nowUnix⟩).2 = .ok ()) : Limits F h (G, r)

theorem respond_limits (F : FaucetService) (h : HttpClaim) : Limits F h (respond B F h) := by
  unfold respond
  split
  · exact .untouched F .rejected rfl rfl
  · rename_i req hbody
    have hcall := requestFunds_limiter (B := B) F h.ledger
      ⟨req.recipient, req.amountSprx, req.clientIp.getD h.peer.display, h.nowUnix⟩
    unfold handleClaim
    dsimp only
    generalize F.requestFunds B h.ledger
      ⟨req.recipient, req.amountSprx, req.clientIp.getD h.peer.display, h.nowUnix⟩ =
        result at hcall ⊢
    rcases result with ⟨s, claim | e⟩
    · rcases hcall with ⟨hlimiter, -⟩ | ⟨recipient, hlimiter, -⟩
      · exact .untouched _ _ hlimiter rfl
      · exact .called _ _ req recipient hbody hlimiter (fun hsuccess => by cases hsuccess)
    · rcases hcall with ⟨-, hfails⟩ | ⟨recipient, hlimiter, haccepted⟩
      · cases hfails
      · exact .called _ _ req recipient hbody hlimiter (fun _ => haccepted rfl)

theorem respond_window (F : FaucetService) (h : HttpClaim) :
    (respond B F h).1.limiter.windowDurationSecs = F.limiter.windowDurationSecs := by
  have hcall := respond_limits (B := B) F h
  generalize respond B F h = result at hcall
  cases hcall with
  | untouched G r hlimiter _ => rw [hlimiter]
  | called G r req recipient _ hlimiter _ =>
    rw [hlimiter]
    exact (RateLimiter.attempt_visits _ _).1

/-- What the limiter holds against a key it goes on holding. -/
theorem held_respond {F : FaucetService} {time : ℕ} {key : RateLimiter.Key}
    (hwindow : 0 < F.limiter.windowDurationSecs)
    (hheld : Held time key (RateLimiter.lastClaim F.limiter)) (h : HttpClaim) :
      Held time key (RateLimiter.lastClaim (respond B F h).1.limiter) := by
  have hcall := respond_limits (B := B) F h
  generalize respond B F h = result at hcall ⊢
  cases hcall with
  | untouched G r hlimiter _ => rwa [hlimiter]
  | called G r req recipient _ hlimiter _ =>
    rw [hlimiter, (RateLimiter.attempt_visits _ _).2.1]
    exact hheld.visit hwindow _

/-- The claim does not name a client IP other than that of its peer. -/
def HttpClaim.Plain (h : HttpClaim) : Prop :=
  ∀ req, h.body = some req → ∀ ip, req.clientIp = some ip → Text.trim ip = h.peer.display

/-- A plain claim that succeeds is a visit of its peer. -/
theorem admits_of_success {F : FaucetService} {h : HttpClaim} (hplain : h.Plain)
    (hpeer : h.peer.isLoopback = false) (hsuccess : (respond B F h).2.isSuccess = true) :
    ∃ v : Visit RateLimiter.Key, .ip h.peer.display ∈ v.keys ∧ v.time = h.nowUnix ∧
      Admits F.limiter.windowDurationSecs (RateLimiter.lastClaim F.limiter) v ∧
      RateLimiter.lastClaim (respond B F h).1.limiter =
        visit F.limiter.windowDurationSecs (RateLimiter.lastClaim F.limiter) v := by
  have hcall := respond_limits (B := B) F h
  generalize respond B F h = result at hcall hsuccess ⊢
  cases hcall with
  | untouched G r _ hfails =>
    rw [hfails] at hsuccess
    cases hsuccess
  | called G r req recipient hbody hlimiter haccepted =>
    have hip : Text.trim (req.clientIp.getD h.peer.display) = h.peer.display := by
      cases hfield : req.clientIp with
      | none => exact h.peer.trim_display
      | some ip => exact hplain req hbody ip hfield
    obtain ⟨-, hlast, hadmits⟩ := RateLimiter.attempt_visits F.limiter
      ⟨recipient, req.clientIp.getD h.peer.display, h.nowUnix⟩
    refine ⟨_, RateLimiter.ip_mem_asVisit.mpr ?_, rfl, hadmits.mp (haccepted hsuccess), ?_⟩
    · rw [hip]
      exact ⟨Ipv4Addr.limited_of_not_isLoopback hpeer, rfl⟩
    · rw [hlimiter, hlast]

/-- Nothing succeeds in a window in which the peer was already served. -/
theorem succeeded_eq_nil {F : FaucetService} {hs : List HttpClaim} {peer : Ipv4Addr}
    {start time : ℕ} (hpeer : peer.isLoopback = false) (hplain : ∀ h ∈ hs, h.peer = peer → h.Plain)
    (hwindow : 0 < F.limiter.windowDurationSecs) (hstart : start ≤ time)
    (hheld : Held time (.ip peer.display) (RateLimiter.lastClaim F.limiter)) :
    succeeded peer start F.limiter.windowDurationSecs (answers B F hs) = [] := by
  induction hs generalizing F with
  | nil => rfl
  | cons h hs ih =>
    have hrest := ih (F := (respond B F h).1) (fun h' hh' => hplain h' (List.mem_cons_of_mem h hh'))
      (by rwa [respond_window]) (held_respond hwindow hheld h)
    rw [respond_window] at hrest
    rw [answers, succeeded, List.filter_cons_of_neg, ← succeeded, hrest]
    intro hcounts
    obtain ⟨hsuccess, rfl, hfrom, hto⟩ := of_decide_eq_true hcounts
    obtain ⟨v, hkey, htime, hadmits, -⟩ :=
      admits_of_success (hplain h List.mem_cons_self rfl) hpeer hsuccess
    have hapart := hheld.apart hwindow hadmits hkey
    dsimp only at hfrom hto
    omega

/-- Within any window one claim of a peer succeeds at most, if its claims name no other
client IP. -/
theorem one_payout_per_window (F : FaucetService) (hs : List HttpClaim) (peer : Ipv4Addr)
    (hpeer : peer.isLoopback = false) (hplain : ∀ h ∈ hs, h.peer = peer → h.Plain) (start : ℕ) :
    (succeeded peer start F.limiter.windowDurationSecs (answers B F hs)).length ≤ 1 := by
  induction hs generalizing F with
  | nil => exact Nat.zero_le 1
  | cons h hs ih =>
    have hplain' : ∀ h' ∈ hs, h'.peer = peer → h'.Plain :=
      fun h' hh' => hplain h' (List.mem_cons_of_mem h hh')
    have hrest := ih (respond B F h).1 hplain'
    rw [respond_window] at hrest
    rw [answers, succeeded, List.filter_cons, ← succeeded]
    split
    · rename_i hcounts
      obtain ⟨hsuccess, rfl, hfrom, hto⟩ := of_decide_eq_true hcounts
      dsimp only at hfrom hto
      have hwindow : 0 < F.limiter.windowDurationSecs := by omega
      obtain ⟨v, hkey, htime, hadmits, hlast⟩ :=
        admits_of_success (hplain h List.mem_cons_self rfl) hpeer hsuccess
      have hheld := held_visit hadmits hkey
      rw [← hlast, htime] at hheld
      have hnone := succeeded_eq_nil (B := B) hpeer hplain' (by rwa [respond_window]) hfrom hheld
      rw [respond_window] at hnone
      rw [hnone]
      exact le_rfl
    · exact hrest

end Server

section Development
open Devnet

def devPeer : Ipv4Addr := ⟨203, 0, 113, 9⟩

/-- A request of 50 whole units for the address of a keypair. -/
def devRequest (key : UInt8) (clientIp : Option String) : ClaimRequest :=
  ⟨(addressOf key).toHex, some 50, clientIp⟩

/-- Two requests of one peer in one second, the second on the ledger that the first leaves. -/
def twoRequests (first second : ClaimRequest) : List HttpClaim :=
  [⟨devPeer, some first, faucetLedger, 1000⟩,
    ⟨devPeer, some second,
      (handleClaim walletBech32 devFaucet faucetLedger devPeer 1000 first).1.2, 1000⟩]

theorem one_payout_per_window_devnet :
    devPeer.isLoopback = false ∧
    (succeeded devPeer 1000 3600
      (answers walletBech32 devFaucet
        (twoRequests (devRequest 3 none) (devRequest 4 none)))).length ≤ 1 := by
  refine ⟨by decide, one_payout_per_window devFaucet _ devPeer (by decide) ?_ 1000⟩
  intro h hh _ req hbody ip hip
  simp only [twoRequests, List.mem_cons, List.not_mem_nil, or_false] at hh
  rcases hh with rfl | rfl
  · cases hbody
    cases hip
  · cases hbody
    cases hip

/-- Two made-up client IPs, and one peer is paid twice in a second. -/
theorem client_ip_evades_limit :
    devFaucet.limiter.windowDurationSecs = 3600 ∧ devPeer.isLoopback = false ∧
    (succeeded devPeer 1000 3600 (answers walletBech32 devFaucet
      (twoRequests (devRequest 3 (some "198.51.100.1"))
        (devRequest 4 (some "198.51.100.2"))))).length = 2 := by
  decide +kernel

end Development

end Sprax.Faucet
