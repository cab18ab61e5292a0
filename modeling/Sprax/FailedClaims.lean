import Sprax.Filing
import Sprax.Limiter
import Sprax.Payouts

/-!
# Faucet claims that fail

The limiter records a claim before the faucet looks at its account and hands the payout
to the ledger. A claim that fails afterwards has left its time in the limiter, and the
claimant has to wait for the window to pass. All other failures leave no trace.
-/
namespace Sprax.Faucet
open Std StateAccessor Filing

namespace RateLimiter

variable {r t : RateLimiter} {address : Address} {clientIp : String} {nowUnix : ℕ}

/-- No recorded claim of the address or of a limited IP is within the window. -/
def Clear (r : RateLimiter) (address : Address) (clientIp : String) (nowUnix : ℕ) : Prop :=
  (∀ time, r.lastClaimByAddress[address]? = some time → r.windowDurationSecs ≤ nowUnix - time) ∧
  (¬ Unlimited (Text.trim clientIp) → ∀ time, r.lastClaimByIp[Text.trim clientIp]? = some time →
    r.windowDurationSecs ≤ nowUnix - time)

/-- The claim is on record already, with this very second. -/
def Recorded (r : RateLimiter) (address : Address) (clientIp : String) (nowUnix : ℕ) : Prop :=
  r.lastClaimByAddress[address]? = some nowUnix ∧
  (¬ Unlimited (Text.trim clientIp) → r.lastClaimByIp[Text.trim clientIp]? = some nowUnix)

/-- The limiter with the claim on record. -/
def stamped (r : RateLimiter) (address : Address) (clientIp : String) (nowUnix : ℕ) : RateLimiter :=
  { r with
    lastClaimByAddress := r.lastClaimByAddress.insert address nowUnix
    lastClaimByIp :=
      if Unlimited (Text.trim clientIp) then r.lastClaimByIp
      else r.lastClaimByIp.insert (Text.trim clientIp) nowUnix }

theorem checkAndRecord_ok_iff :
    r.checkAndRecord address clientIp nowUnix = .ok t ↔
      r.Clear address clientIp nowUnix ∧ t = r.stamped address clientIp nowUnix := by
  simp only [Clear, ← retryAfter_eq_none_iff]
  unfold checkAndRecord stamped
  cases haddress : retryAfter r.windowDurationSecs nowUnix r.lastClaimByAddress[address]? with
  | some secs => simp
  | none =>
    dsimp only
    by_cases hlocal : Unlimited (Text.trim clientIp)
    · rw [if_pos (show _ ∨ _ ∨ _ from hlocal), if_pos hlocal]
      simp only [Except.ok.injEq, hlocal, not_true_eq_false, false_implies, and_self, true_and]
      exact eq_comm
    · rw [if_neg (show ¬ (_ ∨ _ ∨ _) from hlocal), if_neg hlocal]
      cases hip : retryAfter r.windowDurationSecs nowUnix r.lastClaimByIp[Text.trim clientIp]? with
      | some secs => simp [hlocal]
      | none =>
        simp only [Except.ok.injEq, implies_true, and_self, true_and]
        exact eq_comm

theorem stamped_eq_of_maps
    (haddress : (r.stamped address clientIp nowUnix).lastClaimByAddress = r.lastClaimByAddress)
    (hip : (r.stamped address clientIp nowUnix).lastClaimByIp = r.lastClaimByIp) :
    r.stamped address clientIp nowUnix = r := by
  simp only [stamped] at haddress hip ⊢
  rw [haddress, hip]

/-- Recording has no effect exactly if the claim is on record. -/
theorem stamped_eq_self_iff :
    r.stamped address clientIp nowUnix = r ↔ r.Recorded address clientIp nowUnix := by
  rw [Recorded, ← insert_eq_self_iff, ← insert_eq_self_iff]
  obtain ⟨window, byAddress, byIp⟩ := r
  by_cases hlocal : Unlimited (Text.trim clientIp) <;> simp [stamped, hlocal]

end RateLimiter

namespace FaucetService

variable {P : Primitives} (B : Bech32 P)

/-- The faucet has the funds and the mempool takes the payout. -/
def Payable (P : Primitives) (F : FaucetService) (L : ChainLedger) (recipient : Address)
    (amount : Amount) : Prop :=
  ∃ tx, F.payoutTx P L TxFee.default recipient amount = .ok tx ∧ L.Admissible P tx

/-- The claim is in order and due, is not on record with its second, and cannot be paid. -/
def Burnt (F : FaucetService) (L : ChainLedger) (c : Claim) : Prop :=
  ∃ recipient payoutSprx amount, F.vet B c = .ok (recipient, payoutSprx, amount) ∧
    F.limiter.Clear recipient c.clientIp c.nowUnix ∧
    ¬ F.limiter.Recorded recipient c.clientIp c.nowUnix ∧ ¬ F.Payable P L recipient amount

/-- A call has changed neither the faucet nor the mempool, and the limiter answers every later claim
as it would have before. -/
def Untouched (before after : FaucetService × ChainLedger) : Prop :=
  after.1.limiter.lastClaimByAddress = before.1.limiter.lastClaimByAddress ∧
  after.1.limiter.lastClaimByIp = before.1.limiter.lastClaimByIp ∧
  after.1.totalDisbursed = before.1.totalDisbursed ∧ after.1.claimsCount = before.1.claimsCount ∧
  after.1.auditLog = before.1.auditLog ∧ after.2.mempool = before.2.mempool ∧
  ∀ recipient clientIp nowUnix, after.1.limiter.checkAndRecord recipient clientIp nowUnix =
    before.1.limiter.checkAndRecord recipient clientIp nowUnix

variable {F : FaucetService} {L : ChainLedger} {c : Claim}

/-- A claim that is not in order, or comes too early. -/
theorem requestFunds_of_not_due (h : ∀ recipient payoutSprx amount,
      F.vet B c = .ok (recipient, payoutSprx, amount) →
        ¬ F.limiter.Clear recipient c.clientIp c.nowUnix) :
    (F.requestFunds B L c).1 = (F, L) := by
  unfold requestFunds
  split
  · rfl
  · rename_i recipient payoutSprx amount hvet
    split
    · rfl
    · rename_i limiter hlimiter
      exact absurd (RateLimiter.checkAndRecord_ok_iff.mp hlimiter).1
        (h recipient payoutSprx amount hvet)

/-- A claim that is recorded and then not paid. -/
theorem requestFunds_of_due {recipient : Address} {payoutSprx : ℕ} {amount : Amount}
    (hvet : F.vet B c = .ok (recipient, payoutSprx, amount))
    (hclear : F.limiter.Clear recipient c.clientIp c.nowUnix)
    (hpayable : ¬ F.Payable P L recipient amount) :
    ∃ e, F.requestFunds B L c =
      (({ F with limiter := F.limiter.stamped recipient c.clientIp c.nowUnix }, L), .error e) := by
  have hlimiter := RateLimiter.checkAndRecord_ok_iff.mpr ⟨hclear, rfl⟩
  simp only [requestFunds, hvet, hlimiter]
  rw [payoutTx_limiter]
  cases hbuilt : F.payoutTx P L TxFee.default recipient amount with
  | error e => exact ⟨e, rfl⟩
  | ok tx =>
    rcases ChainLedger.submitTransaction_outcome (P := P) L tx with
      ⟨hadmissible, -⟩ | ⟨-, e, hsubmit⟩
    · exact absurd ⟨tx, hbuilt, hadmissible⟩ hpayable
    · simp only [hsubmit]
      exact ⟨_, rfl⟩

/-- A claim that is paid. -/
theorem requestFunds_of_payable {recipient : Address} {payoutSprx : ℕ} {amount : Amount}
    (hvet : F.vet B c = .ok (recipient, payoutSprx, amount))
    (hclear : F.limiter.Clear recipient c.clientIp c.nowUnix)
    (hpayable : F.Payable P L recipient amount) (e : FaucetError) :
    (F.requestFunds B L c).2 ≠ .error e := by
  obtain ⟨tx, hbuilt, hadmissible⟩ := hpayable
  have hlimiter := RateLimiter.checkAndRecord_ok_iff.mpr ⟨hclear, rfl⟩
  rcases ChainLedger.submitTransaction_outcome (P := P) L tx with ⟨-, hsubmit⟩ | ⟨hrefused, -⟩
  · simp only [requestFunds, hvet, hlimiter]
    rw [payoutTx_limiter, hbuilt]
    simp [hsubmit]
  · exact absurd hadmissible hrefused

theorem untouched_refl (s : FaucetService × ChainLedger) : Untouched s s :=
  ⟨rfl, rfl, rfl, rfl, rfl, rfl, fun _ _ _ => rfl⟩

/-- A failed claim costs the claimant nothing, unless the limiter had admitted it before
it failed. -/
theorem failed_claim_untouched_iff (F : FaucetService) (L : ChainLedger) (c : Claim) :
    (∀ e, (F.requestFunds B L c).2 = .error e → Untouched (F, L) (F.requestFunds B L c).1) ↔
      ¬ F.Burnt B L c := by
  constructor
  · rintro h ⟨recipient, payoutSprx, amount, hvet, hclear, hnew, hpayable⟩
    obtain ⟨e, hfailed⟩ := requestFunds_of_due B hvet hclear hpayable
    obtain ⟨haddress, hip, -⟩ := h e (by rw [hfailed])
    rw [hfailed] at haddress hip
    refine hnew (RateLimiter.stamped_eq_self_iff.mp ?_)
    exact RateLimiter.stamped_eq_of_maps haddress hip
  · intro hburnt e hfailed
    by_cases hdue : ∃ recipient payoutSprx amount, F.vet B c = .ok (recipient, payoutSprx, amount) ∧
        F.limiter.Clear recipient c.clientIp c.nowUnix
    · obtain ⟨recipient, payoutSprx, amount, hvet, hclear⟩ := hdue
      have hpayable : ¬ F.Payable P L recipient amount :=
        fun hpayable => requestFunds_of_payable B hvet hclear hpayable e hfailed
      -- the claim was on record, so recording it again changes nothing
      have hrecorded : F.limiter.Recorded recipient c.clientIp c.nowUnix :=
        not_not.mp (fun hnew =>
          hburnt ⟨recipient, payoutSprx, amount, hvet, hclear, hnew, hpayable⟩)
      obtain ⟨e', hstate⟩ := requestFunds_of_due B hvet hclear hpayable
      rw [hstate, RateLimiter.stamped_eq_self_iff.mpr hrecorded]
      exact untouched_refl (F, L)
    · rw [requestFunds_of_not_due B (fun recipient payoutSprx amount hvet hclear =>
        hdue ⟨recipient, payoutSprx, amount, hvet, hclear⟩)]
      exact untouched_refl (F, L)

section Scenario
open Devnet

def earlyClaim : Claim := devClaim 3 "198.51.100.1"

/-- The development faucet after a claim of keypair 3 at second 1000. -/
def servedFaucet : FaucetService :=
  (devFaucet.requestFunds walletBech32 faucetLedger earlyClaim).1.1

/-- A second claim in the same window is refused without a trace. -/
theorem failed_claim_untouched_iff_early :
    (servedFaucet.requestFunds walletBech32 faucetLedger earlyClaim).2 =
      .error (.rateLimitExceeded 3600) ∧
    Untouched (servedFaucet, faucetLedger)
      (servedFaucet.requestFunds walletBech32 faucetLedger earlyClaim).1 := by
  obtain ⟨hfailed, hrecipient, hrecorded, hwindow⟩ :
      (servedFaucet.requestFunds walletBech32 faucetLedger earlyClaim).2 =
        .error (.rateLimitExceeded 3600) ∧
      (servedFaucet.vet walletBech32 earlyClaim).map (·.1) = .ok (addressOf 3) ∧
      servedFaucet.limiter.lastClaimByAddress[addressOf 3]? = some 1000 ∧
      ¬ servedFaucet.limiter.windowDurationSecs ≤ earlyClaim.nowUnix - 1000 := by
    decide +kernel
  refine ⟨hfailed,
    (failed_claim_untouched_iff walletBech32 servedFaucet faucetLedger earlyClaim).mpr ?_ _ hfailed⟩
  rintro ⟨recipient, payoutSprx, amount, hvet, hclear, -⟩
  rw [hvet] at hrecipient
  cases hrecipient
  exact hwindow (hclear.1 1000 hrecorded)

/-- The same chain while the faucet account is empty. -/
def emptyLedger : ChainLedger := ChainLedger.initFromGenesis walletPrimitives (devGenesis [])

/-- A claim fails for lack of funds; made again once the account is filled it is refused for an
hour, though a faucet that had not seen it would pay. -/
theorem unpaid_claim_rate_limited :
    let failed := devFaucet.requestFunds walletBech32 emptyLedger earlyClaim
    failed.2 = .error .insufficientFunds ∧
    failed.1.1.limiter.lastClaimByAddress[addressOf 3]? = some 1000 ∧
    devFaucet.limiter.lastClaimByAddress[addressOf 3]? = none ∧
    (failed.1.1.requestFunds walletBech32 faucetLedger earlyClaim).2 =
      .error (.rateLimitExceeded 3600) ∧
    (devFaucet.requestFunds walletBech32 faucetLedger earlyClaim).2.isOk = true := by
  decide +kernel

end Scenario

end FaucetService

end Sprax.Faucet
