import Sprax.Admission
import Sprax.Rpc

/-!
# The testnet faucet

`request_funds` checks the request and the rate limit, signs a transfer with the
nonce of the committed state, and hands it to the mempool. The limiter records a
claim before the funds are looked at, so a claim can use up its window and still
be refused. A call has two outcomes, stated once: it changes nothing but the
limiter, or one payout joins the mempool and is recorded.
-/
namespace Sprax
open Std StateAccessor

/-- The `Display` text of the error. -/
def CoreError.display : CoreError → String
  | .insufficientFunds balance required =>
    s!"Insufficient funds: balance {balance}, required {required}"
  | .invalidNonce accountNonce txNonce =>
    s!"Invalid nonce: account nonce {accountNonce}, tx nonce {txNonce}"
  | .moduleError moduleName reason => s!"Module error ({moduleName}): {reason}"
  | .stateError reason => s!"State error: {reason}"

def Amount.fromSprxWhole (sprx : ℕ) : Except TypeError Amount :=
  if h : sprx * attoSprxPerSprx < 2 ^ 128 then .ok ⟨sprx * attoSprxPerSprx, h⟩
  else .error (.amountOverflow "whole sprx amount too large")

section Addresses
variable {P : Primitives} (B : Bech32 P)

/-- The error text for decoded bytes that are not an address. -/
def Address.sliceRefusal (bs : Bytes) : String :=
  let found := bs.length
  s!"Invalid address format: expected 20 bytes, found {found}"

/-- The error text for a text that `Address::parse` refuses. -/
def Address.refusal (s : String) : String :=
  if "sprax".toList.isPrefixOf s.toList then
    match B.decode s with
    | .error e => s!"Invalid address format: bech32 decode error: {e}"
    | .ok (hrp, data) =>
      if hrp = "sprax" then Address.sliceRefusal data
      else s!"Invalid address format: invalid prefix '{hrp}', expected 'sprax'"
  else match Text.hexDecode (Text.stripMark s) with
    | .error e =>
      let text := e.display
      s!"Hex decoding error: {text}"
    | .ok bs => Address.sliceRefusal bs

end Addresses

namespace Faucet

inductive FaucetError
  | rateLimitExceeded (retryAfterSecs : ℕ)
  | amountExceedsLimit (requested maxAllowed : String)
  | invalidAddress (reason : String)
  | insufficientFunds
  | submissionError (reason : String)
  deriving DecidableEq

def defaultFaucetPayoutSprx : ℕ := 100

def testnetNotice : String := "SPRX TESTNET ONLY — TOKENS HAVE NO REAL WORLD VALUE"

/-- The arguments of one call of `request_funds`. -/
structure Claim where
  recipient : String
  requestedSprx : Option ℕ
  clientIp : String
  nowUnix : ℕ

structure ClaimResponse where
  success : Bool
  txHash : Hash32
  recipient : Address
  amount : Amount
  amountSprx : String
  message : String
  networkNotice : String
  deriving DecidableEq

structure AuditEntry where
  timestampUnix : ℕ
  recipient : Address
  amount : Amount
  txHash : Hash32
  clientIp : String
  deriving DecidableEq

structure RateLimiter where
  windowDurationSecs : ℕ
  lastClaimByAddress : ExtTreeMap Address ℕ compare
  lastClaimByIp : ExtTreeMap String ℕ compare

namespace RateLimiter

def new (windowDurationSecs : ℕ) : RateLimiter := ⟨windowDurationSecs, ∅, ∅⟩

/-- The seconds left of the window of an earlier claim. A clock that went back
counts as no time elapsed. -/
def retryAfter (window nowUnix : ℕ) : Option ℕ → Option ℕ
  | none => none
  | some lastTime =>
    if nowUnix - lastTime < window then some (window - (nowUnix - lastTime)) else none

/-- Nothing is recorded unless both checks pass; the local host is not limited. -/
def checkAndRecord (r : RateLimiter) (address : Address) (clientIp : String) (nowUnix : ℕ) :
    Except FaucetError RateLimiter :=
  match retryAfter r.windowDurationSecs nowUnix r.lastClaimByAddress[address]? with
  | some secs => .error (.rateLimitExceeded secs)
  | none =>
    let recorded := { r with lastClaimByAddress := r.lastClaimByAddress.insert address nowUnix }
    let cleanIp := Text.trim clientIp
    if cleanIp = "" ∨ cleanIp = "127.0.0.1" ∨ cleanIp = "localhost" then .ok recorded
    else match retryAfter r.windowDurationSecs nowUnix r.lastClaimByIp[cleanIp]? with
      | some secs => .error (.rateLimitExceeded secs)
      | none => .ok { recorded with lastClaimByIp := r.lastClaimByIp.insert cleanIp nowUnix }

end RateLimiter

structure FaucetService where
  keypair : Ed25519Keypair
  chainId : ChainId
  limiter : RateLimiter
  maxPayout : Amount
  totalDisbursed : Amount
  claimsCount : ℕ
  auditLog : List AuditEntry

namespace FaucetService

def new (keypair : Ed25519Keypair) (chainId : ChainId) (rateLimitSecs maxPayoutSprx : ℕ) :
    FaucetService :=
  { keypair := keypair
    chainId := chainId
    limiter := RateLimiter.new rateLimitSecs
    maxPayout := match Amount.fromSprxWhole maxPayoutSprx with
      | .ok amount => amount
      | .error _ => Amount.zero
    totalDisbursed := Amount.zero
    claimsCount := 0
    auditLog := [] }

variable {P : Primitives} (B : Bech32 P)

def faucetAddress (P : Primitives) (F : FaucetService) : Address := F.keypair.address P

/-- The checks of the request itself: recipient, whole units asked for, amount. -/
def vet (F : FaucetService) (c : Claim) : Except FaucetError (Address × ℕ × Amount) :=
  let text := Text.trim c.recipient
  match Address.parse B text with
  | none =>
    let e := Address.refusal B text
    .error (.invalidAddress s!"invalid address: {e}")
  | some recipient =>
    let payoutSprx := c.requestedSprx.getD defaultFaucetPayoutSprx
    match Amount.fromSprxWhole payoutSprx with
    | .error e => .error (.invalidAddress e.display)
    | .ok payoutAmount =>
      if F.maxPayout.atto < payoutAmount.atto then
        .error (.amountExceedsLimit s!"{payoutSprx} tSPRX" F.maxPayout.toSprxString)
      else .ok (recipient, payoutSprx, payoutAmount)

/-- The body of a payout. Its nonce is that of the committed state, whatever is
pending; the timeout wraps as the 64-bit addition does. -/
def payoutBody (P : Primitives) (F : FaucetService) (L : ChainLedger) (fee : TxFee)
    (account : AccountState) (recipient : Address) (amount : Amount) : TxBody :=
  { chainId := F.chainId
    sender := F.faucetAddress P
    nonce := account.nonce
    messages := [.transfer recipient amount]
    fee := fee
    memo := "SPRX Public Testnet Faucet Disbursement"
    timeoutHeight := (L.height + 50) % 2 ^ 64 }

/-- The signed transfer, if the committed balance covers it and the fee. -/
def payoutTx (P : Primitives) (F : FaucetService) (L : ChainLedger) (fee : TxFee)
    (recipient : Address) (amount : Amount) : Except FaucetError Transaction :=
  match getAccount P L.store (F.faucetAddress P) with
  | .error _ => .error .insufficientFunds
  | .ok account =>
    match amount.checkedAdd fee.amount with
    | .error _ => .error .insufficientFunds
    | .ok totalNeeded =>
      if account.balance.atto < totalNeeded.atto then .error .insufficientFunds
      else
        let body := F.payoutBody P L fee account recipient amount
        match Transaction.new body .ed25519 (F.keypair.publicKeyBytes P)
          (F.keypair.sign P (P.txBodyJson.toVec body)) with
        | .error e => .error (.submissionError e)
        | .ok tx => .ok tx

/-- The counter, which keeps its value when the sum does not fit, the number of
claims and the audit log. -/
def record (F : FaucetService) (c : Claim) (recipient : Address) (amount : Amount)
    (txHash : Hash32) :
    FaucetService :=
  { F with
    totalDisbursed := match F.totalDisbursed.checkedAdd amount with
      | .ok total => total
      | .error _ => F.totalDisbursed
    claimsCount := F.claimsCount + 1
    auditLog := F.auditLog ++ [⟨c.nowUnix, recipient, amount, txHash, c.clientIp⟩] }

def response (recipient : Address) (payoutSprx : ℕ) (amount : Amount) (txHash : Hash32) :
    ClaimResponse :=
  ⟨true, txHash, recipient, amount, s!"{payoutSprx} tSPRX",
    "Tokens successfully disbursed to testnet address", testnetNotice⟩

/-- Processes a public faucet disbursement request. -/
def requestFunds (F : FaucetService) (L : ChainLedger) (c : Claim) :
    (FaucetService × ChainLedger) × Except FaucetError ClaimResponse :=
  match F.vet B c with
  | .error e => ((F, L), .error e)
  | .ok (recipient, payoutSprx, amount) =>
    match F.limiter.checkAndRecord recipient c.clientIp c.nowUnix with
    | .error e => ((F, L), .error e)
    | .ok limiter =>
      let F := { F with limiter := limiter }
      match F.payoutTx P L TxFee.default recipient amount with
      | .error e => ((F, L), .error e)
      | .ok tx =>
        match L.submitTransaction P tx with
        | (L, .error e) => ((F, L), .error (.submissionError e.display))
        | (L, .ok txHash) =>
          ((F.record c recipient amount txHash, L),
            .ok (response recipient payoutSprx amount txHash))

/-- The claim passes every check of the faucet and of the mempool, for a payout
of `amount` to `recipient` by `tx`. -/
structure Granted (F : FaucetService) (L : ChainLedger) (c : Claim) (recipient : Address)
    (payoutSprx : ℕ) (amount : Amount) (tx : Transaction) : Prop where
  vetted : F.vet B c = .ok (recipient, payoutSprx, amount)
  unlimited : (F.limiter.checkAndRecord recipient c.clientIp c.nowUnix).isOk = true
  built : F.payoutTx P L TxFee.default recipient amount = .ok tx
  admissible : L.Admissible P tx

/-- A payout is a transfer from the faucet account under its committed nonce. -/
structure IsPayout (P : Primitives) (F : FaucetService) (L : ChainLedger) (recipient : Address)
    (amount : Amount) (tx : Transaction) : Prop where
  sender_eq : tx.body.sender = F.faucetAddress P
  nonce_eq : tx.body.nonce = nonceOf P L.store (F.faucetAddress P)
  messages_eq : tx.body.messages = [.transfer recipient amount]

theorem isPayout_of_payoutTx {F : FaucetService} {L : ChainLedger} {fee : TxFee}
    {recipient : Address} {amount : Amount} {tx : Transaction}
    (h : F.payoutTx P L fee recipient amount = .ok tx) : F.IsPayout P L recipient amount tx := by
  unfold payoutTx at h
  split at h
  · cases h
  · rename_i account hread
    split at h
    · cases h
    · split at h
      · cases h
      · dsimp only at h
        split at h
        · cases h
        · rename_i built hnew
          cases h
          rw [Transaction.new_ok hnew]
          exact ⟨rfl, (nonceOf_of_ok hread).symm, rfl⟩

theorem record_totalDisbursed (F : FaucetService) (c : Claim) (recipient : Address)
    (amount : Amount) (txHash : Hash32) : (F.record c recipient amount txHash).totalDisbursed.atto =
      if F.totalDisbursed.atto + amount.atto < 2 ^ 128 then F.totalDisbursed.atto + amount.atto
      else F.totalDisbursed.atto := by
  unfold record Amount.checkedAdd
  by_cases hfits : F.totalDisbursed.atto + amount.atto < 2 ^ 128
  · rw [if_pos hfits, dif_pos hfits]
  · rw [if_neg hfits, dif_neg hfits]

/-- The limiter has no part in the payout. -/
theorem payoutTx_limiter (F : FaucetService) (limiter : RateLimiter) (L : ChainLedger) (fee : TxFee)
    (recipient : Address) (amount : Amount) :
    { F with limiter := limiter }.payoutTx P L fee recipient amount =
      F.payoutTx P L fee recipient amount := rfl

/-- What a call can leave behind. -/
inductive Outcome (F : FaucetService) (L : ChainLedger) (c : Claim) :
    (FaucetService × ChainLedger) × Except FaucetError ClaimResponse → Prop
  | refused (limiter : RateLimiter) (e : FaucetError)
      (hnever : ∀ recipient payoutSprx amount tx,
        ¬ F.Granted B L c recipient payoutSprx amount tx) :
      Outcome F L c (({ F with limiter := limiter }, L), .error e)
  | granted (limiter : RateLimiter) (recipient : Address) (payoutSprx : ℕ) (amount : Amount)
      (tx : Transaction) (hgranted : F.Granted B L c recipient payoutSprx amount tx) :
      Outcome F L c
        (({ F with limiter := limiter }.record c recipient amount (Hasher.txHash P tx),
          { L with mempool := L.mempool ++ [tx] }),
          .ok (response recipient payoutSprx amount (Hasher.txHash P tx)))

theorem requestFunds_outcome (F : FaucetService) (L : ChainLedger) (c : Claim) :
    Outcome B F L c (F.requestFunds B L c) := by
  unfold requestFunds
  split
  · rename_i e hvet
    refine .refused F.limiter e (fun recipient payoutSprx amount tx h => ?_)
    cases hvet.symm.trans h.vetted
  · rename_i recipient payoutSprx amount hvet
    split
    · rename_i e hlimit
      refine .refused F.limiter e (fun recipient' payoutSprx' amount' tx h => ?_)
      cases hvet.symm.trans h.vetted
      have hunlimited := h.unlimited
      rw [hlimit] at hunlimited
      cases hunlimited
    · rename_i limiter hlimit
      dsimp only
      rw [payoutTx_limiter]
      split
      · rename_i e hbuilt
        refine .refused limiter e (fun recipient' payoutSprx' amount' tx h => ?_)
        cases hvet.symm.trans h.vetted
        cases hbuilt.symm.trans h.built
      · rename_i tx hbuilt
        rcases ChainLedger.submitTransaction_outcome (P := P) L tx with
          ⟨hadmissible, hsubmit⟩ | ⟨hrefused, e, hsubmit⟩
        · rw [hsubmit]
          exact .granted limiter recipient payoutSprx amount tx
            ⟨hvet, by rw [hlimit]; rfl, hbuilt, hadmissible⟩
        · rw [hsubmit]
          refine .refused limiter _ (fun recipient' payoutSprx' amount' tx' h => ?_)
          cases hvet.symm.trans h.vetted
          cases hbuilt.symm.trans h.built
          exact hrefused h.admissible

end FaucetService

end Faucet

end Sprax
