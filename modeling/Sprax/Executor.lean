import Sprax.Store

/-!
# Transaction execution

`execute_transaction` writes into the live store as it goes, so it returns the
store it leaves behind together with its result, also when the result is an
error. The part before the first write (`chargeSender`) only reads; the credit
loop then re-reads every recipient after the sender was written back.
-/
namespace Sprax
open StateAccessor

/-- Saturating increment of a 64-bit counter. -/
def saturatingSucc (n : ℕ) : ℕ := if n < u64Max then n + 1 else n

theorem le_saturatingSucc (n : ℕ) : n ≤ saturatingSucc n := by
  unfold saturatingSucc
  split <;> omega

theorem saturatingSucc_of_lt {n : ℕ} (h : n < u64Max) : saturatingSucc n = n + 1 := if_pos h

/-- The one gas parameter that execution reads. -/
structure GasConfig where
  baseTxCost : ℕ
  deriving DecidableEq

def GasConfig.default : GasConfig := ⟨21000⟩

structure TxExecutor where
  gasConfig : GasConfig
  deriving DecidableEq

def TxExecutor.default : TxExecutor := ⟨GasConfig.default⟩

def TxMessage.isZeroTransfer : TxMessage → Bool
  | .transfer _ amount => amount.isZero
  | _ => false

/-- Native value moved by the messages, as an unbounded sum. -/
def transferSum : List TxMessage → ℕ
  | [] => 0
  | .transfer _ amount :: rest => amount.atto + transferSum rest
  | _ :: rest => transferSum rest

/-- Adds up the transfers in message order, with the checked addition of the source. -/
def totalTransferCost (total : Amount) : List TxMessage → Except CoreError Amount
  | [] => .ok total
  | .transfer _ amount :: rest =>
    match total.checkedAdd amount with
    | .ok total => totalTransferCost total rest
    | .error e => .error (.stateError e.display)
  | _ :: rest => totalTransferCost total rest

def totalRequired (tx : Transaction) : Except CoreError Amount :=
  match totalTransferCost Amount.zero tx.body.messages with
  | .error e => .error e
  | .ok cost =>
    match cost.checkedAdd tx.body.fee.amount with
    | .ok required => .ok required
    | .error e => .error (.stateError e.display)

variable (P : Primitives)

namespace TxExecutor

/-- The signature check of the signer's algorithm. -/
def verifySignature (tx : Transaction) : Except CoreError Unit :=
  match tx.keyType with
  | .ed25519 =>
    match Ed25519Keypair.verify P tx.publicKey (tx.signBytes P) tx.signature with
    | .ok () => .ok ()
    | .error e =>
      let text := e.display
      .error (.moduleError "crypto" s!"ed25519 signature verification failed: {text}")
  | .secp256k1 =>
    match Secp256k1Keypair.verify P tx.publicKey (tx.signBytes P) tx.signature with
    | .ok () => .ok ()
    | .error e =>
      let text := e.display
      .error (.moduleError "crypto" s!"secp256k1 signature verification failed: {text}")

def validateTransactionStatic (tx : Transaction) (expectedChainId : String) :
    Except CoreError Unit :=
  let found := tx.body.chainId.id
  let expectedSender := addressOfPublicKey P tx.publicKey
  if found ≠ expectedChainId then
    .error (.moduleError "auth"
      s!"chain ID mismatch: expected '{expectedChainId}', found '{found}'")
  else if tx.body.sender ≠ expectedSender then
    let sender := tx.body.sender.display P
    let expected := expectedSender.display P
    .error (.moduleError "auth"
      s!"sender address '{sender}' does not match public key derived address '{expected}'")
  else match verifySignature P tx with
    | .error e => .error e
    | .ok () =>
      if tx.body.messages.any TxMessage.isZeroTransfer then
        .error (.moduleError "bank" "transfer amount must be greater than zero")
      else .ok ()

/-- The checks against the sender's account, shared by admission and execution:
nonce, total cost and funds. Returns the account and the required amount. -/
def checkSender (store : Store) (tx : Transaction) : Except CoreError (AccountState × Amount) :=
  match getAccount P store tx.body.sender with
  | .error e => .error e
  | .ok sender =>
    if tx.body.nonce ≠ sender.nonce then .error (.invalidNonce sender.nonce tx.body.nonce)
    else match totalRequired tx with
      | .error e => .error e
      | .ok required =>
        if sender.balance.atto < required.atto then
          .error (.insufficientFunds sender.balance.toSprxString required.toSprxString)
        else .ok (sender, required)

/-- Everything before the first write: the sender's account as it will be
written back, with cost deducted and nonce advanced. -/
def chargeSender (store : Store) (tx : Transaction) (expectedChainId : String) :
    Except CoreError AccountState :=
  match validateTransactionStatic P tx expectedChainId with
  | .error e => .error e
  | .ok () =>
    match checkSender P store tx with
    | .error e => .error e
    | .ok (sender, required) =>
      match sender.balance.checkedSub required with
      | .error e => .error (.stateError e.display)
      | .ok balance => .ok { sender with balance := balance, nonce := saturatingSucc sender.nonce }

/-- The credit loop. What was credited before a failure stays credited. -/
def creditMessages (store : Store) : List TxMessage → Store × Except CoreError Unit
  | [] => (store, .ok ())
  | .transfer recipient amount :: rest =>
    match getAccount P store recipient with
    | .error e => (store, .error e)
    | .ok account =>
      match account.balance.checkedAdd amount with
      | .error e => (store, .error (.stateError e.display))
      | .ok balance =>
        creditMessages (setAccount P store recipient { account with balance := balance }) rest
  | _ :: rest => creditMessages store rest

def executeTransaction (executor : TxExecutor) (store : Store) (tx : Transaction)
    (currentHeight : ℕ) (expectedChainId : String) : Store × Except CoreError TxReceipt :=
  match chargeSender P store tx expectedChainId with
  | .error e => (store, .error e)
  | .ok sender =>
    match creditMessages P (setAccount P store tx.body.sender sender) tx.body.messages with
    | (store, .error e) => (store, .error e)
    | (store, .ok ()) =>
      (store, .ok ⟨Hasher.txHash P tx, currentHeight, true,
        executor.gasConfig.baseTxCost, none, []⟩)

end TxExecutor

theorem totalTransferCost_ok {total cost : Amount} {msgs : List TxMessage}
    (h : totalTransferCost total msgs = .ok cost) :
    cost.atto = total.atto + transferSum msgs := by
  induction total, msgs using totalTransferCost.induct with
  | case1 total => cases h; simp [transferSum]
  | case2 total recipient amount rest sum hsum ih =>
    simp only [totalTransferCost, hsum] at h
    have hs := Amount.checkedAdd_ok.mp hsum
    have hc := ih h
    simp only [transferSum]
    omega
  | case3 total recipient amount rest e hsum =>
    simp only [totalTransferCost, hsum] at h
    cases h
  | case4 total msg rest hne ih =>
    rw [totalTransferCost] at h
    · rw [transferSum]
      · exact ih h
      · exact hne
    · exact hne

theorem totalRequired_ok {tx : Transaction} {required : Amount}
    (h : totalRequired tx = .ok required) :
    required.atto = transferSum tx.body.messages + tx.body.fee.amount.atto := by
  unfold totalRequired at h
  split at h
  · cases h
  · rename_i cost hcost
    have hc := totalTransferCost_ok hcost
    split at h
    · rename_i sum hsum
      cases h
      have hs := Amount.checkedAdd_ok.mp hsum
      simp only [Amount.zero] at hc
      omega
    · cases h

/-- The sender passed every check: `old` is the account read and `new` the one
that is written back. -/
structure Charged (store : Store) (tx : Transaction) (expectedChainId : String)
    (old new : AccountState) : Prop where
  valid : TxExecutor.validateTransactionStatic P tx expectedChainId = .ok ()
  read : getAccount P store tx.body.sender = .ok old
  nonce_eq : tx.body.nonce = old.nonce
  nonce_new : new.nonce = saturatingSucc old.nonce
  paid : new.balance.atto + (transferSum tx.body.messages + tx.body.fee.amount.atto) =
    old.balance.atto

variable {P}

namespace TxExecutor

theorem checkSender_ok {store : Store} {tx : Transaction} {sender : AccountState}
    {required : Amount} (h : checkSender P store tx = .ok (sender, required)) :
    getAccount P store tx.body.sender = .ok sender ∧ tx.body.nonce = sender.nonce ∧
      totalRequired tx = .ok required := by
  unfold checkSender at h
  split at h
  · cases h
  · rename_i account hread
    split at h
    · cases h
    · rename_i hnonce
      split at h
      · cases h
      · rename_i total htotal
        split at h
        · cases h
        · cases h
          exact ⟨hread, not_not.mp hnonce, htotal⟩

theorem chargeSender_ok {store : Store} {tx : Transaction} {chainId : String}
    {new : AccountState} (h : chargeSender P store tx chainId = .ok new) :
    ∃ old, Charged P store tx chainId old new := by
  unfold chargeSender at h
  split at h
  · cases h
  · rename_i hvalid
    split at h
    · cases h
    · rename_i sender required hsender
      obtain ⟨hread, hnonce, hrequired⟩ := checkSender_ok hsender
      split at h
      · cases h
      · rename_i balance hbalance
        cases h
        have hpaid := Amount.checkedSub_ok.mp hbalance
        rw [totalRequired_ok hrequired] at hpaid
        exact ⟨sender, hvalid, hread, hnonce, rfl, hpaid⟩

/-- Account reads are all that the checks take from the store. -/
theorem chargeSender_congr {s t : Store} (h : s.state = t.state) (tx : Transaction)
    (chainId : String) : chargeSender P s tx chainId = chargeSender P t tx chainId := by
  simp only [chargeSender, checkSender, getAccount_congr P h]

/-- Whatever single credits preserve, the credit loop preserves, also when it
stops early. -/
theorem creditMessages_preserves {I : Store → Prop}
    (hset : ∀ s a old balance, getAccount P s a = .ok old → I s →
      I (setAccount P s a { old with balance := balance }))
    {s : Store} (msgs : List TxMessage) (hs : I s) : I (creditMessages P s msgs).1 := by
  induction s, msgs using creditMessages.induct P with
  | case1 s => exact hs
  | case2 s recipient amount rest e hread => simpa only [creditMessages, hread] using hs
  | case3 s recipient amount rest account hread e hadd =>
    simpa only [creditMessages, hread, hadd] using hs
  | case4 s recipient amount rest account hread balance hadd ih =>
    simp only [creditMessages, hread, hadd]
    exact ih (hset s recipient account balance hread hs)
  | case5 s msg rest hne ih =>
    rw [creditMessages]
    · exact ih hs
    · exact hne

/-- Credits write account records only. -/
theorem creditMessages_chainMeta (s : Store) (msgs : List TxMessage) :
    (creditMessages P s msgs).1.chainMeta = s.chainMeta :=
  creditMessages_preserves (I := fun t => t.chainMeta = s.chainMeta) (fun _ _ _ _ _ h => h) msgs rfl

theorem creditMessages_readable {s : Store} (msgs : List TxMessage) (hs : Readable P s) :
    Readable P (creditMessages P s msgs).1 :=
  creditMessages_preserves (fun _ a _ _ _ h => h.setAccount a _) msgs hs

theorem creditMessages_nonceOf (s : Store) (msgs : List TxMessage) (a : Address) :
    nonceOf P (creditMessages P s msgs).1 a = nonceOf P s a := by
  refine creditMessages_preserves (I := fun t => nonceOf P t a = nonceOf P s a) ?_ msgs rfl
  intro t b old balance hread ht
  rw [nonceOf_setAccount]
  split
  · rename_i hab
    subst b
    rw [← ht, nonceOf_of_ok hread]
  · exact ht

/-- The loop depends on the state table alone. -/
theorem creditMessages_congr {s t : Store} (h : s.state = t.state) (msgs : List TxMessage) :
    (creditMessages P s msgs).1.state = (creditMessages P t msgs).1.state ∧
      (creditMessages P s msgs).2 = (creditMessages P t msgs).2 := by
  induction s, msgs using creditMessages.induct P generalizing t with
  | case1 s => exact ⟨h, rfl⟩
  | case2 s recipient amount rest e hread =>
    have hread' := getAccount_congr P h recipient ▸ hread
    simp only [creditMessages, hread, hread', h, and_self]
  | case3 s recipient amount rest account hread e hadd =>
    have hread' := getAccount_congr P h recipient ▸ hread
    simp only [creditMessages, hread, hread', hadd, h, and_self]
  | case4 s recipient amount rest account hread balance hadd ih =>
    have hread' := getAccount_congr P h recipient ▸ hread
    simp only [creditMessages, hread, hread', hadd]
    exact ih (by simp only [setAccount, Store.set, h])
  | case5 s msg rest hne ih =>
    rw [creditMessages, creditMessages]
    · exact ih h
    · exact hne
    · exact hne

theorem totalBalance_credit {s : Store} {a : Address} {account : AccountState}
    {amount balance : Amount} (hread : getAccount P s a = .ok account)
    (hadd : account.balance.checkedAdd amount = .ok balance) :
    totalBalance P (setAccount P s a { account with balance := balance }) =
      totalBalance P s + amount.atto := by
  have hset := totalBalance_setAccount hread { account with balance := balance }
  have hbal := Amount.checkedAdd_ok.mp hadd
  dsimp only at hset
  omega

/-- A completed loop adds exactly the transferred value, whichever recipients repeat. -/
theorem creditMessages_total {s : Store} {msgs : List TxMessage}
    (h : (creditMessages P s msgs).2 = .ok ()) :
    totalBalance P (creditMessages P s msgs).1 = totalBalance P s + transferSum msgs := by
  induction s, msgs using creditMessages.induct P with
  | case1 s => simp [creditMessages, transferSum]
  | case2 s recipient amount rest e hread =>
    simp only [creditMessages, hread] at h
    cases h
  | case3 s recipient amount rest account hread e hadd =>
    simp only [creditMessages, hread, hadd] at h
    cases h
  | case4 s recipient amount rest account hread balance hadd ih =>
    simp only [creditMessages, hread, hadd] at h ⊢
    rw [ih h, totalBalance_credit hread hadd, transferSum]
    omega
  | case5 s msg rest hne ih =>
    rw [creditMessages] at h ⊢
    · rw [transferSum, ih h]
      exact hne
    · exact hne
    · exact hne

/-- Every credit fits as long as all balances together stay below the 128-bit bound. -/
theorem creditMessages_ok {s : Store} {msgs : List TxMessage} (hs : Readable P s)
    (hb : totalBalance P s + transferSum msgs < 2 ^ 128) :
    (creditMessages P s msgs).2 = .ok () := by
  induction s, msgs using creditMessages.induct P with
  | case1 s => simp [creditMessages]
  | case2 s recipient amount rest e hread =>
    obtain ⟨account, hok⟩ := hs recipient
    rw [hread] at hok
    cases hok
  | case3 s recipient amount rest account hread e hadd =>
    have hle := balance_le_total hread
    simp only [transferSum] at hb
    rw [Amount.checkedAdd_of_lt (by omega)] at hadd
    cases hadd
  | case4 s recipient amount rest account hread balance hadd ih =>
    simp only [creditMessages, hread, hadd]
    simp only [transferSum] at hb
    refine ih (hs.setAccount _ _) ?_
    rw [totalBalance_credit hread hadd]
    omega
  | case5 s msg rest hne ih =>
    rw [transferSum] at hb
    · rw [creditMessages]
      · exact ih hs hb
      · exact hne
    · exact hne

variable (executor : TxExecutor)

/-- A transaction refused before the first write leaves the store alone. -/
theorem executeTransaction_refused {s : Store} {tx : Transaction} {chainId : String}
    {e : CoreError} (h : chargeSender P s tx chainId = .error e) (height : ℕ) :
    executeTransaction P executor s tx height chainId = (s, .error e) := by
  simp only [executeTransaction, h]

/-- The receipt of a successful execution. -/
def receiptOf (P : Primitives) (executor : TxExecutor) (tx : Transaction) (height : ℕ) :
    TxReceipt :=
  ⟨Hasher.txHash P tx, height, true, executor.gasConfig.baseTxCost, none, []⟩

/-- Past the checks, the store and the outcome are those of the credit loop. -/
theorem executeTransaction_charged {s : Store} {tx : Transaction} {chainId : String}
    {new : AccountState} (h : chargeSender P s tx chainId = .ok new) (height : ℕ) :
    executeTransaction P executor s tx height chainId =
      ((creditMessages P (setAccount P s tx.body.sender new) tx.body.messages).1,
        (creditMessages P (setAccount P s tx.body.sender new) tx.body.messages).2.map
          (fun _ => receiptOf P executor tx height)) := by
  simp only [executeTransaction, h]
  split <;> rename_i hc <;> rw [hc] <;> rfl

/-- Execution writes account records only. -/
theorem executeTransaction_chainMeta (s : Store) (tx : Transaction) (height : ℕ)
    (chainId : String) :
    (executeTransaction P executor s tx height chainId).1.chainMeta = s.chainMeta := by
  cases hc : chargeSender P s tx chainId with
  | error e => rw [executeTransaction_refused executor hc]
  | ok new =>
    rw [executeTransaction_charged executor hc]
    exact creditMessages_chainMeta _ _

theorem executeTransaction_receipt {s s' : Store} {tx : Transaction} {chainId : String}
    {height : ℕ} {receipt : TxReceipt}
    (h : executeTransaction P executor s tx height chainId = (s', .ok receipt)) :
    receipt = receiptOf P executor tx height := by
  unfold executeTransaction at h
  split at h
  · cases h
  · split at h
    · cases h
    · cases h
      rfl

/-- Execution depends on the state table alone. -/
theorem executeTransaction_congr {s t : Store} (h : s.state = t.state) (tx : Transaction)
    (height : ℕ) (chainId : String) :
    (executeTransaction P executor s tx height chainId).1.state =
        (executeTransaction P executor t tx height chainId).1.state ∧
      (executeTransaction P executor s tx height chainId).2 =
        (executeTransaction P executor t tx height chainId).2 := by
  have hcharge := chargeSender_congr (P := P) h tx chainId
  cases hc : chargeSender P s tx chainId with
  | error e =>
    rw [executeTransaction_refused executor hc,
      executeTransaction_refused executor (hcharge ▸ hc)]
    exact ⟨h, rfl⟩
  | ok new =>
    have hset : (setAccount P s tx.body.sender new).state =
        (setAccount P t tx.body.sender new).state := by simp only [setAccount, Store.set, h]
    obtain ⟨hstate, hres⟩ := creditMessages_congr (P := P) hset tx.body.messages
    rw [executeTransaction_charged executor hc,
      executeTransaction_charged executor (hcharge ▸ hc)]
    exact ⟨hstate, by rw [hres]⟩

/-- No nonce ever decreases, also when the execution fails half way. -/
theorem nonceOf_le_executeTransaction (s : Store) (tx : Transaction) (height : ℕ)
    (chainId : String) (a : Address) :
    nonceOf P s a ≤ nonceOf P (executeTransaction P executor s tx height chainId).1 a := by
  cases hc : chargeSender P s tx chainId with
  | error e => rw [executeTransaction_refused executor hc]
  | ok new =>
    obtain ⟨old, hold⟩ := chargeSender_ok hc
    rw [executeTransaction_charged executor hc]
    dsimp only
    rw [creditMessages_nonceOf, nonceOf_setAccount]
    split
    · rename_i ha
      rw [← ha, nonceOf_of_ok hold.read, hold.nonce_new]
      exact le_saturatingSucc _
    · exact le_rfl

end TxExecutor

section Solvency
variable (P)

/-- Stores in which no credit can fail: every record decodes, and all balances
together fit one 128-bit amount. -/
structure Solvent (s : Store) : Prop where
  readable : Readable P s
  bounded : totalBalance P s < 2 ^ 128

/-- What one successful execution does to a solvent store. -/
structure Executed (s : Store) (tx : Transaction) (s' : Store) : Prop where
  solvent : Solvent P s'
  conserved : totalBalance P s' + tx.body.fee.amount.atto = totalBalance P s
  nonce_eq : tx.body.nonce = nonceOf P s tx.body.sender
  nonces : ∀ a, nonceOf P s' a =
    if tx.body.sender = a then saturatingSucc (nonceOf P s a) else nonceOf P s a

variable {P}

theorem Solvent.congr {s t : Store} (h : Solvent P s) (he : s.state = t.state) : Solvent P t :=
  ⟨h.readable.congr he, totalBalance_congr (P := P) he ▸ h.bounded⟩

/-- Once the sender is charged in a solvent store, every credit goes through. -/
theorem Solvent.creditMessages_ok {s : Store} (hs : Solvent P s) {tx : Transaction}
    {chainId : String} {old new : AccountState} (hc : Charged P s tx chainId old new) :
    (TxExecutor.creditMessages P (setAccount P s tx.body.sender new) tx.body.messages).2 =
      .ok () := by
  refine TxExecutor.creditMessages_ok (hs.readable.setAccount _ _) ?_
  have hset := totalBalance_setAccount hc.read new
  have hpaid := hc.paid
  have hbounded := hs.bounded
  omega

/-- In a solvent store a transaction is either refused without a trace or
executed in full; there is no half-way outcome. -/
theorem Solvent.executeTransaction {s : Store} (hs : Solvent P s) (executor : TxExecutor)
    (tx : Transaction) (height : ℕ) (chainId : String) :
    (∃ e, executor.executeTransaction P s tx height chainId = (s, .error e)) ∨
      ∃ s', executor.executeTransaction P s tx height chainId =
          (s', .ok (TxExecutor.receiptOf P executor tx height)) ∧ Executed P s tx s' := by
  cases hc : TxExecutor.chargeSender P s tx chainId with
  | error e => exact Or.inl ⟨e, TxExecutor.executeTransaction_refused executor hc height⟩
  | ok new =>
    obtain ⟨old, hold⟩ := TxExecutor.chargeSender_ok hc
    have hok := hs.creditMessages_ok hold
    have htotal := TxExecutor.creditMessages_total hok
    have hset := totalBalance_setAccount hold.read new
    have hpaid := hold.paid
    have hbounded := hs.bounded
    refine Or.inr ⟨_, by rw [TxExecutor.executeTransaction_charged executor hc, hok]; rfl, ?_⟩
    refine ⟨⟨?_, by omega⟩, by omega, ?_, ?_⟩
    · exact TxExecutor.creditMessages_readable _ (hs.readable.setAccount _ _)
    · rw [nonceOf_of_ok hold.read, hold.nonce_eq]
    · intro a
      rw [TxExecutor.creditMessages_nonceOf, nonceOf_setAccount, hold.nonce_new,
        ← nonceOf_of_ok hold.read]
      split
      · rename_i ha
        rw [ha]
      · rfl

end Solvency

end Sprax
