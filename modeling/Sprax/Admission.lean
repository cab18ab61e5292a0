import Sprax.Accounting

/-!
# Admission and execution of one transaction

The checks before the first write are the same in `submit_transaction` and in
`execute_transaction`. What execution adds is the credit loop, which fails for a
recipient whose balance has no room for what it is paid. A transaction that
passes the checks and meets such a recipient is an error with the sender charged.
If all balances fit into one amount there is room for every payment, since the
sender has just paid for it.
-/
namespace Sprax
open Std StateAccessor

/-- The addresses that the messages pay, in order. -/
def recipients : List TxMessage → List Address
  | [] => []
  | .transfer recipient _ :: rest => recipient :: recipients rest
  | _ :: rest => recipients rest

/-- What the messages pay to one address. -/
def received (a : Address) : List TxMessage → ℕ
  | [] => 0
  | .transfer recipient amount :: rest =>
    (if recipient = a then amount.atto else 0) + received a rest
  | _ :: rest => received a rest

theorem received_le_transferSum (a : Address) (msgs : List TxMessage) :
    received a msgs ≤ transferSum msgs := by
  induction msgs with
  | nil => exact le_rfl
  | cons m msgs ih =>
    cases m with
    | transfer recipient amount =>
      simp only [received, transferSum]
      split <;> omega
    | delegate | unbond | contractCall | generic => exact ih

theorem received_eq_zero {a : Address} {msgs : List TxMessage} (h : a ∉ recipients msgs) :
    received a msgs = 0 := by
  induction msgs with
  | nil => rfl
  | cons m msgs ih =>
    cases m with
    | transfer recipient amount =>
      simp only [recipients, List.mem_cons, not_or] at h
      simp only [received, if_neg (Ne.symm h.1), ih h.2]
    | delegate | unbond | contractCall | generic => exact ih h

variable (P : Primitives)

/-- The checks that precede the first write. -/
def Passes (s : Store) (tx : Transaction) (chainId : String) : Prop :=
  TxExecutor.validateTransactionStatic P tx chainId = .ok () ∧
    (TxExecutor.checkSender P s tx).isOk = true

/-- What the sender pays in all. -/
def cost (tx : Transaction) : ℕ := transferSum tx.body.messages + tx.body.fee.amount.atto

/-- Every recipient can be read and has room for what it is paid. A sender that
is a recipient has first paid the cost. -/
def HasRoom (s : Store) (tx : Transaction) : Prop :=
  ∀ a ∈ recipients tx.body.messages, ∃ account, getAccount P s a = .ok account ∧
    account.balance.atto + received a tx.body.messages <
      2 ^ 128 + if a = tx.body.sender then cost tx else 0

/-- Balance and nonce of an account, or the error of reading it. -/
def holdings (s : Store) (a : Address) : Except CoreError (Amount × ℕ) :=
  (getAccount P s a).map (fun account => (account.balance, account.nonce))

variable {P}

namespace TxExecutor

/-- There is room for more after a credit where there was room for both before. -/
theorem room_credited {s : Store} {recipient : Address} {account : AccountState}
    {amount balance : Amount} (hread : getAccount P s recipient = .ok account)
    (hadd : account.balance.checkedAdd amount = .ok balance) (a : Address) (more : ℕ) :
    (∃ account', getAccount P (setAccount P s recipient { account with balance := balance }) a =
        .ok account' ∧ account'.balance.atto + more < 2 ^ 128) ↔
      ∃ account', getAccount P s a = .ok account' ∧
        account'.balance.atto + ((if recipient = a then amount.atto else 0) + more) < 2 ^ 128 := by
  have hbalance := Amount.checkedAdd_ok.mp hadd
  by_cases hsame : recipient = a
  · subst a
    simp only [getAccount_setAccount_self, hread, if_true, Except.ok.injEq, exists_eq_left']
    omega
  · rw [getAccount_setAccount_ne _ _ _ hsame, if_neg hsame, Nat.zero_add]

/-- The loop completes exactly if every recipient has room for all it is paid. -/
theorem creditMessages_ok_iff (s : Store) (msgs : List TxMessage) :
    (creditMessages P s msgs).2 = .ok () ↔ ∀ a ∈ recipients msgs, ∃ account,
      getAccount P s a = .ok account ∧ account.balance.atto + received a msgs < 2 ^ 128 := by
  induction s, msgs using creditMessages.induct P with
  | case1 s => simp [creditMessages, recipients]
  | case2 s recipient amount rest e hread =>
    simp only [creditMessages, hread, recipients, List.mem_cons, forall_eq_or_imp]
    simp
  | case3 s recipient amount rest account hread e hadd =>
    have hfull : ¬ account.balance.atto + amount.atto < 2 ^ 128 := by
      intro hlt
      rw [Amount.checkedAdd_of_lt hlt] at hadd
      cases hadd
    simp only [creditMessages, hread, hadd, recipients, List.mem_cons, forall_eq_or_imp, received,
      if_true]
    refine iff_of_false (by simp) (fun h => ?_)
    obtain ⟨⟨account', hread', hroom⟩, -⟩ := h
    cases hread'
    omega
  | case4 s recipient amount rest account hread balance hadd ih =>
    simp only [creditMessages, hread, hadd, recipients, List.mem_cons, forall_eq_or_imp, received]
    rw [ih]
    simp only [room_credited hread hadd]
    -- the recipient of this message may be paid again in the rest
    refine ⟨fun h => ⟨?_, h⟩, And.right⟩
    by_cases hagain : recipient ∈ recipients rest
    · simpa only [hread] using h recipient hagain
    · have hbalance := Amount.checkedAdd_ok.mp hadd
      have hlt := balance.lt
      rw [received_eq_zero hagain, if_pos trivial]
      exact ⟨account, rfl, by omega⟩
  | case5 s msg rest hne ih =>
    cases msg with
    | transfer recipient amount => exact absurd rfl (hne recipient amount)
    | delegate | unbond | contractCall | generic => exact ih

/-- Where the loop fails, at least one payment is missing. -/
theorem creditMessages_short {s : Store} {msgs : List TxMessage}
    (hpositive : msgs.any TxMessage.isZeroTransfer = false)
    (hfail : (creditMessages P s msgs).2 ≠ .ok ()) {a : Address} {account : AccountState}
    (hread : getAccount P s a = .ok account) :
    ∃ account', getAccount P (creditMessages P s msgs).1 a = .ok account' ∧
      account'.balance.atto < account.balance.atto + transferSum msgs := by
  induction s, msgs using creditMessages.induct P generalizing account with
  | case1 s => exact absurd rfl hfail
  | case2 s recipient amount rest e hto =>
    simp only [creditMessages, hto, transferSum]
    simp only [List.any_cons, TxMessage.isZeroTransfer, Amount.isZero, Bool.or_eq_false_iff,
      decide_eq_false_iff_not] at hpositive
    exact ⟨account, hread, by omega⟩
  | case3 s recipient amount rest payee hto e hadd =>
    simp only [creditMessages, hto, hadd, transferSum]
    simp only [List.any_cons, TxMessage.isZeroTransfer, Amount.isZero, Bool.or_eq_false_iff,
      decide_eq_false_iff_not] at hpositive
    exact ⟨account, hread, by omega⟩
  | case4 s recipient amount rest payee hto balance hadd ih =>
    have hbalance := Amount.checkedAdd_ok.mp hadd
    simp only [creditMessages, hto, hadd] at hfail ⊢
    simp only [List.any_cons, Bool.or_eq_false_iff] at hpositive
    simp only [transferSum]
    by_cases hsame : recipient = a
    · subst a
      cases hto.symm.trans hread
      obtain ⟨account', hread', hlt⟩ :=
        ih hpositive.2 hfail (getAccount_setAccount_self P _ _ _)
      dsimp only at hlt
      exact ⟨account', hread', by omega⟩
    · obtain ⟨account', hread', hlt⟩ :=
        ih hpositive.2 hfail ((getAccount_setAccount_ne P _ _ hsame).trans hread)
      exact ⟨account', hread', by omega⟩
  | case5 s msg rest hne ih =>
    simp only [List.any_cons, Bool.or_eq_false_iff] at hpositive
    cases msg with
    | transfer recipient amount => exact absurd rfl (hne recipient amount)
    | delegate | unbond | contractCall | generic => exact ih hpositive.2 hfail hread

theorem checkSender_funds {s : Store} {tx : Transaction} {sender : AccountState} {required : Amount}
    (h : checkSender P s tx = .ok (sender, required)) : required.atto ≤ sender.balance.atto := by
  unfold checkSender at h
  split at h
  · cases h
  · split at h
    · cases h
    · split at h
      · cases h
      · split at h
        · cases h
        · rename_i hfunds
          cases h
          exact Nat.le_of_not_lt hfunds

theorem validateTransactionStatic_ok {tx : Transaction} {chainId : String} :
    validateTransactionStatic P tx chainId = .ok () ↔
      tx.body.chainId.id = chainId ∧ tx.body.sender = addressOfPublicKey P tx.publicKey ∧
        verifySignature P tx = .ok () ∧ tx.body.messages.any TxMessage.isZeroTransfer = false := by
  unfold validateTransactionStatic
  constructor
  · intro h
    dsimp only at h
    split at h
    · cases h
    · rename_i hchain
      split at h
      · cases h
      · rename_i hsender
        split at h
        · cases h
        · rename_i hsigned
          split at h
          · cases h
          · rename_i hzero
            exact ⟨not_not.mp hchain, not_not.mp hsender, hsigned, Bool.eq_false_iff.mpr hzero⟩
  · rintro ⟨hchain, hsender, hsigned, hpositive⟩
    simp [hchain, hsender, hsigned, hpositive]

theorem validate_positive {tx : Transaction} {chainId : String}
    (h : validateTransactionStatic P tx chainId = .ok ()) :
    tx.body.messages.any TxMessage.isZeroTransfer = false :=
  (validateTransactionStatic_ok.mp h).2.2.2

theorem chargeSender_of_passes {s : Store} {tx : Transaction} {chainId : String}
    (h : Passes P s tx chainId) : ∃ new, chargeSender P s tx chainId = .ok new := by
  obtain ⟨hvalid, hchecks⟩ := h
  cases hsender : checkSender P s tx with
  | error e =>
    rw [hsender] at hchecks
    cases hchecks
  | ok checked =>
    obtain ⟨sender, required⟩ := checked
    have hfunds := checkSender_funds hsender
    have hsub : sender.balance.checkedSub required =
        .ok ⟨sender.balance.atto - required.atto, by have := sender.balance.lt; omega⟩ :=
      Amount.checkedSub_ok.mpr (Nat.sub_add_cancel hfunds)
    simp only [chargeSender, hvalid, hsender, hsub, Except.ok.injEq, exists_eq']

theorem passes_of_chargeSender {s : Store} {tx : Transaction} {chainId : String}
    {new : AccountState} (h : chargeSender P s tx chainId = .ok new) : Passes P s tx chainId := by
  unfold chargeSender at h
  split at h
  · cases h
  · rename_i hvalid
    split at h
    · cases h
    · rename_i sender required hsender
      exact ⟨hvalid, by rw [hsender]; rfl⟩

theorem hasRoom_iff {s : Store} {tx : Transaction} {chainId : String} {old new : AccountState}
    (hc : Charged P s tx chainId old new) :
    HasRoom P s tx ↔
      (creditMessages P (setAccount P s tx.body.sender new) tx.body.messages).2 = .ok () := by
  have hpaid := hc.paid
  rw [creditMessages_ok_iff]
  refine forall_congr' (fun a => imp_congr_right (fun _ => ?_))
  by_cases hsender : a = tx.body.sender
  · subst a
    simp only [hc.read, getAccount_setAccount_self, if_true, cost, Except.ok.injEq, exists_eq_left']
    omega
  · rw [getAccount_setAccount_ne P _ _ (Ne.symm hsender), if_neg hsender, Nat.add_zero]

variable (executor : TxExecutor)

/-- A transaction is executed exactly if it passes the checks and all it pays has
room. -/
theorem executeTransaction_ok_iff (s : Store) (tx : Transaction) (height : ℕ) (chainId : String) :
    (executor.executeTransaction P s tx height chainId).2.isOk = true ↔
      Passes P s tx chainId ∧ HasRoom P s tx := by
  cases hcharge : chargeSender P s tx chainId with
  | error e =>
    rw [executeTransaction_refused executor hcharge]
    refine iff_of_false (by simp [Except.isOk, Except.toBool]) (fun h => ?_)
    obtain ⟨new, hnew⟩ := chargeSender_of_passes h.1
    rw [hcharge] at hnew
    cases hnew
  | ok new =>
    obtain ⟨old, hold⟩ := chargeSender_ok hcharge
    rw [executeTransaction_charged executor hcharge, hasRoom_iff hold,
      and_iff_right (passes_of_chargeSender hcharge)]
    cases (creditMessages P (setAccount P s tx.body.sender new) tx.body.messages).2 <;>
      simp [Except.isOk, Except.toBool, Except.map]

/-- An error leaves every account alone exactly if the transaction is refused by
its checks or all it pays has room. -/
theorem executeTransaction_atomic_iff (s : Store) (tx : Transaction) (height : ℕ)
    (chainId : String) :
    ((executor.executeTransaction P s tx height chainId).2.isOk = false → ∀ a,
        holdings P (executor.executeTransaction P s tx height chainId).1 a = holdings P s a) ↔
      (Passes P s tx chainId → HasRoom P s tx) := by
  constructor
  · intro hatomic hpasses
    by_contra hroom
    obtain ⟨new, hcharge⟩ := chargeSender_of_passes hpasses
    obtain ⟨old, hold⟩ := chargeSender_ok hcharge
    have hfailed : (executor.executeTransaction P s tx height chainId).2.isOk = false := by
      rw [Bool.eq_false_iff, Ne, executeTransaction_ok_iff]
      exact fun h => hroom h.2
    -- the sender is charged, and what it pays to itself cannot make up for it
    have hsame := hatomic hfailed tx.body.sender
    rw [executeTransaction_charged executor hcharge] at hsame
    obtain ⟨account, hread, hlt⟩ := creditMessages_short (validate_positive hold.valid)
      (fun h => hroom ((hasRoom_iff hold).mpr h))
      (getAccount_setAccount_self P s tx.body.sender new)
    have hpaid := hold.paid
    simp only [holdings, hread, hold.read, Except.map, Except.ok.injEq, Prod.mk.injEq] at hsame
    rw [hsame.1] at hlt
    omega
  · intro hroom hfailed a
    cases hcharge : chargeSender P s tx chainId with
    | error e => rw [executeTransaction_refused executor hcharge]
    | ok new =>
      have hpasses := passes_of_chargeSender hcharge
      rw [(executeTransaction_ok_iff executor s tx height chainId).mpr ⟨hpasses, hroom hpasses⟩]
        at hfailed
      cases hfailed

end TxExecutor

open Devnet in
/-- A recipient that holds the largest amount cannot be paid; the sender has paid. -/
theorem overflowing_transfer_charged :
    let s := setAccount primitives ledger.store (addressOf 2)
      ⟨0, ⟨2 ^ 128 - 1, by decide⟩, Hash32.zero, Hash32.zero⟩
    let result := TxExecutor.default.executeTransaction primitives s (transferTx 0) 1
      "sprax-devnet-1"
    holdings primitives s (addressOf 1) = .ok (⟨1000, by decide⟩, 0) ∧ result.2.isOk = false ∧
      holdings primitives result.1 (addressOf 1) = .ok (⟨989, by decide⟩, 1) := by
  decide +kernel

section Balances
variable (P)

/-- The balance of an account; a record that cannot be read counts as empty. -/
def accountBalance (s : Store) (a : Address) : ℕ :=
  match getAccount P s a with
  | .ok account => account.balance.atto
  | .error _ => 0

/-- All account balances together fit one 128-bit amount. -/
def BalancesFit (s : Store) : Prop :=
  ∀ A : Finset Address, ∑ a ∈ A, accountBalance P s a ≤ 2 ^ 128 - 1

variable {P}

theorem accountBalance_of_ok {s : Store} {a : Address} {account : AccountState}
    (h : getAccount P s a = .ok account) : accountBalance P s a = account.balance.atto := by
  simp only [accountBalance, h]

theorem Solvent.balancesFit {s : Store} (hs : Solvent P s) : BalancesFit P s := by
  intro A
  have hweights : ∑ a ∈ A, accountBalance P s a =
      ∑ k ∈ A.image accountKey, FiniteMap.weightAt (recordBalance P) s.state k := by
    rw [Finset.sum_image (fun a _ b _ h => accountKey_injective h)]
    refine Finset.sum_congr rfl (fun a _ => ?_)
    obtain ⟨account, hread⟩ := hs.readable a
    rw [accountBalance_of_ok hread, weightAt_account hread]
  have hle := FiniteMap.sum_weightAt_le (recordBalance P) s.state (A.image accountKey)
  have hbounded : FiniteMap.weight (recordBalance P) s.state < 2 ^ 128 := hs.bounded
  omega

/-- A charged transaction finds room for all it pays: the sender's balance
covers it, and a second account holds no more than is left. -/
theorem hasRoom_of_fit {s : Store} (hread : Readable P s) (hfit : BalancesFit P s)
    {tx : Transaction} {chainId : String} {old new : AccountState}
    (hc : Charged P s tx chainId old new) :
    HasRoom P s tx := by
  intro a _
  obtain ⟨account, haccount⟩ := hread a
  refine ⟨account, haccount, ?_⟩
  have hle := received_le_transferSum a tx.body.messages
  have hpaid := hc.paid
  by_cases hsender : a = tx.body.sender
  · have hlt := account.balance.lt
    rw [if_pos hsender, cost]
    omega
  · have hpair := hfit {a, tx.body.sender}
    rw [Finset.sum_pair hsender, accountBalance_of_ok haccount,
      accountBalance_of_ok hc.read] at hpair
    rw [if_neg hsender]
    omega

theorem hasRoom_of_passes {s : Store} (hread : Readable P s) (hfit : BalancesFit P s)
    {tx : Transaction} {chainId : String} (h : Passes P s tx chainId) : HasRoom P s tx := by
  obtain ⟨new, hcharge⟩ := TxExecutor.chargeSender_of_passes h
  obtain ⟨old, hold⟩ := TxExecutor.chargeSender_ok hcharge
  exact hasRoom_of_fit hread hfit hold

/-- Where the balances fit, a failing transaction leaves the whole store alone. -/
theorem executeTransaction_failed {s : Store} (hread : Readable P s) (hfit : BalancesFit P s)
    {executor : TxExecutor} {tx : Transaction} {height : ℕ} {chainId : String}
    (h : (executor.executeTransaction P s tx height chainId).2.isOk = false) :
    (executor.executeTransaction P s tx height chainId).1 = s := by
  cases hcharge : TxExecutor.chargeSender P s tx chainId with
  | error e => rw [TxExecutor.executeTransaction_refused executor hcharge]
  | ok new =>
    have hpasses := TxExecutor.passes_of_chargeSender hcharge
    have hok := (TxExecutor.executeTransaction_ok_iff executor s tx height chainId).mpr
      ⟨hpasses, hasRoom_of_passes hread hfit hpasses⟩
    rw [hok] at h
    cases h

end Balances

namespace ChainLedger

/-- A transaction is admitted if its hash is neither indexed nor pending and it
passes the checks. -/
structure Admissible (P : Primitives) (L : ChainLedger) (tx : Transaction) : Prop where
  unindexed : Hasher.txHash P tx ∉ L.txIndex
  unpooled : ∀ t ∈ L.mempool, Hasher.txHash P t ≠ Hasher.txHash P tx
  passes : Passes P L.store tx L.genesis.chainId

/-- Admission appends to the mempool; a refused transaction leaves no trace. -/
theorem submitTransaction_outcome (L : ChainLedger) (tx : Transaction) :
    (L.Admissible P tx ∧ L.submitTransaction P tx =
        ({ L with mempool := L.mempool ++ [tx] }, .ok (Hasher.txHash P tx))) ∨
      (¬ L.Admissible P tx ∧ ∃ e, L.submitTransaction P tx = (L, .error e)) := by
  unfold submitTransaction
  dsimp only
  split
  · rename_i hindex
    exact Or.inr ⟨fun h => h.unindexed hindex, _, rfl⟩
  · rename_i hindex
    split
    · rename_i hpool
      obtain ⟨t, ht, heq⟩ := List.any_eq_true.mp hpool
      exact Or.inr ⟨fun h => h.unpooled t ht (of_decide_eq_true heq), _, rfl⟩
    · rename_i hpool
      have hunpooled : ∀ t ∈ L.mempool, Hasher.txHash P t ≠ Hasher.txHash P tx := by
        simpa using hpool
      split
      · rename_i e hvalid
        refine Or.inr ⟨fun h => ?_, _, rfl⟩
        cases hvalid.symm.trans h.passes.1
      · rename_i hvalid
        split
        · rename_i e hsender
          refine Or.inr ⟨fun h => ?_, _, rfl⟩
          have hchecked := h.passes.2
          rw [hsender] at hchecked
          cases hchecked
        · rename_i checked hsender
          exact Or.inl ⟨⟨hindex, hunpooled, hvalid, by rw [hsender]; rfl⟩, rfl⟩

theorem submitTransaction_ok_iff (L : ChainLedger) (tx : Transaction)
    (hindex : Hasher.txHash P tx ∉ L.txIndex)
    (hpool : ∀ t ∈ L.mempool, Hasher.txHash P t ≠ Hasher.txHash P tx) :
    (L.submitTransaction P tx).2.isOk = true ↔ Passes P L.store tx L.genesis.chainId := by
  rcases submitTransaction_outcome (P := P) L tx with ⟨hadmissible, hsubmit⟩ |
    ⟨hrefused, e, hsubmit⟩
  · rw [hsubmit]
    exact iff_of_true rfl hadmissible.passes
  · rw [hsubmit]
    exact iff_of_false Bool.false_ne_true (fun hpasses => hrefused ⟨hindex, hpool, hpasses⟩)

theorem submitTransaction_admitted {L : ChainLedger} {tx : Transaction}
    (h : (L.submitTransaction P tx).2.isOk = true) :
    (L.submitTransaction P tx).1.mempool = L.mempool ++ [tx] := by
  rcases submitTransaction_outcome (P := P) L tx with ⟨-, hsubmit⟩ | ⟨-, e, hsubmit⟩
  · rw [hsubmit]
  · rw [hsubmit] at h
    cases h

/-- What was executed stays executed. -/
theorem executed_mineTxs (executor : TxExecutor) (height : ℕ) (chainId : String) (b : Batch)
    (txs : List Transaction) :
    b.executed <+: (txs.foldl (mineTx P executor height chainId) b).executed := by
  induction txs generalizing b with
  | nil => exact List.prefix_rfl
  | cons tx txs ih =>
    refine List.IsPrefix.trans ?_ (ih (mineTx P executor height chainId b tx))
    unfold mineTx
    split
    · exact List.prefix_append _ _
    · exact List.prefix_rfl

/-- A mempool of which nothing executes leaves no trace where the balances fit. -/
theorem mineTxs_none {executor : TxExecutor} {height : ℕ} {chainId : String} {b : Batch}
    (hread : Readable P b.store) (hfit : BalancesFit P b.store) {txs : List Transaction}
    (hnone : (txs.foldl (mineTx P executor height chainId) b).executed = []) :
    txs.foldl (mineTx P executor height chainId) b = b := by
  induction txs generalizing b with
  | nil => rfl
  | cons tx txs ih =>
    have hgrows := executed_mineTxs (P := P) executor height chainId
      (mineTx P executor height chainId b tx) txs
    rw [List.foldl_cons] at hnone
    rw [hnone, List.prefix_nil] at hgrows
    have hsame : mineTx P executor height chainId b tx = b := by
      unfold mineTx at hgrows ⊢
      split
      · rename_i store receipt hexec
        simp [hexec, Batch.record] at hgrows
      · rename_i store e hexec
        have hfailed : (executor.executeTransaction P b.store tx height chainId).2.isOk =
            false := by
          rw [hexec]
          rfl
        have hkept := executeTransaction_failed hread hfit hfailed
        rw [hexec] at hkept
        rw [show store = b.store from hkept]
    rw [List.foldl_cons, hsame]
    rw [hsame] at hnone
    exact ih hread hfit hnone

/-- Admission and execution agree where the balances fit, and what was admitted
is executed by the next block if nothing before it in the mempool is. -/
theorem admitted_iff_executed (L : ChainLedger) (hread : Readable P L.store)
    (hfit : BalancesFit P L.store) (tx : Transaction) (hindex : Hasher.txHash P tx ∉ L.txIndex)
    (hpool : ∀ t ∈ L.mempool, Hasher.txHash P t ≠ Hasher.txHash P tx) :
    ((L.submitTransaction P tx).2.isOk = true ↔
      (L.executor.executeTransaction P L.store tx (L.height + 1) L.genesis.chainId).2.isOk = true) ∧
    ((L.submitTransaction P tx).2.isOk = true → (L.mineTxs P).executed = [] →
      ∀ (later : List Transaction) (proposer : Address),
        tx ∈ (mineBlock P { L with mempool := (L.submitTransaction P tx).1.mempool ++ later }
          proposer).2.body.transactions) := by
  have hagree : (L.submitTransaction P tx).2.isOk = true ↔
      (L.executor.executeTransaction P L.store tx (L.height + 1) L.genesis.chainId).2.isOk =
        true := by
    rw [submitTransaction_ok_iff L tx hindex hpool, TxExecutor.executeTransaction_ok_iff]
    exact ⟨fun h => ⟨h, hasRoom_of_passes hread hfit h⟩, And.left⟩
  refine ⟨hagree, fun hok hnone later proposer => ?_⟩
  have hexecuted := hagree.mp hok
  have hmempool : (L.submitTransaction P tx).1.mempool = L.mempool ++ [tx] :=
    submitTransaction_admitted hok
  rw [hmempool]
  change tx ∈ (((L.mempool ++ [tx]) ++ later).foldl
    (mineTx P L.executor (L.height + 1) L.genesis.chainId) L.batch).transactions
  have hbefore : L.mempool.foldl (mineTx P L.executor (L.height + 1) L.genesis.chainId) L.batch =
      L.batch := mineTxs_none hread hfit hnone
  rw [List.foldl_append, List.foldl_append, hbefore, List.foldl_cons, List.foldl_nil]
  have hkept := executed_mineTxs (P := P) L.executor (L.height + 1) L.genesis.chainId
    (mineTx P L.executor (L.height + 1) L.genesis.chainId L.batch tx) later
  refine List.mem_map.mpr ?_
  rcases hexec : L.executor.executeTransaction P L.store tx (L.height + 1) L.genesis.chainId with
    ⟨store, e | receipt⟩
  · rw [hexec] at hexecuted
    cases hexecuted
  · refine ⟨(tx, receipt), hkept.subset ?_, rfl⟩
    simp [mineTx, batch, hexec, Batch.record]

open Devnet in
theorem admitted_iff_executed_devnet :
    (ledger.submitTransaction primitives (transferTx 0)).2.isOk = true ∧
      ∀ (later : List Transaction) (proposer : Address),
        transferTx 0 ∈ (mineBlock primitives { ledger with
          mempool := (ledger.submitTransaction primitives (transferTx 0)).1.mempool ++ later }
            proposer).2.body.transactions := by
  have hsolvent : Solvent primitives ledger.store := initFromGenesis_solvent (by decide)
  have hagree := admitted_iff_executed ledger hsolvent.readable hsolvent.balancesFit (transferTx 0)
    (by simp [ledger, initFromGenesis, initFromGenesisWithStore])
    (by simp [ledger, initFromGenesis, initFromGenesisWithStore])
  have hok : (ledger.submitTransaction primitives (transferTx 0)).2.isOk = true :=
    hagree.1.mpr (by decide +kernel)
  exact ⟨hok, hagree.2 hok rfl⟩

end ChainLedger

end Sprax
