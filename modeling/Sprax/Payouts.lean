import Sprax.Faucet
import Sprax.Wallet

/-!
# Claims between two blocks

The claims of one block all carry the nonce of the committed state. The first
payout is executed by the next block: what other senders have pending before it
neither moves the nonce of the faucet account nor takes from its balance. A
second one is dropped without notice, while its claim was answered with success,
counted and written to the audit log.
-/
namespace Sprax
open StateAccessor

variable {P : Primitives}

namespace TxExecutor

/-- Credits only add to a balance. -/
theorem creditMessages_grows {s : Store} {msgs : List TxMessage} {a : Address}
    {account : AccountState} (hread : getAccount P s a = .ok account) :
    ∃ account', getAccount P (creditMessages P s msgs).1 a = .ok account' ∧
      account.balance.atto ≤ account'.balance.atto ∧ account'.nonce = account.nonce := by
  induction s, msgs using creditMessages.induct P generalizing account with
  | case1 s => exact ⟨account, hread, le_rfl, rfl⟩
  | case2 s recipient amount rest e hto =>
    simp only [creditMessages, hto]
    exact ⟨account, hread, le_rfl, rfl⟩
  | case3 s recipient amount rest payee hto e hadd =>
    simp only [creditMessages, hto, hadd]
    exact ⟨account, hread, le_rfl, rfl⟩
  | case4 s recipient amount rest payee hto balance hadd ih =>
    have hbalance := Amount.checkedAdd_ok.mp hadd
    simp only [creditMessages, hto, hadd]
    by_cases hsame : recipient = a
    · subst a
      cases hto.symm.trans hread
      obtain ⟨account', hread', hle, hnonce⟩ := ih (getAccount_setAccount_self P _ _ _)
      dsimp only at hle hnonce
      exact ⟨account', hread', by omega, hnonce⟩
    · exact ih ((getAccount_setAccount_ne P _ _ hsame).trans hread)
  | case5 s msg rest hne ih =>
    cases msg with
    | transfer recipient amount => exact absurd rfl (hne recipient amount)
    | delegate | unbond | contractCall | generic => exact ih hread

/-- An account that is not the sender's keeps its nonce and loses nothing, also
when the execution fails. -/
theorem executeTransaction_other (executor : TxExecutor) {s : Store} {tx : Transaction}
    {a : Address} {account : AccountState} (hread : getAccount P s a = .ok account)
    (hother : tx.body.sender ≠ a) (height : ℕ) (chainId : String) :
    ∃ account', getAccount P (executor.executeTransaction P s tx height chainId).1 a =
      .ok account' ∧
      account.balance.atto ≤ account'.balance.atto ∧ account'.nonce = account.nonce := by
  cases hcharge : chargeSender P s tx chainId with
  | error e =>
    rw [executeTransaction_refused executor hcharge]
    exact ⟨account, hread, le_rfl, rfl⟩
  | ok new =>
    rw [executeTransaction_charged executor hcharge]
    exact creditMessages_grows ((getAccount_setAccount_ne P s new hother).trans hread)

end TxExecutor

/-- The checks still pass where the sender has the same nonce and no less. -/
theorem Passes.of_account {s t : Store} {tx : Transaction} {chainId : String}
    (h : Passes P s tx chainId) {old new : AccountState}
    (hold : getAccount P s tx.body.sender = .ok old)
    (hnew : getAccount P t tx.body.sender = .ok new)
    (hbalance : old.balance.atto ≤ new.balance.atto) (hnonce : new.nonce = old.nonce) :
    Passes P t tx chainId := by
  obtain ⟨hvalid, hchecks⟩ := h
  refine ⟨hvalid, ?_⟩
  cases hsender : TxExecutor.checkSender P s tx with
  | error e =>
    rw [hsender] at hchecks
    cases hchecks
  | ok checked =>
    obtain ⟨sender, required⟩ := checked
    obtain ⟨hread, hsame, hrequired⟩ := TxExecutor.checkSender_ok hsender
    have hfunds := TxExecutor.checkSender_funds hsender
    cases hold.symm.trans hread
    have henough : ¬ new.balance.atto < required.atto := by omega
    simp only [TxExecutor.checkSender, hnew, hnonce, hsame, hrequired, if_neg henough, ne_eq,
      not_true_eq_false, if_false]
    rfl

namespace ChainLedger

variable {executor : TxExecutor} {height : ℕ} {chainId : String}

/-- The store after a turn of the mining loop, up to index entries. -/
theorem mineTx_state (b : Batch) (tx : Transaction) :
    (mineTx P executor height chainId b tx).store.state =
      (executor.executeTransaction P b.store tx height chainId).1.state := by
  unfold mineTx
  split <;> rename_i hexec <;> rw [hexec]
  rfl

theorem passes_mineTxs {tx : Transaction} {txs : List Transaction}
    (hother : ∀ t ∈ txs, t.body.sender ≠ tx.body.sender) {b : Batch}
    (h : Passes P b.store tx chainId) :
    Passes P (txs.foldl (mineTx P executor height chainId) b).store tx chainId := by
  induction txs generalizing b with
  | nil => exact h
  | cons t rest ih =>
    obtain ⟨new, hcharge⟩ := TxExecutor.chargeSender_of_passes h
    obtain ⟨old, hold⟩ := TxExecutor.chargeSender_ok hcharge
    obtain ⟨account, hread, hle, hnonce⟩ := TxExecutor.executeTransaction_other executor hold.read
      (hother t List.mem_cons_self) height chainId
    refine ih (fun t' ht' => hother t' (List.mem_cons_of_mem t ht'))
      (h.of_account hold.read ?_ hle hnonce)
    rw [getAccount_congr P (mineTx_state b t)]
    exact hread

/-- A transaction that passes the checks on the committed state is executed after
any pending transactions of other senders. -/
theorem mineBlock_last {L : ChainLedger} (hs : Solvent P L.store) {tx : Transaction}
    (hother : ∀ t ∈ L.mempool, t.body.sender ≠ tx.body.sender)
    (hpasses : Passes P L.store tx L.genesis.chainId) (proposer : Address) :
    (mineBlock P { L with mempool := L.mempool ++ [tx] } proposer).2.body.transactions =
      (L.mineTxs P).transactions ++ [tx] := by
  have hpending : Passes P (L.mineTxs P).store tx L.genesis.chainId := passes_mineTxs hother hpasses
  have hsolvent : Solvent P (L.mineTxs P).store :=
    ((trace_mineAttempts L.executor (L.height + 1) L.genesis.chainId L.batch
      L.mempool).conserved hs).1
  have hok := (TxExecutor.executeTransaction_ok_iff L.executor (L.mineTxs P).store tx (L.height + 1)
    L.genesis.chainId).mpr
      ⟨hpending, hasRoom_of_passes hsolvent.readable hsolvent.balancesFit hpending⟩
  change ((L.mempool ++ [tx]).foldl (mineTx P L.executor (L.height + 1) L.genesis.chainId)
    L.batch).transactions = _
  rw [List.foldl_append, List.foldl_cons, List.foldl_nil]
  change (mineTx P L.executor (L.height + 1) L.genesis.chainId (L.mineTxs P) tx).transactions = _
  unfold mineTx
  split
  · simp [Batch.record, Batch.transactions]
  · rename_i store e hexec
    rw [hexec] at hok
    cases hok

theorem mineTxs_subset (b : Batch) (txs : List Transaction) :
    (txs.foldl (mineTx P executor height chainId) b).transactions ⊆ b.transactions ++ txs := by
  induction txs generalizing b with
  | nil => simp
  | cons t rest ih =>
    refine List.Subset.trans (ih (mineTx P executor height chainId b t)) ?_
    have hstep : (mineTx P executor height chainId b t).transactions ⊆ b.transactions ++ [t] := by
      unfold mineTx
      split
      · simp [Batch.record, Batch.transactions]
      · exact List.subset_append_left _ _
    intro t' ht'
    rcases List.mem_append.mp ht' with hdone | hrest
    · rcases List.mem_append.mp (hstep hdone) with hbefore | hthis
      · exact List.mem_append_left _ hbefore
      · exact List.mem_append_right _ (List.mem_cons.mpr (Or.inl (List.mem_singleton.mp hthis)))
    · exact List.mem_append_right _ (List.mem_cons_of_mem t hrest)

/-- A block holds nothing but what was pending. -/
theorem transactions_mineTxs (L : ChainLedger) : (L.mineTxs P).transactions ⊆ L.mempool :=
  mineTxs_subset L.batch L.mempool

/-- One sender does not use a nonce twice, short of the largest one. -/
def NoncesDiffer (t t' : Transaction) : Prop :=
  t.body.sender = t'.body.sender → t.body.nonce < u64Max → t.body.nonce ≠ t'.body.nonce

instance NoncesDiffer.instSymm : Std.Symm NoncesDiffer where
  symm _ _ h hsender hmax heq := h hsender.symm (heq ▸ hmax) heq.symm

/-- The nonces of what was executed are behind those of the accounts. -/
structure Sequenced (P : Primitives) (b : Batch) : Prop where
  differ : b.transactions.Pairwise NoncesDiffer
  behind : ∀ t ∈ b.transactions, t.body.nonce < u64Max →
    t.body.nonce < nonceOf P b.store t.body.sender

theorem Sequenced.mineTx {b : Batch} (h : Sequenced P b) (tx : Transaction) :
    Sequenced P (mineTx P executor height chainId b tx) := by
  have hgrows := fun a => TxExecutor.nonceOf_le_executeTransaction (P := P) executor b.store tx
    height chainId a
  unfold ChainLedger.mineTx
  split
  · rename_i store receipt hexec
    rw [hexec] at hgrows
    have htxs : (b.record P store tx receipt height).transactions = b.transactions ++ [tx] := by
      simp [Batch.record, Batch.transactions]
    constructor
    · rw [htxs, List.pairwise_append]
      refine ⟨h.differ, List.pairwise_singleton _ _, fun t ht t' ht' => ?_⟩
      cases List.mem_singleton.mp ht'
      intro hsender hmax heq
      have hbehind := h.behind t ht hmax
      rw [hsender, heq, nonce_of_executed hexec] at hbehind
      exact lt_irrefl _ hbehind
    · intro t ht hmax
      rw [nonceOf_record]
      rw [htxs] at ht
      rcases List.mem_append.mp ht with hbefore | hthis
      · exact lt_of_lt_of_le (h.behind t hbefore hmax) (hgrows _)
      · cases List.mem_singleton.mp hthis
        exact nonceOf_executed hexec hmax
  · rename_i store e hexec
    rw [hexec] at hgrows
    exact ⟨h.differ, fun t ht hmax => lt_of_lt_of_le (h.behind t ht hmax) (hgrows _)⟩

/-- In a mined block no sender uses a nonce twice. -/
theorem mineBlock_nonces (L : ChainLedger) (proposer : Address) :
    (L.mineBlock P proposer).2.body.transactions.Pairwise NoncesDiffer := by
  have hstart : Sequenced P L.batch := ⟨List.Pairwise.nil, fun t ht => by cases ht⟩
  have hstep : ∀ (b : Batch) (tx : Transaction), Sequenced P b →
      Sequenced P (mineTx P L.executor (L.height + 1) L.genesis.chainId b tx) :=
        fun _ tx h => h.mineTx tx
  exact (Runs.run_invariant hstep L.batch L.mempool hstart).differ

end ChainLedger

namespace Faucet

variable (B : Bech32 P)

/-- The faucet and the ledger after a call. -/
def call (s : FaucetService × ChainLedger) (c : Claim) : FaucetService × ChainLedger :=
  (s.1.requestFunds B s.2 c).1

/-- The response of a call, if it returns one. -/
def reply (s : FaucetService × ChainLedger) (c : Claim) : List ClaimResponse :=
  (s.1.requestFunds B s.2 c).2.toOption.toList

/-- The responses of the calls that returned one, in order. -/
def responses (s : FaucetService × ChainLedger) : List Claim → List ClaimResponse
  | [] => []
  | c :: cs => reply B s c ++ responses (call B s c) cs

/-- No transaction of the faucet account is pending. -/
def FaucetService.Idle (P : Primitives) (F : FaucetService) (L : ChainLedger) : Prop :=
  ∀ t ∈ L.mempool, t.body.sender ≠ F.faucetAddress P

/-- If the claim passes all checks, no transaction of the faucet account is
pending, and the counter has room for the amount. -/
def Spaced (s : FaucetService × ChainLedger) (c : Claim) : Prop :=
  ∀ recipient payoutSprx amount tx, s.1.Granted B s.2 c recipient payoutSprx amount tx →
    s.1.Idle P s.2 ∧ s.1.totalDisbursed.atto + amount.atto < 2 ^ 128

/-- Hash and messages of a transaction. -/
def payment (P : Primitives) (tx : Transaction) : Hash32 × List TxMessage :=
  (Hasher.txHash P tx, tx.body.messages)

/-- The payment a response reports. -/
def ClaimResponse.payment (r : ClaimResponse) : Hash32 × List TxMessage :=
  (r.txHash, [.transfer r.recipient r.amount])

/-- The payment an audit entry reports. -/
def AuditEntry.payment (e : AuditEntry) : Hash32 × List TxMessage :=
  (e.txHash, [.transfer e.recipient e.amount])

/-- The transactions of a block that the responses name. -/
def paidOut (P : Primitives) (rs : List ClaimResponse) (block : Block) : List Transaction :=
  block.body.transactions.filter (fun tx => Hasher.txHash P tx ∈ rs.map (·.txHash))

/-- The next block holds the payment of every response, once each and in order;
the audit log and the counter have grown by these payments and no others. -/
structure Paid (s : FaucetService × ChainLedger) (cs : List Claim) (proposer : Address) : Prop where
  included : (paidOut P (responses B s cs)
    ((Runs.run (call B) s cs).2.mineBlock P proposer).2).map (payment P) =
      (responses B s cs).map ClaimResponse.payment
  audited : (Runs.run (call B) s cs).1.auditLog.map AuditEntry.payment =
    s.1.auditLog.map AuditEntry.payment ++ (responses B s cs).map ClaimResponse.payment
  disbursed : (Runs.run (call B) s cs).1.totalDisbursed.atto = s.1.totalDisbursed.atto +
    ((paidOut P (responses B s cs) ((Runs.run (call B) s cs).2.mineBlock P proposer).2).map
      (fun tx => transferSum tx.body.messages)).sum

variable {B} {s : FaucetService × ChainLedger}

/-- A call leaves all but the limiter alone, or adds one payout and its response. -/
theorem call_cases (s : FaucetService × ChainLedger) (c : Claim) :
    (∃ limiter, (∀ recipient payoutSprx amount tx,
          ¬ s.1.Granted B s.2 c recipient payoutSprx amount tx) ∧
        call B s c = ({ s.1 with limiter := limiter }, s.2) ∧
        ∀ cs, responses B s (c :: cs) = responses B (call B s c) cs) ∨
      ∃ limiter recipient payoutSprx amount tx, s.1.Granted B s.2 c recipient payoutSprx amount tx ∧
        call B s c = ({ s.1 with limiter := limiter }.record c recipient amount
          (Hasher.txHash P tx), { s.2 with mempool := s.2.mempool ++ [tx] }) ∧
        ∀ cs, responses B s (c :: cs) =
          FaucetService.response recipient payoutSprx amount (Hasher.txHash P tx) ::
            responses B (call B s c) cs := by
  have houtcome := FaucetService.requestFunds_outcome B s.1 s.2 c
  simp only [responses]
  unfold reply call
  generalize s.1.requestFunds B s.2 c = result at houtcome
  cases houtcome with
  | refused limiter e hnever => exact Or.inl ⟨limiter, hnever, rfl, fun _ => rfl⟩
  | granted limiter recipient payoutSprx amount tx hgranted =>
    exact Or.inr ⟨limiter, recipient, payoutSprx, amount, tx, hgranted, rfl, fun _ => rfl⟩

/-- What a run of claims adds: the payouts `txs`, one for each response. -/
structure Ran (B : Bech32 P) (s : FaucetService × ChainLedger) (cs : List Claim)
    (txs : List Transaction) : Prop where
  ledger_eq : (Runs.run (call B) s cs).2 = { s.2 with mempool := s.2.mempool ++ txs }
  answered : txs.map (payment P) = (responses B s cs).map ClaimResponse.payment
  audited : (Runs.run (call B) s cs).1.auditLog.map AuditEntry.payment =
    s.1.auditLog.map AuditEntry.payment ++ (responses B s cs).map ClaimResponse.payment
  silent : responses B s cs = [] → (Runs.run (call B) s cs).1.totalDisbursed = s.1.totalDisbursed
  payout : ∀ tx ∈ txs, tx.body.sender = s.1.faucetAddress P ∧
    tx.body.nonce = nonceOf P s.2.store (s.1.faucetAddress P) ∧
    Passes P s.2.store tx s.2.genesis.chainId
  fresh : ∀ tx ∈ txs, ∀ t ∈ s.2.mempool, Hasher.txHash P t ≠ Hasher.txHash P tx
  distinct : (txs.map (Hasher.txHash P)).Nodup

/-- A refused claim adds nothing to the run after it. -/
theorem Ran.refused {c : Claim} {cs : List Claim} {txs : List Transaction} {limiter : RateLimiter}
    (hran : Ran B (call B s c) cs txs) (hcall : call B s c = ({ s.1 with limiter := limiter }, s.2))
    (hresponses : ∀ cs, responses B s (c :: cs) = responses B (call B s c) cs) :
    Ran B s (c :: cs) txs := by
  rw [hcall] at hran
  refine ⟨?_, ?_, ?_, ?_, hran.payout, hran.fresh, hran.distinct⟩
  · rw [Runs.run_cons, hcall]
    exact hran.ledger_eq
  · rw [hresponses, hcall]
    exact hran.answered
  · rw [Runs.run_cons, hresponses, hcall]
    exact hran.audited
  · rw [Runs.run_cons, hresponses, hcall]
    exact hran.silent

/-- A granted claim puts its payout before those of the run after it. -/
theorem Ran.granted {c : Claim} {cs : List Claim} {txs : List Transaction} {limiter : RateLimiter}
    {recipient : Address} {payoutSprx : ℕ} {amount : Amount} {tx : Transaction}
    (hran : Ran B (call B s c) cs txs)
    (hgranted : s.1.Granted B s.2 c recipient payoutSprx amount tx)
    (hcall : call B s c =
      ({ s.1 with limiter := limiter }.record c recipient amount (Hasher.txHash P tx),
        { s.2 with mempool := s.2.mempool ++ [tx] }))
    (hresponses : ∀ cs, responses B s (c :: cs) =
      FaucetService.response recipient payoutSprx amount (Hasher.txHash P tx) ::
        responses B (call B s c) cs) :
    Ran B s (c :: cs) (tx :: txs) := by
  have hpayout := FaucetService.isPayout_of_payoutTx hgranted.built
  rw [hcall] at hran
  have hfresh := hran.fresh
  refine ⟨?_, ?_, ?_, ?_, ?_, ?_, ?_⟩
  · rw [Runs.run_cons, hcall, hran.ledger_eq]
    simp
  · rw [hresponses, hcall, List.map_cons, List.map_cons, hran.answered, payment,
      hpayout.messages_eq]
    rfl
  · rw [Runs.run_cons, hresponses, hcall, hran.audited]
    simp [FaucetService.record, AuditEntry.payment, ClaimResponse.payment, FaucetService.response]
  · intro hsilent
    rw [hresponses] at hsilent
    cases hsilent
  · intro t ht
    rcases List.mem_cons.mp ht with rfl | ht
    · exact ⟨hpayout.sender_eq, hpayout.nonce_eq, hgranted.admissible.passes⟩
    · exact hran.payout t ht
  · intro t ht t' ht'
    rcases List.mem_cons.mp ht with rfl | ht
    · exact hgranted.admissible.unpooled t' ht'
    · exact hfresh t ht t' (List.mem_append_left _ ht')
  · rw [List.map_cons, List.nodup_cons]
    refine ⟨fun hmem => ?_, hran.distinct⟩
    obtain ⟨t, ht, heq⟩ := List.mem_map.mp hmem
    exact hfresh t ht tx (List.mem_append_right _ List.mem_cons_self) heq.symm

theorem exists_ran (s : FaucetService × ChainLedger) (cs : List Claim) : ∃ txs, Ran B s cs txs := by
  induction cs generalizing s with
  | nil =>
    refine ⟨[], ?_⟩
    constructor <;> simp [responses]
  | cons c cs ih =>
    obtain ⟨txs, hran⟩ := ih (call B s c)
    rcases call_cases (B := B) s c with ⟨limiter, -, hcall, hresponses⟩ |
      ⟨limiter, recipient, payoutSprx, amount, tx, hgranted, hcall, hresponses⟩
    · exact ⟨txs, hran.refused hcall hresponses⟩
    · exact ⟨tx :: txs, hran.granted hgranted hcall hresponses⟩

/-- In a run of spaced claims at most one is granted, and nothing of the faucet
account was pending before it. -/
theorem single_of_spaced {cs : List Claim} (h : Runs.Along (Spaced B) (call B) s cs)
    (hne : responses B s cs ≠ []) : s.1.Idle P s.2 ∧ ∃ r, responses B s cs = [r] ∧
      (Runs.run (call B) s cs).1.totalDisbursed.atto = s.1.totalDisbursed.atto + r.amount.atto := by
  induction cs generalizing s with
  | nil => exact absurd rfl hne
  | cons c cs ih =>
    obtain ⟨hspaced, hrest⟩ := h
    rcases call_cases (B := B) s c with ⟨limiter, -, hcall, hresponses⟩ |
      ⟨limiter, recipient, payoutSprx, amount, tx, hgranted, hcall, hresponses⟩
    · rw [hresponses] at hne ⊢
      have hlater := ih hrest hne
      rw [Runs.run_cons]
      rw [hcall] at hlater ⊢
      exact hlater
    · obtain ⟨hidle, hroom⟩ := hspaced recipient payoutSprx amount tx hgranted
      -- the payout itself is pending from now on
      have hsilent : responses B (call B s c) cs = [] := by
        by_contra hmore
        have hlater := (ih hrest hmore).1
        rw [hcall] at hlater
        exact hlater tx (List.mem_append_right _ List.mem_cons_self)
          (FaucetService.isPayout_of_payoutTx hgranted.built).sender_eq
      obtain ⟨txs, hran⟩ := exists_ran (B := B) (call B s c) cs
      refine ⟨hidle, FaucetService.response recipient payoutSprx amount (Hasher.txHash P tx),
        ?_, ?_⟩
      · rw [hresponses, hsilent]
      · rw [Runs.run_cons, hran.silent hsilent, hcall, FaucetService.record_totalDisbursed,
          if_pos hroom]
        rfl

/-- Where no claim is granted, all are spaced. -/
theorem spaced_of_silent {cs : List Claim} (h : responses B s cs = []) :
    Runs.Along (Spaced B) (call B) s cs := by
  induction cs generalizing s with
  | nil => trivial
  | cons c cs ih =>
    rcases call_cases (B := B) s c with ⟨limiter, hnever, hcall, hresponses⟩ |
      ⟨limiter, recipient, payoutSprx, amount, tx, hgranted, hcall, hresponses⟩
    · rw [hresponses] at h
      exact ⟨fun recipient payoutSprx amount tx hg =>
        absurd hg (hnever recipient payoutSprx amount tx), ih h⟩
    · rw [hresponses] at h
      cases h

theorem amount_pos_of_granted {c : Claim} {recipient : Address} {payoutSprx : ℕ} {amount : Amount}
    {tx : Transaction} (h : s.1.Granted B s.2 c recipient payoutSprx amount tx) :
      0 < amount.atto := by
  have hpositive := TxExecutor.validate_positive h.admissible.passes.1
  rw [(FaucetService.isPayout_of_payoutTx h.built).messages_eq] at hpositive
  simp only [List.any_cons, List.any_nil, Bool.or_false, TxMessage.isZeroTransfer, Amount.isZero,
    decide_eq_false_iff_not] at hpositive
  omega

/-- A single granted claim that was counted is spaced. -/
theorem spaced_of_single {cs : List Claim} (hidle : s.1.Idle P s.2) {r : ClaimResponse}
    (h : responses B s cs = [r])
    (htotal : (Runs.run (call B) s cs).1.totalDisbursed.atto =
      s.1.totalDisbursed.atto + r.amount.atto) :
    Runs.Along (Spaced B) (call B) s cs := by
  induction cs generalizing s with
  | nil => cases h
  | cons c cs ih =>
    rw [Runs.run_cons] at htotal
    rcases call_cases (B := B) s c with ⟨limiter, hnever, hcall, hresponses⟩ |
      ⟨limiter, recipient, payoutSprx, amount, tx, hgranted, hcall, hresponses⟩
    · rw [hresponses] at h
      refine ⟨fun recipient payoutSprx amount tx hg =>
        absurd hg (hnever recipient payoutSprx amount tx), ih ?_ h ?_⟩
      · rw [hcall]
        exact hidle
      · rw [htotal, hcall]
    · rw [hresponses, List.cons.injEq] at h
      obtain ⟨hr, hsilent⟩ := h
      refine ⟨fun recipient' payoutSprx' amount' tx' hg => ⟨hidle, ?_⟩, spaced_of_silent hsilent⟩
      cases hgranted.vetted.symm.trans hg.vetted
      have hpos := amount_pos_of_granted hgranted
      obtain ⟨txs, hran⟩ := exists_ran (B := B) (call B s c) cs
      rw [hran.silent hsilent, hcall, FaucetService.record_totalDisbursed, ← hr] at htotal
      by_contra hfull
      rw [if_neg hfull] at htotal
      simp only [FaucetService.response] at htotal
      omega

variable {cs : List Claim} {txs : List Transaction}

theorem Ran.hashes (h : Ran B s cs txs) :
    (responses B s cs).map (·.txHash) = txs.map (Hasher.txHash P) := by
  have hfirst := congrArg (List.map Prod.fst) h.answered
  rw [List.map_map, List.map_map] at hfirst
  exact hfirst.symm

/-- A single payout is in the next block if nothing else of the faucet account
was pending. -/
theorem Ran.paidOut_single {tx : Transaction} (h : Ran B s cs [tx]) (hs : Solvent P s.2.store)
    (hidle : s.1.Idle P s.2) (proposer : Address) :
    paidOut P (responses B s cs) ((Runs.run (call B) s cs).2.mineBlock P proposer).2 = [tx] := by
  obtain ⟨hsender, -, hpasses⟩ := h.payout tx List.mem_cons_self
  have hother : ∀ t ∈ s.2.mempool, t.body.sender ≠ tx.body.sender := by
    rw [hsender]
    exact hidle
  have hblock := ChainLedger.mineBlock_last hs hother hpasses proposer
  rw [paidOut, h.ledger_eq, hblock, h.hashes, List.filter_append]
  have hnone : (s.2.mineTxs P).transactions.filter
      (fun t => Hasher.txHash P t ∈ [tx].map (Hasher.txHash P)) = [] := by
    rw [List.filter_eq_nil_iff]
    intro t ht
    simpa using h.fresh tx List.mem_cons_self t (ChainLedger.transactions_mineTxs s.2 ht)
  rw [hnone]
  simp

/-- Payouts that are all in the next block are at most one, since they share a
nonce. -/
theorem Ran.length_le_one (h : Ran B s cs txs)
    (hnonce : nonceOf P s.2.store (s.1.faucetAddress P) < u64Max) {proposer : Address}
    (hpaid : Paid B s cs proposer) : txs.length ≤ 1 := by
  -- a transaction of the block under the hash of a payout is that payout
  have hmined : ∀ tx ∈ txs,
      tx ∈ ((Runs.run (call B) s cs).2.mineBlock P proposer).2.body.transactions := by
    intro tx htx
    have hpayment : payment P tx ∈ (responses B s cs).map ClaimResponse.payment :=
      h.answered ▸ List.mem_map_of_mem htx
    rw [← hpaid.included] at hpayment
    obtain ⟨t, ht, heq⟩ := List.mem_map.mp hpayment
    have hhash : Hasher.txHash P t = Hasher.txHash P tx := congrArg Prod.fst heq
    have hblock := (List.mem_filter.mp ht).1
    have hpending : t ∈ (Runs.run (call B) s cs).2.mempool :=
      ChainLedger.transactions_mineTxs _ hblock
    rw [h.ledger_eq] at hpending
    rcases List.mem_append.mp hpending with hold | hnew
    · exact absurd hhash (h.fresh tx htx t hold)
    · rwa [List.inj_on_of_nodup_map h.distinct hnew htx hhash] at hblock
  rcases txs with _ | ⟨t₁, _ | ⟨t₂, rest⟩⟩
  · exact Nat.zero_le _
  · exact Nat.le_refl _
  · obtain ⟨hsender₁, hnonce₁, -⟩ := h.payout t₁ (by simp)
    obtain ⟨hsender₂, hnonce₂, -⟩ := h.payout t₂ (by simp)
    have hne : t₁ ≠ t₂ := by
      rintro rfl
      have hdistinct := h.distinct
      simp at hdistinct
    have hdiffer := (ChainLedger.mineBlock_nonces (P := P) _ proposer).forall (hmined t₁ (by simp))
      (hmined t₂ (by simp)) hne
    exact absurd (hnonce₁.trans hnonce₂.symm)
      (hdiffer (hsender₁.trans hsender₂.symm) (hnonce₁ ▸ hnonce))

/-- A block with fewer transactions than there are responses has not paid them. -/
theorem not_paid_of_short {proposer : Address}
    (h : ((Runs.run (call B) s cs).2.mineBlock P proposer).2.body.transactions.length <
      (responses B s cs).length) : ¬ Paid B s cs proposer := by
  intro hpaid
  have hlength := congrArg List.length hpaid.included
  rw [List.length_map, List.length_map] at hlength
  have hle : (paidOut P (responses B s cs)
      ((Runs.run (call B) s cs).2.mineBlock P proposer).2).length ≤
      ((Runs.run (call B) s cs).2.mineBlock P proposer).2.body.transactions.length :=
    List.length_filter_le _ _
  omega

/-- Claims are paid by the next block if each one that is granted finds nothing
of the faucet account pending and room in the counter. If nothing was pending at
the start, this is also necessary, short of the largest nonce. -/
theorem claims_paid (F : FaucetService) (L : ChainLedger) (hs : Solvent P L.store) (cs : List Claim)
    (proposer : Address) :
    (Runs.Along (Spaced B) (call B) (F, L) cs → Paid B (F, L) cs proposer) ∧
      (F.Idle P L → nonceOf P L.store (F.faucetAddress P) < u64Max → Paid B (F, L) cs proposer →
        Runs.Along (Spaced B) (call B) (F, L) cs) := by
  obtain ⟨txs, hran⟩ := exists_ran (B := B) (F, L) cs
  have hlength : txs.length = (responses B (F, L) cs).length := by
    simpa using congrArg List.length hran.answered
  constructor
  · intro hspaced
    by_cases hsilent : responses B (F, L) cs = []
    · refine ⟨?_, hran.audited, ?_⟩
      · rw [hsilent]
        simp [paidOut]
      · rw [hran.silent hsilent, hsilent]
        simp [paidOut]
    · obtain ⟨hidle, r, hr, htotal⟩ := single_of_spaced hspaced hsilent
      rw [hr] at hlength
      obtain ⟨tx, rfl⟩ := List.length_eq_one_iff.mp hlength
      have hout := hran.paidOut_single hs hidle proposer
      have hanswered := hran.answered
      refine ⟨by rw [hout, hanswered], hran.audited, ?_⟩
      rw [hout, htotal]
      rw [hr] at hanswered
      have hmessages : tx.body.messages = [.transfer r.recipient r.amount] :=
        congrArg Prod.snd (List.cons.inj hanswered).1
      simp [hmessages, transferSum]
  · intro hidle hnonce hpaid
    have hone := hran.length_le_one hnonce hpaid
    rw [hlength] at hone
    rcases Nat.le_one_iff_eq_zero_or_eq_one.mp hone with hzero | hsingle
    · exact spaced_of_silent (List.length_eq_zero_iff.mp hzero)
    · obtain ⟨r, hr⟩ := List.length_eq_one_iff.mp hsingle
      have hsum := congrArg (fun ps => (ps.map (fun p => transferSum p.2)).sum) hpaid.included
      simp only [List.map_map, hr, List.map_cons, List.map_nil, List.sum_cons, List.sum_nil,
        ClaimResponse.payment, Function.comp_def, payment, transferSum, Nat.add_zero] at hsum
      refine spaced_of_single hidle hr ?_
      rw [hpaid.disbursed, hr, hsum]

section Development
open Devnet

/-- The faucet account with a million whole units. -/
def faucetLedger : ChainLedger :=
  ChainLedger.initFromGenesis walletPrimitives
    { devGenesis [] with accounts := [⟨addressOf 1, ⟨1000000000000000000000000, by decide⟩⟩] }

/-- A window of an hour and payouts of at most 100 whole units. -/
def devFaucet : FaucetService := FaucetService.new (keypair 1) ⟨"sprax-devnet-1"⟩ 3600 100

/-- A claim of 50 whole units for the address of a keypair. -/
def devClaim (key : UInt8) (clientIp : String) : Claim :=
  ⟨(addressOf key).toHex, some 50, clientIp, 1000⟩

theorem claims_paid_devnet :
    (responses walletBech32 (devFaucet, faucetLedger) [devClaim 3 "198.51.100.1"]).map
        (·.recipient) = [addressOf 3] ∧
      Paid walletBech32 (devFaucet, faucetLedger) [devClaim 3 "198.51.100.1"] (addressOf 9) := by
  have hsolvent : Solvent walletPrimitives faucetLedger.store :=
    ChainLedger.initFromGenesis_solvent (by decide)
  refine ⟨by decide +kernel, (claims_paid devFaucet faucetLedger hsolvent _ _).1 ⟨?_, trivial⟩⟩
  intro recipient payoutSprx amount tx hgranted
  have hvet : (devFaucet.vet walletBech32 (devClaim 3 "198.51.100.1")).map (fun p => p.2.2.atto) =
      .ok 50000000000000000000 := by decide +kernel
  rw [hgranted.vetted] at hvet
  have hamount : amount.atto = 50000000000000000000 := Except.ok.inj hvet
  refine ⟨fun t ht => ?_, ?_⟩
  · cases ht
  · rw [hamount]
    decide

def twoClaims : List Claim := [devClaim 3 "198.51.100.1", devClaim 4 "198.51.100.2"]

/-- Two claims for different recipients are answered with success, counted and
audited; the block pays the first one only. -/
theorem second_claim_unpaid :
    let s := Runs.run (call walletBech32) (devFaucet, faucetLedger) twoClaims
    let mined := s.2.mineBlock walletPrimitives (addressOf 9)
    ((responses walletBech32 (devFaucet, faucetLedger) twoClaims).map (·.recipient) =
        [addressOf 3, addressOf 4] ∧
      s.1.auditLog.map (·.recipient) = [addressOf 3, addressOf 4] ∧
      s.1.totalDisbursed.atto = 100 * attoSprxPerSprx ∧
      mined.2.body.transactions.length = 1 ∧
      accountBalance walletPrimitives mined.1.store (addressOf 3) = 50 * attoSprxPerSprx ∧
      accountBalance walletPrimitives mined.1.store (addressOf 4) = 0) ∧
    ¬ Paid walletBech32 (devFaucet, faucetLedger) twoClaims (addressOf 9) := by
  dsimp only
  refine (fun hrun => ⟨hrun, not_paid_of_short ?_⟩) (by decide +kernel)
  obtain ⟨hresponses, -, -, hblock, -⟩ := hrun
  have hlength := congrArg List.length hresponses
  rw [List.length_map] at hlength
  rw [hlength]
  exact hblock.trans_lt (by decide)

end Development

end Faucet

end Sprax
