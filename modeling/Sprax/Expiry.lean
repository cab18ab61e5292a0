import Sprax.Admission

/-!
# Timeout heights

The timeout of a transaction is part of what the sender signs and travels with it
through the mempool and through blocks, but no path of the ledger reads it. What
a block contains was executed on the strength of the other checks, and the same
transaction under any other timeout would have been, at any height.
-/
namespace Sprax
open StateAccessor

/-- The transaction under another timeout, with a signature for it. -/
def Transaction.withTimeout (tx : Transaction) (timeoutHeight : ℕ) (signature : Bytes) :
    Transaction :=
  { tx with body := { tx.body with timeoutHeight := timeoutHeight }, signature := signature }

variable {P : Primitives}

section Timeout
variable {s : Store} {tx : Transaction} {chainId : String} {timeoutHeight : ℕ} {signature : Bytes}

theorem Passes.withTimeout (h : Passes P s tx chainId)
    (hsigned : TxExecutor.verifySignature P (tx.withTimeout timeoutHeight signature) = .ok ()) :
    Passes P s (tx.withTimeout timeoutHeight signature) chainId := by
  obtain ⟨hchain, hsender, -, hpositive⟩ := TxExecutor.validateTransactionStatic_ok.mp h.1
  exact ⟨TxExecutor.validateTransactionStatic_ok.mpr ⟨hchain, hsender, hsigned, hpositive⟩, h.2⟩

/-- Execution does the same to the store whatever the timeout and the height. -/
theorem executeTransaction_withTimeout {executor : TxExecutor} {height : ℕ}
    (h : (executor.executeTransaction P s tx height chainId).2.isOk = true)
    (hsigned : TxExecutor.verifySignature P (tx.withTimeout timeoutHeight signature) = .ok ())
    (height' : ℕ) :
    (executor.executeTransaction P s (tx.withTimeout timeoutHeight signature) height' chainId).1 =
        (executor.executeTransaction P s tx height chainId).1 ∧
      (executor.executeTransaction P s (tx.withTimeout timeoutHeight signature) height'
        chainId).2.isOk = true := by
  obtain ⟨hpasses, hroom⟩ :=
    (TxExecutor.executeTransaction_ok_iff executor s tx height chainId).mp h
  have hpasses' := hpasses.withTimeout hsigned
  refine ⟨?_, (TxExecutor.executeTransaction_ok_iff executor s _ height' chainId).mpr
    ⟨hpasses', hroom⟩⟩
  obtain ⟨new, hcharge⟩ := TxExecutor.chargeSender_of_passes hpasses
  have hcharge' : TxExecutor.chargeSender P s (tx.withTimeout timeoutHeight signature) chainId =
      .ok new := by
    rw [← hcharge]
    simp only [TxExecutor.chargeSender, hpasses.1, hpasses'.1]
    rfl
  rw [TxExecutor.executeTransaction_charged executor hcharge,
    TxExecutor.executeTransaction_charged executor hcharge']
  rfl

end Timeout

theorem executedTxs_append (as bs : List Attempt) :
    executedTxs (as ++ bs) = executedTxs as ++ executedTxs bs := by
  simp [executedTxs]

/-- Every attempt of a trace is a call of `execute_transaction`. -/
theorem Trace.executes {executor : TxExecutor} {chainId : String} {s t : Store} {as : List Attempt}
    (h : Trace P executor chainId s as t) {a : Attempt} (ha : a ∈ as) :
    ∃ height, executor.executeTransaction P a.before a.tx height chainId = (a.after, a.result) := by
  induction h with
  | nil hstate => cases ha
  | cons height hbefore hexec hrest ih =>
    rcases List.mem_cons.mp ha with rfl | hmem
    · exact ⟨height, hexec⟩
    · exact ih hmem

namespace ChainLedger

theorem transactions_mineAttempts (executor : TxExecutor) (height : ℕ) (chainId : String)
    (b : Batch) (txs : List Transaction) :
    (txs.foldl (mineTx P executor height chainId) b).transactions =
      b.transactions ++ executedTxs (mineAttempts P executor height chainId b txs) := by
  induction txs generalizing b with
  | nil => simp [mineAttempts]
  | cons tx rest ih =>
    rw [List.foldl_cons, ih, mineAttempts, executedTxs_cons]
    rcases hexec : executor.executeTransaction P b.store tx height chainId with ⟨store, e | receipt⟩
    · simp [mineTx, attempt, Attempt.succeeded, hexec, Batch.transactions, Except.isOk,
        Except.toBool]
    · simp [mineTx, attempt, Attempt.succeeded, hexec, Batch.record, Batch.transactions,
        Except.isOk, Except.toBool]

theorem executedTxs_applyAttempts {executor : TxExecutor} {height : ℕ} {chainId : String}
    {b b' : Batch} {txs : List Transaction}
    (h : applyTxs P executor height chainId b txs = (b', .ok ())) :
    executedTxs (applyAttempts P executor height chainId b txs) = txs := by
  induction txs generalizing b with
  | nil => rfl
  | cons tx rest ih =>
    rw [applyTxs] at h
    rw [applyAttempts, executedTxs_cons]
    rcases hexec : executor.executeTransaction P b.store tx height chainId with ⟨store, e | receipt⟩
    · rw [hexec] at h
      cases h
    · rw [hexec] at h
      have hsucceeded : (attempt P executor height chainId b.store tx).succeeded = true := by
        simp [attempt, Attempt.succeeded, hexec, Except.isOk, Except.toBool]
      rw [if_pos hsucceeded, ih h]
      rfl

/-- The blocks a call adds hold transactions that the call executed. -/
def Adds (L L' : ChainLedger) (as : List Attempt) : Prop :=
  ∀ block ∈ L'.blocks, block ∈ L.blocks ∨ block.body.transactions ⊆ executedTxs as

theorem adds_applyBlock (L : ChainLedger) (block : Block) :
    L.Adds (L.applyBlock P block).1 (L.blockAttempts P block) := by
  have houtcome := applyBlock_outcome (P := P) L block
  generalize L.applyBlock P block = result at houtcome
  intro b hb
  cases houtcome with
  | ignored hold => exact Or.inl hb
  | refused e hext => exact Or.inl hb
  | failed batch e hext hbody => exact Or.inl hb
  | mismatched batch e hext hbody hroots => exact Or.inl hb
  | accepted batch hext hbody hroots =>
    rcases List.mem_append.mp hb with hold | hnew
    · exact Or.inl hold
    · cases List.mem_singleton.mp hnew
      rw [blockAttempts_of_extends hext, executedTxs_applyAttempts hbody]
      exact Or.inr (List.Subset.refl _)

theorem adds_applyBlocksFrom (count : ℕ) (L : ChainLedger) (blocks : List Block) :
    L.Adds (L.applyBlocksFrom P count blocks).1 (L.batchAttempts P blocks) := by
  induction blocks generalizing L count with
  | nil => exact fun b hb => Or.inl hb
  | cons block rest ih =>
    have hfirst := adds_applyBlock (P := P) L block
    intro b hb
    rw [batchAttempts, executedTxs_append]
    rw [applyBlocksFrom] at hb
    rcases happly : L.applyBlock P block with ⟨L', e | receipts⟩
    · rw [happly] at hb hfirst
      exact (hfirst b hb).imp_right (fun h => List.Subset.trans h (List.subset_append_left _ _))
    · rw [happly] at hb hfirst
      rcases ih (count + 1) L' b hb with hold | hnew
      · exact (hfirst b hold).imp_right (fun h => List.Subset.trans h (List.subset_append_left _ _))
      · exact Or.inr (List.Subset.trans hnew (List.subset_append_right _ _))

theorem adds_call (L : ChainLedger) (c : Call) : L.Adds (L.call P c) (L.attempts P c) := by
  cases c with
  | submit tx =>
    intro b hb
    rcases submitTransaction_cases (P := P) L tx with h | h <;>
      · rw [call, h] at hb
        exact Or.inl hb
  | mine proposer =>
    intro b hb
    rcases List.mem_append.mp hb with hold | hnew
    · exact Or.inl hold
    · cases List.mem_singleton.mp hnew
      refine Or.inr (fun tx htx => ?_)
      have hmined := transactions_mineAttempts (P := P) L.executor (L.height + 1) L.genesis.chainId
        L.batch L.mempool
      rw [attempts]
      rw [show L.batch.transactions = [] from rfl, List.nil_append] at hmined
      exact hmined ▸ htx
  | apply block => exact adds_applyBlock L block
  | applyBatch blocks => exact adds_applyBlocksFrom 0 L blocks

/-- Every transaction of a block was executed on the way. -/
theorem executed_of_mem_block (genesis : GenesisConfig) (calls : List Call) :
    ∀ block ∈ (history P genesis calls).1.blocks,
      block.body.transactions ⊆ executedTxs (history P genesis calls).2 := by
  have hstep : ∀ (s : ChainLedger × List Attempt) (c : Call),
      (∀ block ∈ s.1.blocks, block.body.transactions ⊆ executedTxs s.2) →
      ∀ block ∈ (Runs.recorded (fun L c => (L.call P c, L.attempts P c)) s c).1.blocks,
        block.body.transactions ⊆
          executedTxs (Runs.recorded (fun L c => (L.call P c, L.attempts P c)) s c).2 := by
    intro s c hs block hblock
    rw [Runs.recorded, executedTxs_append]
    rcases adds_call (P := P) s.1 c block hblock with hold | hnew
    · exact List.Subset.trans (hs block hold) (List.subset_append_left _ _)
    · exact List.Subset.trans hnew (List.subset_append_right _ _)
  refine Runs.run_invariant (I := fun s => ∀ block ∈ s.1.blocks, block.body.transactions ⊆
    executedTxs s.2) hstep (initFromGenesis P genesis, []) calls (fun block hblock => ?_)
  cases List.mem_singleton.mp hblock
  exact List.nil_subset _

/-- What a block of a reachable ledger contains was executed after the checks of
chain, sender, signature, amounts, nonce and funds. With a valid signature it
would have been executed with the same effect under any timeout and at any height.
What the mempool admits it also admits under any other timeout, if the signature is
then valid and the transaction so changed is neither indexed nor pending. -/
theorem timeout_unexamined (genesis : GenesisConfig) (calls : List Call) :
    (∀ block ∈ (history P genesis calls).1.blocks, ∀ tx ∈ block.body.transactions,
      ∃ a ∈ (history P genesis calls).2, a.tx = tx ∧ a.succeeded = true ∧
        Passes P a.before tx genesis.chainId ∧
        ∀ timeoutHeight signature height,
          TxExecutor.verifySignature P (tx.withTimeout timeoutHeight signature) = .ok () →
          (TxExecutor.default.executeTransaction P a.before (tx.withTimeout timeoutHeight signature)
              height genesis.chainId).1 = a.after ∧
            (TxExecutor.default.executeTransaction P a.before
              (tx.withTimeout timeoutHeight signature) height genesis.chainId).2.isOk = true) ∧
    ∀ tx timeoutHeight signature,
      TxExecutor.verifySignature P (tx.withTimeout timeoutHeight signature) = .ok () →
      Hasher.txHash P (tx.withTimeout timeoutHeight signature) ∉
        (history P genesis calls).1.txIndex →
      (∀ t ∈ (history P genesis calls).1.mempool,
        Hasher.txHash P t ≠ Hasher.txHash P (tx.withTimeout timeoutHeight signature)) →
      ((history P genesis calls).1.submitTransaction P tx).2.isOk = true →
      ((history P genesis calls).1.submitTransaction P
        (tx.withTimeout timeoutHeight signature)).2.isOk = true := by
  constructor
  · intro block hblock tx htx
    obtain ⟨a, ha, rfl⟩ := List.mem_map.mp (executed_of_mem_block genesis calls block hblock htx)
    obtain ⟨hmem, hsucceeded⟩ := List.mem_filter.mp ha
    obtain ⟨height, hexec⟩ := (trace_history (P := P) genesis calls).executes hmem
    have hok : (TxExecutor.default.executeTransaction P a.before a.tx height
        genesis.chainId).2.isOk = true := by
      rw [hexec]
      exact hsucceeded
    refine ⟨a, hmem, rfl, hsucceeded,
      ((TxExecutor.executeTransaction_ok_iff _ _ _ _ _).mp hok).1,
      fun t signature height' hsigned => ?_⟩
    have hsame := executeTransaction_withTimeout hok hsigned height'
    rwa [hexec] at hsame
  · intro tx t signature hsigned hindex hpool hok
    rw [submitTransaction_ok_iff _ _ hindex hpool]
    rcases submitTransaction_outcome (P := P) (history P genesis calls).1 tx with
      ⟨hadmissible, -⟩ | ⟨-, e, hsubmit⟩
    · exact hadmissible.passes.withTimeout hsigned
    · rw [hsubmit] at hok
      cases hok

section Development
open Devnet

/-- The transfer of the development scenarios, to expire after block 1. -/
def expiringTx : Transaction :=
  (transferTx 0).withTimeout 1 ((keypair 1).sign primitives
    (primitives.txBodyJson.toVec { (transferTx 0).body with timeoutHeight := 1 }))

/-- Two empty blocks are mined before the transfer is submitted. -/
def expiredCalls : List Call :=
  [.mine (addressOf 9), .mine (addressOf 9), .submit expiringTx, .mine (addressOf 9)]

/-- The third block contains a transaction with timeout 1. -/
theorem expired_transaction_mined :
    ((history primitives (devGenesis []) expiredCalls).1.blocks[3]?).map
        (fun block => (block.header.height, block.body.transactions.map (·.body.timeoutHeight))) =
      some (3, [1]) := by
  decide +kernel

theorem timeout_unexamined_devnet :
    ∃ a ∈ (history primitives (devGenesis []) expiredCalls).2, a.tx = expiringTx ∧
      a.succeeded = true := by
  have hblock : ((history primitives (devGenesis []) expiredCalls).1.blocks[3]?).map
      (fun block => block.body.transactions) = some [expiringTx] := by decide +kernel
  obtain ⟨block, hget, htxs⟩ := Option.map_eq_some_iff.mp hblock
  obtain ⟨a, ha, htx, hsucceeded, -⟩ := (timeout_unexamined (P := primitives) (devGenesis [])
    expiredCalls).1 block (List.mem_of_getElem? hget) expiringTx
      (by rw [htxs]; exact List.mem_cons_self)
  exact ⟨a, ha, htx, hsucceeded⟩

end Development

end ChainLedger

end Sprax
