import Sprax.Devnet

/-!
# What applying a block can do

`apply_block` has five outcomes: the block is ignored, its header is refused,
its execution fails, its roots differ, or it is appended. Every later fact about
the operation is read off this case distinction. Only the first two leave the
ledger alone by construction; execution writes into the live store.
-/
namespace Sprax
open Std StateAccessor

theorem exists_error_of_not_isOk {ε α : Type} {x : Except ε α} (h : x.isOk = false) :
    ∃ e, x = .error e := by
  cases x with
  | error e => exact ⟨e, rfl⟩
  | ok a => cases h

namespace ChainLedger
variable {P : Primitives}

/-- The header names the next height, this chain and the latest block. -/
structure Extends (P : Primitives) (L : ChainLedger) (header : BlockHeader) : Prop where
  height_eq : header.height = L.height + 1
  chainId_eq : header.chainId = L.genesis.chainId
  parentHash_eq : header.parentHash = Hasher.blockHash P L.latestHeader

theorem checkHeader_ok {L : ChainLedger} {header : BlockHeader} :
    L.checkHeader P header = .ok () ↔ L.Extends P header := by
  unfold checkHeader
  constructor
  · intro h
    dsimp only at h
    split at h
    · cases h
    · rename_i hheight
      split at h
      · cases h
      · rename_i hchain
        split at h
        · cases h
        · rename_i hparent
          exact ⟨not_not.mp hheight, not_not.mp hchain, not_not.mp hparent⟩
  · rintro ⟨hheight, hchain, hparent⟩
    simp [hheight, hchain, hparent]

theorem checkHeader_error {L : ChainLedger} {header : BlockHeader} (h : ¬ L.Extends P header) :
    ∃ e, L.checkHeader P header = .error e := by
  cases hcheck : L.checkHeader P header with
  | error e => exact ⟨e, rfl⟩
  | ok u => exact absurd (checkHeader_ok.mp hcheck) h

theorem checkRoot_ok {name : String} {computed header : Hash32} :
    checkRoot name computed header = .ok () ↔ computed = header := by
  unfold checkRoot
  split <;> simp_all

/-- The three roots of an executed batch are those of the header. -/
structure RootsMatch (P : Primitives) (b : Batch) (header : BlockHeader) : Prop where
  stateRoot_eq : b.store.computeRoot P = header.stateRoot
  txsRoot_eq : b.txsRoot P = header.txsRoot
  receiptsRoot_eq : b.receiptsRoot P = header.receiptsRoot

theorem checkRoots_ok {b : Batch} {header : BlockHeader} :
    checkRoots P b header = .ok () ↔ RootsMatch P b header := by
  unfold checkRoots
  constructor
  · intro h
    split at h
    · cases h
    · rename_i hstate
      split at h
      · cases h
      · rename_i htxs
        exact ⟨checkRoot_ok.mp hstate, checkRoot_ok.mp htxs, checkRoot_ok.mp h⟩
  · rintro ⟨hstate, htxs, hreceipts⟩
    rw [checkRoot_ok.mpr hstate, checkRoot_ok.mpr htxs]
    exact checkRoot_ok.mpr hreceipts

theorem checkRoots_error {b : Batch} {header : BlockHeader} (h : ¬ RootsMatch P b header) :
    ∃ e, checkRoots P b header = .error e := by
  cases hcheck : checkRoots P b header with
  | error e => exact ⟨e, rfl⟩
  | ok u => exact absurd (checkRoots_ok.mp hcheck) h

/-- The five outcomes of `apply_block`. -/
inductive ApplyOutcome (P : Primitives) (L : ChainLedger) (block : Block) :
    ChainLedger × Except CoreError (List TxReceipt) → Prop
  | ignored (hold : block.header.height ≤ L.height) : ApplyOutcome P L block (L, .ok [])
  | refused (e : CoreError) (hext : ¬ L.Extends P block.header) :
      ApplyOutcome P L block (L, .error e)
  | failed (b : Batch) (e : CoreError) (hext : L.Extends P block.header)
      (hbody : L.applyBody P block = (b, .error e)) :
      ApplyOutcome P L block (L.withBatch b, .error e)
  | mismatched (b : Batch) (e : CoreError) (hext : L.Extends P block.header)
      (hbody : L.applyBody P block = (b, .ok ())) (hroots : ¬ RootsMatch P b block.header) :
      ApplyOutcome P L block (L.withBatch b, .error e)
  | accepted (b : Batch) (hext : L.Extends P block.header)
      (hbody : L.applyBody P block = (b, .ok ())) (hroots : RootsMatch P b block.header) :
      ApplyOutcome P L block (L.acceptBlock P b block, .ok b.receipts)

theorem applyBlock_outcome (L : ChainLedger) (block : Block) :
    ApplyOutcome P L block (L.applyBlock P block) := by
  unfold applyBlock
  split
  · rename_i hold
    exact .ignored hold
  · split
    · rename_i e hheader
      exact .refused e (fun hext => by rw [checkHeader_ok.mpr hext] at hheader; cases hheader)
    · rename_i hheader
      have hext := checkHeader_ok.mp hheader
      split
      · rename_i b e hbody
        exact .failed b e hext hbody
      · rename_i b hbody
        split
        · rename_i e hroots
          exact .mismatched b e hext hbody
            (fun hm => by rw [checkRoots_ok.mpr hm] at hroots; cases hroots)
        · rename_i hroots
          exact .accepted b hext hbody (checkRoots_ok.mp hroots)

theorem applyBlock_accepted {L : ChainLedger} {block : Block} {b : Batch}
    (hext : L.Extends P block.header) (hbody : L.applyBody P block = (b, .ok ()))
    (hroots : RootsMatch P b block.header) :
    L.applyBlock P block = (L.acceptBlock P b block, .ok b.receipts) := by
  have hnew : ¬ block.header.height ≤ L.height := by rw [hext.height_eq]; omega
  simp only [applyBlock, if_neg hnew, checkHeader_ok.mpr hext, hbody, checkRoots_ok.mpr hroots]

/-- A receipt says that the sender was charged and the credit loop run. -/
theorem charged_of_executed {executor : TxExecutor} {s s' : Store} {tx : Transaction} {height : ℕ}
    {chainId : String} {r : TxReceipt}
    (h : executor.executeTransaction P s tx height chainId = (s', .ok r)) :
    ∃ old new, Charged P s tx chainId old new ∧
      s' = (TxExecutor.creditMessages P (setAccount P s tx.body.sender new)
        tx.body.messages).1 := by
  cases hcharge : TxExecutor.chargeSender P s tx chainId with
  | error e =>
    rw [TxExecutor.executeTransaction_refused executor hcharge] at h
    cases h
  | ok new =>
    obtain ⟨old, hold⟩ := TxExecutor.chargeSender_ok hcharge
    rw [TxExecutor.executeTransaction_charged executor hcharge] at h
    exact ⟨old, new, hold, (congrArg Prod.fst h).symm⟩

theorem nonce_of_executed {executor : TxExecutor} {s s' : Store} {tx : Transaction} {height : ℕ}
    {chainId : String} {r : TxReceipt}
    (h : executor.executeTransaction P s tx height chainId = (s', .ok r)) :
    tx.body.nonce = nonceOf P s tx.body.sender := by
  obtain ⟨old, new, hc, -⟩ := charged_of_executed h
  rw [nonceOf_of_ok hc.read, hc.nonce_eq]

theorem nonceOf_executed {executor : TxExecutor} {s s' : Store} {tx : Transaction} {height : ℕ}
    {chainId : String} {r : TxReceipt}
    (h : executor.executeTransaction P s tx height chainId = (s', .ok r))
    (hmax : tx.body.nonce < u64Max) : tx.body.nonce < nonceOf P s' tx.body.sender := by
  obtain ⟨old, new, hc, rfl⟩ := charged_of_executed h
  rw [TxExecutor.creditMessages_nonceOf, nonceOf_setAccount, if_pos rfl, hc.nonce_new,
    ← hc.nonce_eq, saturatingSucc_of_lt hmax]
  exact Nat.lt_succ_self _

theorem nonceOf_record (b : Batch) (s : Store) (tx : Transaction) (r : TxReceipt) (h : ℕ)
    (a : Address) : nonceOf P (b.record P s tx r h).store a = nonceOf P s a :=
  nonceOf_congr rfl a

/-- Executing a list of transactions never lowers a nonce. -/
theorem nonceOf_le_applyTxs (executor : TxExecutor) (h : ℕ) (chainId : String) (b : Batch)
    (txs : List Transaction) (a : Address) :
    nonceOf P b.store a ≤ nonceOf P (applyTxs P executor h chainId b txs).1.store a := by
  induction txs generalizing b with
  | nil => exact le_rfl
  | cons tx rest ih =>
    have hstep := TxExecutor.nonceOf_le_executeTransaction executor b.store tx h chainId a (P := P)
    rw [applyTxs]
    split
    · rename_i s r hexec
      rw [hexec] at hstep
      exact hstep.trans (nonceOf_record b s tx r h a ▸ ih (b.record P s tx r h))
    · rename_i s e hexec
      rw [hexec] at hstep
      exact hstep

/-- The first transaction of the block, if there is one, is refused by the
checks that precede the first write. -/
def FirstRefused (P : Primitives) (L : ChainLedger) (block : Block) : Prop :=
  ∀ tx ∈ block.body.transactions.head?,
    ∃ e, TxExecutor.chargeSender P L.store tx L.genesis.chainId = .error e

@[simp] theorem withBatch_batch (L : ChainLedger) : L.withBatch L.batch = L := rfl

theorem applyBody_of_firstRefused {L : ChainLedger} {block : Block}
    (h : L.FirstRefused P block) : (L.applyBody P block).1 = L.batch := by
  unfold applyBody
  cases htxs : block.body.transactions with
  | nil => rfl
  | cons tx rest =>
    obtain ⟨e, he⟩ := h tx (by rw [htxs]; rfl)
    have hexec := TxExecutor.executeTransaction_refused L.executor he block.header.height
    rw [applyTxs]
    simp only [batch, hexec]

/-- A first transaction that passes the checks advances its sender's nonce for
good, whatever happens to the rest of the block. -/
theorem nonceOf_lt_applyBody {L : ChainLedger} {block : Block} {tx : Transaction}
    {rest : List Transaction} (htxs : block.body.transactions = tx :: rest) {new : AccountState}
    (hcharge : TxExecutor.chargeSender P L.store tx L.genesis.chainId = .ok new)
    (hmax : nonceOf P L.store tx.body.sender < u64Max) :
    nonceOf P L.store tx.body.sender <
      nonceOf P (L.applyBody P block).1.store tx.body.sender := by
  obtain ⟨old, hold⟩ := TxExecutor.chargeSender_ok hcharge
  have hfirst : nonceOf P (L.executor.executeTransaction P L.store tx block.header.height
      L.genesis.chainId).1 tx.body.sender = nonceOf P L.store tx.body.sender + 1 := by
    rw [TxExecutor.executeTransaction_charged L.executor hcharge]
    dsimp only
    rw [TxExecutor.creditMessages_nonceOf, nonceOf_setAccount, if_pos rfl, hold.nonce_new,
      ← nonceOf_of_ok hold.read, saturatingSucc_of_lt hmax]
  unfold applyBody
  rw [htxs, applyTxs]
  split
  · rename_i s r hexec
    have hexec' : L.executor.executeTransaction P L.store tx block.header.height
        L.genesis.chainId = (s, .ok r) := hexec
    rw [hexec'] at hfirst
    have hrest := nonceOf_le_applyTxs (P := P) L.executor block.header.height L.genesis.chainId
      (L.batch.record P s tx r block.header.height) rest tx.body.sender
    rw [nonceOf_record] at hrest
    dsimp only at hfirst
    omega
  · rename_i s e hexec
    have hexec' : L.executor.executeTransaction P L.store tx block.header.height
        L.genesis.chainId = (s, .error e) := hexec
    rw [hexec'] at hfirst
    dsimp only at hfirst ⊢
    omega

/-- What an application that fails after its header was accepted leaves behind:
nothing if nothing was charged, and otherwise a higher nonce unless it saturates. -/
theorem withBatch_applyBody (L : ChainLedger) (block : Block) :
    (L.FirstRefused P block → L.withBatch (L.applyBody P block).1 = L) ∧
      (L.withBatch (L.applyBody P block).1 = L → L.FirstRefused P block ∨
        ∃ tx ∈ block.body.transactions.head?, u64Max ≤ nonceOf P L.store tx.body.sender) := by
  constructor
  · intro hrefused
    rw [applyBody_of_firstRefused hrefused, withBatch_batch]
  · intro hsame
    by_cases hmax : ∃ tx ∈ block.body.transactions.head?,
        u64Max ≤ nonceOf P L.store tx.body.sender
    · exact Or.inr hmax
    · refine Or.inl (fun tx htx => ?_)
      have hlow : nonceOf P L.store tx.body.sender < u64Max :=
        Nat.lt_of_not_le (fun hle => hmax ⟨tx, htx, hle⟩)
      cases hcharge : TxExecutor.chargeSender P L.store tx L.genesis.chainId with
      | error e => exact ⟨e, rfl⟩
      | ok new =>
        obtain ⟨rest, htxs⟩ := List.head?_eq_some_iff.mp htx
        have hlt := nonceOf_lt_applyBody htxs hcharge hlow
        have hstore : (L.applyBody P block).1.store = L.store := congrArg ChainLedger.store hsame
        rw [hstore] at hlt
        exact absurd hlt (lt_irrefl _)

/-- A failed `apply_block` leaves the whole ledger as it was if the header does not
extend the chain or the first transaction is refused before any write, and
otherwise only if the sender's nonce is saturated. -/
theorem applyBlock_error_unchanged (L : ChainLedger) (block : Block) {e : CoreError}
    (herr : (L.applyBlock P block).2 = .error e) :
    (¬ L.Extends P block.header ∨ L.FirstRefused P block → (L.applyBlock P block).1 = L) ∧
      ((L.applyBlock P block).1 = L → ¬ L.Extends P block.header ∨ L.FirstRefused P block ∨
        ∃ tx ∈ block.body.transactions.head?, u64Max ≤ nonceOf P L.store tx.body.sender) := by
  have houtcome := applyBlock_outcome (P := P) L block
  generalize L.applyBlock P block = result at houtcome herr
  cases houtcome with
  | ignored hold => cases herr
  | refused e' hext => exact ⟨fun _ => rfl, fun _ => Or.inl hext⟩
  | failed b e' hext hbody | mismatched b e' hext hbody hroots =>
    have hkept := withBatch_applyBody (P := P) L block
    rw [hbody] at hkept
    exact ⟨fun h => hkept.1 (h.resolve_left (not_not.mpr hext)), fun h => Or.inr (hkept.2 h)⟩
  | accepted b hext hbody hroots => cases herr

open Devnet in
theorem applyBlock_tampered :
    (ledger.applyBlock primitives tamperedBlock).2.isOk = false ∧
      nonceOf primitives (ledger.applyBlock primitives tamperedBlock).1.store (addressOf 1) = 1 ∧
      (ledger.applyBlock primitives tamperedBlock).1.getTransaction
        (Hasher.txHash primitives (transferTx 0)) ≠ none := by
  decide +kernel

open Devnet in
/-- A block whose transfer executes and whose state root is wrong is refused, and
the transfer stays executed and indexed. -/
theorem applyBlock_error_changes_ledger :
    (∃ e, (ledger.applyBlock primitives tamperedBlock).2 = .error e) ∧
      nonceOf primitives ledger.store (addressOf 1) = 0 ∧
      nonceOf primitives (ledger.applyBlock primitives tamperedBlock).1.store (addressOf 1) = 1 ∧
      ledger.getTransaction (Hasher.txHash primitives (transferTx 0)) = none ∧
      (ledger.applyBlock primitives tamperedBlock).1.getTransaction
        (Hasher.txHash primitives (transferTx 0)) ≠ none ∧
      (ledger.applyBlock primitives tamperedBlock).1 ≠ ledger := by
  obtain ⟨herr, hafter, hindexed⟩ := applyBlock_tampered
  have hbefore : nonceOf primitives ledger.store (addressOf 1) = 0 := by decide +kernel
  refine ⟨exists_error_of_not_isOk herr, hbefore, hafter, by decide +kernel, hindexed, ?_⟩
  intro hsame
  rw [hsame, hbefore] at hafter
  cases hafter

open Devnet in
/-- The tampered block extends the chain and its transfer passes the checks, so its
refusal cannot have left the ledger alone. -/
theorem applyBlock_error_unchanged_tampered :
    ledger.Extends primitives tamperedBlock.header ∧
      ¬ ledger.FirstRefused primitives tamperedBlock ∧
      (ledger.applyBlock primitives tamperedBlock).1 ≠ ledger := by
  obtain ⟨e, he⟩ := exists_error_of_not_isOk applyBlock_tampered.1
  have hext : ledger.Extends primitives tamperedBlock.header :=
    ⟨by decide +kernel, by decide +kernel, by decide +kernel⟩
  have hcharged : ¬ ledger.FirstRefused primitives tamperedBlock := by
    intro hrefused
    obtain ⟨e', he'⟩ := hrefused (transferTx 0) (by decide +kernel)
    have hok : (TxExecutor.chargeSender primitives ledger.store (transferTx 0)
        ledger.genesis.chainId).isOk = true := by decide +kernel
    rw [he'] at hok
    cases hok
  have hlow : ¬ ∃ tx ∈ tamperedBlock.body.transactions.head?,
      u64Max ≤ nonceOf primitives ledger.store tx.body.sender := by decide +kernel
  refine ⟨hext, hcharged, fun hsame => ?_⟩
  rcases (applyBlock_error_unchanged ledger tamperedBlock he).2 hsame with hnot | hrefused | hmax
  · exact hnot hext
  · exact hcharged hrefused
  · exact hlow hmax

end ChainLedger

end Sprax
