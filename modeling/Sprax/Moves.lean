import Sprax.Chain
import Mathlib.Logic.Relation

/-!
# Primitive moves of a ledger

Every public operation of the ledger is a sequence of moves of four kinds: the
mempool changes, a block is appended after its transactions were executed, the
commit signatures of a stored block are overwritten, or transactions are executed
for a block that is then refused. The last kind only occurs in calls that return
an error. An invariant of ledgers is proved once for each kind of move.
-/
namespace Sprax
open Std StateAccessor Relation

/-- A public operation that changes the ledger. -/
inductive LedgerOp
  | call (c : Call)
  | setLastCommit (height : ℕ) (commitSigs : List CommitSignature)

namespace ChainLedger

/-- One turn of either execution loop: the transaction is executed and indexed,
or it fails and leaves behind what it wrote. -/
inductive Turn (P : Primitives) (executor : TxExecutor) (height : ℕ) (chainId : String)
    (b : Batch) : Batch → Prop
  | kept {tx : Transaction} {s : Store} {r : TxReceipt}
      (hexec : executor.executeTransaction P b.store tx height chainId = (s, .ok r)) :
      Turn P executor height chainId b (b.record P s tx r height)
  | dropped {tx : Transaction} {s : Store} {e : CoreError}
      (hexec : executor.executeTransaction P b.store tx height chainId = (s, .error e)) :
      Turn P executor height chainId b { b with store := s }

/-- A batch that the execution loops can reach for the next block. -/
def Works (P : Primitives) (L : ChainLedger) (b : Batch) : Prop :=
  ReflTransGen (Turn P L.executor (L.height + 1) L.genesis.chainId) L.batch b

/-- The moves of calls that succeed. -/
inductive Advance (P : Primitives) (L : ChainLedger) : ChainLedger → Prop
  | pooled (txs : List Transaction) : Advance P L { L with mempool := txs }
  | appended (b : Batch) (block : Block) (txs : List Transaction) (hworks : L.Works P b)
      (hext : L.Extends P block.header) (hbody : block.body.transactions = b.transactions)
      (hroots : RootsMatch P b block.header) :
      Advance P L { L.commitBlock P b block.header.height block with mempool := txs }
  | resigned {height : ℕ} {block : Block} (sigs : List CommitSignature)
      (hblock : L.blocks[height]? = some block) : Advance P L (L.setLastCommit P height sigs).1

/-- The moves of all calls; a refused block may leave its executed batch behind. -/
inductive Move (P : Primitives) (L : ChainLedger) : ChainLedger → Prop
  | advance {L' : ChainLedger} (h : Advance P L L') : Move P L L'
  | spilled (b : Batch) (hworks : L.Works P b) : Move P L (L.withBatch b)

variable (P : Primitives)

/-- The ledger after an operation. -/
def operate (L : ChainLedger) : LedgerOp → ChainLedger
  | .call c => L.call P c
  | .setLastCommit height sigs => (L.setLastCommit P height sigs).1

/-- Whether the operation returns `Ok`; mining always does. -/
def succeeds (L : ChainLedger) : LedgerOp → Bool
  | .call (.submit tx) => (L.submitTransaction P tx).2.isOk
  | .call (.mine _) => true
  | .call (.apply block) => (L.applyBlock P block).2.isOk
  | .call (.applyBatch blocks) => (L.applyBlocksBatch P blocks).2.isOk
  | .setLastCommit height sigs => (L.setLastCommit P height sigs).2.isOk

/-- The ledger that a run of operations reaches, started from a genesis
configuration on a store that may already hold anything. -/
def reached (genesis : GenesisConfig) (store : Store) (ops : List LedgerOp) : ChainLedger :=
  Runs.run (operate P) (initFromGenesisWithStore P genesis store) ops

variable {P}

theorem turns_mineTxs (executor : TxExecutor) (height : ℕ) (chainId : String) (b : Batch)
    (txs : List Transaction) :
    ReflTransGen (Turn P executor height chainId) b
      (txs.foldl (mineTx P executor height chainId) b) := by
  induction txs generalizing b with
  | nil => exact .refl
  | cons tx rest ih =>
    refine ReflTransGen.head ?_ (ih (mineTx P executor height chainId b tx))
    unfold mineTx
    split
    · rename_i s r hexec
      exact .kept hexec
    · rename_i s e hexec
      exact .dropped hexec

theorem turns_applyTxs (executor : TxExecutor) (height : ℕ) (chainId : String) (b : Batch)
    (txs : List Transaction) :
    ReflTransGen (Turn P executor height chainId) b
      (applyTxs P executor height chainId b txs).1 := by
  induction txs generalizing b with
  | nil => exact .refl
  | cons tx rest ih =>
    rw [applyTxs]
    split
    · rename_i s r hexec
      exact ReflTransGen.head (.kept hexec) (ih (b.record P s tx r height))
    · rename_i s e hexec
      exact ReflTransGen.single (.dropped hexec)

/-- A completed loop has executed the transactions it was given. -/
theorem applyTxs_transactions {executor : TxExecutor} {height : ℕ} {chainId : String}
    {b b' : Batch} {txs : List Transaction}
    (h : applyTxs P executor height chainId b txs = (b', .ok ())) :
    b'.transactions = b.transactions ++ txs := by
  induction txs generalizing b with
  | nil =>
    cases h
    simp
  | cons tx rest ih =>
    rw [applyTxs] at h
    split at h
    · rename_i s r hexec
      rw [ih h]
      simp [Batch.record, Batch.transactions]
    · cases h

theorem works_applyBody {L : ChainLedger} {block : Block} (hext : L.Extends P block.header) :
    L.Works P (L.applyBody P block).1 := by
  rw [applyBody, hext.height_eq]
  exact turns_applyTxs _ _ _ _ _

theorem mineBlock_advance (L : ChainLedger) (proposer : Address) :
    Advance P L (L.mineBlock P proposer).1 :=
  .appended (L.mineTxs P) (L.mineBlock P proposer).2 [] (turns_mineTxs _ _ _ _ _)
    ⟨rfl, rfl, rfl⟩ rfl ⟨rfl, rfl, rfl⟩

theorem acceptBlock_advance {L : ChainLedger} {block : Block} {b : Batch}
    (hext : L.Extends P block.header) (hbody : L.applyBody P block = (b, .ok ()))
    (hroots : RootsMatch P b block.header) : Advance P L (L.acceptBlock P b block) := by
  refine .appended b block _ ?_ hext ?_ hroots
  · have hworks := works_applyBody (P := P) hext
    rwa [hbody] at hworks
  · simpa [batch, Batch.transactions] using (applyTxs_transactions hbody).symm

theorem applyBlock_moves (L : ChainLedger) (block : Block) :
    ReflTransGen (Move P) L (L.applyBlock P block).1 := by
  have houtcome := applyBlock_outcome (P := P) L block
  generalize L.applyBlock P block = result at houtcome
  cases houtcome with
  | ignored | refused => exact .refl
  | failed b e hext hbody | mismatched b e hext hbody =>
    have hworks := works_applyBody (P := P) hext
    rw [hbody] at hworks
    exact .single (.spilled b hworks)
  | accepted b hext hbody hroots => exact .single (.advance (acceptBlock_advance hext hbody hroots))

theorem applyBlock_advances {L : ChainLedger} {block : Block} {receipts : List TxReceipt}
    (hok : (L.applyBlock P block).2 = .ok receipts) :
    ReflTransGen (Advance P) L (L.applyBlock P block).1 := by
  have houtcome := applyBlock_outcome (P := P) L block
  generalize L.applyBlock P block = result at houtcome hok
  cases houtcome with
  | ignored => exact .refl
  | refused | failed | mismatched => cases hok
  | accepted b hext hbody hroots => exact .single (acceptBlock_advance hext hbody hroots)

theorem applyBlocksFrom_moves (count : ℕ) (L : ChainLedger) (blocks : List Block) :
    ReflTransGen (Move P) L (L.applyBlocksFrom P count blocks).1 := by
  induction blocks generalizing L count with
  | nil => exact .refl
  | cons block rest ih =>
    have hfirst := applyBlock_moves (P := P) L block
    rw [applyBlocksFrom]
    split
    · rename_i L' e happly
      rwa [happly] at hfirst
    · rename_i L' receipts happly
      rw [happly] at hfirst
      exact hfirst.trans (ih (count + 1) L')

theorem applyBlocksFrom_advances {count n : ℕ} {L : ChainLedger} {blocks : List Block}
    (hok : (L.applyBlocksFrom P count blocks).2 = .ok n) :
    ReflTransGen (Advance P) L (L.applyBlocksFrom P count blocks).1 := by
  induction blocks generalizing L count with
  | nil => exact .refl
  | cons block rest ih =>
    rw [applyBlocksFrom] at hok ⊢
    split at hok
    · cases hok
    · rename_i L' receipts happly
      have hfirst : ReflTransGen (Advance P) L (L.applyBlock P block).1 :=
        applyBlock_advances (by rw [happly])
      rw [happly] at hfirst
      exact hfirst.trans (ih hok)

theorem submitTransaction_advances (L : ChainLedger) (tx : Transaction) :
    ReflTransGen (Advance P) L (L.submitTransaction P tx).1 := by
  rcases submitTransaction_cases (P := P) L tx with hsame | hpushed
  · rw [hsame]
  · rw [hpushed]
    exact .single (.pooled _)

theorem setLastCommit_advances (L : ChainLedger) (height : ℕ) (sigs : List CommitSignature) :
    ReflTransGen (Advance P) L (L.setLastCommit P height sigs).1 := by
  cases hblock : L.blocks[height]? with
  | none =>
    rw [setLastCommit, hblock]
  | some block => exact .single (.resigned sigs hblock)

theorem exists_ok_of_isOk {ε α : Type} {x : Except ε α} (h : x.isOk = true) : ∃ a, x = .ok a := by
  cases x with
  | error e => cases h
  | ok a => exact ⟨a, rfl⟩

theorem moves_of_advances {L L' : ChainLedger} (h : ReflTransGen (Advance P) L L') :
    ReflTransGen (Move P) L L' :=
  h.lift id (fun _ _ => .advance)

theorem operate_moves (L : ChainLedger) (op : LedgerOp) :
    ReflTransGen (Move P) L (L.operate P op) := by
  cases op with
  | call c =>
    cases c with
    | submit tx => exact moves_of_advances (L.submitTransaction_advances tx)
    | mine proposer => exact .single (.advance (L.mineBlock_advance proposer))
    | apply block => exact L.applyBlock_moves block
    | applyBatch blocks => exact applyBlocksFrom_moves 0 L blocks
  | setLastCommit height sigs =>
    exact moves_of_advances (L.setLastCommit_advances height sigs)

/-- A call that returns `Ok` leaves no refused batch behind. -/
theorem operate_advances {L : ChainLedger} {op : LedgerOp} (hok : L.succeeds P op = true) :
    ReflTransGen (Advance P) L (L.operate P op) := by
  cases op with
  | call c =>
    cases c with
    | submit tx => exact L.submitTransaction_advances tx
    | mine proposer => exact .single (L.mineBlock_advance proposer)
    | apply block =>
      obtain ⟨receipts, hreceipts⟩ := exists_ok_of_isOk hok
      exact applyBlock_advances hreceipts
    | applyBatch blocks =>
      obtain ⟨n, hn⟩ := exists_ok_of_isOk hok
      exact applyBlocksFrom_advances hn
  | setLastCommit height sigs => exact L.setLastCommit_advances height sigs

/-- What every move preserves, a sequence of moves preserves. -/
theorem preserved_of_moves {R : ChainLedger → ChainLedger → Prop} {I : ChainLedger → Prop}
    (hstep : ∀ L L', R L L' → I L → I L') {L L' : ChainLedger} (h : ReflTransGen R L L')
    (hL : I L) :
    I L' := by
  induction h with
  | refl => exact hL
  | tail _ hlast ih => exact hstep _ _ hlast ih

/-- An invariant of all moves holds in every ledger reached. -/
theorem reached_of_moves {I : ChainLedger → Prop} (hstep : ∀ L L', Move P L L' → I L → I L')
    {genesis : GenesisConfig} {store : Store} (h0 : I (initFromGenesisWithStore P genesis store))
    (ops : List LedgerOp) : I (reached P genesis store ops) :=
  Runs.run_invariant (fun L op hL => preserved_of_moves hstep (L.operate_moves op) hL) _ ops h0

/-- An invariant of the moves of successful calls holds after every run of them. -/
theorem reached_of_advances {I : ChainLedger → Prop}
    (hstep : ∀ L L', Advance P L L' → I L → I L') {genesis : GenesisConfig} {store : Store}
    (h0 : I (initFromGenesisWithStore P genesis store)) {ops : List LedgerOp}
    (hok : Runs.Along (fun L op => L.succeeds P op = true) (operate P)
      (initFromGenesisWithStore P genesis store) ops) :
    I (reached P genesis store ops) :=
  hok.invariant (fun _ _ hop hL => preserved_of_moves hstep (operate_advances hop) hL) h0

end ChainLedger

end Sprax
