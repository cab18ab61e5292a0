import Sprax.Executor
import Sprax.Runs

/-!
# The chain ledger

`ChainLedger` with every operation that changes it. Transactions are executed
one by one into the live store, both when a block is mined and when a received
block is applied; a ledger operation therefore returns the ledger it leaves
behind together with its result. The two hash maps are only searched, never
enumerated, so ordered maps stand for them.
-/
namespace Sprax
open Std StateAccessor

structure GenesisAccount where
  address : Address
  initialBalance : Amount
  deriving DecidableEq

structure GenesisValidator where
  operatorAddress : Address
  consensusPubkey : Bytes
  selfStake : Amount
  moniker : String
  deriving DecidableEq

structure GenesisConfig where
  chainId : String
  genesisTimeUnixSecs : ℕ
  accounts : List GenesisAccount
  validators : List GenesisValidator
  deriving DecidableEq

/-- Ledger state. The source relies on the block vector never being empty. -/
structure ChainLedger where
  genesis : GenesisConfig
  store : Store
  blocks : List Block
  blocks_ne : blocks ≠ []
  blockByHash : ExtTreeMap Hash32 ℕ compare
  txIndex : ExtTreeMap Hash32 (Transaction × TxReceipt × ℕ) compare
  mempool : List Transaction
  executor : TxExecutor

variable (P : Primitives)

namespace GenesisConfig

def creditAccount (store : Store) (account : GenesisAccount) : Store :=
  setAccount P store account.address ⟨0, account.initialBalance, Hash32.zero, Hash32.zero⟩

def initializeState (genesis : GenesisConfig) (store : Store) : Store × BlockHeader :=
  let store := genesis.accounts.foldl (creditAccount P) store
  (store,
    { version := 1
      chainId := genesis.chainId
      height := 0
      timestampUnixSecs := genesis.genesisTimeUnixSecs
      parentHash := Hash32.zero
      proposer := Address.zero
      stateRoot := store.computeRoot P
      txsRoot := Hash32.zero
      receiptsRoot := Hash32.zero
      validatorSetHash := P.blake3 (ascii "genesis-validators") })

end GenesisConfig

namespace ChainLedger

def persistBlock (store : Store) (height : ℕ) (block : Block) (blockHash : Hash32) : Store :=
  (store.putBlock height (P.blockJson.toVec block)).putBlockHashIndex blockHash height

def persistTxIndex (store : Store) (txHash : Hash32) (tx : Transaction) (receipt : TxReceipt)
    (height : ℕ) : Store :=
  store.putTxIndex txHash (P.txEntryJson.toVec (tx, receipt, height))

def initFromGenesisWithStore (genesis : GenesisConfig) (store : Store) : ChainLedger :=
  let init := genesis.initializeState P store
  let block : Block := ⟨init.2, ⟨[]⟩, []⟩
  let hash := Hasher.blockHash P init.2
  { genesis := genesis
    store := (persistBlock P init.1 0 block hash).putHeight 0
    blocks := [block]
    blocks_ne := by simp
    blockByHash := (∅ : ExtTreeMap Hash32 ℕ compare).insert hash 0
    txIndex := ∅
    mempool := []
    executor := TxExecutor.default }

def initFromGenesis (genesis : GenesisConfig) : ChainLedger :=
  initFromGenesisWithStore P genesis Store.empty

def chainId (L : ChainLedger) : String := L.genesis.chainId

def height (L : ChainLedger) : ℕ := L.blocks.length - 1

def latestBlock (L : ChainLedger) : Block := L.blocks.getLast L.blocks_ne

def latestHeader (L : ChainLedger) : BlockHeader := L.latestBlock.header

def stateRoot (L : ChainLedger) : Hash32 := L.store.computeRoot P

def getBlockByHeight (L : ChainLedger) (height : ℕ) : Option Block := L.blocks[height]?

def getBlockByHash (L : ChainLedger) (hash : Hash32) : Option Block :=
  L.blockByHash[hash]?.bind L.getBlockByHeight

def getTransaction (L : ChainLedger) (hash : Hash32) : Option (Transaction × TxReceipt × ℕ) :=
  L.txIndex[hash]?

def submitTransaction (L : ChainLedger) (tx : Transaction) :
    ChainLedger × Except CoreError Hash32 :=
  let txHash := Hasher.txHash P tx
  if txHash ∈ L.txIndex then
    (L, .error (.moduleError "mempool" "transaction already included in block"))
  else if L.mempool.any (fun t => Hasher.txHash P t = txHash) then
    (L, .error (.moduleError "mempool" "transaction already pending in mempool"))
  else match TxExecutor.validateTransactionStatic P tx L.genesis.chainId with
    | .error e => (L, .error e)
    | .ok () =>
      match TxExecutor.checkSender P L.store tx with
      | .error e => (L, .error e)
      | .ok _ => ({ L with mempool := L.mempool ++ [tx] }, .ok txHash)

/-- Working state of the two execution loops: the live store and transaction
index, and what was executed so far. -/
structure Batch where
  store : Store
  txIndex : ExtTreeMap Hash32 (Transaction × TxReceipt × ℕ) compare
  executed : List (Transaction × TxReceipt)

namespace Batch

def transactions (b : Batch) : List Transaction := b.executed.map (·.1)

def receipts (b : Batch) : List TxReceipt := b.executed.map (·.2)

def txsRoot (b : Batch) : Hash32 := Hasher.merkleRoot P (b.receipts.map (·.txHash))

def receiptsRoot (b : Batch) : Hash32 :=
  Hasher.merkleRoot P (b.receipts.map (Hasher.receiptHash P))

/-- Index one executed transaction, in memory and in the store. -/
def record (b : Batch) (store : Store) (tx : Transaction) (receipt : TxReceipt) (height : ℕ) :
    Batch :=
  { store := persistTxIndex P store receipt.txHash tx receipt height
    txIndex := b.txIndex.insert receipt.txHash (tx, receipt, height)
    executed := b.executed ++ [(tx, receipt)] }

end Batch

def batch (L : ChainLedger) : Batch := ⟨L.store, L.txIndex, []⟩

def withBatch (L : ChainLedger) (b : Batch) : ChainLedger :=
  { L with store := b.store, txIndex := b.txIndex }

/-- One turn of the mining loop: a failing transaction is dropped, whatever it
did to the store. -/
def mineTx (executor : TxExecutor) (height : ℕ) (chainId : String) (b : Batch)
    (tx : Transaction) : Batch :=
  match executor.executeTransaction P b.store tx height chainId with
  | (store, .ok receipt) => b.record P store tx receipt height
  | (store, .error _) => { b with store := store }

/-- The loop of `apply_block`: it stops at the first failing transaction. -/
def applyTxs (executor : TxExecutor) (height : ℕ) (chainId : String) (b : Batch) :
    List Transaction → Batch × Except CoreError Unit
  | [] => (b, .ok ())
  | tx :: rest =>
    match executor.executeTransaction P b.store tx height chainId with
    | (store, .ok receipt) =>
      applyTxs executor height chainId (b.record P store tx receipt height) rest
    | (store, .error e) => ({ b with store := store }, .error e)

/-- Append a block after its transactions were executed. -/
def commitBlock (L : ChainLedger) (b : Batch) (height : ℕ) (block : Block) : ChainLedger :=
  let hash := Hasher.blockHash P block.header
  { L with
    store := (persistBlock P b.store height block hash).putHeight height
    blocks := L.blocks ++ [block]
    blocks_ne := by simp
    blockByHash := L.blockByHash.insert hash height
    txIndex := b.txIndex }

/-- The whole mempool is executed; what fails is left out of the block. -/
def mineTxs (L : ChainLedger) : Batch :=
  L.mempool.foldl (mineTx P L.executor (L.height + 1) L.genesis.chainId) L.batch

/-- The block that `mine_block` builds from an executed batch. The timestamp
wraps as the 64-bit addition does. -/
def minedBlock (L : ChainLedger) (b : Batch) (proposer : Address) : Block :=
  { header :=
      { version := 1
        chainId := L.genesis.chainId
        height := L.height + 1
        timestampUnixSecs := (L.latestHeader.timestampUnixSecs + 2) % 2 ^ 64
        parentHash := Hasher.blockHash P L.latestHeader
        proposer := proposer
        stateRoot := b.store.computeRoot P
        txsRoot := b.txsRoot P
        receiptsRoot := b.receiptsRoot P
        validatorSetHash := L.latestHeader.validatorSetHash }
    body := ⟨b.transactions⟩
    lastCommit := [] }

def mineBlock (L : ChainLedger) (proposer : Address) : ChainLedger × Block :=
  let b := L.mineTxs P
  let block := L.minedBlock P b proposer
  ({ L.commitBlock P b (L.height + 1) block with mempool := [] }, block)

/-- Order, chain and parent checks of `apply_block`. -/
def checkHeader (L : ChainLedger) (header : BlockHeader) : Except CoreError Unit :=
  let expectedHeight := L.height + 1
  let received := header.height
  let expectedChain := L.genesis.chainId
  let foundChain := header.chainId
  let expectedParent := Hasher.blockHash P L.latestHeader
  if received ≠ expectedHeight then
    .error (.moduleError "consensus"
      s!"out-of-order block: expected height {expectedHeight}, received {received}")
  else if foundChain ≠ expectedChain then
    .error (.moduleError "consensus"
      s!"chain ID mismatch in block: expected '{expectedChain}', found '{foundChain}'")
  else if header.parentHash ≠ expectedParent then
    let expected := expectedParent.toHex
    let found := header.parentHash.toHex
    .error (.moduleError "consensus" s!"parent hash mismatch: expected {expected}, found {found}")
  else .ok ()

/-- One of the three root comparisons. -/
def checkRoot (name : String) (computed header : Hash32) : Except CoreError Unit :=
  if computed ≠ header then
    let computedHex := computed.toHex
    let headerHex := header.toHex
    .error (.moduleError "consensus"
      s!"{name} root mismatch: computed {computedHex}, header {headerHex}")
  else .ok ()

def checkRoots (b : Batch) (header : BlockHeader) : Except CoreError Unit :=
  match checkRoot "state" (b.store.computeRoot P) header.stateRoot with
  | .error e => .error e
  | .ok () =>
    match checkRoot "txs" (b.txsRoot P) header.txsRoot with
    | .error e => .error e
    | .ok () => checkRoot "receipts" (b.receiptsRoot P) header.receiptsRoot

/-- The executed batch of a received block, and the outcome of its execution. -/
def applyBody (L : ChainLedger) (block : Block) : Batch × Except CoreError Unit :=
  applyTxs P L.executor block.header.height L.genesis.chainId L.batch block.body.transactions

/-- Step 8 of `apply_block`: append the block and drop its transactions from the
mempool. -/
def acceptBlock (L : ChainLedger) (b : Batch) (block : Block) : ChainLedger :=
  { L.commitBlock P b block.header.height block with
    mempool := L.mempool.filter (fun tx => Hasher.txHash P tx ∉ b.txIndex) }

/-- A block at or below the local height is answered with success and ignored.
What was executed before an error stays in the store and in the index. -/
def applyBlock (L : ChainLedger) (block : Block) :
    ChainLedger × Except CoreError (List TxReceipt) :=
  if block.header.height ≤ L.height then (L, .ok [])
  else match L.checkHeader P block.header with
    | .error e => (L, .error e)
    | .ok () =>
      match L.applyBody P block with
      | (b, .error e) => (L.withBatch b, .error e)
      | (b, .ok ()) =>
        match checkRoots P b block.header with
        | .error e => (L.withBatch b, .error e)
        | .ok () => (L.acceptBlock P b block, .ok b.receipts)

def applyBlocksFrom (count : ℕ) (L : ChainLedger) : List Block → ChainLedger × Except CoreError ℕ
  | [] => (L, .ok count)
  | block :: rest =>
    match L.applyBlock P block with
    | (L', .error e) => (L', .error e)
    | (L', .ok _) => applyBlocksFrom (count + 1) L' rest

def applyBlocksBatch (L : ChainLedger) (blocks : List Block) : ChainLedger × Except CoreError ℕ :=
  applyBlocksFrom P 0 L blocks

/-- Overwrites the commit signatures of a stored block, whatever block that is. -/
def setLastCommit (L : ChainLedger) (height : ℕ) (commitSigs : List CommitSignature) :
    ChainLedger × Except CoreError Unit :=
  match L.blocks[height]? with
  | none => (L, .error (.stateError s!"no block at height {height}"))
  | some block =>
    let block' := { block with lastCommit := commitSigs }
    ({ L with
        store := persistBlock P L.store height block' (Hasher.blockHash P block.header)
        blocks := L.blocks.set height block'
        blocks_ne := by simpa using L.blocks_ne }, .ok ())

/-- In-memory caches while they are read back. -/
structure Rebuilt where
  blocks : List Block
  blockByHash : ExtTreeMap Hash32 ℕ compare
  txIndex : ExtTreeMap Hash32 (Transaction × TxReceipt × ℕ) compare

/-- Index entries of a block's transactions; a missing entry is skipped. -/
def rebuildTxIndex (store : Store)
    (txIndex : ExtTreeMap Hash32 (Transaction × TxReceipt × ℕ) compare) :
    List Transaction → Except CoreError (ExtTreeMap Hash32 (Transaction × TxReceipt × ℕ) compare)
  | [] => .ok txIndex
  | tx :: rest =>
    let txHash := Hasher.txHash P tx
    match store.getTxIndex txHash with
    | none => rebuildTxIndex store txIndex rest
    | some entryBytes =>
      match P.txEntryJson.fromSlice entryBytes with
      | .error e => .error (.stateError s!"tx index decode error: {e}")
      | .ok entry => rebuildTxIndex store (txIndex.insert txHash entry) rest

def rebuildBlock (store : Store) (r : Rebuilt) (h : ℕ) : Except CoreError Rebuilt :=
  match store.getBlock h with
  | none => .error (.stateError s!"missing persisted block at height {h}")
  | some blockBytes =>
    match P.blockJson.fromSlice blockBytes with
    | .error e => .error (.stateError s!"block decode error: {e}")
    | .ok block =>
      match rebuildTxIndex P store r.txIndex block.body.transactions with
      | .error e => .error e
      | .ok txIndex =>
        .ok ⟨r.blocks ++ [block], r.blockByHash.insert (Hasher.blockHash P block.header) h, txIndex⟩

def rebuildLoop (store : Store) (r : Rebuilt) : List ℕ → Except CoreError Rebuilt
  | [] => .ok r
  | h :: rest =>
    match rebuildBlock P store r h with
    | .error e => .error e
    | .ok r' => rebuildLoop store r' rest

theorem rebuildBlock_length {store : Store} {r r' : Rebuilt} {h : ℕ}
    (hr : rebuildBlock P store r h = .ok r') : r'.blocks.length = r.blocks.length + 1 := by
  unfold rebuildBlock at hr
  split at hr
  · cases hr
  · split at hr
    · cases hr
    · split at hr
      · cases hr
      · cases hr
        simp

theorem rebuildLoop_length {store : Store} {r r' : Rebuilt} {hs : List ℕ}
    (hr : rebuildLoop P store r hs = .ok r') :
    r'.blocks.length = r.blocks.length + hs.length := by
  induction hs generalizing r with
  | nil => cases hr; rfl
  | cons h hs ih =>
    rw [rebuildLoop] at hr
    split at hr
    · cases hr
    · rename_i r₁ hr₁
      have hstep := rebuildBlock_length P hr₁
      have hrest := ih hr
      simp only [List.length_cons]
      omega

/-- Reads the blocks of heights 0 to `height` back, without executing anything. -/
def rebuildFromStore (genesis : GenesisConfig) (store : Store) (height : ℕ) :
    Except CoreError ChainLedger :=
  match hr : rebuildLoop P store ⟨[], ∅, ∅⟩ (List.range (height + 1)) with
  | .error e => .error e
  | .ok r =>
    .ok { genesis := genesis
          store := store
          blocks := r.blocks
          blocks_ne := by
            have hlen := rebuildLoop_length P hr
            simp only [List.length_nil, List.length_range, Nat.zero_add] at hlen
            exact List.length_pos_iff.mp (by omega)
          blockByHash := r.blockByHash
          txIndex := r.txIndex
          mempool := []
          executor := TxExecutor.default }

def openOrInit (store : Store) (genesis : GenesisConfig) : Except CoreError ChainLedger :=
  match store.getHeight with
  | some height => rebuildFromStore P genesis store height
  | none => .ok (initFromGenesisWithStore P genesis store)

/-- A reopened ledger stands at the persisted height, or at genesis if none was
persisted. -/
theorem openOrInit_height {store : Store} {genesis : GenesisConfig} {L : ChainLedger}
    (h : openOrInit P store genesis = .ok L) : L.height = store.getHeight.getD 0 := by
  unfold openOrInit at h
  split at h
  · rename_i height hh
    unfold rebuildFromStore at h
    split at h
    · cases h
    · rename_i r hr
      cases h
      have hlen := rebuildLoop_length P hr
      simp only [List.length_nil, List.length_range, Nat.zero_add] at hlen
      simp only [ChainLedger.height, hlen, hh, Nat.add_sub_cancel, Option.getD_some]
  · rename_i hh
    cases h
    simp [ChainLedger.height, initFromGenesisWithStore, hh]

end ChainLedger

end Sprax
