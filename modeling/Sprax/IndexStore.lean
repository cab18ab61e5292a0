import Sprax.Filing
import Sprax.Paging
import Sprax.Runs
import Sprax.Crypto

/-!
# The explorer index

The in-memory database of `sprax-indexer` and the indexing of a finalized block.
Some of its tables are overwritten by an insertion and some are appended to; every
table is a function of the list of blocks that were indexed, which is what the
results about the index rest on. Offsets stay within `usize`.
-/
namespace Sprax
open Std Filing Runs

/-- Paginated query envelope for explorer tables. -/
structure PaginatedResponse (α : Type) where
  items : List α
  total : ℕ
  limit : ℕ
  offset : ℕ
  hasMore : Bool

def PaginatedResponse.page {α : Type} (r : PaginatedResponse α) : Paging.Page α :=
  ⟨r.items, r.hasMore⟩

structure IndexedBlock where
  height : ℕ
  hash : Hash32
  parentHash : Hash32
  chainId : String
  timestampUnixSecs : ℕ
  proposer : Address
  txsCount : ℕ
  txsRoot : Hash32
  stateRoot : Hash32
  gasUsed : ℕ
  blockSizeBytes : ℕ
  deriving DecidableEq

structure IndexedTx where
  txHash : Hash32
  blockHeight : ℕ
  blockHash : Hash32
  sender : Address
  recipient : Option Address
  messageType : String
  amount : Amount
  feeAmount : Amount
  nonce : ℕ
  memo : String
  success : Bool
  gasUsed : ℕ
  timestampUnixSecs : ℕ
  rawMessages : List TxMessage
  deriving DecidableEq

structure IndexedAccount where
  address : Address
  addressHex : String
  balance : Amount
  balanceSprx : String
  nonce : ℕ
  txCount : ℕ
  firstSeenHeight : ℕ
  lastActiveHeight : ℕ

structure IndexedValidator where
  operatorAddress : Address
  moniker : String
  votingPower : ℕ
  votingPowerPercentage : Float
  tokens : Amount
  commissionRate : Float
  status : String
  isTombstoned : Bool
  missedBlocksCount : ℕ
  uptimePercentage : Float
  blocksProposedCount : ℕ

structure NetworkStats where
  chainId : String
  latestHeight : ℕ
  latestBlockHash : Hash32
  totalTransactions : ℕ
  totalAccounts : ℕ
  activeValidatorsCount : ℕ
  totalBondedTokens : Amount
  avgBlockTimeSeconds : Float
  currentTps : Float
  latestStateRoot : Hash32

structure IndexStore where
  blocksByHeight : ExtTreeMap ℕ IndexedBlock compare
  blockHeightByHash : ExtTreeMap Hash32 ℕ compare
  txsByHash : ExtTreeMap Hash32 IndexedTx compare
  txHashesByHeight : ExtTreeMap ℕ (List Hash32) compare
  txHashesByAddress : ExtTreeMap Address (List Hash32) compare
  txChronological : List Hash32
  accountsByAddress : ExtTreeMap Address IndexedAccount compare
  validatorsByAddress : ExtTreeMap Address IndexedValidator compare
  chainId : String

namespace IndexStore

def new (chainId : String) : IndexStore := ⟨∅, ∅, ∅, ∅, ∅, [], ∅, ∅, chainId⟩

def insertBlock (s : IndexStore) (block : IndexedBlock) : IndexStore :=
  { s with
    blockHeightByHash := s.blockHeightByHash.insert block.hash block.height
    blocksByHeight := s.blocksByHeight.insert block.height block }

def insertTx (s : IndexStore) (tx : IndexedTx) : IndexStore :=
  let bySender := push tx.txHash s.txHashesByAddress tx.sender
  { s with
    txsByHash := s.txsByHash.insert tx.txHash tx
    txChronological := s.txChronological ++ [tx.txHash]
    txHashesByHeight := push tx.txHash s.txHashesByHeight tx.blockHeight
    txHashesByAddress :=
      match tx.recipient with
      | some recipient =>
        if recipient ≠ tx.sender then push tx.txHash bySender recipient else bySender
      | none => bySender }

def upsertAccount (s : IndexStore) (account : IndexedAccount) : IndexStore :=
  { s with accountsByAddress := s.accountsByAddress.insert account.address account }

def upsertValidator (s : IndexStore) (validator : IndexedValidator) : IndexStore :=
  { s with validatorsByAddress := s.validatorsByAddress.insert validator.operatorAddress validator }

def getBlockByHeight (s : IndexStore) (height : ℕ) : Option IndexedBlock :=
  s.blocksByHeight[height]?

def getBlockByHash (s : IndexStore) (hash : Hash32) : Option IndexedBlock :=
  s.blockHeightByHash[hash]?.bind s.getBlockByHeight

def getTxByHash (s : IndexStore) (hash : Hash32) : Option IndexedTx := s.txsByHash[hash]?

def getAccount (s : IndexStore) (address : Address) : Option IndexedAccount :=
  s.accountsByAddress[address]?

def getValidator (s : IndexStore) (address : Address) : Option IndexedValidator :=
  s.validatorsByAddress[address]?

def paginated {α : Type} (items : List α) (total limit offset : ℕ) : PaginatedResponse α :=
  ⟨items, total, limit, offset, offset + items.length < total⟩

/-- Blocks, sorted descending by height. -/
def getBlocksPaginated (s : IndexStore) (limit offset : ℕ) : PaginatedResponse IndexedBlock :=
  let values := s.blocksByHeight.toList.map (·.2)
  paginated ((values.reverse.drop offset).take limit) s.blocksByHeight.size limit offset

/-- A window of a list of hashes, last hash first. Hashes that are not in the
transaction table are passed over. -/
def listed (s : IndexStore) (hashes : List Hash32) (limit offset : ℕ) :
    PaginatedResponse IndexedTx :=
  paginated (((hashes.reverse.drop offset).take limit).filterMap s.getTxByHash) hashes.length
    limit offset

def getTxsPaginated (s : IndexStore) (limit offset : ℕ) : PaginatedResponse IndexedTx :=
  s.listed s.txChronological limit offset

def getAddressTxsPaginated (s : IndexStore) (address : Address) (limit offset : ℕ) :
    PaginatedResponse IndexedTx :=
  s.listed (entries s.txHashesByAddress address) limit offset

/-- The sum of 128-bit amounts wraps. -/
def getNetworkStats (s : IndexStore) : NetworkStats :=
  let validators := s.validatorsByAddress.toList.map (·.2)
  let totalTxs := s.txChronological.length
  let latestHeight := s.blocksByHeight.maxKey?.getD 0
  let latestBlock := s.blocksByHeight[latestHeight]?
  let totalBondedAtto := (validators.map (fun v => v.tokens.atto)).sum % 2 ^ 128
  { chainId := s.chainId
    latestHeight
    latestBlockHash := (latestBlock.map (·.hash)).getD Hash32.zero
    totalTransactions := totalTxs
    totalAccounts := s.accountsByAddress.size
    activeValidatorsCount := (validators.filter (fun v => v.status = "Active")).length
    totalBondedTokens := ⟨totalBondedAtto, Nat.mod_lt _ (by decide)⟩
    avgBlockTimeSeconds := 1.50
    currentTps :=
      if 0 < totalTxs then Float.ofNat totalTxs / (Float.ofNat (latestHeight + 1) * 1.5) else 0.0
    latestStateRoot := (latestBlock.map (·.stateRoot)).getD Hash32.zero }

end IndexStore

/-- A finalized block as the indexer receives it. -/
structure Finalized where
  block : Block
  receipts : List TxReceipt

namespace IndexerEngine

variable (P : Primitives)

/-- The sum of 64-bit counters wraps. -/
def indexedBlock (f : Finalized) : IndexedBlock where
  height := f.block.header.height
  hash := Hasher.blockHash P f.block.header
  parentHash := f.block.header.parentHash
  chainId := f.block.header.chainId
  timestampUnixSecs := f.block.header.timestampUnixSecs
  proposer := f.block.header.proposer
  txsCount := f.block.body.transactions.length
  txsRoot := f.block.header.txsRoot
  stateRoot := f.block.header.stateRoot
  gasUsed := (f.receipts.map (·.gasUsed)).sum % 2 ^ 64
  blockSizeBytes := (P.blockJson.toVec f.block).length

/-- Type, recipient and amount are those of the first message. -/
def normalized (tx : Transaction) : String × Option Address × Amount :=
  match tx.body.messages.head? with
  | some (.transfer recipient amount) => ("Transfer", some recipient, amount)
  | some _ => ("ContractCall", none, Amount.zero)
  | none => ("Empty", none, Amount.zero)

def indexedTx (f : Finalized) (tx : Transaction) (i : ℕ) : IndexedTx :=
  let receipt := f.receipts[i]?
  let (messageType, recipient, amount) := normalized tx
  { txHash := Hasher.txHash P tx
    blockHeight := f.block.header.height
    blockHash := Hasher.blockHash P f.block.header
    sender := tx.body.sender
    recipient
    messageType
    amount
    feeAmount := tx.body.fee.amount
    nonce := tx.body.nonce
    memo := tx.body.memo
    success := (receipt.map (·.success)).getD true
    gasUsed := (receipt.map (·.gasUsed)).getD 21000
    timestampUnixSecs := f.block.header.timestampUnixSecs
    rawMessages := tx.body.messages }

/-- The records of the block's transactions, in their order. -/
def indexedTxs (f : Finalized) : List IndexedTx :=
  f.block.body.transactions.zipIdx.map (fun e => indexedTx P f e.1 e.2)

def indexBlock (s : IndexStore) (f : Finalized) : IndexStore :=
  (indexedTxs P f).foldl IndexStore.insertTx (s.insertBlock (indexedBlock P f))

/-- `fixed4` prints a double with four decimals. -/
def updateAccount (fixed4 : Float → String) (s : IndexStore) (address : Address) (balance : Amount)
    (nonce height : ℕ) : IndexStore :=
  let wholeSprx := Float.ofNat balance.atto / 1000000000000000000.0
  let existing := s.getAccount address
  s.upsertAccount
    { address
      addressHex := address.toHex
      balance
      balanceSprx := fixed4 wholeSprx ++ " SPRX"
      nonce
      txCount := (existing.map (·.txCount + 1)).getD 1
      firstSeenHeight := (existing.map (·.firstSeenHeight)).getD height
      lastActiveHeight := height }

/-- The index of a chain after indexing these blocks. -/
def indexed (chainId : String) (fs : List Finalized) : IndexStore :=
  run (indexBlock P) (IndexStore.new chainId) fs

/-- All transactions that are inserted, in the order of insertion. -/
def insertions (fs : List Finalized) : List IndexedTx := fs.flatMap (indexedTxs P)

end IndexerEngine

namespace IndexedTx

/-- The addresses a transaction is filed under. -/
def parties (tx : IndexedTx) : List Address :=
  tx.sender :: tx.recipient.toList.filter (· ≠ tx.sender)

@[simp] theorem mem_parties {tx : IndexedTx} {address : Address} :
    address ∈ tx.parties ↔ tx.sender = address ∨ tx.recipient = some address := by
  by_cases hself : tx.sender = address
  · simp [parties, hself]
  · simp [parties, hself, Ne.symm hself]

theorem nodup_parties (tx : IndexedTx) : tx.parties.Nodup := by
  cases hrecipient : tx.recipient with
  | none => simp [parties, hrecipient]
  | some recipient =>
    by_cases hself : recipient = tx.sender
    · simp [parties, hrecipient, hself]
    · simp [parties, hrecipient, hself, Ne.symm hself]

end IndexedTx

namespace IndexStore

/-- A store with more blocks and transactions. -/
def filed (s : IndexStore) (blocks : List IndexedBlock) (txs : List IndexedTx) : IndexStore :=
  { s with
    blocksByHeight := blocks.foldl (overwrite (·.height) id) s.blocksByHeight
    blockHeightByHash := blocks.foldl (overwrite (·.hash) (·.height)) s.blockHeightByHash
    txsByHash := txs.foldl (overwrite (·.txHash) id) s.txsByHash
    txHashesByHeight :=
      txs.foldl (pushUnder (fun tx => [tx.blockHeight]) (·.txHash)) s.txHashesByHeight
    txHashesByAddress := txs.foldl (pushUnder IndexedTx.parties (·.txHash)) s.txHashesByAddress
    txChronological := s.txChronological ++ txs.map (·.txHash) }

@[simp] theorem filed_nil (s : IndexStore) : s.filed [] [] = s := by simp [filed]

theorem filed_filed (s : IndexStore) (blocks blocks' : List IndexedBlock)
    (txs txs' : List IndexedTx) :
    (s.filed blocks txs).filed blocks' txs' = s.filed (blocks ++ blocks') (txs ++ txs') := by
  simp [filed]

theorem insertTx_eq (s : IndexStore) (tx : IndexedTx) : s.insertTx tx = s.filed [] [tx] := by
  cases hrecipient : tx.recipient with
  | none => simp [insertTx, filed, overwrite, pushUnder, IndexedTx.parties, hrecipient]
  | some recipient =>
    by_cases hself : recipient = tx.sender <;>
      simp [insertTx, filed, overwrite, pushUnder, IndexedTx.parties, hrecipient, hself]

theorem insertTxs_eq (s : IndexStore) (txs : List IndexedTx) :
    txs.foldl insertTx s = s.filed [] txs := by
  induction txs generalizing s with
  | nil => simp
  | cons tx txs ih =>
    rw [List.foldl_cons, ih, insertTx_eq, filed_filed, List.nil_append, List.singleton_append]

end IndexStore

namespace IndexerEngine

variable {P : Primitives}

theorem indexBlock_eq (s : IndexStore) (f : Finalized) :
    indexBlock P s f = s.filed [indexedBlock P f] (indexedTxs P f) := by
  have hblock : s.insertBlock (indexedBlock P f) = s.filed [indexedBlock P f] [] := by
    simp [IndexStore.insertBlock, IndexStore.filed, overwrite]
  rw [indexBlock, hblock, IndexStore.insertTxs_eq, IndexStore.filed_filed, List.append_nil,
    List.nil_append]

theorem run_indexBlock (s : IndexStore) (fs : List Finalized) :
    run (indexBlock P) s fs = s.filed (fs.map (indexedBlock P)) (insertions P fs) := by
  induction fs generalizing s with
  | nil => simp [insertions]
  | cons f fs ih => simp [run_cons, ih, indexBlock_eq, IndexStore.filed_filed, insertions]

variable (chainId : String) (fs : List Finalized)

theorem indexed_eq :
    indexed P chainId fs = (IndexStore.new chainId).filed (fs.map (indexedBlock P))
      (insertions P fs) :=
  run_indexBlock _ fs

/-- A height shows the last block indexed there. -/
@[simp] theorem getBlockByHeight_indexed (height : ℕ) :
    (indexed P chainId fs).getBlockByHeight height =
      latest (·.height) (fs.map (indexedBlock P)) height := by
  simp [indexed_eq, IndexStore.getBlockByHeight, IndexStore.filed, IndexStore.new,
    getElem?_overwrites]

/-- A block hash leads to the height at which it was last indexed. -/
theorem blockHeightByHash_indexed (hash : Hash32) :
    (indexed P chainId fs).blockHeightByHash[hash]? =
      (latest (·.hash) (fs.map (indexedBlock P)) hash).map (·.height) := by
  simp [indexed_eq, IndexStore.filed, IndexStore.new, getElem?_overwrites]

@[simp] theorem getTxByHash_indexed (hash : Hash32) :
    (indexed P chainId fs).getTxByHash hash = latest (·.txHash) (insertions P fs) hash := by
  simp [indexed_eq, IndexStore.getTxByHash, IndexStore.filed, IndexStore.new, getElem?_overwrites]

@[simp] theorem txChronological_indexed :
    (indexed P chainId fs).txChronological = (insertions P fs).map (·.txHash) := by
  simp [indexed_eq, IndexStore.filed, IndexStore.new]

@[simp] theorem txHashesByHeight_indexed (height : ℕ) :
    entries (indexed P chainId fs).txHashesByHeight height =
      ((insertions P fs).filter (fun tx => tx.blockHeight = height)).map (·.txHash) := by
  have hkeys : ∀ tx : IndexedTx, [tx.blockHeight].Nodup := fun tx => List.nodup_singleton _
  simp [indexed_eq, IndexStore.filed, IndexStore.new, entries_pushes hkeys, eq_comm]

@[simp] theorem txHashesByAddress_indexed (address : Address) :
    entries (indexed P chainId fs).txHashesByAddress address =
      ((insertions P fs).filter (fun tx => address ∈ tx.parties)).map (·.txHash) := by
  simp [indexed_eq, IndexStore.filed, IndexStore.new, entries_pushes IndexedTx.nodup_parties]

end IndexerEngine
end Sprax
