import Sprax.Balances
import Sprax.Staking
import Sprax.Receipts
import Sprax.Linked

/-!
# Requests to the RPC server

The JSON-RPC dispatcher and the REST handlers, over the ledger and the staking
keeper that the server shares with the tasks of the node. Broadcasts are the only
requests that write, and what they write is a submission to the mempool. So the
ledger behind a server is at all times one that ledger operations reach, and what a
client was told can be followed through the answers: the hash of a broadcast finds
the transaction once a block holds it, and the hash, height and parent hash that one
answer shows for a block lead to the blocks that the other requests show.
-/
namespace Sprax
open Std FiniteMap

/-- The `Display` text of the error. -/
def ConsensusError.display : ConsensusError → String
  | .invalidVote reason => s!"Invalid vote: {reason}"
  | .invalidValidatorSet reason => s!"Invalid validator set: {reason}"
  | .invalidProposer reason => s!"Invalid proposer: {reason}"

/-- The `Debug` text of the status. -/
def ValidatorStatus.debug : ValidatorStatus → String
  | .active => "Active"
  | .jailed => "Jailed"
  | .unbonding => "Unbonding"
  | .unbonded => "Unbonded"

namespace Staking.Keeper

def getValidator (k : Keeper) (addr : Address) : Option Record := k.validators[addr]?

/-- The delegations of one account, for a given enumeration order of the table. -/
def getDelegatorDelegations (k : Keeper) (o : IterOrder Delegation) (delegator : Address) :
    List Delegation :=
  (o.arrange (k.delegations.toList.map (·.2))).filter (fun d => d.delegatorAddress = delegator)

def getUnbondingEntries (k : Keeper) (delegator : Address) : List UnbondingEntry :=
  k.unbondingQueue.filter (fun u => u.delegatorAddress = delegator)

end Staking.Keeper

/-- Fields by name, as `serde` writes them. -/
def BlockHeader.toValue (P : Primitives) (h : BlockHeader) : Value :=
  .object [
    ("version", .number h.version),
    ("chain_id", .string h.chainId),
    ("height", .number h.height),
    ("timestamp_unix_secs", .number h.timestampUnixSecs),
    ("parent_hash", .string h.parentHash.toHex),
    ("proposer", h.proposer.toValue P),
    ("state_root", .string h.stateRoot.toHex),
    ("txs_root", .string h.txsRoot.toHex),
    ("receipts_root", .string h.receiptsRoot.toHex),
    ("validator_set_hash", .string h.validatorSetHash.toHex)]

def Block.toValue (P : Primitives) (b : Block) : Value :=
  .object [
    ("header", b.header.toValue P),
    ("body", .object [("transactions", .array (b.body.transactions.map (Transaction.toValue P)))]),
    ("last_commit", .array (b.lastCommit.map (CommitSignature.toValue P)))]

namespace Rpc

/-- What the server reads of the node. Descriptions of validators are kept beside
their records. -/
structure ServerState where
  ledger : ChainLedger
  staking : Staking.Keeper
  moniker : Address → String
  connectedPeers : ℕ
  isRunning : Bool
  isSyncing : Bool

/-- Enumeration orders of the hash tables a request reads. -/
structure Orders where
  records : IterOrder StakingValidator
  delegations : IterOrder Staking.Delegation

structure JsonRpcRequest where
  id : Option Value
  method : String
  params : Option Value

structure JsonRpcError where
  code : ℤ
  message : String

structure JsonRpcResponse where
  id : Option Value
  result : Option Value
  error : Option JsonRpcError

namespace JsonRpcResponse

def success (id : Option Value) (result : Value) : JsonRpcResponse := ⟨id, some result, none⟩

def failure (id : Option Value) (code : ℤ) (message : String) : JsonRpcResponse :=
  ⟨id, none, some ⟨code, message⟩⟩

end JsonRpcResponse

/-- Real-time runtime metrics. -/
structure NodeMetrics where
  chainId : String
  height : ℕ
  latestBlockHash : Hash32
  stateRoot : Hash32
  connectedPeers : ℕ
  totalTransactions : ℕ
  mempoolPending : ℕ
  status : String
  isSyncing : Bool

namespace ServerState
variable (P : Primitives)

def metrics (S : ServerState) : NodeMetrics :=
  let header := S.ledger.latestHeader
  { chainId := S.ledger.chainId
    height := header.height
    latestBlockHash := Hasher.blockHash P header
    stateRoot := header.stateRoot
    connectedPeers := S.connectedPeers
    totalTransactions := header.height
    mempoolPending := S.ledger.mempool.length
    status :=
      if ¬ S.isRunning then "offline"
      else if S.isSyncing then "syncing"
      else if 0 < S.connectedPeers then "online"
      else "idle"
    isSyncing := S.isSyncing }

/-- `NodeService::submit_transaction`, with the text of its error. -/
def submitTransaction (S : ServerState) (tx : Transaction) : ServerState × Except String Hash32 :=
  match S.ledger.submitTransaction P tx with
  | (ledger, .ok hash) => ({ S with ledger := ledger }, .ok hash)
  | (ledger, .error e) =>
    let reason := e.display
    ({ S with ledger := ledger }, .error s!"Service runtime error: {reason}")

/-- `NodeService::get_account`, with the text of its error. -/
def getAccount (S : ServerState) (addr : Address) : Except String AccountState :=
  match StateAccessor.getAccount P S.ledger.store addr with
  | .ok acc => .ok acc
  | .error e =>
    let reason := e.display
    .error s!"Storage initialization error: {reason}"

end ServerState

/-- The first parameter of a request. -/
def firstParam (params : Option Value) : Option Value := (params.bind Value.asArray).bind List.head?

/-- The first parameter as a text; the empty one if it is missing or none. -/
def firstText (params : Option Value) : String := ((firstParam params).bind Value.asStr).getD ""

section Methods
variable {P : Primitives} (B : Bech32 P) (S : ServerState)

/-- The number of active validators; none if there is no set. -/
def validatorCount (o : Orders) : ℕ :=
  match S.staking.getActiveValidatorSet o.records with
  | .ok s => s.validators.length
  | .error _ => 0

def statusValue (P : Primitives) (o : Orders) : Value :=
  let m := S.metrics P
  .object [
    ("chainId", .string m.chainId),
    ("latestBlockHeight", .number m.height),
    ("latestBlockHash", .string m.latestBlockHash.toHex),
    ("stateRoot", .string m.stateRoot.toHex),
    ("connectedPeers", .number m.connectedPeers),
    ("mempoolPending", .number m.mempoolPending),
    ("validatorCount", .number (validatorCount S o)),
    ("syncStatus", .string m.status),
    ("isSyncing", .bool m.isSyncing)]

/-- The object a transaction is answered with. -/
def transactionValue (P : Primitives) (hash : Hash32)
    (entry : Transaction × TxReceipt × ℕ) : Value :=
  .object [
    ("txHash", .string hash.toHex),
    ("height", .number entry.2.2),
    ("transaction", entry.1.toValue P),
    ("receipt", .object [
      ("txHash", .string entry.2.1.txHash.toHex),
      ("height", .number entry.2.1.height),
      ("success", .bool entry.2.1.success),
      ("gasUsed", .number entry.2.1.gasUsed),
      ("errorMessage", (entry.2.1.errorMessage.map Value.string).getD .null),
      ("returnData", .string (hexEncode entry.2.1.returnData))])]

def getTransaction (id params : Option Value) : JsonRpcResponse :=
  match Hash32.fromHex (firstText params) with
  | some hash =>
    match S.ledger.getTransaction hash with
    | some entry => .success id (transactionValue P hash entry)
    | none => .success id .null
  | none => .failure id (-32602) "Invalid transaction hash format"

def getAccount (id params : Option Value) : JsonRpcResponse :=
  match parseAddress B (firstText params) with
  | some addr =>
    match S.getAccount P addr with
    | .ok acc => .success id (.object [("address", .string addr.toHex),
        ("balance", .string acc.balance.toSprxString), ("nonce", .number acc.nonce)])
    | .error e => .failure id (-32000) e
  | none => .failure id (-32602) "Invalid address format"

def broadcastTx (id params : Option Value) : ServerState × JsonRpcResponse :=
  match firstParam params with
  | some v =>
    match parseTransaction B v with
    | .ok tx =>
      match S.submitTransaction P tx with
      | (S', .ok hash) => (S', .success id (.object [("txHash", .string hash.toHex),
          ("tx_hash", .string hash.toHex), ("success", .bool true)]))
      | (S', .error e) => (S', .failure id (-32000) s!"Transaction rejected: {e}")
    | .error err => (S, .failure id (-32602) s!"Invalid transaction payload: {err}")
  | none => (S, .failure id (-32602) "Missing transaction parameter")

def getValidators (o : Orders) (id : Option Value) : JsonRpcResponse :=
  match S.staking.getActiveValidatorSet o.records with
  | .ok s => .success id (.array (s.validators.map (fun v => .object [
      ("address", .string v.address.toHex),
      ("votingPower", .number v.votingPower),
      ("proposerPriority", .number v.proposerPriority),
      ("publicKey", .string (hexEncode v.publicKey))])))
  | .error e => .failure id (-32000) e.display

def getDelegations (o : Orders) (id params : Option Value) : JsonRpcResponse :=
  match parseAddress B (firstText params) with
  | some addr => .success id (.array ((S.staking.getDelegatorDelegations o.delegations addr).map
      (fun d => .object [
        ("delegator", .string d.delegatorAddress.toHex),
        ("validator", .string d.validatorAddress.toHex),
        ("shares", .string d.shares.toSprxString),
        ("balance", .string d.balance.toSprxString)])))
  | none => .failure id (-32602) "Invalid address format"

def getStaking (o : Orders) (id params : Option Value) : JsonRpcResponse :=
  match parseAddress B (firstText params) with
  | some addr =>
    let validator := S.staking.getValidator addr
    .success id (.object [
      ("address", .string addr.toHex),
      ("isValidator", .bool validator.isSome),
      ("validator", (validator.map (fun v => Value.object [
        ("operatorAddress", .string v.operatorAddress.toHex),
        ("tokens", .string v.tokens.toSprxString),
        ("status", .string v.status.debug),
        ("moniker", .string (S.moniker v.operatorAddress))])).getD .null),
      ("delegationsCount", .number (S.staking.getDelegatorDelegations o.delegations addr).length),
      ("unbondingCount", .number (S.staking.getUnbondingEntries addr).length)])
  | none => .failure id (-32602) "Invalid address format"

def handleJsonRpc (o : Orders) (req : JsonRpcRequest) : ServerState × JsonRpcResponse :=
  match req.method with
  | "sprax_getStatus" => (S, .success req.id (statusValue S P o))
  | "sprax_getBlock" => (S, .success req.id (getBlock P S.ledger req.params))
  | "sprax_getTransaction" => (S, getTransaction (P := P) S req.id req.params)
  | "sprax_getAccount" => (S, getAccount B S req.id req.params)
  | "sprax_estimateFee" => (S, .success req.id (.object [("fee", .string "500000000000000"),
      ("gas_limit", .number 200000)]))
  | "sprax_broadcastTx" => broadcastTx B S req.id req.params
  | "sprax_getValidators" => (S, getValidators S o req.id)
  | "sprax_getDelegations" => (S, getDelegations B S o req.id req.params)
  | "sprax_getStaking" => (S, getStaking B S o req.id req.params)
  | method => (S, .failure req.id (-32601) s!"Method not found: {method}")

/-- Requests to the REST endpoints, with what their paths and bodies hold. -/
inductive RestRequest
  | health
  | status
  | accountBalance (address : String)
  | accountNonce (address : String)
  | broadcast (body : Value)
  | getTx (hash : String)
  | latestBlock
  | getBlock (heightOrHash : String)

/-- Status code and body. -/
structure RestReply where
  code : ℕ
  body : Value

def RestReply.error (code : ℕ) (text : String) : RestReply :=
  ⟨code, .object [("error", .string text)]⟩

def handleHealth (P : Primitives) : RestReply :=
  let m := S.metrics P
  ⟨200, .object [("status", .string "healthy"), ("chainId", .string m.chainId),
    ("height", .number m.height), ("connectedPeers", .number m.connectedPeers)]⟩

def handleStatus (P : Primitives) : RestReply :=
  let m := S.metrics P
  ⟨200, .object [
    ("chain_id", .string m.chainId),
    ("height", .number m.height),
    ("latest_block_hash", .string m.latestBlockHash.toHex),
    ("state_root", .string m.stateRoot.toHex),
    ("connected_peers", .number m.connectedPeers),
    ("total_transactions", .number m.totalTransactions),
    ("mempool_pending", .number m.mempoolPending),
    ("status", .string m.status),
    ("is_syncing", .bool m.isSyncing)]⟩

/-- The balance handler answers with one of three shapes. -/
def BalanceReply.toReply : BalanceReply → RestReply
  | .ok address balanceAtto nonce => ⟨200, .object [("address", .string address),
      ("balance_atto", .string balanceAtto), ("nonce", .number nonce)]⟩
  | .badRequest error => .error 400 error
  | .internalServerError error => .error 500 error

def handleAccountNonce (addressStr : String) : RestReply :=
  match parseAddress B addressStr with
  | none => .error 400 "Invalid address format"
  | some addr =>
    match S.getAccount P addr with
    | .ok acc => ⟨200, .object [("address", .string addressStr), ("nonce", .number acc.nonce)]⟩
    | .error e => .error 500 e

def RestReply.refused (text : String) : RestReply :=
  ⟨400, .object [("error", .string text), ("success", .bool false)]⟩

def handleRestBroadcast (v : Value) : ServerState × RestReply :=
  match parseTransaction B v with
  | .ok tx =>
    match S.submitTransaction P tx with
    | (S', .ok hash) =>
      (S', ⟨200, .object [("tx_hash", .string hash.toHex), ("success", .bool true)]⟩)
    | (S', .error e) => (S', .refused s!"Transaction rejected: {e}")
  | .error err => (S, .refused s!"Invalid transaction format: {err}")

def restTransactionValue (P : Primitives) (hash : Hash32)
    (entry : Transaction × TxReceipt × ℕ) : Value :=
  .object [
    ("hash", .string hash.toHex),
    ("height", .number entry.2.2),
    ("transaction", entry.1.toValue P),
    ("receipt", .object [
      ("success", .bool entry.2.1.success),
      ("gas_used", .number entry.2.1.gasUsed),
      ("logs", .array (entry.2.1.errorMessage.toList.map .string))])]

def handleRestGetTx (P : Primitives) (hashStr : String) : RestReply :=
  match Hash32.fromHex hashStr with
  | none => .error 400 "Invalid tx hash format"
  | some hash =>
    match S.ledger.getTransaction hash with
    | some entry => ⟨200, restTransactionValue P hash entry⟩
    | none => .error 404 "Transaction not found"

def restBlockValue (P : Primitives) (b : Block) : Value :=
  .object [("hash", .string (Hasher.blockHash P b.header).toHex), ("block", b.toValue P)]

def handleRestLatestBlock (P : Primitives) : RestReply :=
  match S.ledger.getBlockByHeight S.ledger.height with
  | some b => ⟨200, restBlockValue P b⟩
  | none => .error 404 "No blocks found"

def handleRestGetBlock (P : Primitives) (param : String) : RestReply :=
  let block := match Text.parseUnsigned 64 param with
    | .ok height => S.ledger.getBlockByHeight height
    | .error _ => (Hash32.fromHex param).bind S.ledger.getBlockByHash
  match block with
  | some b => ⟨200, restBlockValue P b⟩
  | none => .error 404 "Block not found"

def handleRest : RestRequest → ServerState × RestReply
  | .health => (S, handleHealth S P)
  | .status => (S, handleStatus S P)
  | .accountBalance address => (S, (handleAccountBalance B S.ledger address).toReply)
  | .accountNonce address => (S, handleAccountNonce B S address)
  | .broadcast body => handleRestBroadcast B S body
  | .getTx hash => (S, handleRestGetTx S P hash)
  | .latestBlock => (S, handleRestLatestBlock S P)
  | .getBlock heightOrHash => (S, handleRestGetBlock S P heightOrHash)

end Methods

end Rpc

end Sprax
