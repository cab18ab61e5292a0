import Sprax.Rpc
import Sprax.Effects
import Sprax.Devnet

/-!
# The backend indexer

`IndexerEngine` reads blocks over RPC and writes rows. The helpers for one block
and one transaction catch whatever is raised inside them, at the point where it
is raised: rows added before stay added. A cycle works in one database session,
which is committed as a whole or not at all. The decoder asks the answer of the
node for flat names and falls back to a default for each name that is missing.
-/
namespace Sprax.Indexer

/-- What the decoders raise, by the class of the exception. -/
inductive PyException
  | attributeError
  | typeError
  | valueError
  | invalidOperation
  | spraxError
  deriving DecidableEq

/-- The parts of the Python library the decoder calls. -/
structure Python where
  Decimal : Type
  Time : Type
  str : Value → String
  int : String → Except PyException ℤ
  decimal : String → Except PyException Decimal
  fromTimestamp : ℤ → Except PyException Time
  fromIsoformat : String → Option Time

/-- Truth of a value. -/
def truthy : Value → Bool
  | .null => false
  | .bool b => b
  | .number n => n ≠ 0
  | .string s => s ≠ ""
  | .array items => !items.isEmpty
  | .object members => !members.isEmpty

/-- `len`. -/
def len : Value → Except PyException ℕ
  | .string s => .ok s.length
  | .array items => .ok items.length
  | .object members => .ok members.length
  | _ => .error .typeError

/-- What a `for` loop goes through: the keys of an object, the characters of a text. -/
def iter : Value → Except PyException (List Value)
  | .string s => .ok (s.toList.map (fun c => .string (String.singleton c)))
  | .array items => .ok items
  | .object members => .ok (members.map (fun m => .string m.1))
  | _ => .error .typeError

/-- The members of a dictionary; other values have no `get`. -/
def dict : Value → Except PyException (List (String × Value))
  | .object members => .ok members
  | _ => .error .attributeError

/-- `d.get(key, default)`. -/
def getOr (members : List (String × Value)) (key : String) (default : Value) : Value :=
  (members.lookup key).getD default

section Runtime
variable (py : Python)

/-- `int(v)`. -/
def toInt : Value → Except PyException ℤ
  | .number n => .ok n
  | .bool b => .ok b.toNat
  | .string s => py.int s
  | _ => .error .typeError

/-- `_parse_ts`; a truth value counts as an integer. -/
def parseTs (now : py.Time) : Value → Except PyException py.Time
  | .null => .ok now
  | .number n => py.fromTimestamp n
  | .bool b => py.fromTimestamp b.toNat
  | .string s => .ok ((py.fromIsoformat (s.replace "Z" "+00:00")).getD now)
  | _ => .ok now

structure BlockRow where
  height : ℕ
  hash : Value
  parentHash : Value
  proposer : Value
  stateRoot : Value
  txCount : ℕ
  gasUsed : ℤ
  timestamp : py.Time

structure TransactionRow where
  hash : Value
  blockHeight : ℕ
  blockHash : Value
  sender : Value
  recipient : Value
  amount : py.Decimal
  fee : py.Decimal
  gasLimit : ℤ
  gasUsed : ℤ
  nonce : ℤ
  memo : Value
  txType : Value
  status : String
  timestamp : py.Time

structure AddressRow where
  address : String
  txCount : ℕ
  firstSeenHeight : ℕ
  lastSeenHeight : ℕ

structure TransferRow where
  txHash : Value
  blockHeight : ℕ
  fromAddress : Value
  toAddress : Value
  amount : py.Decimal
  timestamp : py.Time

structure IndexerState where
  latestChainHeight : ℕ
  latestIndexedHeight : ℕ
  lagBlocks : ℤ

structure Database where
  blocks : List (BlockRow py)
  transactions : List (TransactionRow py)
  addresses : List AddressRow
  transfers : List (TransferRow py)
  state : Option IndexerState

/-- Rows that were loaded, as changed in the session, and rows that were added.
Queries see the first only: nothing is flushed before the commit. -/
structure Session where
  loaded : Database py
  state : IndexerState
  blocks : List (BlockRow py)
  transactions : List (TransactionRow py)
  addresses : List AddressRow
  transfers : List (TransferRow py)

/-- Procedures that work in a session and may raise; what they did before stays. -/
abbrev Indexing (α : Type) := EStateM PyException (Session py) α

variable {py}

def lift {α : Type} (x : Except PyException α) : Indexing py α :=
  match x with
  | .ok a => pure a
  | .error e => throw e

/-- `except Exception`: whatever was raised is logged and forgotten. -/
def swallow (body : Indexing py Unit) : Indexing py Unit := fun s =>
  match body s with
  | .ok () s' => .ok () s'
  | .error _ s' => .ok () s'

variable (py)

/-- An empty session on a database, with the state row it finds or creates. -/
def Session.begin (db : Database py) : Session py :=
  ⟨db, db.state.getD ⟨0, 0, 0⟩, [], [], [], []⟩

/-- The database after the session is committed. -/
def Session.saved (s : Session py) : Database py where
  blocks := s.loaded.blocks ++ s.blocks
  transactions := s.loaded.transactions ++ s.transactions
  addresses := s.loaded.addresses ++ s.addresses
  transfers := s.loaded.transfers ++ s.transfers
  state := some s.state

/-- The loaded record of an address is counted up. -/
def Session.touchLoaded (s : Session py) (text : String) (height : ℕ) : Session py :=
  { s with loaded := { s.loaded with addresses := s.loaded.addresses.map (fun row =>
      if row.address = text then { row with txCount := row.txCount + 1, lastSeenHeight := height }
      else row) } }

/-- `_touch_address`; a query for anything but a text is refused. -/
def touchAddress (address : Value) (height : ℕ) : Indexing py Unit := do
  let some text := address.asStr | throw .valueError
  let s : Session py ← get
  if s.loaded.addresses.any (fun row => row.address = text) then
    set (s.touchLoaded py text height)
  else set { s with addresses := s.addresses ++ [(⟨text, 1, height, height⟩ : AddressRow)] }

def transactionRow (txData : Value) (height : ℕ) (blockTs : py.Time) :
    Except PyException (TransactionRow py) := do
  let d ← dict txData
  return {
    hash := getOr d "hash" (.string "")
    blockHeight := height
    blockHash := getOr d "block_hash" .null
    sender := getOr d "sender" (.string "")
    recipient := getOr d "recipient" .null
    amount := ← py.decimal (py.str (getOr d "amount" (.string "0")))
    fee := ← py.decimal (py.str (getOr d "fee" (.string "0")))
    gasLimit := ← toInt py (getOr d "gas_limit" (.number 0))
    gasUsed := ← toInt py (getOr d "gas_used" (.number 0))
    nonce := ← toInt py (getOr d "nonce" (.number 0))
    memo := getOr d "memo" .null
    txType := getOr d "type" (.string "transfer")
    status := if truthy (getOr d "success" (.bool true)) then "success" else "failed"
    timestamp := blockTs }

def indexTransaction (txData : Value) (height : ℕ) (blockTs : py.Time) : Indexing py Unit :=
  swallow do
    let row ← lift (transactionRow py txData height blockTs)
    modify (fun s => { s with transactions := s.transactions ++ [row] })
    let d ← lift (dict txData)
    let sender := getOr d "sender" (.string "")
    let recipient := getOr d "recipient" .null
    if truthy sender then touchAddress py sender height
    if truthy recipient then touchAddress py recipient height
    if truthy recipient then
      let amount ← lift (toInt py (getOr d "amount" (.number 0)))
      if 0 < amount then
        let moved ← lift (py.decimal (py.str (getOr d "amount" (.string "0"))))
        modify (fun s => { s with
          transfers := s.transfers ++ [⟨row.hash, height, sender, recipient, moved, blockTs⟩] })

/-- The hash column of a block whose answer names none: the height in 64 digits. -/
def defaultHash (height : ℕ) : String :=
  "0x" ++ String.ofList ((Nat.toDigits 16 height).leftpad 64 '0')

def blockRow (d : List (String × Value)) (height : ℕ) (now : py.Time) :
    Except PyException (BlockRow py) := do
  return {
    height := height
    hash := getOr d "hash" (.string (defaultHash height))
    parentHash := getOr d "parent_hash" .null
    proposer := getOr d "proposer" .null
    stateRoot := getOr d "state_root" .null
    txCount := ← len (getOr d "transactions" (.array []))
    gasUsed := ← toInt py (getOr d "gas_used" (.number 0))
    timestamp := ← parseTs py now (getOr d "timestamp" .null) }

/-- `_index_block`, given what the call to the node returns or raises. -/
def indexBlock (answer : Except PyException Value) (height : ℕ) (now : py.Time) :
    Indexing py Unit :=
  swallow do
    let blockData ← lift answer
    if truthy blockData then
      let d ← lift (dict blockData)
      let row ← lift (blockRow py d height now)
      modify (fun s => { s with blocks := s.blocks ++ [row] })
      let txs ← lift (iter (getOr d "transactions" (.array [])))
      txs.forM (fun txData => indexTransaction py txData height row.timestamp)

/-- What the node answers for a height. -/
inductive Response
  | failed
  | empty
  | served
  deriving DecidableEq

/-- What a cycle meets: the reported height of the chain, unless the call fails,
the answer for each height, the clock, and whether the database takes the commit. -/
structure Cycle where
  chainHeight : Option ℕ
  response : ℕ → Response
  now : ℕ → py.Time
  commits : Bool

/-- `get_block` at a height of the chain. -/
def fetchBlock (chain : ℕ → Value) (r : Response) (height : ℕ) : Except PyException Value :=
  match r with
  | .failed => .error .spraxError
  | .empty => .ok .null
  | .served => .ok (chain height)

/-- The body of the loop over a batch. -/
def indexHeight (chain : ℕ → Value) (c : Cycle py) (chainHeight height : ℕ) : Indexing py Unit := do
  indexBlock py (fetchBlock chain (c.response height) height) height (c.now height)
  modify (fun s => { s with state := { s.state with
    latestIndexedHeight := height, lagBlocks := chainHeight - height } })

/-- `range(start, end)` for a batch. -/
def batch (batchSize indexed chainHeight : ℕ) : List ℕ :=
  let start := indexed + 1
  List.range' start (min (start + batchSize) (chainHeight + 1) - start)

/-- `_index_cycle` up to its commit. -/
def cycleBody (batchSize : ℕ) (chain : ℕ → Value) (c : Cycle py) : Indexing py Unit := do
  let some chainHeight := c.chainHeight | throw .spraxError
  modify (fun s => { s with state := { s.state with
    latestChainHeight := chainHeight, lagBlocks := chainHeight - s.state.latestIndexedHeight } })
  let s : Session py ← get
  if s.state.latestIndexedHeight < chainHeight then
    (batch batchSize s.state.latestIndexedHeight chainHeight).forM
      (indexHeight py chain c chainHeight)

/-- `_index_cycle`: whatever is raised closes the session without a commit. -/
def indexCycle (batchSize : ℕ) (chain : ℕ → Value) (db : Database py) (c : Cycle py) :
    Database py :=
  match cycleBody py batchSize chain c (Session.begin py db) with
  | .ok () s => if c.commits then s.saved py else db
  | .error _ _ => db

def Database.latestIndexedHeight (db : Database py) : ℕ :=
  (db.state.map IndexerState.latestIndexedHeight).getD 0

variable {py}

/-- The row of a block: the hash is the only name both sides agree on. -/
def servedRow (P : Primitives) (b : Block) (height : ℕ) (now : py.Time) : BlockRow py where
  height := height
  hash := .string (Hasher.blockHash P b.header).toHex
  parentHash := .null
  proposer := .null
  stateRoot := .null
  txCount := 0
  gasUsed := 0
  timestamp := now

theorem indexBlock_served (P : Primitives) (b : Block) (height : ℕ) (now : py.Time)
    (s : Session py) :
    indexBlock py (.ok (Rpc.blockValue P b)) height now s =
      .ok () { s with blocks := s.blocks ++ [servedRow P b height now] } := by
  rfl

theorem indexBlock_failed (e : PyException) (height : ℕ) (now : py.Time) (s : Session py) :
    indexBlock py (.error e) height now s = .ok () s := rfl

theorem indexBlock_empty (height : ℕ) (now : py.Time) (s : Session py) :
    indexBlock py (.ok .null) height now s = .ok () s := rfl

/-- The first transfer of a transaction. -/
def firstTransfer (tx : Transaction) : Option (Address × Amount) :=
  tx.body.messages.findSome? (fun m => match m with
    | .transfer recipient amount => some (recipient, amount)
    | _ => none)

/-- What the row of a transaction should say. -/
structure TransactionDecoded (P : Primitives) (tx : Transaction)
    (row : TransactionRow py) : Prop where
  hash : row.hash = .string (Hasher.txHash P tx).toHex
  sender : row.sender = .string (tx.body.sender.display P)
  nonce : row.nonce = tx.body.nonce
  fee : py.decimal (toString tx.body.fee.amount.atto) = .ok row.fee
  transfer : ∀ recipient amount, firstTransfer tx = some (recipient, amount) →
    row.recipient = .string (recipient.display P) ∧
      py.decimal (toString amount.atto) = .ok row.amount

/-- What the rows of a block should say. -/
structure Decoded (P : Primitives) (b : Block) (blocks : List (BlockRow py))
    (transactions : List (TransactionRow py)) : Prop where
  block : ∃ row, blocks = [row] ∧
    row.hash = .string (Hasher.blockHash P b.header).toHex ∧
    row.parentHash = .string b.header.parentHash.toHex ∧
    row.proposer = .string b.header.proposer.toHex ∧
    row.stateRoot = .string b.header.stateRoot.toHex ∧
    py.fromTimestamp b.header.timestampUnixSecs = .ok row.timestamp ∧
    row.txCount = b.body.transactions.length
  transactions : List.Forall₂ (TransactionDecoded P) b.body.transactions transactions

/-- Whatever block the node holds, its answer is indexed as a row without parent,
proposer and state root, with no transactions and the time of the clock, and no
row for any transaction. -/
theorem getBlock_not_decoded (P : Primitives) {L : ChainLedger} {height : ℕ} {b : Block}
    (hb : L.getBlockByHeight height = some b) (hsmall : height < 2 ^ 64) (now : py.Time)
    (s : Session py) :
    indexBlock py (.ok (Rpc.getBlock P L (some (.array [.string (toString height)])))) height now
        s = .ok () { s with blocks := s.blocks ++ [servedRow P b height now] } ∧
      ¬ Decoded P b [servedRow P b height now] [] := by
  rw [Rpc.getBlock_of_height P hb hsmall]
  refine ⟨indexBlock_served P b height now s, ?_⟩
  rintro ⟨⟨row, hrow, -, hparent, -⟩, -⟩
  cases hrow
  cases hparent

end Runtime

section Scenario
open Devnet

/-- A runtime whose decimals are integers and whose times are seconds. -/
def devPython : Python where
  Decimal := ℤ
  Time := ℤ
  str := fun v => v.asStr.getD ""
  int := fun s => (s.toInt?).elim (.error .valueError) .ok
  decimal := fun s => (s.toInt?).elim (.error .invalidOperation) .ok
  fromTimestamp := .ok
  fromIsoformat := fun _ => none

/-- The ledger after the block with a transfer. -/
def transferLedger : ChainLedger := (ledger.applyBlock primitives transferBlock).1

def emptySession : Session devPython := .begin devPython ⟨[], [], [], [], none⟩

theorem transferBlock_stored : transferLedger.getBlockByHeight 1 = some transferBlock := by
  decide +kernel

/-- A block with one transaction and a parent becomes a row with neither. -/
theorem transferBlock_not_decoded :
    transferLedger.getBlockByHeight 1 = some transferBlock ∧
      transferBlock.body.transactions.length = 1 ∧
      ∃ t, indexBlock devPython (.ok (Rpc.getBlock primitives transferLedger
          (some (.array [.string (toString 1)])))) 1 (0 : ℤ) emptySession = .ok () t ∧
        t.transactions.length = 0 ∧ t.blocks.map BlockRow.txCount = [0] ∧
        t.blocks.map BlockRow.parentHash = [.null] := by
  have hrun := @indexBlock_served devPython primitives transferBlock 1 (0 : ℤ) emptySession
  rw [← Rpc.getBlock_of_height primitives transferBlock_stored (by decide)] at hrun
  exact ⟨transferBlock_stored, by decide +kernel, _, hrun, rfl, rfl, rfl⟩

theorem getBlock_not_decoded_devnet :
    ¬ Decoded primitives transferBlock
      [(servedRow primitives transferBlock 1 (0 : ℤ) : BlockRow devPython)] [] :=
  (@getBlock_not_decoded devPython primitives _ _ _ transferBlock_stored (by decide) (0 : ℤ)
    emptySession).2

end Scenario

end Sprax.Indexer
