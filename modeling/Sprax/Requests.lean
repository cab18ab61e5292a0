import Sprax.Server
import Sprax.Books

/-!
# What a client can follow

Requests of both kinds and the operations of the node's own tasks, in any order, on
one ledger. A request writes nothing or submits the transaction it carries, so the
ledger is the one that the submitted transactions and the operations reach by
themselves. On such a ledger the texts in the answers lead from one answer to the
next: from a broadcast to its transaction, and from a block along its hash, its
height and its parent hash.
-/
namespace Sprax
open Std Runs ChainLedger

theorem Hash32.fromHex_toHex (h : Hash32) : Hash32.fromHex h.toHex = some h := by
  unfold Hash32.fromHex Hash32.toHex
  rw [Text.stripMark_mark, Text.hexDecode_hexEncode]
  simp [Except.toOption, h.length_eq]

/-- A hash is not taken for a height: its second character is no digit. -/
theorem Hash32.parseUnsigned_toHex (h : Hash32) :
    Text.parseUnsigned 64 h.toHex = .error .invalidDigit := by
  have hchars : h.toHex.toList = '0' :: 'x' :: (hexEncode h.bytes).toList := by simp [Hash32.toHex]
  simp [Text.parseUnsigned, hchars, Text.parseDigits]

namespace ChainLedger

/-- Every block but the first names a stored block as its parent. -/
theorem Structured.exists_parent {P : Primitives} {genesis : GenesisConfig} {L : ChainLedger}
    (h : Structured P genesis L) {i : ℕ} {next : Block} (hnext : L.blocks[i + 1]? = some next) :
    ∃ block, L.blocks[i]? = some block ∧ next.header.parentHash =
      Hasher.blockHash P block.header := by
  have hlt : i + 1 < L.blocks.length := (List.getElem?_eq_some_iff.mp hnext).1
  have hblock : L.blocks[i]? = some L.blocks[i] := List.getElem?_eq_getElem (by omega)
  refine ⟨_, hblock, ?_⟩
  have hlen : i + 1 < L.headers.length := by simpa [headers] using hlt
  have hlink := List.isChain_iff_getElem.mp h.linked.parentHash_eq i hlen
  have hheader : L.headers[i + 1] = next.header := by
    have hget := (List.getElem?_eq_some_iff.mp hnext).2
    simp [headers, hget]
  rw [hheader] at hlink
  simpa [headers] using hlink

theorem getBlockByHeight_height (L : ChainLedger) :
    L.getBlockByHeight L.height = some L.latestBlock := by
  rw [getBlockByHeight, height, latestBlock, List.getLast_eq_getElem]
  exact List.getElem?_eq_getElem _

end ChainLedger

namespace Rpc
variable {P : Primitives} (B : Bech32 P)

/-- A request of either kind, or an operation of another task on the ledger. -/
inductive ServerEvent
  | rpc (o : Orders) (req : JsonRpcRequest)
  | rest (req : RestRequest)
  | operation (op : LedgerOp)

def step (S : ServerState) : ServerEvent → ServerState
  | .rpc o req => (handleJsonRpc B S o req).1
  | .rest req => (handleRest B S req).1
  | .operation op => { S with ledger := S.ledger.operate P op }

/-- The submission that a broadcast of this value makes. -/
def submission (v : Value) : Option LedgerOp :=
  match parseTransaction B v with
  | .ok tx => some (.call (.submit tx))
  | .error _ => none

/-- What an event does to the ledger, if anything. -/
def ServerEvent.operation? : ServerEvent → Option LedgerOp
  | .rpc _ req =>
    if req.method = "sprax_broadcastTx" then (firstParam req.params).bind (submission B) else none
  | .rest (.broadcast v) => submission B v
  | .rest _ => none
  | .operation op => some op

theorem ledger_submitTransaction (S : ServerState) (tx : Transaction) :
    (S.submitTransaction P tx).1.ledger = S.ledger.operate P (.call (.submit tx)) := by
  unfold ServerState.submitTransaction
  simp only [operate, ChainLedger.call]
  split <;> simp_all

theorem ledger_broadcastTx (S : ServerState) (id params : Option Value) :
    (broadcastTx B S id params).1.ledger =
      ((firstParam params).bind (submission B)).elim S.ledger (S.ledger.operate P) := by
  unfold broadcastTx submission
  cases firstParam params with
  | none => rfl
  | some v =>
    cases hparse : parseTransaction B v with
    | error err => simp only [Option.bind_some, hparse, Option.elim_none]
    | ok tx =>
      have hledger := ledger_submitTransaction (P := P) S tx
      cases hsubmit : S.submitTransaction P tx with
      | mk S' r => cases r <;> simp_all

theorem ledger_handleRestBroadcast (S : ServerState) (v : Value) :
    (handleRestBroadcast B S v).1.ledger = (submission B v).elim S.ledger (S.ledger.operate P) := by
  unfold handleRestBroadcast submission
  cases hparse : parseTransaction B v with
  | error err => rfl
  | ok tx =>
    have hledger := ledger_submitTransaction (P := P) S tx
    cases hsubmit : S.submitTransaction P tx with
    | mk S' r => cases r <;> simp_all

/-- Of all methods only the broadcast has an effect. -/
theorem handleJsonRpc_fst (S : ServerState) (o : Orders) (req : JsonRpcRequest) :
    (handleJsonRpc B S o req).1 =
      if req.method = "sprax_broadcastTx" then (broadcastTx B S req.id req.params).1 else S := by
  unfold handleJsonRpc
  split <;> simp_all

theorem ledger_step (S : ServerState) (ev : ServerEvent) :
    (step B S ev).ledger = (ev.operation? B).elim S.ledger (S.ledger.operate P) := by
  cases ev with
  | rpc o req =>
    simp only [step, handleJsonRpc_fst, ServerEvent.operation?]
    split
    · exact ledger_broadcastTx B S req.id req.params
    · rfl
  | rest req =>
    cases req with
    | broadcast v => exact ledger_handleRestBroadcast B S v
    | _ => rfl
  | operation op => rfl

/-- The ledger behind the server is that of the submissions and operations alone. -/
theorem ledger_run (S : ServerState) (events : List ServerEvent) :
    (run (step B) S events).ledger =
      run (operate P) S.ledger (events.filterMap (ServerEvent.operation? B)) := by
  induction events generalizing S with
  | nil => rfl
  | cons ev events ih =>
    rw [run_cons, ih, ledger_step, List.filterMap_cons]
    cases ev.operation? B with
    | none => rfl
    | some op => rfl

/-- A server over a ledger that was just set up. -/
structure Fresh (P : Primitives) (genesis : GenesisConfig) (store : Store)
    (S : ServerState) : Prop where
  ledger_eq : S.ledger = initFromGenesisWithStore P genesis store

theorem Fresh.reached {genesis : GenesisConfig} {store : Store} {S : ServerState}
    (h : Fresh P genesis store S) (events : List ServerEvent) :
    (run (step B) S events).ledger =
      reached P genesis store (events.filterMap (ServerEvent.operation? B)) := by
  rw [ledger_run, h.ledger_eq]
  rfl

/-- The two ways to broadcast. -/
inductive Entry
  | rpc (o : Orders) (id : Option Value) (more : List Value)
  | rest

/-- The broadcast of a value as an event. -/
def Entry.event (entry : Entry) (v : Value) : ServerEvent :=
  match entry with
  | .rpc o id more => .rpc o ⟨id, "sprax_broadcastTx", some (.array (v :: more))⟩
  | .rest => .rest (.broadcast v)

/-- The hash in the answer to a broadcast. -/
def toldHash (S : ServerState) (entry : Entry) (v : Value) : Option String :=
  match entry with
  | .rpc o id more =>
    ((handleJsonRpc B S o ⟨id, "sprax_broadcastTx", some (.array (v :: more))⟩).2.result.bind
      (fun r => r.get "txHash")).bind Value.asStr
  | .rest => ((handleRest B S (.broadcast v)).2.body.get "tx_hash").bind Value.asStr

theorem submitTransaction_ok {S S' : ServerState} {tx : Transaction} {hash : Hash32}
    (h : S.submitTransaction P tx = (S', .ok hash)) : hash = Hasher.txHash P tx := by
  unfold ServerState.submitTransaction at h
  split at h
  · rename_i L hash' hsubmit
    cases h
    rcases submitTransaction_outcome (P := P) S.ledger tx with ⟨-, hout⟩ | ⟨-, e, hout⟩
    · cases hsubmit.symm.trans hout
      rfl
    · cases hsubmit.symm.trans hout
  · cases h

/-- Both entries show the hash of the submission, if there is one. -/
theorem toldHash_eq (S : ServerState) (entry : Entry) (v : Value) :
    toldHash B S entry v = (parseTransaction B v).toOption.bind
      (fun tx => (S.submitTransaction P tx).2.toOption.map Hash32.toHex) := by
  cases hparse : parseTransaction B v with
  | error err =>
    cases entry with
    | rpc o id more =>
      simp [toldHash, handleJsonRpc, broadcastTx, firstParam, Value.asArray, hparse,
        JsonRpcResponse.failure, Except.toOption]
    | rest =>
      simp [toldHash, handleRest, handleRestBroadcast, hparse, RestReply.refused, Value.get,
        List.lookup_cons, Except.toOption]
  | ok tx =>
    cases hsubmit : S.submitTransaction P tx with
    | mk S' r =>
      cases entry with
      | rpc o id more =>
        cases r <;>
          simp [toldHash, handleJsonRpc, broadcastTx, firstParam, Value.asArray, hparse, hsubmit,
            Value.get, Value.asStr, JsonRpcResponse.failure, JsonRpcResponse.success,
            Except.toOption]
      | rest =>
        cases r <;>
          simp [toldHash, handleRest, handleRestBroadcast, hparse, hsubmit, RestReply.refused,
            Value.get, List.lookup_cons, Value.asStr, Except.toOption]

/-- A hash in an answer is that of the transaction the value parses to. -/
theorem exists_of_toldHash {S : ServerState} {entry : Entry} {v : Value} {t : String}
    (h : toldHash B S entry v = some t) :
    ∃ tx, parseTransaction B v = .ok tx ∧ t = (Hasher.txHash P tx).toHex := by
  rw [toldHash_eq] at h
  cases hparse : parseTransaction B v with
  | error err => simp [hparse, Except.toOption] at h
  | ok tx =>
    refine ⟨tx, rfl, ?_⟩
    cases hsubmit : S.submitTransaction P tx with
    | mk S' r =>
      cases r with
      | error e => simp [hparse, hsubmit, Except.toOption] at h
      | ok hash =>
        simp only [hparse, hsubmit, Except.toOption, Option.bind_some, Option.map_some,
          Option.some.injEq] at h
        rw [← h, submitTransaction_ok hsubmit]

/-- An indexed transaction cannot be broadcast again. -/
theorem toldHash_of_indexed {S : ServerState} {v : Value} {tx : Transaction}
    (hparse : parseTransaction B v = .ok tx) (hindex : Hasher.txHash P tx ∈ S.ledger.txIndex)
    (entry : Entry) : toldHash B S entry v = none := by
  have hrefused : (S.submitTransaction P tx).2.toOption = none := by
    rcases submitTransaction_outcome (P := P) S.ledger tx with ⟨hadmissible, -⟩ | ⟨-, e, hout⟩
    · exact absurd hindex hadmissible.unindexed
    · simp [ServerState.submitTransaction, hout, Except.toOption]
  rw [toldHash_eq, hparse, show (Except.ok tx : Except String Transaction).toOption =
    some tx from rfl, Option.bind_some, hrefused, Option.map_none]

/-- The hash that a broadcast was answered with leads, once a block holds the transaction, to the
transaction with its receipt and the height of the block, by either interface; a broadcast of any
value that stands for it is then refused. The exception is another transaction with the same hash,
and the nonce is below the last one, at which the counter of the account stays. -/
theorem broadcast_found {genesis : GenesisConfig} {store : Store} {S₀ : ServerState}
    (hfresh : Fresh P genesis store S₀) (before later : List ServerEvent) (entry : Entry)
    {v : Value} {t : String} (htold : toldHash B (run (step B) S₀ before) entry v = some t)
    {tx : Transaction} (hparse : parseTransaction B v = .ok tx) {i : ℕ} {block : Block}
    (hblock : (run (step B) S₀ (before ++ entry.event v :: later)).ledger.getBlockByHeight i =
      some block)
    (htx : tx ∈ block.body.transactions) (hmax : tx.body.nonce < u64Max) :
    let S := run (step B) S₀ (before ++ entry.event v :: later)
    ∃ found,
      (found = (tx, TxExecutor.receiptOf P S.ledger.executor tx i, i) ∨
        found.1 ≠ tx ∧ Hasher.txHash P found.1 = Hasher.txHash P tx) ∧
      (∀ o id more, (handleJsonRpc B S o
          ⟨id, "sprax_getTransaction", some (.array (.string t :: more))⟩).2 =
        .success id (transactionValue P (Hasher.txHash P tx) found)) ∧
      (handleRest B S (.getTx t)).2 = ⟨200, restTransactionValue P (Hasher.txHash P tx) found⟩ ∧
      ∀ again v', parseTransaction B v' = .ok tx → toldHash B S again v' = none := by
  intro S
  obtain ⟨tx', hparse', rfl⟩ := exists_of_toldHash B htold
  cases hparse.symm.trans hparse'
  have hreceipted : S.ledger.Receipted P := by
    rw [hfresh.reached]
    exact receipted_reached genesis store _
  obtain ⟨found, hfound, hown⟩ := (hreceipted.filed i block hblock tx htx hmax).entry
  have hget : S.ledger.getTransaction (Hasher.txHash P tx) = some found := hfound
  have hindex : Hasher.txHash P tx ∈ S.ledger.txIndex := by
    have hentry : S.ledger.txIndex[Hasher.txHash P tx]? = some found := hfound
    rw [ExtTreeMap.mem_iff_isSome_getElem?, hentry, Option.isSome_some]
  refine ⟨found, ?_, fun o id more => ?_, ?_,
    fun again v' hparse' => toldHash_of_indexed B hparse' hindex again⟩
  · by_cases hsame : found.1 = tx
    · exact .inl (hown hsame)
    · exact .inr ⟨hsame, hreceipted.keyed _ _ hfound⟩
  · simp [handleJsonRpc, getTransaction, firstText, firstParam, Value.asArray, Value.asStr,
      Hash32.fromHex_toHex, hget]
  · simp [handleRest, handleRestGetTx, Hash32.fromHex_toHex, hget]

section Scenario
open Devnet

/-- A server over a new development ledger. -/
def devServer : ServerState where
  ledger := initFromGenesisWithStore walletPrimitives (devGenesis []) Store.empty
  staking := Staking.Keeper.new Staking.Keeper.devParams
  moniker := fun _ => ""
  connectedPeers := 0
  isRunning := true
  isSyncing := false

theorem devServer_fresh : Fresh walletPrimitives (devGenesis []) Store.empty devServer := ⟨rfl⟩

theorem transfer_fits : (transferTx 0).Fits := ⟨by decide, by decide, by decide⟩

/-- The block that is mined after the transfer was broadcast. -/
def broadcastBlock : Block :=
  ((devServer.ledger.submitTransaction walletPrimitives (transferTx 0)).1.mineBlock walletPrimitives
    (addressOf 9)).2

/-- The transfer is broadcast and the next block is mined. -/
def broadcastEvents : List ServerEvent :=
  [Entry.event .rest ((transferTx 0).toValue walletPrimitives),
    .operation (.call (.mine (addressOf 9)))]

theorem operations_broadcastEvents :
    broadcastEvents.filterMap (ServerEvent.operation? walletBech32) =
      [.call (.submit (transferTx 0)), .call (.mine (addressOf 9))] := by
  simp [broadcastEvents, Entry.event, ServerEvent.operation?, submission,
    parseTransaction_toValue walletBech32 transfer_fits]

theorem broadcast_facts :
    (devServer.ledger.submitTransaction walletPrimitives (transferTx 0)).2.toOption =
        some (Hasher.txHash walletPrimitives (transferTx 0)) ∧
      (reached walletPrimitives (devGenesis []) Store.empty
        [.call (.submit (transferTx 0)), .call (.mine (addressOf 9))]).getBlockByHeight 1 =
        some broadcastBlock ∧
      transferTx 0 ∈ broadcastBlock.body.transactions ∧ (transferTx 0).body.nonce < u64Max := by
  decide +kernel

theorem ledger_broadcastEvents : (run (step walletBech32) devServer broadcastEvents).ledger =
    reached walletPrimitives (devGenesis []) Store.empty
      [.call (.submit (transferTx 0)), .call (.mine (addressOf 9))] := by
  rw [devServer_fresh.reached, operations_broadcastEvents]

theorem transfer_told :
    toldHash walletBech32 devServer .rest ((transferTx 0).toValue walletPrimitives) =
      some (Hasher.txHash walletPrimitives (transferTx 0)).toHex := by
  have hsubmit : (devServer.submitTransaction walletPrimitives (transferTx 0)).2.toOption =
      some (Hasher.txHash walletPrimitives (transferTx 0)) := by
    rcases submitTransaction_outcome (P := walletPrimitives) devServer.ledger (transferTx 0) with
      ⟨-, hout⟩ | ⟨-, e, hout⟩
    · simp [ServerState.submitTransaction, hout, Except.toOption]
    · have hok := broadcast_facts.1
      simp [hout, Except.toOption] at hok
  rw [toldHash_eq, parseTransaction_toValue walletBech32 transfer_fits]
  simp only [Except.toOption, Option.bind_some] at hsubmit ⊢
  rw [hsubmit, Option.map_some]

/-- The broadcast transfer is found under the hash that the client was told. -/
theorem transfer_followed :
    ∃ found, ∀ o id more,
        (handleJsonRpc walletBech32 (run (step walletBech32) devServer broadcastEvents) o
          ⟨id, "sprax_getTransaction",
            some (.array (.string (Hasher.txHash walletPrimitives (transferTx 0)).toHex ::
              more))⟩).2 =
      .success id (transactionValue walletPrimitives (Hasher.txHash walletPrimitives (transferTx 0))
        found) := by
  obtain ⟨-, hblock, hmem, hnonce⟩ := broadcast_facts
  rw [← ledger_broadcastEvents] at hblock
  obtain ⟨found, -, hrpc, -⟩ := broadcast_found walletBech32 devServer_fresh []
    [.operation (.call (.mine (addressOf 9)))] .rest transfer_told
    (parseTransaction_toValue walletBech32 transfer_fits) hblock hmem hnonce
  exact ⟨found, hrpc⟩

end Scenario

/-- The result of `sprax_getBlock` with one parameter. -/
def blockAnswer (S : ServerState) (o : Orders) (param : Value) : Option Value :=
  (handleJsonRpc B S o ⟨none, "sprax_getBlock", some (.array [param])⟩).2.result

section Blocks
variable {S : ServerState} {i : ℕ} {b : Block}

theorem blockAnswer_number (hb : S.ledger.getBlockByHeight i = some b) (hsmall : i < 2 ^ 64)
    (o : Orders) :
    blockAnswer B S o (.number i) = some (blockValue P b) := by
  have hblock : requestedBlock S.ledger (some (.array [.number i])) = some b := by
    simp only [requestedBlock, Value.asArray, Option.bind_some, List.head?_cons,
      Value.asU64_number hsmall, Option.getD_some, hb]
  simp [blockAnswer, handleJsonRpc, getBlock, hblock, JsonRpcResponse.success]

theorem blockAnswer_text (hb : S.ledger.getBlockByHeight i = some b) (hsmall : i < 2 ^ 64)
    (o : Orders) :
    blockAnswer B S o (.string (toString i)) = some (blockValue P b) := by
  change some (getBlock P S.ledger _) = _
  rw [getBlock_of_height P hb hsmall]

theorem blockAnswer_hash {hash : Hash32} (hb : S.ledger.getBlockByHash hash = some b) (o : Orders) :
    blockAnswer B S o (.string hash.toHex) = some (blockValue P b) := by
  have hblock : requestedBlock S.ledger (some (.array [.string hash.toHex])) = some b := by
    simp only [requestedBlock, Value.asArray, Option.bind_some, List.head?_cons,
      hash.parseUnsigned_toHex, hash.fromHex_toHex, hb]
  simp [blockAnswer, handleJsonRpc, getBlock, hblock, JsonRpcResponse.success]

theorem restGetBlock_text (hb : S.ledger.getBlockByHeight i = some b) (hsmall : i < 2 ^ 64) :
    (handleRest B S (.getBlock (toString i))).2 = ⟨200, restBlockValue P b⟩ := by
  simp only [handleRest, handleRestGetBlock, Text.parseUnsigned_toString hsmall, hb]

theorem restGetBlock_hash {hash : Hash32} (hb : S.ledger.getBlockByHash hash = some b) :
    (handleRest B S (.getBlock hash.toHex)).2 = ⟨200, restBlockValue P b⟩ := by
  simp only [handleRest, handleRestGetBlock, hash.parseUnsigned_toHex, hash.fromHex_toHex,
    Option.bind_some, hb]

end Blocks

/-- Whatever was asked and done before: a stored block is shown under its height, as a number and as
a text, and under the hash that its own answer shows, by both interfaces; the parent hash that it
shows leads to the block below it; and the hash in the node's status to the highest block. -/
theorem block_links {genesis : GenesisConfig} {store : Store} {S₀ : ServerState}
    (hfresh : Fresh P genesis store S₀) (events : List ServerEvent)
    (hinj : ∀ g ∈ (run (step B) S₀ events).ledger.headers,
      ∀ g' ∈ (run (step B) S₀ events).ledger.headers,
        Hasher.blockHash P g = Hasher.blockHash P g' → g = g')
    {i : ℕ} {b : Block} (hb : (run (step B) S₀ events).ledger.getBlockByHeight i = some b)
    (hsmall : i < 2 ^ 64) :
    let S := run (step B) S₀ events
    (∀ o, ∀ param ∈ [.number i, .string (toString i), .string (Hasher.blockHash P b.header).toHex],
      blockAnswer B S o param = some (blockValue P b)) ∧
    (∀ text ∈ [toString i, (Hasher.blockHash P b.header).toHex],
      (handleRest B S (.getBlock text)).2 = ⟨200, restBlockValue P b⟩) ∧
    (i = 0 ∨ ∃ parent, S.ledger.getBlockByHeight (i - 1) = some parent ∧
      ∀ o, blockAnswer B S o (.string b.header.parentHash.toHex) = some (blockValue P parent)) ∧
    ∃ latest, S.ledger.getBlockByHeight (S.metrics P).height = some latest ∧
      ∀ o, blockAnswer B S o (.string (S.metrics P).latestBlockHash.toHex) =
        some (blockValue P latest) := by
  intro S
  have hstructured : Structured P genesis S.ledger := by
    rw [hfresh.reached]
    exact structured_reached genesis store _
  have hfind : ∀ {block : Block} {j : ℕ}, S.ledger.getBlockByHeight j = some block →
      S.ledger.getBlockByHash (Hasher.blockHash P block.header) = some block :=
    fun hblock => hstructured.getBlockByHash_self hinj (List.mem_of_getElem? hblock)
  refine ⟨fun o => ?_, ?_, ?_, ?_⟩
  · simp only [List.mem_cons, List.not_mem_nil, or_false, forall_eq_or_imp, forall_eq]
    exact ⟨blockAnswer_number B hb hsmall o, blockAnswer_text B hb hsmall o,
      blockAnswer_hash B (hfind hb) o⟩
  · simp only [List.mem_cons, List.not_mem_nil, or_false, forall_eq_or_imp, forall_eq]
    exact ⟨restGetBlock_text B hb hsmall, restGetBlock_hash B (hfind hb)⟩
  · cases i with
    | zero => exact .inl rfl
    | succ j =>
      obtain ⟨parent, hparent, hhash⟩ := hstructured.exists_parent hb
      refine .inr ⟨parent, hparent, fun o => ?_⟩
      rw [hhash]
      exact blockAnswer_hash B (hfind hparent) o
  · have hlast := S.ledger.getBlockByHeight_height
    have hheader : S.ledger.headers[S.ledger.height]? = some S.ledger.latestHeader := by
      rw [headers, List.getElem?_map, ← getBlockByHeight, hlast]
      rfl
    have hheight : (S.metrics P).height = S.ledger.height :=
      hstructured.linked.height_eq _ _ hheader
    rw [hheight]
    exact ⟨_, hlast, blockAnswer_hash B (hfind hlast)⟩

open Devnet in
/-- The mined block is shown under the hash in its answer, and its parent hash shows the
first block. -/
theorem broadcast_block_linked :
    (∀ o, blockAnswer walletBech32 (run (step walletBech32) devServer broadcastEvents) o
        (.string (Hasher.blockHash walletPrimitives broadcastBlock.header).toHex) =
      some (blockValue walletPrimitives broadcastBlock)) ∧
    ∃ parent, (run (step walletBech32) devServer broadcastEvents).ledger.getBlockByHeight 0 =
      some parent ∧
      ∀ o, blockAnswer walletBech32 (run (step walletBech32) devServer broadcastEvents) o
          (.string broadcastBlock.header.parentHash.toHex) =
            some (blockValue walletPrimitives parent) := by
  obtain ⟨-, hblock, -⟩ := broadcast_facts
  have hinj : ∀ g ∈ (run (step walletBech32) devServer broadcastEvents).ledger.headers,
      ∀ g' ∈ (run (step walletBech32) devServer broadcastEvents).ledger.headers,
        Hasher.blockHash walletPrimitives g = Hasher.blockHash walletPrimitives g' → g = g' := by
    rw [ledger_broadcastEvents]
    decide +kernel
  rw [← ledger_broadcastEvents] at hblock
  obtain ⟨hshown, -, hparent, -⟩ :=
    block_links walletBech32 devServer_fresh broadcastEvents hinj hblock
    (by decide)
  exact ⟨fun o => hshown o _ (by simp), hparent.resolve_left (by decide)⟩

end Rpc

end Sprax
