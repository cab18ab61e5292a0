import Sprax.Reopen

/-!
# The writes of a block

Every write of the store is a database transaction of its own. Mining or applying
a block therefore reaches the disk as a sequence: for each transaction the sender,
the recipients one by one and the index entry, then the block, its hash and the
height. The sequence is listed here along the control flow of the two functions,
and writing it out gives the store that the function leaves behind.
-/
namespace Sprax
open Std FiniteMap StateAccessor Relation

/-- One committed write, to the state table or to the metadata table. -/
inductive Write
  | account (key value : Bytes)
  | chainMeta (key value : Bytes)
  deriving DecidableEq

def Write.isAccount : Write → Bool
  | .account _ _ => true
  | .chainMeta _ _ => false

namespace Store

def write (s : Store) : Write → Store
  | .account key value => s.set key value
  | .chainMeta key value => s.putMeta key value

def writeAll (s : Store) (ws : List Write) : Store := Runs.run write s ws

@[simp] theorem writeAll_nil (s : Store) : s.writeAll [] = s := rfl

@[simp] theorem writeAll_cons (s : Store) (w : Write) (ws : List Write) :
    s.writeAll (w :: ws) = (s.write w).writeAll ws := rfl

@[simp] theorem writeAll_append (s : Store) (ws vs : List Write) :
    s.writeAll (ws ++ vs) = (s.writeAll ws).writeAll vs := Runs.run_append write s ws vs

/-- Metadata writes leave the accounts alone. -/
theorem writeAll_state {ws : List Write} (h : ∀ w ∈ ws, w.isAccount = false) (s : Store) :
    (s.writeAll ws).state = s.state := by
  induction ws generalizing s with
  | nil => rfl
  | cons w ws ih =>
    obtain ⟨hw, hws⟩ := List.forall_mem_cons.mp h
    rw [writeAll_cons, ih hws]
    cases w with
    | account key value => cases hw
    | chainMeta key value => rfl

end Store

variable (P : Primitives)

namespace Write

def setAccount (addr : Address) (account : AccountState) : Write :=
  .account (accountKey addr) (P.accountJson.toVec account)

def putTxIndex (txHash : Hash32) (entry : Transaction × TxReceipt × ℕ) : Write :=
  .chainMeta (hashKey Store.txPrefix txHash) (P.txEntryJson.toVec entry)

def putBlock (height : ℕ) (block : Block) : Write :=
  .chainMeta (u64Key Store.blockPrefix height) (P.blockJson.toVec block)

def putBlockHashIndex (hash : Hash32) (height : ℕ) : Write :=
  .chainMeta (hashKey Store.blockHashPrefix hash) (u64ToBeBytes height)

def putHeight (height : ℕ) : Write := .chainMeta Store.heightKey (u64ToBeBytes height)

end Write

namespace TxExecutor

/-- The credits, up to the first that fails. -/
def creditWrites (store : Store) : List TxMessage → List Write
  | [] => []
  | .transfer recipient amount :: rest =>
    match getAccount P store recipient with
    | .error _ => []
    | .ok account =>
      match account.balance.checkedAdd amount with
      | .error _ => []
      | .ok balance =>
        .setAccount P recipient { account with balance := balance } ::
          creditWrites (setAccount P store recipient { account with balance := balance }) rest
  | _ :: rest => creditWrites store rest

/-- The charged sender, then the credits. -/
def executeWrites (store : Store) (tx : Transaction) (expectedChainId : String) : List Write :=
  match chargeSender P store tx expectedChainId with
  | .error _ => []
  | .ok sender =>
    .setAccount P tx.body.sender sender ::
      creditWrites P (setAccount P store tx.body.sender sender) tx.body.messages

end TxExecutor

/-- A call that makes a block. -/
inductive BlockCall
  | mine (proposer : Address)
  | apply (block : Block)

namespace ChainLedger

/-- One turn of an execution loop: the execution, and the index entry if it succeeds. -/
def turnWrites (executor : TxExecutor) (height : ℕ) (chainId : String) (b : Batch)
    (tx : Transaction) : List Write :=
  TxExecutor.executeWrites P b.store tx chainId ++
    match executor.executeTransaction P b.store tx height chainId with
    | (_, .ok receipt) => [.putTxIndex P receipt.txHash (tx, receipt, height)]
    | (_, .error _) => []

def mineLoopWrites (executor : TxExecutor) (height : ℕ) (chainId : String) (b : Batch) :
    List Transaction → List Write
  | [] => []
  | tx :: rest =>
    turnWrites P executor height chainId b tx ++
      mineLoopWrites executor height chainId (mineTx P executor height chainId b tx) rest

def applyLoopWrites (executor : TxExecutor) (height : ℕ) (chainId : String) (b : Batch) :
    List Transaction → List Write
  | [] => []
  | tx :: rest =>
    turnWrites P executor height chainId b tx ++
      match executor.executeTransaction P b.store tx height chainId with
      | (store, .ok receipt) =>
        applyLoopWrites executor height chainId (b.record P store tx receipt height) rest
      | (_, .error _) => []

/-- The tail of a block that is kept. -/
def commitWrites (height : ℕ) (block : Block) : List Write :=
  [.putBlock P height block, .putBlockHashIndex (Hasher.blockHash P block.header) height,
    .putHeight height]

/-- The writes of a call, in order. -/
def writes (L : ChainLedger) : BlockCall → List Write
  | .mine proposer =>
    mineLoopWrites P L.executor (L.height + 1) L.genesis.chainId L.batch L.mempool ++
      commitWrites P (L.height + 1) (L.mineBlock P proposer).2
  | .apply block =>
    if block.header.height ≤ L.height then []
    else match L.checkHeader P block.header with
      | .error _ => []
      | .ok () =>
        applyLoopWrites P L.executor block.header.height L.genesis.chainId L.batch
            block.body.transactions ++
          match L.applyBody P block with
          | (_, .error _) => []
          | (b, .ok ()) =>
            match checkRoots P b block.header with
            | .error _ => []
            | .ok () => commitWrites P block.header.height block

/-- The ledger after the call. -/
def makeBlock (L : ChainLedger) : BlockCall → ChainLedger
  | .mine proposer => (L.mineBlock P proposer).1
  | .apply block => (L.applyBlock P block).1

end ChainLedger

variable {P}

namespace TxExecutor

theorem writeAll_creditWrites (s : Store) (msgs : List TxMessage) :
    s.writeAll (creditWrites P s msgs) = (creditMessages P s msgs).1 := by
  induction s, msgs using creditMessages.induct P with
  | case1 s => rfl
  | case2 s recipient amount rest e hread => simp [creditWrites, creditMessages, hread]
  | case3 s recipient amount rest account hread e hadd =>
    simp [creditWrites, creditMessages, hread, hadd]
  | case4 s recipient amount rest account hread balance hadd ih =>
    simp only [creditWrites, creditMessages, hread, hadd, Store.writeAll_cons]
    exact ih
  | case5 s msg rest hne ih =>
    rw [creditWrites, creditMessages]
    · exact ih
    · exact hne
    · exact hne

theorem writeAll_executeWrites (executor : TxExecutor) (s : Store) (tx : Transaction) (height : ℕ)
    (chainId : String) :
    s.writeAll (executeWrites P s tx chainId) =
      (executor.executeTransaction P s tx height chainId).1 := by
  unfold executeWrites
  split
  · rename_i e hcharge
    rw [executeTransaction_refused executor hcharge, Store.writeAll_nil]
  · rename_i sender hcharge
    rw [executeTransaction_charged executor hcharge, Store.writeAll_cons]
    exact writeAll_creditWrites _ _

end TxExecutor

namespace ChainLedger

theorem writeAll_turnWrites (executor : TxExecutor) (height : ℕ) (chainId : String) (b : Batch)
    (tx : Transaction) :
    b.store.writeAll (turnWrites P executor height chainId b tx) =
      (mineTx P executor height chainId b tx).store := by
  rw [turnWrites, Store.writeAll_append,
    TxExecutor.writeAll_executeWrites executor b.store tx height chainId, mineTx]
  rcases executor.executeTransaction P b.store tx height chainId with ⟨s, e | r⟩
  · rfl
  · rfl

/-- A batch that the loops reach for the next block, with the writes made so far. -/
inductive Logged (P : Primitives) (L : ChainLedger) : Batch → List Write → Prop
  | start : Logged P L L.batch []
  | turn {b : Batch} {ws : List Write} (h : Logged P L b ws) (tx : Transaction) :
      Logged P L (mineTx P L.executor (L.height + 1) L.genesis.chainId b tx)
        (ws ++ turnWrites P L.executor (L.height + 1) L.genesis.chainId b tx)

theorem Logged.store_eq {L : ChainLedger} {b : Batch} {ws : List Write} (h : Logged P L b ws) :
    L.store.writeAll ws = b.store := by
  induction h with
  | start => rfl
  | turn h tx ih => rw [Store.writeAll_append, ih, writeAll_turnWrites]

theorem Logged.mineLoop {L : ChainLedger} {b : Batch} {ws : List Write} (h : Logged P L b ws)
    (txs : List Transaction) :
    Logged P L (txs.foldl (mineTx P L.executor (L.height + 1) L.genesis.chainId) b)
      (ws ++ mineLoopWrites P L.executor (L.height + 1) L.genesis.chainId b txs) := by
  induction txs generalizing b ws with
  | nil => simpa [mineLoopWrites] using h
  | cons tx rest ih =>
    rw [List.foldl_cons, mineLoopWrites, ← List.append_assoc]
    exact ih (h.turn tx)

theorem Logged.applyLoop {L : ChainLedger} {b : Batch} {ws : List Write} (h : Logged P L b ws)
    (txs : List Transaction) :
    Logged P L (applyTxs P L.executor (L.height + 1) L.genesis.chainId b txs).1
      (ws ++ applyLoopWrites P L.executor (L.height + 1) L.genesis.chainId b txs) := by
  induction txs generalizing b ws with
  | nil => simpa [applyTxs, applyLoopWrites] using h
  | cons tx rest ih =>
    have hturn := h.turn tx
    unfold mineTx at hturn
    rw [applyTxs, applyLoopWrites, ← List.append_assoc]
    rcases hexec : L.executor.executeTransaction P b.store tx (L.height + 1) L.genesis.chainId with
      ⟨s, e | r⟩
    · rw [hexec] at hturn
      simpa using hturn
    · rw [hexec] at hturn
      exact ih hturn

/-- The state root of the accounts is the one in the latest header. -/
def InSync (P : Primitives) (L : ChainLedger) : Prop := L.stateRoot P = L.latestHeader.stateRoot

instance (P : Primitives) (L : ChainLedger) : Decidable (L.InSync P) :=
  inferInstanceAs (Decidable (_ = _))

theorem inSync_commitBlock {L : ChainLedger} {b : Batch} {block : Block}
    (hroots : RootsMatch P b block.header) (height : ℕ) :
    (L.commitBlock P b height block).InSync P := by
  have hlatest : (L.commitBlock P b height block).latestHeader = block.header := by
    simp [latestHeader, latestBlock, commitBlock]
  rw [InSync, hlatest, ← hroots.stateRoot_eq]
  rfl

theorem writeAll_commitWrites (s : Store) (height : ℕ) (block : Block) :
    s.writeAll (commitWrites P height block) =
      (persistBlock P s height block (Hasher.blockHash P block.header)).putHeight height := rfl

theorem logged_applyBody {L : ChainLedger} {block : Block} (hext : L.Extends P block.header) :
    Logged P L (L.applyBody P block).1
      (applyLoopWrites P L.executor block.header.height L.genesis.chainId L.batch
        block.body.transactions) := by
  rw [applyBody, hext.height_eq]
  exact Logged.start.applyLoop block.body.transactions

theorem writes_refused {L : ChainLedger} {block : Block} (hext : ¬ L.Extends P block.header) :
    L.writes P (.apply block) = [] := by
  obtain ⟨e, he⟩ := checkHeader_error hext
  simp only [writes, he, ite_self]

/-- A block that extends the chain is executed, and committed if everything fits. -/
theorem writes_of_extends {L : ChainLedger} {block : Block} (hext : L.Extends P block.header) :
    L.writes P (.apply block) =
      applyLoopWrites P L.executor block.header.height L.genesis.chainId L.batch
          block.body.transactions ++
        match L.applyBody P block with
        | (_, .error _) => []
        | (b, .ok ()) =>
          match checkRoots P b block.header with
          | .error _ => []
          | .ok () => commitWrites P block.header.height block := by
  have hnew : ¬ block.header.height ≤ L.height := by rw [hext.height_eq]; omega
  simp only [writes, if_neg hnew, checkHeader_ok.mpr hext]

/-- The writes of a call are those of its execution loop, followed by the three
commit writes if the block is kept. -/
theorem writes_shape (L : ChainLedger) (c : BlockCall) :
    ∃ b ws, Logged P L b ws ∧
      ((L.writes P c = ws ∧ (L.makeBlock P c).store = b.store) ∨
        ∃ block, L.writes P c = ws ++ commitWrites P (L.height + 1) block ∧
          (L.makeBlock P c).store =
            (persistBlock P b.store (L.height + 1) block
              (Hasher.blockHash P block.header)).putHeight (L.height + 1) ∧
          (L.makeBlock P c).InSync P) := by
  cases c with
  | mine proposer =>
    refine ⟨L.mineTxs P, _, Logged.start.mineLoop L.mempool,
      Or.inr ⟨(L.mineBlock P proposer).2, rfl, rfl, ?_⟩⟩
    exact inSync_commitBlock (L := L) ⟨rfl, rfl, rfl⟩ (L.height + 1)
  | apply block =>
    have houtcome := applyBlock_outcome (P := P) L block
    simp only [makeBlock]
    generalize L.applyBlock P block = result at houtcome
    cases houtcome with
    | ignored hold => exact ⟨L.batch, [], .start, Or.inl ⟨by simp only [writes, if_pos hold], rfl⟩⟩
    | refused e hext => exact ⟨L.batch, [], .start, Or.inl ⟨writes_refused hext, rfl⟩⟩
    | failed b e hext hbody =>
      refine ⟨b, _, by simpa only [hbody] using logged_applyBody hext, Or.inl ⟨?_, rfl⟩⟩
      simp only [writes_of_extends hext, hbody, List.append_nil]
    | mismatched b e hext hbody hroots =>
      refine ⟨b, _, by simpa only [hbody] using logged_applyBody hext, Or.inl ⟨?_, rfl⟩⟩
      obtain ⟨e', he'⟩ := checkRoots_error hroots
      simp only [writes_of_extends hext, hbody, he', List.append_nil]
    | accepted b hext hbody hroots =>
      refine ⟨b, _, by simpa only [hbody] using logged_applyBody hext, Or.inr ⟨block, ?_, ?_, ?_⟩⟩
      · simp only [writes_of_extends hext, hbody, checkRoots_ok.mpr hroots, hext.height_eq]
      · rw [← hext.height_eq]
        rfl
      · exact inSync_commitBlock (L := L) hroots block.header.height

/-- Writing the whole sequence gives the store of the ledger after the call. -/
theorem writeAll_writes (L : ChainLedger) (c : BlockCall) :
    L.store.writeAll (L.writes P c) = (L.makeBlock P c).store := by
  obtain ⟨b, ws, hlogged, ⟨hwrites, hstore⟩ | ⟨block, hwrites, hstore, -⟩⟩ :=
    L.writes_shape (P := P) c
  · rw [hwrites, hstore, hlogged.store_eq]
  · rw [hwrites, hstore, Store.writeAll_append, hlogged.store_eq, writeAll_commitWrites]

end ChainLedger

end Sprax
