import Sprax.Merkle
import Sprax.Reopen

/-!
# Transactions, their receipts and the index

A transaction is indexed under its hash, with its receipt and height, as soon as it is executed,
also where its block is refused afterwards. An executed transaction is behind the nonce of its
sender for good, so no later execution of the same transaction can overwrite its entry, and a
different one can only where two transactions have one hash.
-/
namespace Sprax
open Std StateAccessor Relation FiniteMap

namespace ChainLedger
variable {P : Primitives}

/-- A transaction, its receipt and its height. -/
abbrev TxEntry := Transaction × TxReceipt × ℕ

/-- The nonce of the transaction is used up, and its entry is as given unless it is that of
another transaction. -/
structure Filed (P : Primitives) (executor : TxExecutor) (b : Batch) (tx : Transaction)
    (height : ℕ) : Prop where
  used : tx.body.nonce < nonceOf P b.store tx.body.sender
  entry : ∃ e, b.txIndex[Hasher.txHash P tx]? = some e ∧
    (e.1 = tx → e = (tx, TxExecutor.receiptOf P executor tx height, height))

section Turns
variable {executor : TxExecutor} {height h : ℕ} {chainId : String} {b b' : Batch}

theorem Turn.nonceOf_le (hturn : Turn P executor height chainId b b') (a : Address) :
    nonceOf P b.store a ≤ nonceOf P b'.store a := by
  cases hturn with
  | @kept tx s r hexec =>
    have hle := TxExecutor.nonceOf_le_executeTransaction executor b.store tx height
      chainId a (P := P)
    rwa [hexec] at hle
  | @dropped tx s e hexec =>
    have hle := TxExecutor.nonceOf_le_executeTransaction executor b.store tx height
      chainId a (P := P)
    rwa [hexec] at hle

/-- A filed transaction is not executed again. -/
theorem Filed.turn {tx : Transaction} (hfiled : Filed P executor b tx h)
    (hturn : Turn P executor height chainId b b') : Filed P executor b' tx h := by
  refine ⟨hfiled.used.trans_le (hturn.nonceOf_le _), ?_⟩
  cases hturn with
  | @kept tx' s r hexec =>
    have hreceipt := TxExecutor.executeTransaction_receipt executor hexec
    by_cases hhash : Hasher.txHash P tx' = Hasher.txHash P tx
    · refine ⟨(tx', r, height), ?_, fun heq => ?_⟩
      · rw [hreceipt]
        simp [Batch.record, TxExecutor.receiptOf, hhash]
      · obtain rfl : tx' = tx := heq
        have hnonce := nonce_of_executed hexec
        have hused := hfiled.used
        omega
    · obtain ⟨e, he, hsame⟩ := hfiled.entry
      refine ⟨e, ?_, hsame⟩
      rw [hreceipt]
      exact (getElem?_insert_ne _ _ hhash).trans he
  | dropped hexec => exact hfiled.entry

/-- An executed transaction is filed. -/
theorem filed_of_executed {tx : Transaction} {s : Store} {r : TxReceipt}
    (hexec : executor.executeTransaction P b.store tx height chainId = (s, .ok r))
    (hmax : tx.body.nonce < u64Max) : Filed P executor (b.record P s tx r height) tx height := by
  refine ⟨by rw [nonceOf_record]; exact nonceOf_executed hexec hmax, (tx, r, height), ?_,
    fun _ => ?_⟩
  · rw [TxExecutor.executeTransaction_receipt executor hexec]
    simp [Batch.record, TxExecutor.receiptOf]
  · rw [TxExecutor.executeTransaction_receipt executor hexec]

end Turns

/-- What the execution loops keep true of an index. -/
structure Batch.Entered (P : Primitives) (L : ChainLedger) (b : Batch) : Prop where
  keyed : ∀ (hash : Hash32) (e : TxEntry), b.txIndex[hash]? = some e → Hasher.txHash P e.1 = hash
  executed : ∀ p ∈ b.executed, p.2 = TxExecutor.receiptOf P L.executor p.1 (L.height + 1) ∧
    (p.1.body.nonce < u64Max → Filed P L.executor b p.1 (L.height + 1))
  origin : ∀ (hash : Hash32) (e : TxEntry), b.txIndex[hash]? = some e → L.txIndex[hash]? = some e ∨
    e.1 ∈ b.transactions ∧
      e.2 = (TxExecutor.receiptOf P L.executor e.1 (L.height + 1), L.height + 1)

theorem Batch.Entered.turn {L : ChainLedger} {b b' : Batch} (hb : b.Entered P L)
    (hturn : Turn P L.executor (L.height + 1) L.genesis.chainId b b') : b'.Entered P L := by
  have hfiled : ∀ tx, Filed P L.executor b tx (L.height + 1) →
      Filed P L.executor b' tx (L.height + 1) :=
    fun _ hold => hold.turn hturn
  cases hturn with
  | @kept tx s r hexec =>
    have hreceipt := TxExecutor.executeTransaction_receipt L.executor hexec
    have hentry : ∀ (hash : Hash32) (e : TxEntry),
        (b.record P s tx r (L.height + 1)).txIndex[hash]? = some e →
        hash = Hasher.txHash P tx ∧ e = (tx, r, L.height + 1) ∨ b.txIndex[hash]? = some e := by
      intro hash e he
      rw [hreceipt] at he
      by_cases hhash : Hasher.txHash P tx = hash
      · refine .inl ⟨hhash.symm, ?_⟩
        simp only [Batch.record, TxExecutor.receiptOf, hhash, ExtTreeMap.getElem?_insert_self,
          Option.some.injEq] at he
        rw [← he, hreceipt, TxExecutor.receiptOf, hhash]
      · exact .inr ((getElem?_insert_ne _ _ hhash).symm.trans he)
    refine ⟨fun hash e he => ?_, fun p hp => ?_, fun hash e he => ?_⟩
    · rcases hentry hash e he with ⟨rfl, rfl⟩ | he
      · rfl
      · exact hb.keyed hash e he
    · rcases List.mem_append.mp hp with hp | hp
      · obtain ⟨hr, hold⟩ := hb.executed p hp
        exact ⟨hr, fun hmax => hfiled p.1 (hold hmax)⟩
      · rw [List.mem_singleton.mp hp]
        exact ⟨hreceipt, fun hmax => filed_of_executed hexec hmax⟩
    · rcases hentry hash e he with ⟨rfl, rfl⟩ | he
      · exact .inr ⟨by simp [Batch.record, Batch.transactions], by rw [hreceipt]⟩
      · refine (hb.origin hash e he).imp_right (fun hnew => ⟨?_, hnew.2⟩)
        simp only [Batch.record, Batch.transactions, List.map_append, List.mem_append]
        exact .inl hnew.1
  | dropped hexec =>
    refine ⟨hb.keyed, fun p hp => ?_, hb.origin⟩
    obtain ⟨hr, hold⟩ := hb.executed p hp
    exact ⟨hr, fun hmax => hfiled p.1 (hold hmax)⟩

theorem Works.entered {L : ChainLedger} {b : Batch} (h : L.Works P b)
    (hkeyed : ∀ (hash : Hash32) (e : TxEntry), L.txIndex[hash]? = some e →
      Hasher.txHash P e.1 = hash) :
    b.Entered P L := by
  induction h with
  | refl => exact ⟨hkeyed, fun p hp => (by cases hp), fun hash e he => .inl he⟩
  | tail _ hturn ih => exact ih.turn hturn

theorem Works.filed {L : ChainLedger} {b : Batch} (h : L.Works P b) {tx : Transaction} {height : ℕ}
    (hfiled : Filed P L.executor L.batch tx height) : Filed P L.executor b tx height := by
  induction h with
  | refl => exact hfiled
  | tail _ hturn ih => exact ih.turn hturn

/-- The index of a ledger files what is in its blocks, and the headers are over those receipts. -/
structure Receipted (P : Primitives) (L : ChainLedger) : Prop where
  keyed : ∀ (hash : Hash32) (e : TxEntry), L.txIndex[hash]? = some e → Hasher.txHash P e.1 = hash
  filed : ∀ (i : ℕ) (block : Block), L.blocks[i]? = some block → ∀ tx ∈ block.body.transactions,
    tx.body.nonce < u64Max → Filed P L.executor L.batch tx i
  rooted : ∀ (i : ℕ) (block : Block), L.blocks[i]? = some block → block.body.transactions ≠ [] →
    block.header.receiptsRoot = Hasher.merkleRoot P (block.body.transactions.map
      (fun tx => Hasher.receiptHash P (TxExecutor.receiptOf P L.executor tx i)))

/-- The genesis block has no transactions. -/
theorem transactions_init {genesis : GenesisConfig} {store : Store} {i : ℕ} {block : Block}
    (h : (initFromGenesisWithStore P genesis store).blocks[i]? = some block) :
    block.body.transactions = [] := by
  simp only [initFromGenesisWithStore, List.getElem?_singleton] at h
  split at h
  · cases h
    rfl
  · cases h

theorem receipted_init (genesis : GenesisConfig) (store : Store) :
    (initFromGenesisWithStore P genesis store).Receipted P where
  keyed hash e he := by simp [initFromGenesisWithStore] at he
  filed i block hi tx htx := by
    rw [transactions_init hi] at htx
    cases htx
  rooted i block hi hne := absurd (transactions_init hi) hne

/-- A filed transaction is filed in every store with the same accounts. -/
theorem Filed.congr {executor : TxExecutor} {b b' : Batch} {tx : Transaction} {height : ℕ}
    (h : Filed P executor b tx height) (hstate : b'.store.state = b.store.state)
    (hindex : b'.txIndex = b.txIndex) : Filed P executor b' tx height :=
  ⟨by rw [nonceOf_congr hstate]; exact h.used, by rw [hindex]; exact h.entry⟩

/-- New signatures leave header and body of every block. -/
theorem getElem?_setLastCommit {L : ChainLedger} {height i : ℕ} {sigs : List CommitSignature}
    {block : Block} (h : (L.setLastCommit P height sigs).1.blocks[i]? = some block) :
    ∃ old, L.blocks[i]? = some old ∧ block.header = old.header ∧ block.body = old.body := by
  cases hold : L.blocks[height]? with
  | none =>
    simp only [setLastCommit, hold] at h
    exact ⟨block, h, rfl, rfl⟩
  | some old =>
    rw [(setLastCommit_some hold sigs).2.1] at h
    by_cases hi : height = i
    · subst hi
      rw [List.getElem?_set_self (List.getElem?_eq_some_iff.mp hold).1] at h
      cases h
      exact ⟨old, hold, rfl, rfl⟩
    · rw [List.getElem?_set_ne hi] at h
      exact ⟨block, h, rfl, rfl⟩

/-- The block that is appended: its transactions are those of the batch, with their receipts. -/
theorem Receipted.appended {L : ChainLedger} (hL : L.Receipted P) {b : Batch} (hworks : L.Works P b)
    {block : Block} (hext : L.Extends P block.header) (hbody : block.body.transactions =
      b.transactions)
    (hroots : RootsMatch P b block.header) (txs : List Transaction) :
    ({ L.commitBlock P b block.header.height block with mempool := txs } :
      ChainLedger).Receipted P := by
  have hb := hworks.entered hL.keyed
  have hlast : L.blocks.length = L.height + 1 := L.length_blocks
  refine ⟨hb.keyed, fun i block' hi tx htx hmax => ?_, fun i block' hi hne => ?_⟩
  · refine Filed.congr (b := b) ?_ rfl rfl
    rcases getElem?_snoc.mp hi with hold | ⟨hnew, rfl⟩
    · exact hworks.filed (hL.filed i block' hold tx htx hmax)
    · rw [hbody, Batch.transactions, List.mem_map] at htx
      obtain ⟨p, hp, rfl⟩ := htx
      rw [hnew, hlast]
      exact (hb.executed p hp).2 hmax
  · rcases getElem?_snoc.mp hi with hold | ⟨hnew, rfl⟩
    · exact hL.rooted i block' hold hne
    · have hreceipts : b.receipts = b.transactions.map
          (fun tx => TxExecutor.receiptOf P L.executor tx (L.height + 1)) := by
        rw [Batch.receipts, Batch.transactions, List.map_map]
        exact List.map_congr_left (fun p hp => (hb.executed p hp).1)
      rw [← hroots.receiptsRoot_eq, Batch.receiptsRoot, hreceipts, hbody, hnew, hlast, List.map_map]
      rfl

theorem Receipted.move {L L' : ChainLedger} (hmove : Move P L L') (hL : L.Receipted P) :
    L'.Receipted P := by
  cases hmove with
  | spilled b hworks =>
    have hb := hworks.entered hL.keyed
    refine ⟨hb.keyed, fun i block hi tx htx hmax => ?_, hL.rooted⟩
    exact Filed.congr (hworks.filed (hL.filed i block hi tx htx hmax)) rfl rfl
  | advance hadvance =>
    cases hadvance with
    | pooled txs => exact ⟨hL.keyed, hL.filed, hL.rooted⟩
    | appended b block txs hworks hext hbody hroots =>
      exact hL.appended hworks hext hbody hroots txs
    | @resigned height block sigs hblock =>
      obtain ⟨hstore, -, hindex⟩ := setLastCommit_some (P := P) hblock sigs
      have hexecutor : (L.setLastCommit P height sigs).1.executor = L.executor := by
        rw [setLastCommit, hblock]
      refine ⟨by rw [hindex]; exact hL.keyed, fun i block' hi tx htx hmax =>
        ?_, fun i block' hi hne => ?_⟩
      · obtain ⟨old, hold, -, hbody⟩ := getElem?_setLastCommit hi
        rw [hbody] at htx
        rw [hexecutor]
        refine Filed.congr (hL.filed i old hold tx htx hmax) ?_ hindex
        rw [batch, hstore]
        rfl
      · obtain ⟨old, hold, hheader, hbody⟩ := getElem?_setLastCommit hi
        rw [hbody] at hne
        rw [hexecutor, hheader, hbody]
        exact hL.rooted i old hold hne

theorem receipted_reached (genesis : GenesisConfig) (store : Store) (ops : List LedgerOp) :
    (reached P genesis store ops).Receipted P :=
  reached_of_moves (fun _ _ hmove hL => Receipted.move hmove hL) (receipted_init genesis store) ops

/-- After any run of calls, failing ones included, every transaction of every stored block is found
under its hash with the receipt that its header's receipts root covers and with its height; unless
its nonce is the last one, or another transaction has the same hash. -/
theorem transaction_found (genesis : GenesisConfig) (store : Store) (ops : List LedgerOp) {i : ℕ}
    {block : Block} (hblock : (reached P genesis store ops).getBlockByHeight i = some block)
    {tx : Transaction} (htx : tx ∈ block.body.transactions) (hmax : tx.body.nonce < u64Max) :
    let receipt := TxExecutor.receiptOf P (reached P genesis store ops).executor
    block.header.receiptsRoot =
        Hasher.merkleRoot P
          (block.body.transactions.map (fun tx => Hasher.receiptHash P (receipt tx i))) ∧
      ((reached P genesis store ops).getTransaction (Hasher.txHash P tx) =
        some (tx, receipt tx i, i) ∨
        ∃ other entry, (reached P genesis store ops).getTransaction (Hasher.txHash P tx) =
          some (other, entry) ∧
          other ≠ tx ∧ Hasher.txHash P other = Hasher.txHash P tx) := by
  intro receipt
  have hL := receipted_reached (P := P) genesis store ops
  refine ⟨hL.rooted i block hblock (List.ne_nil_of_mem htx), ?_⟩
  obtain ⟨-, e, he, hsame⟩ := hL.filed i block hblock tx htx hmax
  by_cases heq : e.1 = tx
  · left
    rw [getTransaction, ← hsame heq]
    exact he
  · exact .inr ⟨e.1, e.2, he, heq, hL.keyed _ e he⟩

section Scenario
open Devnet

def transferOps : List LedgerOp := [.call (.submit (transferTx 0)), .call (.mine (addressOf 9))]

theorem transferOps_facts :
    (reached primitives (devGenesis []) Store.empty transferOps).getBlockByHeight 1 =
      some transferBlock ∧
      transferTx 0 ∈ transferBlock.body.transactions ∧
      (reached primitives (devGenesis []) Store.empty transferOps).getTransaction
          (Hasher.txHash primitives (transferTx 0)) =
        some (transferTx 0,
          TxExecutor.receiptOf primitives TxExecutor.default (transferTx 0) 1, 1) := by
  decide +kernel

theorem transfer_found :
    transferBlock.header.receiptsRoot =
      Hasher.merkleRoot primitives
        (transferBlock.body.transactions.map
          (fun tx => Hasher.receiptHash primitives (TxExecutor.receiptOf primitives
        (reached primitives (devGenesis []) Store.empty transferOps).executor tx 1))) := by
  have hnonce : (transferTx 0).body.nonce < u64Max := by decide
  exact (transaction_found (devGenesis []) Store.empty transferOps transferOps_facts.1
    transferOps_facts.2.1 hnonce).1

end Scenario

/-- Every entry of the index is of a transaction in a block, with its receipt. -/
def Backed (P : Primitives) (L : ChainLedger) : Prop :=
  ∀ (hash : Hash32) (e : TxEntry), L.txIndex[hash]? = some e →
    ∃ block, L.blocks[e.2.2]? = some block ∧ e.1 ∈ block.body.transactions ∧
      e.2.1 = TxExecutor.receiptOf P L.executor e.1 e.2.2

theorem Backed.advance {L L' : ChainLedger} (hadvance : Advance P L L') (hreceipted : L.Receipted P)
    (hL : L.Backed P) : L'.Backed P := by
  cases hadvance with
  | pooled txs => exact hL
  | appended b block txs hworks hext hbody hroots =>
    intro hash e he
    rcases (hworks.entered hreceipted.keyed).origin hash e he with hold | ⟨hmem, heq⟩
    · obtain ⟨block', hblock', hmem, hreceipt⟩ := hL hash e hold
      exact ⟨block', getElem?_snoc.mpr (.inl hblock'), hmem, hreceipt⟩
    · rw [heq]
      exact ⟨block, getElem?_snoc.mpr (.inr ⟨L.length_blocks.symm, rfl⟩),
        by rw [hbody]; exact hmem, rfl⟩
  | @resigned height block sigs hblock =>
    obtain ⟨-, hblocks, hindex⟩ := setLastCommit_some (P := P) hblock sigs
    have hexecutor : (L.setLastCommit P height sigs).1.executor = L.executor := by
      rw [setLastCommit, hblock]
    intro hash e he
    rw [hindex] at he
    obtain ⟨block', hblock', hmem, hreceipt⟩ := hL hash e he
    rw [hexecutor, hblocks]
    by_cases hi : height = e.2.2
    · subst hi
      rw [hblock] at hblock'
      cases hblock'
      exact ⟨_, List.getElem?_set_self (List.getElem?_eq_some_iff.mp hblock).1, hmem, hreceipt⟩
    · exact ⟨block', by rw [List.getElem?_set_ne hi]; exact hblock', hmem, hreceipt⟩

/-- If no call has failed, whatever is found under a hash is a transaction with that hash, in the
block at the height given, with its receipt. -/
theorem found_in_block (genesis : GenesisConfig) (store : Store) (ops : List LedgerOp)
    (hok : Runs.Along (fun L op => L.succeeds P op = true) (operate P)
      (initFromGenesisWithStore P genesis store) ops)
    {hash : Hash32} {tx : Transaction} {receipt : TxReceipt} {height : ℕ}
    (hfound : (reached P genesis store ops).getTransaction hash = some (tx, receipt, height)) :
    Hasher.txHash P tx = hash ∧
      receipt = TxExecutor.receiptOf P (reached P genesis store ops).executor tx height ∧
      ∃ block, (reached P genesis store ops).getBlockByHeight height = some block ∧
        tx ∈ block.body.transactions := by
  obtain ⟨hreceipted, hbacked⟩ : (reached P genesis store ops).Receipted P ∧
      (reached P genesis store ops).Backed P :=
    reached_of_advances (I := fun L => L.Receipted P ∧ L.Backed P)
      (fun L L' hadvance ⟨hr, hb⟩ =>
        ⟨Receipted.move (.advance hadvance) hr, Backed.advance hadvance hr hb⟩)
      ⟨receipted_init genesis store, fun hash e he => by simp [initFromGenesisWithStore] at he⟩ hok
  obtain ⟨block, hblock, hmem, hreceipt⟩ := hbacked hash _ hfound
  exact ⟨hreceipted.keyed hash _ hfound, hreceipt, block, hblock, hmem⟩

open Devnet in
theorem transfer_in_block :
    ∃ block, (reached primitives (devGenesis []) Store.empty transferOps).getBlockByHeight 1 =
      some block ∧
      transferTx 0 ∈ block.body.transactions :=
  (found_in_block (devGenesis []) Store.empty transferOps (by decide +kernel)
    transferOps_facts.2.2).2.2

end ChainLedger

end Sprax
