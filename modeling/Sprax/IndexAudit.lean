import Sprax.Reindexing
import Sprax.Merkle

/-!
# The consistency audit of the index

The audit compares the block that the index shows at the ledger's height with the tip
of the ledger, and nothing else. A tip that passes is indexed with all its transactions,
because the header hash commits to the transactions root and the root to the transactions.
What the index holds below the tip is not looked at.
-/
namespace Sprax
open Std Filing Relation Collisions

inductive IndexerError
  | stateInconsistency (message : String)
  deriving DecidableEq

namespace ChainLedger

variable {P : Primitives}

theorem latestBlock_mem (L : ChainLedger) : L.latestBlock ∈ L.blocks := List.getLast_mem _

/-- The header names the root of the block's transactions. -/
def Commits (P : Primitives) (block : Block) : Prop :=
  Hasher.merkleRoot P (block.body.transactions.map (Hasher.txHash P)) = block.header.txsRoot

/-- The receipts of a batch carry the hashes of its transactions. -/
theorem Works.txHashes {L : ChainLedger} {b : Batch} (h : L.Works P b) :
    b.receipts.map TxReceipt.txHash = b.transactions.map (Hasher.txHash P) := by
  induction h with
  | refl => rfl
  | tail _ hturn ih =>
    cases hturn with
    | kept hexec =>
      rw [TxExecutor.executeTransaction_receipt _ hexec]
      simpa [Batch.record, Batch.receipts, Batch.transactions, TxExecutor.receiptOf] using ih
    | dropped hexec => exact ih

theorem Move.commits {L L' : ChainLedger} (hmove : Move P L L')
    (h : ∀ block ∈ L.blocks, Commits P block) :
    ∀ block ∈ L'.blocks, Commits P block := by
  cases hmove with
  | spilled b hworks => exact h
  | advance hadvance =>
    cases hadvance with
    | pooled txs => exact h
    | appended b block txs hworks hext hbody hroots =>
      have hnew : Commits P block := by
        rw [Commits, hbody, ← hworks.txHashes]
        exact hroots.txsRoot_eq
      intro block' hblock'
      rcases List.mem_append.mp hblock' with hold | hlast
      · exact h block' hold
      · rwa [List.mem_singleton.mp hlast]
    | @resigned height block sigs hblock =>
      intro block' hblock'
      rw [setLastCommit, hblock] at hblock'
      rcases List.mem_or_eq_of_mem_set hblock' with hold | rfl
      · exact h block' hold
      · exact h block (List.mem_of_getElem? hblock)

/-- Every block of a chain commits to its transactions. -/
theorem commits_of_reached (genesis : GenesisConfig) (store : Store) (ops : List LedgerOp) :
    ∀ block ∈ (reached P genesis store ops).blocks, Commits P block := by
  refine reached_of_moves (I := fun L => ∀ block ∈ L.blocks, Commits P block)
    (fun L L' hmove h => hmove.commits h) ?_ ops
  intro block hblock
  rw [List.mem_singleton.mp hblock]
  rfl

/-- A block of some chain. -/
def OfChain (P : Primitives) (block : Block) : Prop :=
  ∃ genesis store ops, block ∈ (reached P genesis store ops).blocks

theorem OfChain.commits {block : Block} (h : OfChain P block) : Commits P block := by
  obtain ⟨genesis, store, ops, hblock⟩ := h
  exact commits_of_reached genesis store ops block hblock

end ChainLedger

namespace IndexerEngine

variable (P : Primitives)

def verifyConsistency (s : IndexStore) (ledger : ChainLedger) : Except IndexerError Unit :=
  let ledgerHeight := ledger.height
  let ledgerHeader := ledger.latestHeader
  let ledgerBlockHash := Hasher.blockHash P ledgerHeader
  match s.getBlockByHeight ledgerHeight with
  | none =>
    .error (.stateInconsistency s!"missing indexed block at ledger height #{ledgerHeight}")
  | some indexedBlock =>
    if indexedBlock.hash ≠ ledgerBlockHash then
      .error (.stateInconsistency (s!"block hash mismatch at height #{ledgerHeight}: " ++
        s!"indexed={indexedBlock.hash.toHex} != ledger={ledgerBlockHash.toHex}"))
    else if indexedBlock.stateRoot ≠ ledgerHeader.stateRoot then
      .error (.stateInconsistency (s!"state root mismatch at height #{ledgerHeight}: " ++
        s!"indexed={indexedBlock.stateRoot.toHex} != ledger={ledgerHeader.stateRoot.toHex}"))
    else .ok ()

variable {P}

/-- What the audit has seen when it passes. -/
theorem verifyConsistency_ok {s : IndexStore} {ledger : ChainLedger} :
    verifyConsistency P s ledger = .ok () ↔
      ∃ b, s.getBlockByHeight ledger.height = some b ∧
        b.hash = Hasher.blockHash P ledger.latestHeader ∧
        b.stateRoot = ledger.latestHeader.stateRoot := by
  cases hshown : s.getBlockByHeight ledger.height with
  | none => simp [verifyConsistency, hshown]
  | some b =>
    by_cases hhash : b.hash = Hasher.blockHash P ledger.latestHeader
    · by_cases hroot : b.stateRoot = ledger.latestHeader.stateRoot <;>
        simp [verifyConsistency, hshown, hhash, hroot]
    · simp [verifyConsistency, hshown, hhash]

/-- The strings that are hashed for the headers and the transactions roots of blocks. -/
def auditStrings (P : Primitives) (blocks : List Block) : List Bytes :=
  blocks.flatMap (fun b => P.headerJson.toVec b.header :: ChainLedger.txsStrings P b)

theorem header_mem_auditStrings {blocks : List Block} {block : Block} (h : block ∈ blocks) :
    P.headerJson.toVec block.header ∈ auditStrings P blocks :=
  List.mem_flatMap.mpr ⟨block, h, List.mem_cons_self⟩

theorem txsStrings_subset {blocks : List Block} {block : Block} (h : block ∈ blocks) :
    ChainLedger.txsStrings P block ⊆ auditStrings P blocks :=
  fun _ hx => List.mem_flatMap.mpr ⟨block, h, List.mem_cons_of_mem _ hx⟩

theorem txJson_mem_auditStrings {blocks : List Block} {block : Block} (h : block ∈ blocks)
    {tx : Transaction} (htx : tx ∈ block.body.transactions) :
    P.txJson.toVec tx ∈ auditStrings P blocks :=
  txsStrings_subset h (List.mem_append_left _ (List.mem_map_of_mem htx))

theorem header_eq_of_blockHash {blocks : List Block}
    (hz : ¬ Collides P.blake3 (auditStrings P blocks)) {block block' : Block} (h : block ∈ blocks)
    (h' : block' ∈ blocks) (hhash : Hasher.blockHash P block.header =
      Hasher.blockHash P block'.header) :
    block.header = block'.header :=
  P.headerJson.toVec_injective
    (eq_of_hash_eq hz (header_mem_auditStrings h) (header_mem_auditStrings h') hhash)

/-- A record in the transaction table is that of an indexed transaction with its hash. -/
theorem exists_tx_of_mem_insertions {fs : List Finalized} {entry : IndexedTx}
    (h : entry ∈ insertions P fs) :
    ∃ f ∈ fs, ∃ tx ∈ f.block.body.transactions, ∃ i, entry = indexedTx P f tx i := by
  obtain ⟨f, hf, hentry⟩ := List.mem_flatMap.mp h
  obtain ⟨⟨tx, i⟩, htx, rfl⟩ := List.mem_map.mp hentry
  exact ⟨f, hf, tx, (List.mem_zipIdx htx).2.2 ▸ List.getElem_mem _, i, rfl⟩

/-- A transaction of an indexed block is found under its hash. -/
theorem getTxByHash_of_mem {chainId : String} {fs : List Finalized} {blocks : List Block}
    (hz : ¬ Collides P.blake3 (auditStrings P blocks)) (hblocks : ∀ f ∈ fs, f.block ∈ blocks)
    {f : Finalized} (hf : f ∈ fs) {tx : Transaction} (htx : tx ∈ f.block.body.transactions) :
    ∃ g ∈ fs, ∃ i, (indexed P chainId fs).getTxByHash (Hasher.txHash P tx) =
      some (indexedTx P g tx i) := by
  have hhash : Hasher.txHash P tx ∈ (insertions P fs).map (·.txHash) := by
    rw [insertions_hashes]
    exact List.mem_map_of_mem (List.mem_flatMap.mpr ⟨f, hf, htx⟩)
  obtain ⟨entry, hentry, hkey⟩ := List.mem_map.mp hhash
  obtain ⟨last, hlast⟩ : ∃ last, latest (·.txHash) (insertions P fs) entry.txHash = some last :=
    exists_latest hentry
  obtain ⟨hmem, hsame⟩ := mem_of_latest hlast
  obtain ⟨g, hg, tx', htx', i, rfl⟩ := exists_tx_of_mem_insertions hmem
  -- the record shows a transaction with this hash, which is this transaction
  have hbytes := eq_of_hash_eq hz (txJson_mem_auditStrings (hblocks g hg) htx')
    (txJson_mem_auditStrings (hblocks f hf) htx) (hsame.trans hkey)
  obtain rfl := P.txJson.toVec_injective hbytes
  exact ⟨g, hg, i, by rw [getTxByHash_indexed, ← hkey, hlast]⟩

/-- A ledger that passes the audit has its tip indexed, with the hash and the state root it has and
with all its transactions, unless the hash function was broken on the way. -/
theorem audit_sound_at_tip {P : Primitives} (hlong : ∀ tx, 64 < (P.txJson.toVec tx).length)
    (genesis : GenesisConfig) (store : Store) (ops : List LedgerOp) (chainId : String)
    (fs : List Finalized) (hchain : ∀ f ∈ fs, ChainLedger.OfChain P f.block)
    (hok : verifyConsistency P (indexed P chainId fs) (ChainLedger.reached P genesis store ops) =
      .ok ()) :
    let s := indexed P chainId fs
    let ledger := ChainLedger.reached P genesis store ops
    (∃ b, s.getBlockByHeight ledger.height = some b ∧
      b.hash = Hasher.blockHash P ledger.latestHeader ∧
        b.stateRoot = ledger.latestHeader.stateRoot) ∧
    ((∀ tx ∈ ledger.latestBlock.body.transactions,
        ∃ f ∈ fs, ∃ i, s.getTxByHash (Hasher.txHash P tx) = some (indexedTx P f tx i)) ∨
      Broken P.blake3 Hash32.zero (auditStrings P (ledger.latestBlock :: fs.map (·.block)))) := by
  intro s ledger
  obtain ⟨b, hshown, hhash, hstate⟩ := verifyConsistency_ok.mp hok
  refine ⟨⟨b, hshown, hhash, hstate⟩, ?_⟩
  by_cases hbroken :
    Broken P.blake3 Hash32.zero (auditStrings P (ledger.latestBlock :: fs.map (·.block)))
  · exact Or.inr hbroken
  refine Or.inl (fun tx htx => ?_)
  have hcollides := (not_or.mp hbroken).1
  rw [getBlockByHeight_indexed] at hshown
  obtain ⟨f, hf, rfl⟩ := List.mem_map.mp (mem_of_latest hshown).1
  have htip : ledger.latestBlock ∈ ledger.latestBlock :: fs.map (·.block) := List.mem_cons_self
  have hblocks : ∀ g ∈ fs, g.block ∈ ledger.latestBlock :: fs.map (·.block) :=
    fun g hg => List.mem_cons_of_mem _ (List.mem_map_of_mem hg)
  have hheader : f.block.header = ledger.latestBlock.header :=
    header_eq_of_blockHash hcollides (hblocks f hf) htip hhash
  have hcommits : ChainLedger.Commits P ledger.latestBlock :=
    ChainLedger.commits_of_reached genesis store ops _ ledger.latestBlock_mem
  have hroot := (hchain f hf).commits.trans
    ((congrArg BlockHeader.txsRoot hheader).trans hcommits.symm)
  have hsame := ChainLedger.txs_of_merkleRoot_eq hlong hbroken (txsStrings_subset (hblocks f hf))
    (txsStrings_subset htip) hroot
  exact getTxByHash_of_mem hcollides hblocks hf ((hsame.2 tx).mpr htx)

section Scenario
open ChainLedger Devnet

/-- A transfer is submitted and mined. -/
def transferOps : List LedgerOp := [.call (.submit (transferTx 0)), .call (.mine (addressOf 9))]

/-- The tip of the development chain, which is all that is indexed. -/
def tipOnly (P : Primitives) : List Finalized :=
  [⟨(reached P (devGenesis []) Store.empty transferOps).latestBlock, []⟩]

theorem tipOnly_mem (P : Primitives) :
    ∀ f ∈ tipOnly P, f.block ∈ (reached P (devGenesis []) Store.empty transferOps).blocks := by
  simp only [tipOnly, List.mem_singleton, forall_eq]
  exact latestBlock_mem _

theorem audit_sound_at_tip_devnet :
    let ledger := reached longPrimitives (devGenesis []) Store.empty transferOps
    let s := indexed longPrimitives "sprax-devnet-1" (tipOnly longPrimitives)
    ((∃ b, s.getBlockByHeight ledger.height = some b ∧
      b.hash = Hasher.blockHash longPrimitives ledger.latestHeader ∧
      b.stateRoot = ledger.latestHeader.stateRoot) ∧
    ((∀ tx ∈ ledger.latestBlock.body.transactions,
        ∃ f ∈ tipOnly longPrimitives, ∃ i, s.getTxByHash (Hasher.txHash longPrimitives tx) =
          some (indexedTx longPrimitives f tx i)) ∨
      Broken longPrimitives.blake3 Hash32.zero
        (auditStrings longPrimitives
          (ledger.latestBlock :: (tipOnly longPrimitives).map (·.block))))) ∧
    ledger.latestBlock.body.transactions ≠ [] := by
  have hok : verifyConsistency longPrimitives
      (indexed longPrimitives "sprax-devnet-1" (tipOnly longPrimitives))
      (reached longPrimitives (devGenesis []) Store.empty transferOps) = .ok () := by decide +kernel
  have hchain : ∀ f ∈ tipOnly longPrimitives, OfChain longPrimitives f.block :=
    fun f hf => ⟨devGenesis [], Store.empty, transferOps, tipOnly_mem longPrimitives f hf⟩
  exact ⟨audit_sound_at_tip longPrimitives_length (devGenesis []) Store.empty transferOps
    "sprax-devnet-1" (tipOnly longPrimitives) hchain hok, by decide +kernel⟩

/-- The audit passes on an index that has never seen the genesis block. -/
theorem audit_passes_without_genesis :
    let ledger := reached primitives (devGenesis []) Store.empty transferOps
    let s := indexed primitives "sprax-devnet-1" (tipOnly primitives)
    (∀ f ∈ tipOnly primitives, f.block ∈ ledger.blocks) ∧
    verifyConsistency primitives s ledger = .ok () ∧ 0 ≤ ledger.height ∧
    (ledger.getBlockByHeight 0).isSome ∧ s.getBlockByHeight 0 = none := by
  intro ledger s
  exact ⟨tipOnly_mem primitives, by decide +kernel, by decide +kernel, by decide +kernel,
    by decide +kernel⟩

end Scenario

end IndexerEngine
end Sprax
