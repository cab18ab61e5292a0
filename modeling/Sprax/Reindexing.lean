import Sprax.Timelines

/-!
# Indexing a block again

A restarted indexer replays blocks, and a competing block can arrive at a height that
is already indexed. The block tables are overwritten, the transaction lists are only
appended to, and the height of a replaced block stays under its hash. Each of the three
properties one would expect holds for exactly the histories described here.
-/
namespace Sprax.IndexerEngine
open Std Filing

variable {P : Primitives} {chainId : String} {fs : List Finalized}

theorem getBlockByHash_indexed (hash : Hash32) :
    (indexed P chainId fs).getBlockByHash hash =
      (latest (·.hash) (fs.map (indexedBlock P)) hash).bind
        (fun b => latest (·.height) (fs.map (indexedBlock P)) b.height) := by
  rw [IndexStore.getBlockByHash, blockHeightByHash_indexed, Option.bind_map]
  exact congrArg _ (funext (fun b => getBlockByHeight_indexed chainId fs b.height))

/-- No block is replaced at its height for good: behind the last record with its hash there is
none at its height. -/
def Unreplaced (blocks : List IndexedBlock) : Prop :=
  ∀ before b after, blocks = before ++ b :: after → (∀ c ∈ after, c.hash ≠ b.hash) →
    ∀ c ∈ after, c.height ≠ b.height

theorem getBlockByHash_hash_iff :
    (∀ hash b, (indexed P chainId fs).getBlockByHash hash = some b → b.hash = hash) ↔
      Unreplaced (fs.map (indexedBlock P)) := by
  simp only [getBlockByHash_indexed, Option.bind_eq_some_iff]
  constructor
  · intro h before b after hblocks hlast c hc hheight
    have hhash : latest (·.hash) (fs.map (indexedBlock P)) b.hash = some b :=
      latest_eq_some_iff.mpr ⟨before, after, hblocks, rfl, hlast⟩
    -- the height shows a block behind `b`, which has another hash
    obtain ⟨d, hd⟩ : ∃ d, latest (·.height) after b.height = some d := hheight ▸ exists_latest hc
    have hshown : latest (·.height) (fs.map (indexedBlock P)) b.height = some d := by
      rw [hblocks, List.append_cons, latest_append, hd, Option.some_or]
    exact hlast d (mem_of_latest hd).1 (h b.hash d ⟨b, hhash, hshown⟩)
  · rintro h hash d ⟨b, hhash, hshown⟩
    obtain ⟨before, after, hblocks, rfl, hlast⟩ := latest_eq_some_iff.mp hhash
    have hself : latest (·.height) (fs.map (indexedBlock P)) b.height = some b :=
      latest_eq_some_iff.mpr ⟨before, after, hblocks, rfl, h before b after hblocks hlast⟩
    rw [Option.some.inj (hshown.symm.trans hself)]

theorem insertions_hashes (fs : List Finalized) :
    (insertions P fs).map (·.txHash) = (transactions fs).map (Hasher.txHash P) := by
  simp only [insertions, transactions, List.map_flatMap]
  congr
  funext f
  rw [indexedTxs, List.map_map, ← List.zipIdx_map_fst 0 f.block.body.transactions, List.map_map]
  simp [Function.comp_def, indexedTx]

/-- The lists of a height and of an address are parts of the chronological one. -/
theorem lists_nodup_iff :
    ((indexed P chainId fs).txChronological.Nodup ∧
      (∀ height, (entries (indexed P chainId fs).txHashesByHeight height).Nodup) ∧
      ∀ address, (entries (indexed P chainId fs).txHashesByAddress address).Nodup) ↔
      ((transactions fs).map (Hasher.txHash P)).Nodup := by
  rw [← insertions_hashes, txChronological_indexed]
  refine ⟨fun h => h.1, fun h => ⟨h, fun height => ?_, fun address => ?_⟩⟩
  · rw [txHashesByHeight_indexed]
    exact h.sublist (List.filter_sublist.map _)
  · rw [txHashesByAddress_indexed]
    exact h.sublist (List.filter_sublist.map _)

/-- The block brings no transaction, and the tables show it as it is. -/
def Settled (P : Primitives) (blocks : List IndexedBlock) (f : Finalized) : Prop :=
  f.block.body.transactions = [] ∧
    latest (·.height) blocks (indexedBlock P f).height = some (indexedBlock P f) ∧
    (latest (·.hash) blocks (indexedBlock P f).hash).map (·.height) = some (indexedBlock P f).height

theorem indexBlock_eq_self_iff (f : Finalized) :
    indexBlock P (indexed P chainId fs) f = indexed P chainId fs ↔
      Settled P (fs.map (indexedBlock P)) f := by
  have hheight := getBlockByHeight_indexed (P := P) chainId fs (indexedBlock P f).height
  have hhash := blockHeightByHash_indexed (P := P) chainId fs (indexedBlock P f).hash
  rw [Settled, ← hheight, ← hhash, ← insert_eq_self_iff, IndexStore.getBlockByHeight,
    ← insert_eq_self_iff]
  clear hheight hhash
  generalize indexed P chainId fs = s
  constructor
  · intro h
    have htxs : indexedTxs P f = [] := by
      have := congrArg (fun s => s.txChronological) h
      simpa [indexBlock_eq, IndexStore.filed] using this
    refine ⟨by simpa [indexedTxs] using htxs, ?_, ?_⟩
    · simpa [indexBlock_eq, IndexStore.filed, overwrite] using congrArg IndexStore.blocksByHeight h
    · simpa [indexBlock_eq, IndexStore.filed, overwrite] using
        congrArg IndexStore.blockHeightByHash h
  · rintro ⟨htxs, hblocks, hheights⟩
    have hnil : indexedTxs P f = [] := by simp [indexedTxs, htxs]
    simp [indexBlock_eq, IndexStore.filed, overwrite, hnil, hblocks, hheights]

/-- What re-indexing leaves coherent: a hash leads to its block as long as no block is replaced, the
lists are free of repetitions as long as no transaction is indexed twice, and a block can be indexed
again without effect only if it has no transactions and still stands in the tables. -/
theorem coherent_iff (P : Primitives) (chainId : String) (fs : List Finalized) :
    let s := indexed P chainId fs
    ((∀ hash b, s.getBlockByHash hash = some b → b.hash = hash) ↔
      Unreplaced (fs.map (indexedBlock P))) ∧
    ((s.txChronological.Nodup ∧ (∀ height, (entries s.txHashesByHeight height).Nodup) ∧
      ∀ address, (entries s.txHashesByAddress address).Nodup) ↔
        ((transactions fs).map (Hasher.txHash P)).Nodup) ∧
    ∀ f, indexBlock P s f = s ↔ Settled P (fs.map (indexedBlock P)) f :=
  ⟨getBlockByHash_hash_iff, lists_nodup_iff, indexBlock_eq_self_iff⟩

section Scenario
open Devnet

/-- Two blocks of the development chain: the hashes lead to their blocks, no transaction is listed
twice, and indexing the empty block again changes nothing, but the other one again does. -/
theorem coherent_iff_devnet :
    let s := indexed primitives "sprax-devnet-1" [genesisOnly, firstBlock]
    (∀ hash b, s.getBlockByHash hash = some b → b.hash = hash) ∧ s.txChronological.Nodup ∧
      indexBlock primitives s genesisOnly = s ∧ indexBlock primitives s firstBlock ≠ s := by
  intro s
  obtain ⟨hhash, hlists, hagain⟩ :=
    coherent_iff primitives "sprax-devnet-1" [genesisOnly, firstBlock]
  have hheights : (indexedBlock primitives firstBlock).height ≠
      (indexedBlock primitives genesisOnly).height := by decide +kernel
  refine ⟨hhash.mpr ?_, (hlists.mpr (by decide +kernel)).1, (hagain genesisOnly).mpr ?_,
    mt (hagain firstBlock).mp ?_⟩
  · intro before b after hblocks _ c hc
    cases before with
    | nil =>
      obtain ⟨rfl, rfl⟩ := List.cons.inj hblocks
      cases List.mem_singleton.mp hc
      exact hheights
    | cons x before =>
      cases before with
      | nil =>
        obtain ⟨-, hrest⟩ := List.cons.inj (List.cons.inj hblocks).2
        rw [← hrest] at hc
        cases hc
      | cons y before => simp at hblocks
  · unfold Settled
    decide +kernel
  · unfold Settled
    decide +kernel

/-- A rival block takes the place of the first one, whose hash then leads to the rival; a block
that is indexed again is listed twice. -/
theorem reindexed_incoherent :
    (∃ b, (indexed primitives "sprax-devnet-1" [firstBlock, rivalBlock]).getBlockByHash
        (Hasher.blockHash primitives transferBlock.header) = some b ∧
      b.hash ≠ Hasher.blockHash primitives transferBlock.header) ∧
    ¬ (indexed primitives "sprax-devnet-1" [firstBlock, firstBlock]).txChronological.Nodup ∧
    indexBlock primitives (indexed primitives "sprax-devnet-1" [firstBlock]) firstBlock ≠
      indexed primitives "sprax-devnet-1" [firstBlock] := by
  refine ⟨⟨indexedBlock primitives rivalBlock, ?_⟩, ?_, fun h => ?_⟩
  · decide +kernel
  · decide +kernel
  · have hlists := congrArg IndexStore.txChronological h
    revert hlists
    decide +kernel

end Scenario

end Sprax.IndexerEngine
