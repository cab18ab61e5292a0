import Sprax.IndexStore
import Sprax.Devnet

/-!
# Timelines of the explorer

The listings of the index, read page by page. A page is a window of a list of hashes
with the hashes resolved in the transaction table; since every listed hash is in the
table, no window loses an item and the walk returns the whole list. The timeline of an
address holds the transactions it was filed under, and a transaction is filed under
its sender and the recipient of its first message only.
-/
namespace Sprax
open Std Filing Paging

namespace IndexStore

variable {s : IndexStore} {hashes : List Hash32} {txs : List IndexedTx} {limit fuel : ℕ}

/-- Every hash leads to a record with that hash. -/
def Resolves (s : IndexStore) (hashes : List Hash32) : Prop :=
  ∀ hash ∈ hashes, ∃ tx, s.getTxByHash hash = some tx ∧ tx.txHash = hash

theorem Resolves.exists_records (h : s.Resolves hashes) :
    ∃ txs : List IndexedTx, hashes.map s.getTxByHash = txs.map some ∧ txs.map (·.txHash) =
      hashes := by
  induction hashes with
  | nil => exact ⟨[], rfl, rfl⟩
  | cons hash hashes ih =>
    obtain ⟨⟨tx, hget, hhash⟩, hrest⟩ := List.forall_mem_cons.mp h
    obtain ⟨txs, hrecords, hhashes⟩ := ih hrest
    exact ⟨tx :: txs, by simp [hget, hrecords], by simp [hhash, hhashes]⟩

/-- Where every hash resolves, the windows of the hashes are windows of the records. -/
theorem listed_serves (h : hashes.reverse.map s.getTxByHash = txs.map some) (limit : ℕ) :
    Serves (fun offset => (s.listed hashes limit offset).page) limit txs where
  items offset := by
    have hwindow : ((hashes.reverse.drop offset).take limit).map s.getTxByHash =
        ((txs.drop offset).take limit).map some := by
      rw [List.map_take, List.map_drop, h, List.map_take, List.map_drop]
    calc ((hashes.reverse.drop offset).take limit).filterMap s.getTxByHash
        = (((hashes.reverse.drop offset).take limit).map s.getTxByHash).filterMap id := by
          simp [List.filterMap_map]
      _ = (txs.drop offset).take limit := by
          rw [hwindow, List.filterMap_map, Function.id_comp, List.filterMap_some]
  hasMore offset := by
    have hlength : hashes.length = txs.length := by simpa using congrArg List.length h
    simp [listed, paginated, PaginatedResponse.page, hlength]

theorem walk_listed (h : s.Resolves hashes) (hlimit : 0 < limit) (hfuel : hashes.length < fuel) :
    (walk (fun offset => (s.listed hashes limit offset).page) fuel 0).map (List.map (·.txHash)) =
      some hashes.reverse := by
  have hreverse : s.Resolves hashes.reverse := fun hash hmem => h hash (List.mem_reverse.mp hmem)
  obtain ⟨txs, hrecords, hhashes⟩ := hreverse.exists_records
  have hlength : txs.length = hashes.length := by
    simpa using congrArg List.length hhashes
  rw [(listed_serves hrecords limit).walk_eq hlimit (by omega), Option.map_some, hhashes]

theorem getBlocksPaginated_serves (s : IndexStore) (limit : ℕ) :
    Serves (fun offset => (s.getBlocksPaginated limit offset).page) limit
      (s.blocksByHeight.toList.map (·.2)).reverse where
  items offset := rfl
  hasMore offset := by
    simp [getBlocksPaginated, paginated, PaginatedResponse.page, ExtTreeMap.length_toList]

end IndexStore

namespace IndexerEngine

variable {P : Primitives} {chainId : String} {fs : List Finalized}

/-- Every hash of an inserted transaction is in the transaction table. -/
theorem resolves_indexed {txs : List IndexedTx} (h : txs ⊆ insertions P fs) :
    (indexed P chainId fs).Resolves (txs.map (·.txHash)) := by
  intro hash hmem
  obtain ⟨tx, htx, rfl⟩ := List.mem_map.mp hmem
  obtain ⟨last, hlast⟩ : ∃ last, latest (·.txHash) (insertions P fs) tx.txHash = some last :=
    exists_latest (h htx)
  exact ⟨last, by simpa using hlast, (mem_of_latest hlast).2⟩

theorem walk_getTxsPaginated (chainId : String) {limit fuel : ℕ} (hlimit : 0 < limit)
    (hfuel : (insertions P fs).length < fuel) :
    (walk (fun offset => ((indexed P chainId fs).getTxsPaginated limit offset).page) fuel 0).map
      (List.map (·.txHash)) = some ((insertions P fs).map (·.txHash)).reverse := by
  unfold IndexStore.getTxsPaginated
  rw [txChronological_indexed]
  exact IndexStore.walk_listed (resolves_indexed (List.Subset.refl _)) hlimit (by simpa using hfuel)

/-- The transactions that were filed under an address. -/
def filedUnder (P : Primitives) (fs : List Finalized) (address : Address) : List IndexedTx :=
  (insertions P fs).filter (fun tx => address ∈ tx.parties)

theorem walk_getAddressTxsPaginated (chainId : String) (address : Address) {limit fuel : ℕ}
    (hlimit : 0 < limit) (hfuel : (filedUnder P fs address).length < fuel) :
    (walk (fun offset => ((indexed P chainId fs).getAddressTxsPaginated address limit offset).page)
      fuel 0).map (List.map (·.txHash)) =
        some ((filedUnder P fs address).map (·.txHash)).reverse := by
  unfold IndexStore.getAddressTxsPaginated
  rw [txHashesByAddress_indexed]
  exact IndexStore.walk_listed (resolves_indexed (List.filter_subset_self _)) hlimit
    (by simpa [filedUnder] using hfuel)

/-- A block stands under its own height. -/
theorem height_of_indexed {height : ℕ} {block : IndexedBlock}
    (h : (indexed P chainId fs).getBlockByHeight height = some block) : block.height = height := by
  rw [getBlockByHeight_indexed] at h
  exact (mem_of_latest h).2

/-- The blocks in the order of the explorer: from the top down, and at every height the block
that was indexed there last. -/
theorem blocks_descending (P : Primitives) (chainId : String) (fs : List Finalized) :
    let blocks := ((indexed P chainId fs).blocksByHeight.toList.map (·.2)).reverse
    blocks.Pairwise (fun b c => c.height < b.height) ∧
      ∀ b, b ∈ blocks ↔ latest (·.height) (fs.map (indexedBlock P)) b.height = some b := by
  intro blocks
  have hstored : ∀ e ∈ (indexed P chainId fs).blocksByHeight.toList,
      (indexed P chainId fs).getBlockByHeight e.1 = some e.2 :=
    fun e he => ExtTreeMap.mem_toList_iff_getElem?_eq_some.mp he
  constructor
  · rw [List.pairwise_reverse, List.pairwise_map]
    have hordered : (indexed P chainId fs).blocksByHeight.toList.Pairwise
        (fun a b => compare a.1 b.1 = .lt) := ExtTreeMap.ordered_keys_toList
    refine hordered.imp_of_mem (fun {a b} ha hb hlt => ?_)
    rw [height_of_indexed (hstored a ha), height_of_indexed (hstored b hb)]
    exact compare_lt_iff_lt.mp hlt
  · intro b
    rw [← getBlockByHeight_indexed chainId]
    simp only [blocks, List.mem_reverse, List.mem_map]
    constructor
    · rintro ⟨e, he, rfl⟩
      rw [height_of_indexed (hstored e he)]
      exact hstored e he
    · intro h
      exact ⟨(b.height, b), ExtTreeMap.mem_toList_iff_getElem?_eq_some.mpr h, rfl⟩

/-- Walking a listing page by page returns every transaction that was inserted, last first. The
pages of blocks go from the top down and hold, of the blocks indexed at one height, the last. -/
theorem pages_enumerate (P : Primitives) (chainId : String) (fs : List Finalized) (limit : ℕ)
    (hlimit : 1 ≤ limit) :
    let s := indexed P chainId fs
    (∀ fuel, (insertions P fs).length < fuel →
      (walk (fun offset => (s.getTxsPaginated limit offset).page) fuel 0).map
        (List.map (·.txHash)) = some ((insertions P fs).map (·.txHash)).reverse) ∧
    (∀ address fuel, (filedUnder P fs address).length < fuel →
      (walk (fun offset => (s.getAddressTxsPaginated address limit offset).page) fuel 0).map
        (List.map (·.txHash)) = some ((filedUnder P fs address).map (·.txHash)).reverse) ∧
    ∀ fuel, s.blocksByHeight.size < fuel →
      ∃ blocks, walk (fun offset => (s.getBlocksPaginated limit offset).page) fuel 0 = some blocks ∧
        blocks.Pairwise (fun b c => c.height < b.height) ∧
        ∀ b, b ∈ blocks ↔ latest (·.height) (fs.map (indexedBlock P)) b.height = some b := by
  refine ⟨fun fuel => walk_getTxsPaginated chainId hlimit,
    fun address fuel => walk_getAddressTxsPaginated chainId address hlimit, fun fuel hfuel => ?_⟩
  refine ⟨_, (IndexStore.getBlocksPaginated_serves _ limit).walk_eq hlimit ?_,
    blocks_descending P chainId fs⟩
  simpa [ExtTreeMap.length_toList] using hfuel

section Scenario
open Devnet

/-- The genesis block of the development chain. -/
def genesisOnly : Finalized := ⟨ledger.latestBlock, []⟩

/-- The first block with a transfer, and an empty block of another proposer at its height. -/
def firstBlock : Finalized := ⟨transferBlock, []⟩

def rivalBlock : Finalized := ⟨(ledger.mineBlock primitives (addressOf 8)).2, []⟩

/-- Two blocks, the second one indexed twice, read one item a page. -/
theorem pages_enumerate_devnet :
    let fs : List Finalized := [genesisOnly, firstBlock, firstBlock]
    let s := indexed primitives "sprax-devnet-1" fs
    1 ≤ 1 ∧ (insertions primitives fs).length < 3 ∧ s.blocksByHeight.size < 3 ∧
      (walk (fun offset => (s.getTxsPaginated 1 offset).page) 3 0).map (List.map (·.txHash)) =
        some ((insertions primitives fs).map (·.txHash)).reverse ∧
      ∃ blocks, walk (fun offset => (s.getBlocksPaginated 1 offset).page) 3 0 = some blocks ∧
        indexedBlock primitives firstBlock ∈ blocks ∧ indexedBlock primitives genesisOnly ∈
          blocks := by
  intro fs s
  have htxs : (insertions primitives fs).length < 3 := by decide +kernel
  have hsize : s.blocksByHeight.size < 3 := by decide +kernel
  obtain ⟨hlist, -, hblocks⟩ := pages_enumerate primitives "sprax-devnet-1" fs 1 le_rfl
  obtain ⟨blocks, hwalk, -, hmem⟩ := hblocks 3 hsize
  refine ⟨le_rfl, htxs, hsize, hlist 3 htxs, blocks, hwalk, (hmem _).mpr ?_, (hmem _).mpr ?_⟩
  · decide +kernel
  · decide +kernel

/-- A block whose height was indexed again with a rival is on no page. -/
theorem replaced_block_unlisted :
    walk (fun offset =>
      ((indexed primitives "sprax-devnet-1" [firstBlock, rivalBlock]).getBlocksPaginated 1
        offset).page) 3 0 = some [indexedBlock primitives rivalBlock] ∧
    indexedBlock primitives firstBlock ≠ indexedBlock primitives rivalBlock := by
  decide +kernel

end Scenario

end IndexerEngine

/-- The message is a transfer to the address. -/
def TxMessage.paysTo (address : Address) : TxMessage → Bool
  | .transfer recipient _ => recipient = address
  | _ => false

/-- The address sends the transaction or receives a transfer from it. -/
def Transaction.Concerns (address : Address) (tx : Transaction) : Prop :=
  tx.body.sender = address ∨ ∃ m ∈ tx.body.messages, m.paysTo address = true

/-- The address sends the transaction or receives a transfer from its first message. -/
def Transaction.HeadConcerns (address : Address) (tx : Transaction) : Prop :=
  tx.body.sender = address ∨ ∃ m ∈ tx.body.messages.head?, m.paysTo address = true

instance Transaction.decidableConcerns (address : Address) (tx : Transaction) :
    Decidable (tx.Concerns address) :=
  inferInstanceAs (Decidable (_ ∨ _))

instance Transaction.decidableHeadConcerns (address : Address) (tx : Transaction) :
    Decidable (tx.HeadConcerns address) :=
  inferInstanceAs (Decidable (_ ∨ _))

theorem Transaction.HeadConcerns.concerns {address : Address} {tx : Transaction}
    (h : tx.HeadConcerns address) : tx.Concerns address :=
  h.imp_right (fun ⟨m, hm, hpays⟩ => ⟨m, List.mem_of_mem_head? hm, hpays⟩)

namespace IndexerEngine

variable {P : Primitives} {chainId : String} {fs : List Finalized}

theorem mem_parties_indexedTx (f : Finalized) (tx : Transaction) (i : ℕ) (address : Address) :
    address ∈ (indexedTx P f tx i).parties ↔ tx.HeadConcerns address := by
  have hrecipient : (normalized tx).2.1 = some address ↔
      ∃ m ∈ tx.body.messages.head?, m.paysTo address = true := by
    cases hhead : tx.body.messages.head? with
    | none => simp [normalized, hhead]
    | some m => cases m <;> simp [normalized, hhead, TxMessage.paysTo]
  rw [IndexedTx.mem_parties]
  exact or_congr Iff.rfl hrecipient

/-- The transactions of the blocks, in their order. -/
def transactions (fs : List Finalized) : List Transaction := fs.flatMap (·.block.body.transactions)

/-- A block's transactions that are filed under an address. -/
theorem indexedTxs_filter (f : Finalized) (address : Address) :
    ((indexedTxs P f).filter (fun tx => address ∈ tx.parties)).map (·.txHash) =
      (f.block.body.transactions.filter (fun tx => tx.HeadConcerns address)).map
      (Hasher.txHash P) := by
  have htxs : f.block.body.transactions = f.block.body.transactions.zipIdx.map (·.1) := by simp
  conv_rhs => rw [htxs]
  rw [indexedTxs, List.filter_map, List.filter_map, List.map_map, List.map_map]
  congr 1
  refine List.filter_congr (fun e _ => ?_)
  simp only [Function.comp_apply, mem_parties_indexedTx]

theorem filedUnder_hashes (fs : List Finalized) (address : Address) :
    (filedUnder P fs address).map (·.txHash) =
      ((transactions fs).filter (fun tx => tx.HeadConcerns address)).map (Hasher.txHash P) := by
  simp only [filedUnder, insertions, transactions, List.filter_flatMap, List.map_flatMap,
    indexedTxs_filter]

theorem walk_timeline (chainId : String) (address : Address) {limit fuel : ℕ} (hlimit : 0 < limit)
    (hfuel : (transactions fs).length < fuel) :
    (walk (fun offset => ((indexed P chainId fs).getAddressTxsPaginated address limit offset).page)
      fuel 0).map (List.map (·.txHash)) =
      some (((transactions fs).filter (fun tx => tx.HeadConcerns address)).map
        (Hasher.txHash P)).reverse := by
  have hlength : (filedUnder P fs address).length ≤ (transactions fs).length := by
    have h := congrArg List.length (filedUnder_hashes (P := P) fs address)
    rw [List.length_map, List.length_map] at h
    rw [h]
    exact List.length_filter_le _ _
  rw [walk_getAddressTxsPaginated chainId address hlimit (hlength.trans_lt hfuel),
    filedUnder_hashes]

/-- The timeline of an address shows its transactions, each once, exactly if the address sends or
is paid by the first message of every transaction that concerns it. -/
theorem timeline_complete_iff (P : Primitives) (chainId : String) (fs : List Finalized)
    (address : Address) (limit fuel : ℕ) (hlimit : 1 ≤ limit)
    (hfuel : (transactions fs).length < fuel) :
    (∃ served, walk (fun offset =>
        ((indexed P chainId fs).getAddressTxsPaginated address limit offset).page) fuel 0 =
          some served ∧
      (served.map (·.txHash)).Perm
        (((transactions fs).filter (fun tx => tx.Concerns address)).map (Hasher.txHash P))) ↔
      ∀ tx ∈ transactions fs, tx.Concerns address → tx.HeadConcerns address := by
  obtain ⟨served, hserved, hhashes⟩ :=
    Option.map_eq_some_iff.mp (walk_timeline (P := P) chainId address hlimit hfuel)
  -- what is served is a part of what concerns the address
  have hpart : (transactions fs).filter (fun tx => tx.HeadConcerns address) =
      ((transactions fs).filter (fun tx => tx.Concerns address)).filter
        (fun tx => tx.HeadConcerns address) := by
    rw [List.filter_filter]
    refine List.filter_congr (fun tx _ => ?_)
    by_cases hhead : tx.HeadConcerns address
    · simp [hhead, hhead.concerns]
    · simp [hhead]
  constructor
  · rintro ⟨served', hserved', hperm⟩ tx htx hconcerns
    obtain rfl := Option.some.inj (hserved.symm.trans hserved')
    have hlength := hperm.length_eq
    rw [hhashes, List.length_reverse, List.length_map, List.length_map, hpart,
      List.length_filter_eq_length_iff] at hlength
    simpa using hlength tx (List.mem_filter.mpr ⟨htx, by simpa using hconcerns⟩)
  · intro h
    refine ⟨served, hserved, ?_⟩
    rw [hhashes]
    refine (List.reverse_perm _).trans (List.Perm.of_eq (congrArg _ (List.filter_congr ?_)))
    intro tx htx
    exact decide_eq_decide.mpr ⟨fun hhead => hhead.concerns, h tx htx⟩

section Scenario
open Devnet

/-- One transaction of keypair 1 that pays keypair 2 and then keypair 3. -/
def splitTx : Transaction :=
  signedTx { (transferTx 0).body with
    messages := [.transfer (addressOf 2) (units 10), .transfer (addressOf 3) (units 5)] }

/-- The development chain with that transaction in its first block. -/
def splitLedger : ChainLedger :=
  ((ledger.submitTransaction primitives splitTx).1.mineBlock primitives (addressOf 9)).1

/-- Both blocks of the chain, indexed in height order. -/
def splitChain : List Finalized := splitLedger.blocks.map (fun block => ⟨block, []⟩)

theorem timeline_complete_iff_first_payee :
    1 ≤ 10 ∧ (transactions splitChain).length < 2 ∧
      ∃ served, walk (fun offset =>
          ((indexed primitives "sprax-devnet-1" splitChain).getAddressTxsPaginated (addressOf 2) 10
            offset).page) 2 0 = some served ∧
        (served.map (·.txHash)).Perm
          (((transactions splitChain).filter (fun tx => tx.Concerns (addressOf 2))).map
            (Hasher.txHash primitives)) := by
  have hfuel : (transactions splitChain).length < 2 := by decide +kernel
  exact ⟨by decide, hfuel,
    (timeline_complete_iff primitives "sprax-devnet-1" splitChain (addressOf 2) 10 2 (by decide)
      hfuel).mpr (by decide +kernel)⟩

/-- Keypair 3 is paid by the transaction, and its timeline stays empty. -/
theorem second_payee_not_served :
    transactions splitChain = [splitTx] ∧ splitTx.Concerns (addressOf 3) ∧
    (StateAccessor.getAccount primitives splitLedger.store (addressOf 3)).toOption.map (·.balance) =
      some (units 5) ∧
    (walk (fun offset =>
      ((indexed primitives "sprax-devnet-1" splitChain).getAddressTxsPaginated (addressOf 3) 10
        offset).page) 2 0) = some [] := by
  decide +kernel

end Scenario

end IndexerEngine
end Sprax
