import Sprax.Linked
import Sprax.Tables

/-!
# Reopening a persisted ledger

A store holds a list of blocks if its height, its blocks and the index entries of
their transactions can all be read back. `rebuild_from_store` turns such a store
into a ledger with exactly those blocks, the hash index of their headers and the
stored index entries. Every operation keeps the store holding the blocks of the
live ledger; operations that succeed also keep the two transaction indexes equal,
so that reopening loses nothing.
-/
namespace Sprax
open Std FiniteMap StateAccessor Relation

variable (P : Primitives)

/-- The hashes of all transactions of a list of blocks. -/
def txHashes (blocks : List Block) : List Hash32 :=
  blocks.flatMap (fun b => b.body.transactions.map (Hasher.txHash P))

variable {P} in
theorem txHashes_snoc (blocks : List Block) (b : Block) :
    txHashes P (blocks ++ [b]) = txHashes P blocks ++ b.body.transactions.map
      (Hasher.txHash P) := by
  simp [txHashes]

namespace Store

/-- The index entry that a reader of the store finds. -/
def storedEntry (s : Store) (hash : Hash32) : Option (Transaction × TxReceipt × ℕ) :=
  (s.getTxIndex hash).bind (fun bytes => (P.txEntryJson.fromSlice bytes).toOption)

/-- The store can be read back as a ledger with these blocks. -/
structure Holds (s : Store) (blocks : List Block) : Prop where
  height_eq : s.getHeight = some (blocks.length - 1)
  block_eq : ∀ (i : ℕ) (b : Block), blocks[i]? = some b → s.getBlock i = some (P.blockJson.toVec b)
  indexed : ∀ hash ∈ txHashes P blocks, ∃ entry, s.getTxIndex hash =
    some (P.txEntryJson.toVec entry)

variable {P}

theorem storedEntry_of_some {s : Store} {hash : Hash32} {entry : Transaction × TxReceipt × ℕ}
    (h : s.getTxIndex hash = some (P.txEntryJson.toVec entry)) :
      s.storedEntry P hash = some entry := by
  simp [storedEntry, h, P.txEntryJson.fromSlice_toVec, Except.toOption]

end Store

namespace ChainLedger
variable {P}

/-- Reading index entries overwrites the named hashes by what the store has. -/
theorem rebuildTxIndex_spec {s : Store} {txs : List Transaction}
    (hstored : ∀ tx ∈ txs, ∃ entry, s.getTxIndex (Hasher.txHash P tx) =
      some (P.txEntryJson.toVec entry))
    (index : ExtTreeMap Hash32 (Transaction × TxReceipt × ℕ) compare) :
    ∃ index', rebuildTxIndex P s index txs = .ok index' ∧
      ∀ hash : Hash32, index'[hash]? =
        if hash ∈ txs.map (Hasher.txHash P) then s.storedEntry P hash else index[hash]? := by
  induction txs generalizing index with
  | nil => exact ⟨index, rfl, by simp⟩
  | cons tx rest ih =>
    obtain ⟨⟨entry, hentry⟩, hrest⟩ := List.forall_mem_cons.mp hstored
    obtain ⟨index', hok, hread⟩ := ih hrest (index.insert (Hasher.txHash P tx) entry)
    refine ⟨index', ?_, fun hash => ?_⟩
    · simp only [rebuildTxIndex, hentry, P.txEntryJson.fromSlice_toVec]
      exact hok
    · rw [hread hash]
      by_cases hmem : hash ∈ rest.map (Hasher.txHash P)
      · have hall : hash ∈ (tx :: rest).map (Hasher.txHash P) := List.mem_cons_of_mem _ hmem
        rw [if_pos hmem, if_pos hall]
      · by_cases hhead : Hasher.txHash P tx = hash
        · subst hhead
          simp [hmem, Store.storedEntry_of_some hentry]
        · rw [if_neg hmem, getElem?_insert_ne _ _ hhead]
          simp [hmem, Ne.symm hhead]

/-- The caches are those of a list of blocks. -/
structure Rebuilt.Caches (P : Primitives) (s : Store) (blocks : List Block)
    (r : Rebuilt) : Prop where
  blocks_eq : r.blocks = blocks
  blockByHash_eq : r.blockByHash = hashIndex P (blocks.map Block.header)
  txIndex_eq : ∀ hash : Hash32,
    r.txIndex[hash]? = if hash ∈ txHashes P blocks then s.storedEntry P hash else none

theorem rebuildBlock_spec {s : Store} {blocks : List Block} {r : Rebuilt}
    (hr : r.Caches P s blocks) {b : Block}
    (hblock : s.getBlock blocks.length = some (P.blockJson.toVec b))
    (hstored : ∀ tx ∈ b.body.transactions, ∃ entry,
      s.getTxIndex (Hasher.txHash P tx) = some (P.txEntryJson.toVec entry)) :
    ∃ r', rebuildBlock P s r blocks.length = .ok r' ∧ r'.Caches P s (blocks ++ [b]) := by
  obtain ⟨index, hok, hread⟩ := rebuildTxIndex_spec hstored r.txIndex
  refine ⟨⟨r.blocks ++ [b], r.blockByHash.insert (Hasher.blockHash P b.header) blocks.length,
    index⟩, by simp only [rebuildBlock, hblock, P.blockJson.fromSlice_toVec, hok], ?_, ?_, ?_⟩
  · rw [hr.blocks_eq]
  · rw [List.map_append, List.map_singleton, hashIndex_snoc, hr.blockByHash_eq, List.length_map]
  · intro hash
    dsimp only
    rw [hread hash, hr.txIndex_eq hash, txHashes_snoc]
    by_cases hnew : hash ∈ b.body.transactions.map (Hasher.txHash P)
    · rw [if_pos hnew, if_pos (List.mem_append_right _ hnew)]
    · simp only [if_neg hnew, List.mem_append, or_iff_left hnew]

theorem rebuildLoop_snoc {s : Store} {r r₁ : Rebuilt} {hs : List ℕ} (h : ℕ)
    (hloop : rebuildLoop P s r hs = .ok r₁) :
    rebuildLoop P s r (hs ++ [h]) = rebuildBlock P s r₁ h := by
  induction hs generalizing r with
  | nil =>
    cases hloop
    simp only [List.nil_append, rebuildLoop]
    split <;> simp_all
  | cons k hs ih =>
    rw [rebuildLoop] at hloop
    rw [List.cons_append, rebuildLoop]
    split at hloop
    · cases hloop
    · rename_i r₂ hblock
      exact ih hloop

/-- The loader gets through the first `n` blocks that the store holds. -/
theorem rebuildLoop_holds {s : Store} {blocks : List Block} (hs : s.Holds P blocks) {n : ℕ}
    (hn : n ≤ blocks.length) :
    ∃ r, rebuildLoop P s ⟨[], ∅, ∅⟩ (List.range n) = .ok r ∧ r.Caches P s (blocks.take n) := by
  induction n with
  | zero => exact ⟨_, rfl, rfl, rfl, by simp [txHashes]⟩
  | succ n ih =>
    obtain ⟨r, hloop, hr⟩ := ih (by omega)
    have hget : blocks[n]? = some blocks[n] := List.getElem?_eq_getElem (by omega)
    have hlen : (blocks.take n).length = n := by simp; omega
    have hblock : s.getBlock (blocks.take n).length = some (P.blockJson.toVec blocks[n]) := by
      rw [hlen]
      exact hs.block_eq n _ hget
    obtain ⟨r', hr', hcaches⟩ := rebuildBlock_spec hr hblock (by
      intro tx htx
      refine hs.indexed _ (List.mem_flatMap.mpr ⟨blocks[n], List.mem_of_getElem? hget, ?_⟩)
      exact List.mem_map_of_mem htx)
    refine ⟨r', ?_, ?_⟩
    · rw [List.range_succ, rebuildLoop_snoc n hloop]
      rwa [hlen] at hr'
    · rwa [List.take_concat_get' blocks n (by omega)] at hcaches

/-- What a ledger that was opened on a store consists of. -/
structure OpenedFrom (P : Primitives) (s : Store) (blocks : List Block)
    (L : ChainLedger) : Prop where
  store_eq : L.store = s
  blocks_eq : L.blocks = blocks
  blockByHash_eq : L.blockByHash = hashIndex P (blocks.map Block.header)
  txIndex_eq : ∀ hash : Hash32,
    L.txIndex[hash]? = if hash ∈ txHashes P blocks then s.storedEntry P hash else none

/-- A store that holds blocks opens as a ledger with these blocks. -/
theorem openOrInit_holds {s : Store} {blocks : List Block} (hs : s.Holds P blocks)
    (hne : blocks ≠ []) (genesis : GenesisConfig) :
    ∃ L, openOrInit P s genesis = .ok L ∧ L.OpenedFrom P s blocks := by
  have hpos := List.length_pos_iff.mpr hne
  obtain ⟨r, hloop, hr⟩ := rebuildLoop_holds hs (n := blocks.length) le_rfl
  rw [List.take_length] at hr
  have hrange : blocks.length - 1 + 1 = blocks.length := by omega
  have hopen : ∃ L, rebuildFromStore P genesis s (blocks.length - 1) = .ok L ∧
      L.OpenedFrom P s blocks := by
    unfold rebuildFromStore
    split
    · rename_i e herr
      rw [hrange, hloop] at herr
      cases herr
    · rename_i r' hr'
      rw [hrange, hloop] at hr'
      cases hr'
      exact ⟨_, rfl, rfl, hr.blocks_eq, hr.blockByHash_eq, hr.txIndex_eq⟩
  simpa only [openOrInit, hs.height_eq] using hopen

/-- What the execution loops do to the metadata of a store: an entry for every
executed transaction, in memory and on disk, and nothing else. -/
structure Batch.Indexed (P : Primitives) (L : ChainLedger) (b : Batch) : Prop where
  height_eq : b.store.getHeight = L.store.getHeight
  block_eq : ∀ h, b.store.getBlock h = L.store.getBlock h
  entry : ∀ hash ∈ b.transactions.map (Hasher.txHash P), ∃ e,
    b.txIndex[hash]? = some e ∧ b.store.getTxIndex hash = some (P.txEntryJson.toVec e)
  other : ∀ hash : Hash32, hash ∉ b.transactions.map (Hasher.txHash P) →
    b.txIndex[hash]? = L.txIndex[hash]? ∧ b.store.getTxIndex hash = L.store.getTxIndex hash

/-- Account writes go unnoticed. -/
theorem Batch.Indexed.of_chainMeta {L : ChainLedger} {b : Batch} (h : b.Indexed P L) {s : Store}
    (hmeta : s.chainMeta = b.store.chainMeta) : { b with store := s }.Indexed P L where
  height_eq := by rw [← h.height_eq, Store.getHeight, Store.getHeight, hmeta]
  block_eq i := by rw [← h.block_eq i, Store.getBlock, Store.getBlock, hmeta]
  entry hash hmem := by
    rw [Store.getTxIndex, hmeta]
    exact h.entry hash hmem
  other hash hmem := by
    rw [Store.getTxIndex, hmeta]
    exact h.other hash hmem

/-- A recorded transaction adds its entry to both indexes. -/
theorem Batch.Indexed.record {L : ChainLedger} {b : Batch} (h : b.Indexed P L) {tx : Transaction}
    {r : TxReceipt} (hreceipt : r.txHash = Hasher.txHash P tx) (height : ℕ) :
    (b.record P b.store tx r height).Indexed P L := by
  have hlog : (b.record P b.store tx r height).transactions.map (Hasher.txHash P) =
      b.transactions.map (Hasher.txHash P) ++ [Hasher.txHash P tx] := by
    simp [Batch.record, Batch.transactions]
  refine ⟨?_, ?_, ?_, ?_⟩
  · simp only [Batch.record, persistTxIndex, Store.getHeight_putTxIndex, h.height_eq]
  · intro i
    simp only [Batch.record, persistTxIndex, Store.getBlock_putTxIndex, h.block_eq i]
  · intro hash hmem
    simp only [Batch.record, persistTxIndex, hreceipt, Store.getTxIndex_putTxIndex]
    by_cases hhash : Hasher.txHash P tx = hash
    · subst hhash
      exact ⟨(tx, r, height), by simp, by simp⟩
    · have hold : hash ∈ b.transactions.map (Hasher.txHash P) := by
        rw [hlog] at hmem
        simpa [Ne.symm hhash] using hmem
      rw [getElem?_insert_ne _ _ hhash, if_neg hhash]
      exact h.entry hash hold
  · intro hash hmem
    rw [hlog] at hmem
    simp only [List.mem_append, List.mem_singleton, not_or] at hmem
    have hne : Hasher.txHash P tx ≠ hash := Ne.symm hmem.2
    simp only [Batch.record, persistTxIndex, hreceipt, Store.getTxIndex_putTxIndex]
    rw [getElem?_insert_ne _ _ hne, if_neg hne]
    exact h.other hash hmem.1

theorem Batch.Indexed.turn {L : ChainLedger} {executor : TxExecutor} {height : ℕ} {chainId : String}
    {b b' : Batch} (h : b.Indexed P L) (hturn : Turn P executor height chainId b b') :
    b'.Indexed P L := by
  have hmeta (tx : Transaction) :=
    TxExecutor.executeTransaction_chainMeta (P := P) executor b.store tx height chainId
  cases hturn with
  | @kept tx s r hexec =>
    have hreceipt : r.txHash = Hasher.txHash P tx := by
      rw [TxExecutor.executeTransaction_receipt executor hexec]
      rfl
    specialize hmeta tx
    rw [hexec] at hmeta
    exact (h.of_chainMeta hmeta).record hreceipt height
  | @dropped tx s e hexec =>
    specialize hmeta tx
    rw [hexec] at hmeta
    exact h.of_chainMeta hmeta

theorem Works.indexed {L : ChainLedger} {b : Batch} (h : L.Works P b) : b.Indexed P L := by
  induction h with
  | refl => exact ⟨rfl, fun _ => rfl, by simp [batch, Batch.transactions], fun _ _ => ⟨rfl, rfl⟩⟩
  | tail _ hturn ih => exact ih.turn hturn

/-- Executing transactions does not disturb the blocks that a store holds. -/
theorem Batch.Indexed.holds {L : ChainLedger} {b : Batch} (h : b.Indexed P L)
    (hL : L.store.Holds P L.blocks) : b.store.Holds P L.blocks where
  height_eq := h.height_eq.trans hL.height_eq
  block_eq i block hi := (h.block_eq i).trans (hL.block_eq i block hi)
  indexed hash hmem := by
    by_cases hnew : hash ∈ b.transactions.map (Hasher.txHash P)
    · obtain ⟨e, -, he⟩ := h.entry hash hnew
      exact ⟨e, he⟩
    · rw [(h.other hash hnew).2]
      exact hL.indexed hash hmem

/-- Persisting the next block and the new height. -/
theorem holds_append {s : Store} {blocks : List Block} (hs : s.Holds P blocks)
    (hlen : blocks.length < 2 ^ 64) (block : Block) (hash : Hash32)
    (hindexed : ∀ hash ∈ block.body.transactions.map (Hasher.txHash P), ∃ entry,
      s.getTxIndex hash = some (P.txEntryJson.toVec entry)) :
    ((persistBlock P s blocks.length block hash).putHeight blocks.length).Holds P
    (blocks ++ [block]) where
  height_eq := by
    rw [Store.getHeight_putHeight, Nat.mod_eq_of_lt hlen]
    simp
  block_eq := by
    intro i b hi
    simp only [persistBlock, Store.getBlock_putHeight, Store.getBlock_putBlockHashIndex]
    rcases getElem?_snoc.mp hi with hold | ⟨rfl, rfl⟩
    · have hlt : i < blocks.length := (List.getElem?_eq_some_iff.mp hold).1
      rw [Store.getBlock_putBlock_ne _ _ hlen (by omega) (by omega)]
      exact hs.block_eq i b hold
    · rw [Store.getBlock_putBlock_self]
  indexed := by
    intro hash' hmem
    simp only [persistBlock, Store.getTxIndex_putHeight, Store.getTxIndex_putBlockHashIndex,
      Store.getTxIndex_putBlock]
    rw [txHashes_snoc] at hmem
    rcases List.mem_append.mp hmem with hold | hnew
    · exact hs.indexed hash' hold
    · exact hindexed hash' hnew

theorem txHashes_set {blocks : List Block} {i : ℕ} {b b' : Block} (hb : blocks[i]? = some b)
    (hbody : b'.body = b.body) : txHashes P (blocks.set i b') = txHashes P blocks := by
  have hmap : (blocks.set i b').map Block.body = blocks.map Block.body := by
    obtain ⟨hlt, rfl⟩ := List.getElem?_eq_some_iff.mp hb
    rw [List.map_set, hbody, ← List.getElem_map Block.body]
    · exact List.set_getElem_self _
    · simpa using hlt
  have hall (bs : List Block) : txHashes P bs =
      (bs.map Block.body).flatMap (fun body => body.transactions.map (Hasher.txHash P)) := by
    simp [txHashes, List.flatMap_map]
  rw [hall, hmap, ← hall]

/-- Persisting new commit signatures of a stored block. -/
theorem holds_set {s : Store} {blocks : List Block} (hs : s.Holds P blocks)
    (hlen : blocks.length ≤ 2 ^ 64) {i : ℕ} {b b' : Block} (hb : blocks[i]? = some b)
    (hbody : b'.body = b.body) (hash : Hash32) :
    (persistBlock P s i b' hash).Holds P (blocks.set i b') where
  height_eq := by
    simp only [persistBlock, Store.getHeight_putBlockHashIndex, Store.getHeight_putBlock,
      List.length_set]
    exact hs.height_eq
  block_eq := by
    intro j c hj
    have hi : i < blocks.length := (List.getElem?_eq_some_iff.mp hb).1
    have hjlt : j < blocks.length := by simpa using (List.getElem?_eq_some_iff.mp hj).1
    simp only [persistBlock, Store.getBlock_putBlockHashIndex]
    by_cases hij : i = j
    · subst hij
      rw [List.getElem?_set_self hi] at hj
      cases hj
      rw [Store.getBlock_putBlock_self]
    · rw [List.getElem?_set_ne hij] at hj
      rw [Store.getBlock_putBlock_ne _ _ (by omega) (by omega) hij]
      exact hs.block_eq j c hj
  indexed := by
    intro hash' hmem
    simp only [persistBlock, Store.getTxIndex_putBlockHashIndex, Store.getTxIndex_putBlock]
    rw [txHashes_set hb hbody] at hmem
    exact hs.indexed hash' hmem

/-- The store of a ledger holds its blocks. Heights are 64-bit integers; a longer
chain does not fit the block keys. -/
def Persisted (P : Primitives) (L : ChainLedger) : Prop :=
  L.height < 2 ^ 64 → L.store.Holds P L.blocks

theorem persisted_init (genesis : GenesisConfig) (store : Store) :
    (initFromGenesisWithStore P genesis store).Persisted P := by
  intro _
  refine ⟨Store.getHeight_putHeight _ 0, ?_, by simp [initFromGenesisWithStore, txHashes]⟩
  intro i b hi
  cases i with
  | zero =>
    obtain rfl : _ = b := Option.some.inj hi
    simp [initFromGenesisWithStore, persistBlock]
  | succ i => simp [initFromGenesisWithStore] at hi

theorem Persisted.appended {L : ChainLedger} (h : L.Persisted P) {b : Batch} {block : Block}
    (hworks : L.Works P b) (hext : L.Extends P block.header)
    (hbody : block.body.transactions = b.transactions) :
    (L.commitBlock P b block.header.height block).Persisted P := by
  intro hlt
  have hlen := L.length_blocks
  have hnext : block.header.height = L.blocks.length := by rw [hext.height_eq, hlen]
  have hfit : L.blocks.length < 2 ^ 64 := by
    simpa [height, commitBlock] using hlt
  have hholds := hworks.indexed.holds (h (by omega))
  have happend := holds_append hholds hfit block (Hasher.blockHash P block.header) (by
    rw [hbody]
    intro hash hmem
    obtain ⟨e, -, he⟩ := hworks.indexed.entry hash hmem
    exact ⟨e, he⟩)
  rw [← hnext] at happend
  exact happend

theorem setLastCommit_some {L : ChainLedger} {height : ℕ} {block : Block}
    (hblock : L.blocks[height]? = some block) (sigs : List CommitSignature) :
    (L.setLastCommit P height sigs).1.store =
        persistBlock P L.store height { block with lastCommit := sigs }
          (Hasher.blockHash P block.header) ∧
      (L.setLastCommit P height sigs).1.blocks =
        L.blocks.set height { block with lastCommit := sigs } ∧
      (L.setLastCommit P height sigs).1.txIndex = L.txIndex := by
  simp only [setLastCommit, hblock, and_self]

theorem Persisted.resigned {L : ChainLedger} (h : L.Persisted P) {height : ℕ} {block : Block}
    (hblock : L.blocks[height]? = some block) (sigs : List CommitSignature) :
    (L.setLastCommit P height sigs).1.Persisted P := by
  obtain ⟨hstore, hblocks, -⟩ := setLastCommit_some (P := P) hblock sigs
  intro hlt
  have hlen := L.length_blocks
  have hold : L.height < 2 ^ 64 := by
    rwa [ChainLedger.height, hblocks, List.length_set] at hlt
  rw [hstore, hblocks]
  exact holds_set (h hold) (by omega) hblock (by rfl) _

theorem Persisted.move {L L' : ChainLedger} (h : L.Persisted P) (hmove : Move P L L') :
    L'.Persisted P := by
  cases hmove with
  | advance hadvance =>
    cases hadvance with
    | pooled txs => exact h
    | appended b block txs hworks hext hbody hroots => exact h.appended hworks hext hbody
    | resigned sigs hblock => exact h.resigned hblock sigs
  | spilled b hworks => exact fun hlt => hworks.indexed.holds (h hlt)

theorem persisted_reached (genesis : GenesisConfig) (store : Store) (ops : List LedgerOp) :
    (reached P genesis store ops).Persisted P :=
  reached_of_moves (I := Persisted P) (fun _ _ hmove h => h.move hmove)
    (persisted_init genesis store) ops

/-- The index in memory lists the transactions of the stored blocks and agrees with
the entries on disk. -/
structure Mirrored (P : Primitives) (L : ChainLedger) : Prop where
  entry : ∀ hash ∈ txHashes P L.blocks, ∃ e,
    L.txIndex[hash]? = some e ∧ L.store.getTxIndex hash = some (P.txEntryJson.toVec e)
  other : ∀ hash : Hash32, hash ∉ txHashes P L.blocks → L.txIndex[hash]? = none

theorem mirrored_init (genesis : GenesisConfig) (store : Store) :
    (initFromGenesisWithStore P genesis store).Mirrored P := by
  refine ⟨by simp [initFromGenesisWithStore, txHashes], fun hash _ => ?_⟩
  simp [initFromGenesisWithStore]

theorem Mirrored.appended {L : ChainLedger} (h : L.Mirrored P) {b : Batch} {block : Block}
    (hworks : L.Works P b) (hbody : block.body.transactions = b.transactions) (height : ℕ) :
    (L.commitBlock P b height block).Mirrored P := by
  have hindexed := hworks.indexed
  have hhashes : txHashes P (L.commitBlock P b height block).blocks =
      txHashes P L.blocks ++ b.transactions.map (Hasher.txHash P) := by
    rw [← hbody]
    exact txHashes_snoc L.blocks block
  have hdisk (hash : Hash32) : (L.commitBlock P b height block).store.getTxIndex hash =
      b.store.getTxIndex hash := by
    simp [commitBlock, persistBlock]
  refine ⟨?_, ?_⟩
  · intro hash hmem
    rw [hhashes] at hmem
    rw [hdisk hash]
    show ∃ e, b.txIndex[hash]? = some e ∧ _
    by_cases hnew : hash ∈ b.transactions.map (Hasher.txHash P)
    · exact hindexed.entry hash hnew
    · obtain ⟨hmemory, hstore⟩ := hindexed.other hash hnew
      rw [hmemory, hstore]
      exact h.entry hash ((List.mem_append.mp hmem).resolve_right hnew)
  · intro hash hmem
    rw [hhashes, List.mem_append, not_or] at hmem
    show b.txIndex[hash]? = none
    rw [(hindexed.other hash hmem.2).1]
    exact h.other hash hmem.1

theorem Mirrored.advance {L L' : ChainLedger} (h : L.Mirrored P) (hmove : Advance P L L') :
    L'.Mirrored P := by
  cases hmove with
  | pooled txs => exact ⟨h.entry, h.other⟩
  | appended b block txs hworks hext hbody hroots =>
    have happended := h.appended hworks hbody block.header.height
    exact ⟨happended.entry, happended.other⟩
  | @resigned height block sigs hblock =>
    obtain ⟨hstore, hblocks, hindex⟩ := setLastCommit_some (P := P) hblock sigs
    have hhashes : txHashes P (L.setLastCommit P height sigs).1.blocks = txHashes P L.blocks := by
      rw [hblocks]
      exact txHashes_set hblock rfl
    refine ⟨?_, ?_⟩
    · rw [hhashes, hindex, hstore]
      simpa [persistBlock] using h.entry
    · rw [hhashes, hindex]
      exact h.other

/-- Reopening is lossless: after any run of operations that all returned `Ok`, the
store opens as a ledger with the same blocks, hash index, transaction index, height
and state root as the live one. -/
theorem reopen_lossless (genesis : GenesisConfig) (store : Store) (ops : List LedgerOp)
    (hok : Runs.Along (fun L op => L.succeeds P op = true) (operate P)
      (initFromGenesisWithStore P genesis store) ops)
    (hheight : (reached P genesis store ops).height < 2 ^ 64) :
    ∃ L, openOrInit P (reached P genesis store ops).store genesis = .ok L ∧
      L.blocks = (reached P genesis store ops).blocks ∧
      L.blockByHash = (reached P genesis store ops).blockByHash ∧
      L.txIndex = (reached P genesis store ops).txIndex ∧
      L.height = (reached P genesis store ops).height ∧
      L.stateRoot P = (reached P genesis store ops).stateRoot P := by
  have hholds := persisted_reached (P := P) genesis store ops hheight
  have hstructured := structured_reached (P := P) genesis store ops
  have hmirrored : (reached P genesis store ops).Mirrored P :=
    reached_of_advances (I := Mirrored P) (fun _ _ hmove h => h.advance hmove)
      (mirrored_init genesis store) hok
  generalize reached P genesis store ops = live at hholds hstructured hmirrored ⊢
  obtain ⟨L, hopen, hL⟩ := openOrInit_holds hholds live.blocks_ne genesis
  refine ⟨L, hopen, hL.blocks_eq, ?_, ?_, ?_, ?_⟩
  · rw [hL.blockByHash_eq, hstructured.blockByHash_eq, headers]
  · apply ExtTreeMap.ext_getElem?
    intro hash
    rw [hL.txIndex_eq hash]
    by_cases hmem : hash ∈ txHashes P live.blocks
    · obtain ⟨e, hmemory, hdisk⟩ := hmirrored.entry hash hmem
      rw [if_pos hmem, hmemory, Store.storedEntry_of_some hdisk]
    · rw [if_neg hmem, hmirrored.other hash hmem]
  · rw [height, height, hL.blocks_eq]
  · rw [stateRoot, stateRoot, hL.store_eq]

open Devnet in
theorem reopen_lossless_devnet :
    ∃ L, openOrInit primitives (reached primitives (devGenesis []) Store.empty
        [.call (.submit (transferTx 0)), .call (.mine (addressOf 9)),
          .setLastCommit 1 [⟨addressOf 9, [], 1700000000⟩]]).store (devGenesis []) = .ok L ∧
      L.height = 1 := by
  obtain ⟨L, hopen, -, -, -, hheight, -⟩ :=
    reopen_lossless (P := primitives) (devGenesis []) Store.empty
    [.call (.submit (transferTx 0)), .call (.mine (addressOf 9)),
      .setLastCommit 1 [⟨addressOf 9, [], 1700000000⟩]] (by decide +kernel) (by decide +kernel)
  exact ⟨L, hopen, hheight.trans (by decide +kernel)⟩

end ChainLedger

end Sprax
