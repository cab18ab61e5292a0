import Sprax.Moves

/-!
# Structure of the stored chain

Heights count up from zero, every header carries the chain id of the genesis
configuration and the hash of its predecessor, and the hash index leads back to
each stored block. The links are a property of the header list, which only ever
grows at its end; the index is the one computed from that list, also after calls
that fail and after the commit signatures of a block were replaced.
-/
namespace Sprax
open Std FiniteMap Relation

theorem getElem?_snoc {α : Type} {l : List α} {a b : α} {i : ℕ} :
    (l ++ [a])[i]? = some b ↔ l[i]? = some b ∨ i = l.length ∧ b = a := by
  rw [List.getElem?_append]
  split
  · rename_i hlt
    constructor
    · exact Or.inl
    · rintro (hold | ⟨hi, -⟩)
      · exact hold
      · omega
  · rename_i hge
    rw [List.getElem?_eq_none (Nat.le_of_not_lt hge), List.getElem?_singleton]
    constructor
    · intro h
      split at h
      · cases h
        exact Or.inr ⟨by omega, rfl⟩
      · cases h
    · rintro (h | ⟨rfl, rfl⟩)
      · cases h
      · simp

variable (P : Primitives)

/-- Consecutive heights, one chain id, and each header naming the hash of the one
before it. -/
structure Linked (chainId : String) (headers : List BlockHeader) : Prop where
  height_eq : ∀ (i : ℕ) (h : BlockHeader), headers[i]? = some h → h.height = i
  chainId_eq : ∀ h ∈ headers, h.chainId = chainId
  parentHash_eq : headers.IsChain (fun h h' => h'.parentHash = Hasher.blockHash P h)

/-- Heights by header hash; a later header overwrites an earlier one of the same hash. -/
def hashIndex (headers : List BlockHeader) : ExtTreeMap Hash32 ℕ compare :=
  headers.zipIdx.foldl (fun index e => index.insert (Hasher.blockHash P e.1) e.2) ∅

variable {P}

theorem linked_nil (chainId : String) : Linked P chainId [] := ⟨by simp, by simp, List.isChain_nil⟩

theorem Linked.append {chainId : String} {headers : List BlockHeader} {header : BlockHeader}
    (h : Linked P chainId headers) (hheight : header.height = headers.length)
    (hchain : header.chainId = chainId)
    (hparent : ∀ last ∈ headers.getLast?, header.parentHash = Hasher.blockHash P last) :
    Linked P chainId (headers ++ [header]) where
  height_eq := by
    intro i g hg
    rcases getElem?_snoc.mp hg with hold | ⟨rfl, rfl⟩
    · exact h.height_eq i g hold
    · exact hheight
  chainId_eq := by
    intro g hg
    rcases List.mem_append.mp hg with hold | hnew
    · exact h.chainId_eq g hold
    · rw [List.mem_singleton.mp hnew]
      exact hchain
  parentHash_eq := by
    refine List.isChain_append.mpr ⟨h.parentHash_eq, List.isChain_singleton _, ?_⟩
    intro last hlast g hg
    obtain rfl : header = g := by simpa using hg
    exact hparent last hlast

/-- No two stored headers have the same height, so none is stored twice. -/
theorem Linked.nodup {chainId : String} {headers : List BlockHeader}
    (h : Linked P chainId headers) :
    headers.Nodup := by
  rw [List.nodup_iff_getElem?_ne_getElem?]
  intro i j hij hj hsame
  have hjth : headers[j]? = some headers[j] := List.getElem?_eq_getElem hj
  have hi := h.height_eq i headers[j] (hsame.trans hjth)
  have hj := h.height_eq j headers[j] hjth
  omega

@[simp] theorem hashIndex_nil : hashIndex P [] = ∅ := rfl

theorem hashIndex_snoc (headers : List BlockHeader) (header : BlockHeader) :
    hashIndex P (headers ++ [header]) =
      (hashIndex P headers).insert (Hasher.blockHash P header) headers.length := by
  simp [hashIndex, List.zipIdx_append]

/-- A hash of no header is not in the index. -/
theorem getElem?_hashIndex_none {headers : List BlockHeader} {hash : Hash32}
    (h : ∀ header ∈ headers, Hasher.blockHash P header ≠ hash) :
    (hashIndex P headers)[hash]? = none := by
  induction headers using List.reverseRecOn with
  | nil => simp
  | append_singleton headers last ih =>
    obtain ⟨hold, hlast⟩ := List.forall_mem_append.mp h
    rw [hashIndex_snoc, getElem?_insert_ne _ _ (hlast last List.mem_cons_self)]
    exact ih hold

/-- Where all header hashes differ, the index finds every header. -/
theorem getElem?_hashIndex {headers : List BlockHeader}
    (hdistinct : (headers.map (Hasher.blockHash P)).Nodup) {i : ℕ} {header : BlockHeader}
    (h : headers[i]? = some header) : (hashIndex P headers)[Hasher.blockHash P header]? =
      some i := by
  induction headers using List.reverseRecOn with
  | nil => simp at h
  | append_singleton headers last ih =>
    rw [List.map_append, List.nodup_append'] at hdistinct
    rw [hashIndex_snoc]
    rcases getElem?_snoc.mp h with hold | ⟨rfl, rfl⟩
    · have hne : Hasher.blockHash P last ≠ Hasher.blockHash P header := by
        intro hsame
        have hmem := List.mem_map_of_mem (f := Hasher.blockHash P) (List.mem_of_getElem? hold)
        exact hdistinct.2.2 hmem (by simp [hsame])
      rw [getElem?_insert_ne _ _ hne]
      exact ih hdistinct.1 hold
    · simp

namespace ChainLedger

theorem getLast?_headers (L : ChainLedger) : L.headers.getLast? = some L.latestHeader := by
  rw [headers, List.getLast?_map, List.getLast?_eq_some_getLast L.blocks_ne]
  rfl

@[simp] theorem commitBlock_headers (L : ChainLedger) (b : Batch) (height : ℕ) (block : Block) :
    (L.commitBlock P b height block).headers = L.headers ++ [block.header] := by
  simp [headers, commitBlock]

theorem setLastCommit_config (L : ChainLedger) (height : ℕ) (sigs : List CommitSignature) :
    (L.setLastCommit P height sigs).1.genesis = L.genesis ∧
      (L.setLastCommit P height sigs).1.blockByHash = L.blockByHash := by
  unfold setLastCommit
  split <;> exact ⟨rfl, rfl⟩

/-- The chain of a ledger is linked and its hash index is up to date. -/
structure Structured (P : Primitives) (genesis : GenesisConfig) (L : ChainLedger) : Prop where
  genesis_eq : L.genesis = genesis
  linked : Linked P genesis.chainId L.headers
  blockByHash_eq : L.blockByHash = hashIndex P L.headers

theorem structured_init (genesis : GenesisConfig) (store : Store) :
    Structured P genesis (initFromGenesisWithStore P genesis store) where
  genesis_eq := rfl
  linked := (linked_nil (P := P) genesis.chainId).append
    (by rfl : (genesis.initializeState P store).2.height = 0) (by rfl) (by simp)
  blockByHash_eq := rfl

theorem Structured.advance {genesis : GenesisConfig} {L L' : ChainLedger}
    (h : Structured P genesis L) (hmove : Advance P L L') : Structured P genesis L' := by
  cases hmove with
  | pooled txs => exact ⟨h.genesis_eq, h.linked, h.blockByHash_eq⟩
  | appended b block txs hworks hext hbody hroots =>
    have hheaders := L.commitBlock_headers (P := P) b block.header.height block
    have hlen := L.length_headers
    refine ⟨h.genesis_eq, ?_, ?_⟩
    · refine hheaders ▸ h.linked.append (by rw [hext.height_eq, hlen]) ?_ ?_
      · rw [hext.chainId_eq, h.genesis_eq]
      · intro last hlast
        rw [getLast?_headers] at hlast
        cases hlast
        exact hext.parentHash_eq
    · show L.blockByHash.insert _ block.header.height =
        hashIndex P (L.commitBlock P b block.header.height block).headers
      rw [hheaders, hashIndex_snoc, h.blockByHash_eq, hlen, hext.height_eq]
  | @resigned height block sigs hblock =>
    obtain ⟨hgenesis, hindex⟩ := L.setLastCommit_config (P := P) height sigs
    refine ⟨hgenesis.trans h.genesis_eq, ?_, ?_⟩
    · rw [setLastCommit_headers]
      exact h.linked
    · rw [hindex, setLastCommit_headers]
      exact h.blockByHash_eq

theorem Structured.move {genesis : GenesisConfig} {L L' : ChainLedger}
    (h : Structured P genesis L) (hmove : Move P L L') : Structured P genesis L' := by
  cases hmove with
  | advance hadvance => exact h.advance hadvance
  | spilled b hworks => exact ⟨h.genesis_eq, h.linked, h.blockByHash_eq⟩

theorem structured_reached (genesis : GenesisConfig) (store : Store) (ops : List LedgerOp) :
    Structured P genesis (reached P genesis store ops) :=
  reached_of_moves (I := Structured P genesis) (fun _ _ hmove h => h.move hmove)
    (structured_init genesis store) ops

theorem Structured.getBlockByHash_none {genesis : GenesisConfig} {L : ChainLedger}
    (h : Structured P genesis L) {hash : Hash32}
    (hnone : ∀ block ∈ L.blocks, Hasher.blockHash P block.header ≠ hash) :
    L.getBlockByHash hash = none := by
  have hindex : (hashIndex P L.headers)[hash]? = none := by
    apply getElem?_hashIndex_none
    simpa [headers] using hnone
  rw [getBlockByHash, h.blockByHash_eq, hindex, Option.bind_none]

theorem Structured.getBlockByHash_self {genesis : GenesisConfig} {L : ChainLedger}
    (h : Structured P genesis L)
    (hinj : ∀ g ∈ L.headers, ∀ g' ∈ L.headers,
      Hasher.blockHash P g = Hasher.blockHash P g' → g = g')
    {block : Block} (hblock : block ∈ L.blocks) :
    L.getBlockByHash (Hasher.blockHash P block.header) = some block := by
  obtain ⟨i, hi⟩ := List.getElem?_of_mem hblock
  have hheader : L.headers[i]? = some block.header := by
    rw [headers, List.getElem?_map, hi, Option.map_some]
  have hdistinct : (L.headers.map (Hasher.blockHash P)).Nodup :=
    (List.nodup_map_iff_inj_on h.linked.nodup).mpr (fun g hg g' hg' => hinj g hg g' hg')
  rw [getBlockByHash, h.blockByHash_eq, getElem?_hashIndex hdistinct hheader]
  exact hi

/-- Over any run of operations, failed ones included, the block list is a chain:
never empty, with heights from zero, the chain id of the genesis configuration and
parent hashes that name the predecessor. A hash leads to the stored block it is
the hash of, as long as no two stored headers collide, and to nothing otherwise. -/
theorem reached_chain_structure (genesis : GenesisConfig) (store : Store) (ops : List LedgerOp) :
    (reached P genesis store ops).blocks ≠ [] ∧
      (∀ (i : ℕ) (block : Block), (reached P genesis store ops).blocks[i]? = some block →
        block.header.height = i ∧ block.header.chainId = genesis.chainId) ∧
      (∀ (i : ℕ) (block next : Block), (reached P genesis store ops).blocks[i]? = some block →
        (reached P genesis store ops).blocks[i + 1]? = some next →
          next.header.parentHash = Hasher.blockHash P block.header) ∧
      ((∀ g ∈ (reached P genesis store ops).headers, ∀ g' ∈ (reached P genesis store ops).headers,
          Hasher.blockHash P g = Hasher.blockHash P g' → g = g') →
        ∀ block ∈ (reached P genesis store ops).blocks,
          (reached P genesis store ops).getBlockByHash (Hasher.blockHash P block.header) =
            some block) ∧
      ∀ hash, (∀ block ∈ (reached P genesis store ops).blocks,
          Hasher.blockHash P block.header ≠ hash) →
        (reached P genesis store ops).getBlockByHash hash = none := by
  have hstructured := structured_reached (P := P) genesis store ops
  generalize reached P genesis store ops = L at hstructured
  have hheader : ∀ (i : ℕ) (block : Block), L.blocks[i]? = some block →
      L.headers[i]? = some block.header := by
    intro i block hi
    rw [headers, List.getElem?_map, hi, Option.map_some]
  refine ⟨L.blocks_ne, ?_, ?_, fun hinj _ => hstructured.getBlockByHash_self hinj,
    fun _ => hstructured.getBlockByHash_none⟩
  · intro i block hi
    have hmem := List.mem_of_getElem? (hheader i block hi)
    exact ⟨hstructured.linked.height_eq i _ (hheader i block hi),
      hstructured.linked.chainId_eq _ hmem⟩
  · intro i block next hi hnext
    have hlinks := hstructured.linked.parentHash_eq
    obtain ⟨hlt, hget⟩ := List.getElem?_eq_some_iff.mp (hheader i block hi)
    obtain ⟨hlt', hget'⟩ := List.getElem?_eq_some_iff.mp (hheader (i + 1) next hnext)
    have hlink := List.isChain_iff_getElem.mp hlinks i hlt'
    rwa [hget, hget'] at hlink

open Devnet in
/-- A refused block, a mined one, and new commit signatures for the latter. -/
def devOps : List LedgerOp :=
  devCalls.map .call ++ [.setLastCommit 1 [⟨addressOf 9, [], 1700000000⟩]]

open Devnet in
theorem reached_chain_structure_devnet :
    (reached primitives (devGenesis []) Store.empty devOps).blocks.length = 2 ∧
      ∀ block ∈ (reached primitives (devGenesis []) Store.empty devOps).blocks,
        (reached primitives (devGenesis []) Store.empty devOps).getBlockByHash
          (Hasher.blockHash primitives block.header) = some block :=
  ⟨by decide +kernel,
    (reached_chain_structure (devGenesis []) Store.empty devOps).2.2.2.1 (by decide +kernel)⟩

end ChainLedger

end Sprax
