import Sprax.Linked

/-!
# Accepted blocks and mined blocks

`apply_block` re-executes a received block and compares its roots, its height, its
chain id and its parent hash. Three header fields that `mine_block` fills in are
compared with nothing: the version, the timestamp and the validator set hash. An
accepted block is one that mining its own transactions would have produced exactly
when these three are what mining would have written.
-/
namespace Sprax
open Std StateAccessor

/-- What a chain of mined headers keeps from one block to the next. -/
def Succeeds (h h' : BlockHeader) : Prop :=
  h'.version = h.version ∧ h'.validatorSetHash = h.validatorSetHash ∧
    h.timestampUnixSecs < h'.timestampUnixSecs

instance : DecidableRel Succeeds := fun _ _ => inferInstanceAs (Decidable (_ ∧ _ ∧ _))

namespace ChainLedger
variable {P : Primitives}

/-- Some mempool makes the block's proposer mine this block, up to commit signatures. -/
def Mineable (P : Primitives) (L : ChainLedger) (block : Block) : Prop :=
  ∃ txs, ({ L with mempool := txs }.mineBlock P block.header.proposer).2 =
    { block with lastCommit := [] }

/-- The header fields that mining sets and applying does not compare. -/
structure MinedFields (L : ChainLedger) (header : BlockHeader) : Prop where
  version_eq : header.version = 1
  timestamp_eq : header.timestampUnixSecs = (L.latestHeader.timestampUnixSecs + 2) % 2 ^ 64
  validatorSetHash_eq : header.validatorSetHash = L.latestHeader.validatorSetHash

theorem Mineable.fields {L : ChainLedger} {block : Block} (h : L.Mineable P block) :
    L.MinedFields block.header := by
  obtain ⟨txs, hmined⟩ := h
  have hheader := congrArg Block.header hmined
  exact ⟨(congrArg BlockHeader.version hheader).symm,
    (congrArg BlockHeader.timestampUnixSecs hheader).symm,
    (congrArg BlockHeader.validatorSetHash hheader).symm⟩

/-- A list of transactions that executes without an error is mined as it is. -/
theorem foldl_mineTx_of_applyTxs {executor : TxExecutor} {height : ℕ} {chainId : String}
    {b b' : Batch} {txs : List Transaction}
    (h : applyTxs P executor height chainId b txs = (b', .ok ())) :
    txs.foldl (mineTx P executor height chainId) b = b' := by
  induction txs generalizing b with
  | nil =>
    cases h
    rfl
  | cons tx rest ih =>
    rw [applyTxs] at h
    split at h
    · rename_i s r hexec
      rw [List.foldl_cons, mineTx, hexec]
      exact ih h
    · cases h

/-- Mining the transactions of an accepted block yields the block back, if the
unchecked fields agree. -/
theorem mineable_of_fields {L : ChainLedger} {block : Block} {b : Batch}
    (hext : L.Extends P block.header) (hbody : L.applyBody P block = (b, .ok ()))
    (hroots : RootsMatch P b block.header) (hfields : L.MinedFields block.header) :
    L.Mineable P block := by
  refine ⟨block.body.transactions, ?_⟩
  rw [applyBody, hext.height_eq] at hbody
  have hmined : { L with mempool := block.body.transactions }.mineTxs P = b :=
    foldl_mineTx_of_applyTxs hbody
  have htxs : b.transactions = block.body.transactions := by
    simpa [batch, Batch.transactions] using applyTxs_transactions hbody
  obtain ⟨⟨version, chainId, height, timestamp, parent, proposer, sroot, troot, rroot, vhash⟩,
    ⟨txs⟩, sigs⟩ := block
  obtain ⟨hheight, hchain, hparent⟩ := hext
  obtain ⟨hversion, htimestamp, hvhash⟩ := hfields
  obtain ⟨hsroot, htroot, hrroot⟩ := hroots
  simp only [mineBlock, hmined, minedBlock, htxs]
  dsimp only at *
  subst hheight hchain hparent hversion htimestamp hvhash hsroot htroot hrroot
  rfl

/-- An accepted block of the next height could have been mined exactly if its
unchecked fields are those of a mined block. -/
theorem mineable_iff_fields {L : ChainLedger} {block : Block} {receipts : List TxReceipt}
    (hnext : block.header.height = L.height + 1)
    (hok : (L.applyBlock P block).2 = .ok receipts) :
    L.Mineable P block ↔ L.MinedFields block.header := by
  refine ⟨Mineable.fields, fun hfields => ?_⟩
  have houtcome := applyBlock_outcome (P := P) L block
  generalize L.applyBlock P block = result at houtcome hok
  cases houtcome with
  | ignored hold => omega
  | refused | failed | mismatched => cases hok
  | accepted b hext hbody hroots => exact mineable_of_fields hext hbody hroots hfields

/-- The clock of the chain has room for one more block. -/
def ClockFits (L : ChainLedger) : Prop := L.latestHeader.timestampUnixSecs + 2 < 2 ^ 64

/-- A received block, if it is the next one, carries the fields of a mined block. -/
def RegularBlock (L : ChainLedger) (block : Block) : Prop :=
  block.header.height = L.height + 1 → L.MinedFields block.header ∧ L.ClockFits

/-- All blocks of a batch up to the first that fails, each against the ledger it is
applied to. -/
def RegularBlocks (P : Primitives) (L : ChainLedger) : List Block → Prop
  | [] => True
  | block :: rest => L.RegularBlock block ∧
      ((L.applyBlock P block).2.isOk = true → RegularBlocks P (L.applyBlock P block).1 rest)

/-- Received blocks carry the fields of mined ones, and the clock does not overflow. -/
def RegularOp (P : Primitives) (L : ChainLedger) : LedgerOp → Prop
  | .call (.submit _) => True
  | .call (.mine _) => L.ClockFits
  | .call (.apply block) => L.RegularBlock block
  | .call (.applyBatch blocks) => L.RegularBlocks P blocks
  | .setLastCommit _ _ => True

/-- Version 1 throughout, and every header succeeds the one before it. -/
structure RegularChain (L : ChainLedger) : Prop where
  version_eq : ∀ h ∈ L.headers, h.version = 1
  succeeds : L.headers.IsChain Succeeds

theorem RegularChain.of_headers {L L' : ChainLedger} (h : L.RegularChain)
    (hsame : L'.headers = L.headers) : L'.RegularChain := by
  refine ⟨?_, ?_⟩
  · rw [hsame]
    exact h.version_eq
  · rw [hsame]
    exact h.succeeds

theorem RegularChain.append {L L' : ChainLedger} {header : BlockHeader} (h : L.RegularChain)
    (hfields : L.MinedFields header) (hclock : L.ClockFits)
    (happend : L'.headers = L.headers ++ [header]) : L'.RegularChain := by
  refine ⟨?_, ?_⟩
  · rw [happend]
    refine List.forall_mem_append.mpr ⟨h.version_eq, ?_⟩
    simpa using hfields.version_eq
  · rw [happend]
    refine List.isChain_append.mpr ⟨h.succeeds, List.isChain_singleton _, ?_⟩
    intro last hlast g hg
    obtain rfl : header = g := by simpa using hg
    rw [getLast?_headers] at hlast
    cases hlast
    have hlatest : L.latestHeader ∈ L.headers := List.mem_of_getLast? L.getLast?_headers
    refine ⟨?_, hfields.validatorSetHash_eq, ?_⟩
    · rw [hfields.version_eq, h.version_eq _ hlatest]
    · rw [hfields.timestamp_eq, Nat.mod_eq_of_lt hclock]
      omega

theorem RegularChain.applyBlock {L : ChainLedger} (h : L.RegularChain) {block : Block}
    (hregular : L.RegularBlock block) : (L.applyBlock P block).1.RegularChain := by
  rcases applyBlock_headers (P := P) L block with hsame | ⟨hext, happend⟩
  · exact h.of_headers hsame
  · obtain ⟨hfields, hclock⟩ := hregular hext.height_eq
    exact h.append hfields hclock happend

theorem RegularChain.applyBlocksFrom {L : ChainLedger} (h : L.RegularChain) (count : ℕ)
    {blocks : List Block} (hregular : L.RegularBlocks P blocks) :
    (L.applyBlocksFrom P count blocks).1.RegularChain := by
  induction blocks generalizing L count with
  | nil => exact h
  | cons block rest ih =>
    have hfirst := h.applyBlock (P := P) hregular.1
    have hrest := hregular.2
    rw [ChainLedger.applyBlocksFrom]
    split
    · rename_i L' e happly
      rwa [happly] at hfirst
    · rename_i L' receipts happly
      rw [happly] at hfirst hrest
      exact ih hfirst (count + 1) (hrest rfl)

theorem RegularChain.operate {L : ChainLedger} (h : L.RegularChain) {op : LedgerOp}
    (hregular : L.RegularOp P op) : (L.operate P op).RegularChain := by
  cases op with
  | call c =>
    cases c with
    | submit tx => exact h.of_headers (L.submitTransaction_headers tx)
    | mine proposer =>
      have hmined : L.MinedFields (L.mineBlock P proposer).2.header := ⟨rfl, rfl, rfl⟩
      exact h.append hmined hregular (L.mineBlock_headers proposer)
    | apply block => exact h.applyBlock hregular
    | applyBatch blocks => exact h.applyBlocksFrom 0 hregular
  | setLastCommit height sigs => exact h.of_headers (L.setLastCommit_headers height sigs)

theorem regularChain_init (genesis : GenesisConfig) (store : Store) :
    (initFromGenesisWithStore P genesis store).RegularChain := by
  refine ⟨?_, List.isChain_singleton _⟩
  intro h hh
  rw [List.mem_singleton.mp hh]
  rfl

/-- In every reachable ledger an accepted next block could have been mined by its
proposer exactly if it has version 1, the validator set hash of its parent and the
parent's timestamp plus two; and in every run whose received blocks are of that
kind, version and validator set hash are inherited and timestamps strictly increase
along the chain, as long as the 64-bit clock does not overflow. -/
theorem reached_mineable_iff (genesis : GenesisConfig) (store : Store) (ops : List LedgerOp) :
    (∀ (block : Block) (receipts : List TxReceipt),
      block.header.height = (reached P genesis store ops).height + 1 →
      ((reached P genesis store ops).applyBlock P block).2 = .ok receipts →
        ((reached P genesis store ops).Mineable P block ↔
          (reached P genesis store ops).MinedFields block.header)) ∧
      (Runs.Along (RegularOp P) (operate P) (initFromGenesisWithStore P genesis store) ops →
        (reached P genesis store ops).headers.IsChain Succeeds) := by
  refine ⟨fun block receipts hnext hok => mineable_iff_fields hnext hok, fun hregular => ?_⟩
  have hchain := hregular.invariant (I := RegularChain) (fun L op hop h => h.operate hop)
    (regularChain_init genesis store)
  exact hchain.succeeds

open Devnet in
/-- The first block with a transfer, dated before genesis and with another version
and validator set hash. -/
def backdatedBlock : Block :=
  { transferBlock with header :=
      { transferBlock.header with
        version := 7, timestampUnixSecs := 1, validatorSetHash := Hash32.zero } }

open Devnet in
/-- The backdated block is accepted, no mempool makes its proposer mine it, and time
runs backwards on the chain that holds it. -/
theorem backdated_block_accepted :
    (∃ receipts, (ledger.applyBlock primitives backdatedBlock).2 = .ok receipts) ∧
      ¬ ledger.Mineable primitives backdatedBlock ∧
      ¬ (ledger.applyBlock primitives backdatedBlock).1.headers.IsChain Succeeds := by
  have happly : (ledger.applyBlock primitives backdatedBlock).2.isOk = true ∧
      ¬ (ledger.applyBlock primitives backdatedBlock).1.headers.IsChain Succeeds := by
        decide +kernel
  refine ⟨exists_ok_of_isOk happly.1, fun hmineable => ?_, happly.2⟩
  have hversion : backdatedBlock.header.version = 1 := hmineable.fields.version_eq
  exact absurd hversion (by decide +kernel)

open Devnet in
theorem reached_mineable_iff_devnet :
    ledger.Mineable primitives transferBlock ∧
      (reached primitives (devGenesis []) Store.empty
        [.call (.apply transferBlock)]).headers.IsChain Succeeds := by
  have hmatches : ledger.MinedFields transferBlock.header :=
    ⟨by decide +kernel, by decide +kernel, by decide +kernel⟩
  obtain ⟨receipts, hok⟩ := exists_ok_of_isOk
    (by decide +kernel : (ledger.applyBlock primitives transferBlock).2.isOk = true)
  have hmineable := ((reached_mineable_iff (P := primitives) (devGenesis []) Store.empty []).1
    transferBlock receipts (by decide +kernel) hok).mpr hmatches
  have hclock : ledger.ClockFits := by
    unfold ClockFits
    decide +kernel
  exact ⟨hmineable,
    (reached_mineable_iff (devGenesis []) Store.empty [.call (.apply transferBlock)]).2
    ⟨fun _ => ⟨hmatches, hclock⟩, trivial⟩⟩

end ChainLedger

end Sprax
