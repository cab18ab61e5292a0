import Sprax.Accounting

/-!
# Replication of a proposer's chain

A proposer executes its mempool and drops what fails; a follower re-executes
the resulting blocks and stops at the first failure. On solvent stores a dropped
transaction leaves no trace, so re-execution meets the same states, receipts and
roots. A follower that receives the proposer's blocks in any order, with gaps
and repetitions, is at every moment the replica of a prefix of the chain.
-/
namespace Sprax
open Std StateAccessor

/-- The calls a proposer makes: it never receives a block. -/
def Call.Local : Call → Prop
  | .submit _ => True
  | .mine _ => True
  | .apply _ => False
  | .applyBatch _ => False

instance (c : Call) : Decidable c.Local := by
  cases c <;> unfold Call.Local <;> infer_instance

namespace ChainLedger

theorem length_blocks (L : ChainLedger) : L.blocks.length = L.height + 1 := by
  have hpos := List.length_pos_iff.mpr L.blocks_ne
  unfold height
  omega

/-- Two batches that agree on everything but stored metadata. -/
structure Batch.Same (b c : Batch) : Prop where
  state_eq : b.store.state = c.store.state
  txIndex_eq : b.txIndex = c.txIndex
  executed_eq : b.executed = c.executed

variable {P : Primitives}

theorem Batch.Same.record {b c : Batch} (h : b.Same c) {s t : Store} (hst : s.state = t.state)
    (tx : Transaction) (r : TxReceipt) (height : ℕ) :
    (b.record P s tx r height).Same (c.record P t tx r height) :=
  ⟨hst, by simp only [Batch.record, h.txIndex_eq], by simp only [Batch.record, h.executed_eq]⟩

/-- One turn of the mining loop against the follower's batch: the transaction is
dropped and nothing changes, or the follower executes it to the same effect. -/
theorem mineTx_same {b c : Batch} (h : b.Same c) (hs : Solvent P b.store)
    (executor : TxExecutor) (height : ℕ) (chainId : String) (tx : Transaction) :
    (mineTx P executor height chainId b tx = b) ∨
      ∃ t r, executor.executeTransaction P c.store tx height chainId = (t, .ok r) ∧
        (mineTx P executor height chainId b tx).executed = b.executed ++ [(tx, r)] ∧
        (mineTx P executor height chainId b tx).Same (c.record P t tx r height) ∧
        Solvent P (mineTx P executor height chainId b tx).store := by
  rcases hs.executeTransaction executor tx height chainId with ⟨e, he⟩ | ⟨s, hok, hspec⟩
  · left
    simp only [mineTx, he]
  · right
    obtain ⟨hstate, hresult⟩ :=
      TxExecutor.executeTransaction_congr (P := P) executor h.state_eq tx height chainId
    rw [hok] at hstate hresult
    refine ⟨(executor.executeTransaction P c.store tx height chainId).1,
      TxExecutor.receiptOf P executor tx height, Prod.ext rfl hresult.symm, ?_⟩
    simp only [mineTx, hok]
    exact ⟨rfl, h.record hstate tx _ height, hspec.solvent.congr rfl⟩

/-- The whole mining loop: the follower executes the kept transactions without
an error and ends with the same batch. -/
theorem foldl_mineTx_same {b c : Batch} (h : b.Same c) (hs : Solvent P b.store)
    (executor : TxExecutor) (height : ℕ) (chainId : String) (txs : List Transaction) :
    ∃ kept c', (txs.foldl (mineTx P executor height chainId) b).executed = b.executed ++ kept ∧
      applyTxs P executor height chainId c (kept.map (·.1)) = (c', .ok ()) ∧
      (txs.foldl (mineTx P executor height chainId) b).Same c' ∧
      Solvent P (txs.foldl (mineTx P executor height chainId) b).store := by
  induction txs generalizing b c with
  | nil => exact ⟨[], c, by simp, rfl, h, hs⟩
  | cons tx rest ih =>
    rw [List.foldl_cons]
    rcases mineTx_same h hs executor height chainId tx with hdrop |
      ⟨t, r, hexec, hlog, hsame, hsolvent⟩
    · rw [hdrop]
      exact ih h hs
    · obtain ⟨kept, c', hkept, happly, hsame', hsolvent'⟩ := ih hsame hsolvent
      refine ⟨(tx, r) :: kept, c', ?_, ?_, hsame', hsolvent'⟩
      · rw [hkept, hlog, List.append_assoc, List.singleton_append]
      · rw [List.map_cons, applyTxs, hexec]
        exact happly

/-- A follower that holds the proposer's chain and accounts. -/
structure Twin (L F : ChainLedger) : Prop where
  genesis_eq : F.genesis = L.genesis
  executor_eq : F.executor = L.executor
  blocks_eq : F.blocks = L.blocks
  state_eq : F.store.state = L.store.state
  txIndex_eq : F.txIndex = L.txIndex

theorem Twin.height_eq {L F : ChainLedger} (h : Twin L F) : F.height = L.height := by
  rw [height, height, h.blocks_eq]

theorem Twin.latestHeader_eq {L F : ChainLedger} (h : Twin L F) :
    F.latestHeader = L.latestHeader := by
  simp only [latestHeader, latestBlock, h.blocks_eq]

/-- A follower in step with the proposer accepts the next mined block and stays
in step. -/
theorem Twin.mineBlock {L F : ChainLedger} (h : Twin L F) (hs : Solvent P L.store)
    (proposer : Address) :
    (∃ receipts, (F.applyBlock P (L.mineBlock P proposer).2).2 = .ok receipts) ∧
      Twin (L.mineBlock P proposer).1 (F.applyBlock P (L.mineBlock P proposer).2).1 ∧
      Solvent P (L.mineBlock P proposer).1.store := by
  have hsame : L.batch.Same F.batch := ⟨h.state_eq.symm, h.txIndex_eq.symm, rfl⟩
  obtain ⟨kept, c, hkept, happly, hbatch, hsolvent⟩ :=
    foldl_mineTx_same hsame hs L.executor (L.height + 1) L.genesis.chainId L.mempool
  have hkept' : (L.mineTxs P).executed = kept := by simpa [mineTxs, batch] using hkept
  set block := (L.mineBlock P proposer).2 with hblock
  have hbody : F.applyBody P block = (c, .ok ()) := by
    have htxs : block.body.transactions = kept.map (·.1) := by
      rw [← hkept']
      rfl
    rw [applyBody, htxs, h.executor_eq, h.genesis_eq]
    exact happly
  have hext : F.Extends P block.header := by
    refine ⟨?_, ?_, ?_⟩
    · rw [h.height_eq]
      rfl
    · rw [h.genesis_eq]
      rfl
    · rw [h.latestHeader_eq]
      rfl
  have hroots : RootsMatch P c block.header := by
    refine ⟨?_, ?_, ?_⟩
    · rw [Store.computeRoot, ← hbatch.state_eq]
      rfl
    · rw [Batch.txsRoot, Batch.receipts, ← hbatch.executed_eq]
      rfl
    · rw [Batch.receiptsRoot, Batch.receipts, ← hbatch.executed_eq]
      rfl
  have happlied := applyBlock_accepted hext hbody hroots
  rw [happlied]
  refine ⟨⟨_, rfl⟩, ⟨h.genesis_eq, h.executor_eq, ?_, hbatch.state_eq.symm, hbatch.txIndex_eq.symm⟩,
    hsolvent.congr rfl⟩
  change F.blocks ++ [block] = L.blocks ++ [block]
  rw [h.blocks_eq]

variable (P)

/-- The ledger a run of calls reaches from genesis. -/
def proposed (genesis : GenesisConfig) (calls : List Call) : ChainLedger :=
  Runs.run (call P) (initFromGenesis P genesis) calls

/-- A fresh ledger to which blocks are delivered one by one. -/
def deliver (genesis : GenesisConfig) (blocks : List Block) : ChainLedger :=
  Runs.run (fun F block => (F.applyBlock P block).1) (initFromGenesis P genesis) blocks

/-- What a proposer's ledger keeps true about its replicas. -/
structure Replicated (genesis : GenesisConfig) (L : ChainLedger) : Prop where
  solvent : Solvent P L.store
  twin : Twin L (deliver P genesis L.blocks)
  chain_eq : ∀ pre, pre <+: L.blocks → pre ≠ [] → (deliver P genesis pre).blocks = pre
  accepted : ∀ pre block, pre ++ [block] <+: L.blocks →
    ∃ receipts, ((deliver P genesis pre).applyBlock P block).2 = .ok receipts
  header_height : ∀ (i : ℕ) (block : Block), L.blocks[i]? = some block → block.header.height = i

variable {P}

theorem proposed_snoc (genesis : GenesisConfig) (calls : List Call) (c : Call) :
    proposed P genesis (calls ++ [c]) = (proposed P genesis calls).call P c := by
  simp [proposed]

theorem deliver_snoc (genesis : GenesisConfig) (blocks : List Block) (block : Block) :
    deliver P genesis (blocks ++ [block]) = ((deliver P genesis blocks).applyBlock P block).1 := by
  simp [deliver]

theorem applyBlock_ignored {L : ChainLedger} {block : Block} (h : block.header.height ≤ L.height) :
    L.applyBlock P block = (L, .ok []) := by
  rw [applyBlock, if_pos h]

theorem initFromGenesis_blocks (genesis : GenesisConfig) :
    ∃ block : Block, (initFromGenesis P genesis).blocks = [block] ∧ block.header.height = 0 :=
  ⟨_, rfl, rfl⟩

theorem replicated_init {genesis : GenesisConfig} (hS : genesis.supply ≤ 2 ^ 128 - 1) :
    Replicated P genesis (initFromGenesis P genesis) := by
  obtain ⟨block, hblocks, hheight⟩ := initFromGenesis_blocks (P := P) genesis
  have hignored : (initFromGenesis P genesis).applyBlock P block =
      (initFromGenesis P genesis, .ok []) :=
    applyBlock_ignored (by omega)
  have hdeliver : deliver P genesis [block] = initFromGenesis P genesis := by
    simp [deliver, hignored]
  refine ⟨initFromGenesis_solvent hS, ?_, ?_, ?_, ?_⟩
  · rw [hblocks, hdeliver]
    exact ⟨rfl, rfl, rfl, rfl, rfl⟩
  · intro pre hpre hne
    rw [hblocks] at hpre
    rcases List.prefix_cons_iff.mp hpre with hnil | ⟨rest, rfl, hrest⟩
    · exact absurd hnil hne
    · rw [List.prefix_nil.mp hrest, hdeliver, hblocks]
  · intro pre b hpre
    rw [hblocks] at hpre
    have hlen := hpre.length_le
    have hnil : pre = [] := List.length_eq_zero_iff.mp (by simpa using hlen)
    subst pre
    obtain rfl : b = block := by simpa using hpre
    exact ⟨[], by simp [deliver, hignored]⟩
  · intro i b hi
    rw [hblocks] at hi
    cases i with
    | zero => cases hi; exact hheight
    | succ i => simp at hi

theorem Replicated.submit {genesis : GenesisConfig} {L : ChainLedger}
    (h : Replicated P genesis L) (tx : Transaction) :
    Replicated P genesis (L.submitTransaction P tx).1 := by
  rcases submitTransaction_cases (P := P) L tx with hsame | hpushed
  · rwa [hsame]
  · rw [hpushed]
    exact ⟨h.solvent, ⟨h.twin.genesis_eq, h.twin.executor_eq, h.twin.blocks_eq, h.twin.state_eq,
      h.twin.txIndex_eq⟩, h.chain_eq, h.accepted, h.header_height⟩

theorem Replicated.mine {genesis : GenesisConfig} {L : ChainLedger}
    (h : Replicated P genesis L) (proposer : Address) :
    Replicated P genesis (L.mineBlock P proposer).1 := by
  obtain ⟨hok, htwin, hsolvent⟩ := h.twin.mineBlock h.solvent proposer
  rw [← deliver_snoc] at htwin
  have hblocks : (L.mineBlock P proposer).1.blocks = L.blocks ++ [(L.mineBlock P proposer).2] := rfl
  refine ⟨hsolvent, by rwa [hblocks], ?_, ?_, ?_⟩
  · intro pre hpre hne
    rw [hblocks] at hpre
    rcases List.prefix_concat_iff.mp hpre with rfl | hold
    · exact htwin.blocks_eq
    · exact h.chain_eq pre hold hne
  · intro pre block hpre
    rw [hblocks] at hpre
    rcases List.prefix_concat_iff.mp hpre with hlast | hold
    · obtain ⟨rfl, hblock⟩ := List.append_inj' hlast rfl
      obtain rfl : block = (L.mineBlock P proposer).2 := by simpa using hblock
      exact hok
    · exact h.accepted pre block hold
  · intro i block hi
    rw [hblocks, List.getElem?_append] at hi
    split at hi
    · exact h.header_height i block hi
    · rename_i hge
      have hlen := L.length_blocks
      obtain ⟨hlt, hget⟩ := List.getElem?_eq_some_iff.mp hi
      simp only [List.length_singleton] at hlt
      have hindex : i = L.height + 1 := by omega
      simp only [List.getElem_singleton] at hget
      rw [← hget, hindex]
      rfl

theorem replicated_proposed {genesis : GenesisConfig} (hS : genesis.supply ≤ 2 ^ 128 - 1)
    {calls : List Call} (hlocal : ∀ c ∈ calls, c.Local) :
    Replicated P genesis (proposed P genesis calls) := by
  induction calls using List.reverseRecOn with
  | nil => exact replicated_init hS
  | append_singleton calls c ih =>
    have hrec := ih (fun d hd => hlocal d (List.mem_append_left _ hd))
    have hc := hlocal c (by simp)
    rw [proposed_snoc]
    cases c with
    | submit tx => exact hrec.submit tx
    | mine proposer => exact hrec.mine proposer
    | apply block => exact hc.elim
    | applyBatch blocks => exact hc.elim

/-- A block beyond the next height is refused without a trace. -/
theorem applyBlock_gap {L : ChainLedger} {block : Block}
    (h : L.height + 1 < block.header.height) : (L.applyBlock P block).1 = L := by
  have houtcome := applyBlock_outcome (P := P) L block
  generalize L.applyBlock P block = result at houtcome
  cases houtcome with
  | ignored hold => rfl
  | refused e hext => rfl
  | failed b e hext hbody => exact absurd hext.height_eq (by omega)
  | mismatched b e hext hbody hroots => exact absurd hext.height_eq (by omega)
  | accepted b hext hbody hroots => exact absurd hext.height_eq (by omega)

theorem Replicated.height_deliver_take {genesis : GenesisConfig} {L : ChainLedger}
    (h : Replicated P genesis L) {k : ℕ} (hpos : 0 < k) (hk : k ≤ L.blocks.length) :
    (deliver P genesis (L.blocks.take k)).height + 1 = k := by
  have hlen : (L.blocks.take k).length = k := by simpa using hk
  have hblocks := h.chain_eq (L.blocks.take k) (List.take_prefix k L.blocks)
    (List.length_pos_iff.mp (by omega))
  rw [← length_blocks, hblocks, hlen]

/-- Whatever is delivered in whatever order, the follower is the replica of a
non-empty initial part of the chain. -/
theorem Replicated.deliver_eq_take {genesis : GenesisConfig} {L : ChainLedger}
    (h : Replicated P genesis L) (deliveries : List Block)
    (hmem : ∀ block ∈ deliveries, block ∈ L.blocks) :
    ∃ k, 0 < k ∧ k ≤ L.blocks.length ∧
      deliver P genesis deliveries = deliver P genesis (L.blocks.take k) := by
  have hpos := List.length_pos_iff.mpr L.blocks_ne
  induction deliveries using List.reverseRecOn with
  | nil =>
    -- Delivering the genesis block to a fresh ledger changes nothing.
    refine ⟨1, Nat.one_pos, hpos, ?_⟩
    obtain ⟨first, rest, hcons⟩ := List.exists_cons_of_ne_nil L.blocks_ne
    have hfirst := h.header_height 0 first (by rw [hcons]; rfl)
    have hignored : (initFromGenesis P genesis).applyBlock P first =
        (initFromGenesis P genesis, .ok []) := applyBlock_ignored (by omega)
    simp [deliver, hcons, hignored]
  | append_singleton deliveries block ih =>
    obtain ⟨k, hk0, hkn, heq⟩ := ih (fun b hb => hmem b (List.mem_append_left _ hb))
    obtain ⟨j, hj⟩ := List.mem_iff_getElem?.mp (hmem block (by simp))
    have hheight := h.header_height j block hj
    have hat := h.height_deliver_take hk0 hkn
    rw [deliver_snoc, heq]
    rcases Nat.lt_trichotomy j k with hlt | hnext | hgap
    · refine ⟨k, hk0, hkn, ?_⟩
      rw [applyBlock_ignored (by omega)]
    · rw [hnext] at hj
      obtain ⟨hlt, hget⟩ := List.getElem?_eq_some_iff.mp hj
      refine ⟨k + 1, Nat.succ_pos k, hlt, ?_⟩
      rw [List.take_succ_eq_append_getElem hlt, hget, deliver_snoc]
    · refine ⟨k, hk0, hkn, ?_⟩
      rw [applyBlock_gap (by omega)]

theorem call_blocks_of_local (L : ChainLedger) {c : Call} (hlocal : c.Local) :
    L.blocks <+: (L.call P c).blocks := by
  cases c with
  | submit tx =>
    rcases submitTransaction_cases (P := P) L tx with h | h <;> rw [call, h]
  | mine proposer => exact List.prefix_append _ _
  | apply block => exact hlocal.elim
  | applyBatch blocks => exact hlocal.elim

theorem height_call_le (L : ChainLedger) {c : Call} (hlocal : c.Local) :
    (L.call P c).height ≤ L.height + 1 := by
  cases c with
  | submit tx =>
    rcases submitTransaction_cases (P := P) L tx with h | h <;> simp [call, h, height]
  | mine proposer =>
    have hlen := L.length_blocks
    simp only [call, mineBlock, commitBlock, height, List.length_append, List.length_singleton]
    omega
  | apply block => exact hlocal.elim
  | applyBatch blocks => exact hlocal.elim

/-- A proposer's chain only grows. -/
theorem proposed_blocks_mono (genesis : GenesisConfig) {pre calls : List Call}
    (hpre : pre <+: calls) (hlocal : ∀ c ∈ calls, c.Local) :
    (proposed P genesis pre).blocks <+: (proposed P genesis calls).blocks := by
  obtain ⟨later, rfl⟩ := hpre
  induction later using List.reverseRecOn with
  | nil => simp
  | append_singleton later c ih =>
    have hrec := ih (fun d hd => hlocal d (by simp at hd ⊢; tauto))
    have hstep := call_blocks_of_local (P := P) (proposed P genesis (pre ++ later))
      (hlocal c (by simp))
    rw [← proposed_snoc, List.append_assoc] at hstep
    exact hrec.trans hstep

/-- Every height of a proposer's chain was its height at some point of the run. -/
theorem exists_proposed_height (genesis : GenesisConfig) {calls : List Call}
    (hlocal : ∀ c ∈ calls, c.Local) {n : ℕ} (hn : n ≤ (proposed P genesis calls).height) :
    ∃ pre, pre <+: calls ∧ (proposed P genesis pre).height = n := by
  induction calls using List.reverseRecOn with
  | nil =>
    have hzero : (proposed P genesis []).height = 0 := rfl
    exact ⟨[], List.prefix_refl _, by omega⟩
  | append_singleton calls c ih =>
    by_cases hold : n ≤ (proposed P genesis calls).height
    · obtain ⟨pre, hpre, hheight⟩ := ih (fun d hd => hlocal d (List.mem_append_left _ hd)) hold
      exact ⟨pre, hpre.trans (List.prefix_append _ _), hheight⟩
    · refine ⟨calls ++ [c], List.prefix_refl _, ?_⟩
      have hstep := height_call_le (P := P) (proposed P genesis calls) (hlocal c (by simp))
      rw [← proposed_snoc] at hstep
      omega

/-- A batch whose blocks are accepted one after the other is accepted as a whole. -/
theorem applyBlocksFrom_ok (count : ℕ) (F : ChainLedger) (blocks : List Block)
    (h : ∀ pre block, pre ++ [block] <+: blocks → ∃ receipts,
      ((Runs.run (fun F block => (F.applyBlock P block).1) F pre).applyBlock P block).2 =
        .ok receipts) :
    F.applyBlocksFrom P count blocks =
      (Runs.run (fun F block => (F.applyBlock P block).1) F blocks,
        .ok (count + blocks.length)) := by
  induction blocks generalizing F count with
  | nil => rfl
  | cons block rest ih =>
    obtain ⟨receipts, hok⟩ := h [] block (by simp)
    have hstep : F.applyBlock P block = ((F.applyBlock P block).1, .ok receipts) :=
      Prod.ext rfl hok
    have hrest := ih (count + 1) (F.applyBlock P block).1 (fun pre b hpre =>
      h (block :: pre) b (by simpa using hpre))
    rw [applyBlocksFrom, hstep]
    dsimp only
    rw [hrest, Runs.run_cons, List.length_cons, Nat.add_right_comm, Nat.add_assoc]

/-- Replication. Under any deliveries of a proposer's blocks a fresh ledger holds
a prefix of the chain and the accounts the proposer had at that height; delivery
in height order, one by one or as a batch, always succeeds and copies the whole
chain and the transaction index. -/
theorem replication (genesis : GenesisConfig) (hS : genesis.supply ≤ 2 ^ 128 - 1)
    (calls : List Call) (hlocal : ∀ c ∈ calls, c.Local) :
    (∀ deliveries, (∀ block ∈ deliveries, block ∈ (proposed P genesis calls).blocks) →
      (deliver P genesis deliveries).blocks <+: (proposed P genesis calls).blocks ∧
      (∃ pre, pre <+: calls ∧
        (proposed P genesis pre).height = (deliver P genesis deliveries).height) ∧
      ∀ pre, pre <+: calls →
        (proposed P genesis pre).height = (deliver P genesis deliveries).height →
          (deliver P genesis deliveries).store.state = (proposed P genesis pre).store.state ∧
          (deliver P genesis deliveries).stateRoot P = (proposed P genesis pre).stateRoot P) ∧
    (∀ pre block, pre ++ [block] <+: (proposed P genesis calls).blocks →
      ∃ receipts, ((deliver P genesis pre).applyBlock P block).2 = .ok receipts) ∧
    (deliver P genesis (proposed P genesis calls).blocks).blocks =
      (proposed P genesis calls).blocks ∧
    (deliver P genesis (proposed P genesis calls).blocks).txIndex =
      (proposed P genesis calls).txIndex ∧
    (initFromGenesis P genesis).applyBlocksBatch P (proposed P genesis calls).blocks =
      (deliver P genesis (proposed P genesis calls).blocks,
        .ok (proposed P genesis calls).blocks.length) := by
  have hrep := replicated_proposed (P := P) hS hlocal
  refine ⟨?_, hrep.accepted, hrep.twin.blocks_eq, hrep.twin.txIndex_eq, ?_⟩
  · intro deliveries hmem
    obtain ⟨k, hk0, hkn, heq⟩ := hrep.deliver_eq_take deliveries hmem
    have hheight := hrep.height_deliver_take hk0 hkn
    rw [heq]
    refine ⟨?_, ?_, ?_⟩
    · have hne : (proposed P genesis calls).blocks.take k ≠ [] :=
        List.length_pos_iff.mp (by rw [List.length_take]; omega)
      rw [hrep.chain_eq _ (List.take_prefix k _) hne]
      exact List.take_prefix k _
    · have hlen := (proposed P genesis calls).length_blocks
      exact exists_proposed_height genesis hlocal (by omega)
    · intro pre hpre hsame
      have hlen := (proposed P genesis pre).length_blocks
      have hblocks : (proposed P genesis pre).blocks =
          (proposed P genesis calls).blocks.take k := by
        have hchain := proposed_blocks_mono (P := P) genesis hpre hlocal
        rw [List.prefix_iff_eq_take.mp hchain]
        congr 1
        omega
      have htwin := (replicated_proposed (P := P) hS
        (fun c hc => hlocal c (hpre.subset hc))).twin
      rw [hblocks] at htwin
      exact ⟨htwin.state_eq, by simp only [stateRoot, Store.computeRoot, htwin.state_eq]⟩
  · have hbatch := applyBlocksFrom_ok 0 (initFromGenesis P genesis)
      (proposed P genesis calls).blocks hrep.accepted
    rwa [Nat.zero_add] at hbatch

/-- Two transfers of one sender, submitted and mined one after the other. -/
def proposerCalls : List Call :=
  [.submit (Devnet.transferTx 0), .mine (Devnet.addressOf 9), .submit (Devnet.transferTx 1),
    .mine (Devnet.addressOf 9)]

open Devnet in
theorem replication_devnet :
    (proposed primitives (devGenesis []) proposerCalls).blocks.length = 3 ∧
      (deliver primitives (devGenesis [])
          (proposed primitives (devGenesis []) proposerCalls).blocks.reverse).blocks <+:
        (proposed primitives (devGenesis []) proposerCalls).blocks :=
  ⟨by decide +kernel,
    ((replication (devGenesis []) (by decide +kernel) proposerCalls (by decide +kernel)).1
      (proposed primitives (devGenesis []) proposerCalls).blocks.reverse
      (fun _ hb => List.mem_reverse.mp hb)).1⟩

end ChainLedger

end Sprax
