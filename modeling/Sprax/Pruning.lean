import Sprax.Reopen

/-!
# Pruning and reopening

`prune_history` deletes the blocks of heights 1 up to, but not including, the
cutoff `current_height - keep_blocks`. The loader walks every height from 0 to the
persisted one and stops at the first block that is missing. The two agree exactly
as long as nothing is deleted.
-/
namespace Sprax
open Std FiniteMap

inductive PruningStrategy
  | archive
  | keepRecent (keepBlocks : ℕ)
  | aggressive (keepBlocks : ℕ)
  deriving DecidableEq

namespace PruningStrategy

/-- The number of blocks to keep, if any are to go. -/
def keepBlocks : PruningStrategy → Option ℕ
  | .archive => none
  | .keepRecent keepBlocks => some keepBlocks
  | .aggressive keepBlocks => some keepBlocks

/-- The heights above `current_height - keep_blocks`; an archive keeps all. -/
def Retains (strategy : PruningStrategy) (currentHeight h : ℕ) : Prop :=
  ∀ keep ∈ strategy.keepBlocks, currentHeight < h + keep

end PruningStrategy

namespace Store

/-- Remove one block; the counter goes up if there was one. -/
def pruneBlock (acc : Store × ℕ) (h : ℕ) : Store × ℕ :=
  ({ acc.1 with chainMeta := acc.1.chainMeta.erase (u64Key blockPrefix h) },
    if (acc.1.getBlock h).isSome then acc.2 + 1 else acc.2)

def pruneHistory (s : Store) (strategy : PruningStrategy) (currentHeight : ℕ) : Store × ℕ :=
  match strategy.keepBlocks with
  | none => (s, 0)
  | some keepBlocks =>
    let cutoff := currentHeight - keepBlocks
    if cutoff = 0 then (s, 0)
    else (List.range' 1 (cutoff - 1)).foldl pruneBlock (s, 0)

theorem pruneBlock_getHeight (acc : Store × ℕ) (h : ℕ) :
    (pruneBlock acc h).1.getHeight = acc.1.getHeight := by
  have hne : u64Key blockPrefix h ≠ heightKey := by
    intro he
    have hlen := congrArg List.length he
    rw [length_blockKey, length_heightKey] at hlen
    omega
  simp only [pruneBlock, getHeight, getElem?_erase_ne _ hne]

theorem pruneBlock_getBlock_self (acc : Store × ℕ) (h : ℕ) :
    (pruneBlock acc h).1.getBlock h = none := by
  simp [pruneBlock, getBlock]

theorem pruneBlock_getBlock_none {acc : Store × ℕ} {i : ℕ} (hi : acc.1.getBlock i = none) (h : ℕ) :
    (pruneBlock acc h).1.getBlock i = none := by
  unfold getBlock at hi
  simp only [pruneBlock, getBlock, ExtTreeMap.getElem?_erase, hi, ite_self]

theorem pruneBlocks_getHeight (acc : Store × ℕ) (hs : List ℕ) :
    (hs.foldl pruneBlock acc).1.getHeight = acc.1.getHeight := by
  induction hs generalizing acc with
  | nil => rfl
  | cons h hs ih => rw [List.foldl_cons, ih, pruneBlock_getHeight]

theorem pruneBlocks_getBlock_none {acc : Store × ℕ} {i : ℕ} (hi : acc.1.getBlock i = none)
    (hs : List ℕ) : (hs.foldl pruneBlock acc).1.getBlock i = none := by
  induction hs generalizing acc with
  | nil => exact hi
  | cons h hs ih => exact ih (pruneBlock_getBlock_none hi h)

/-- With a cutoff above 1 the first block after genesis is gone and the height stays. -/
theorem pruneHistory_first {strategy : PruningStrategy} {keep currentHeight : ℕ}
    (hkeep : strategy.keepBlocks = some keep) (hcut : keep + 1 < currentHeight) (s : Store) :
    (s.pruneHistory strategy currentHeight).1.getBlock 1 = none ∧
      (s.pruneHistory strategy currentHeight).1.getHeight = s.getHeight := by
  obtain ⟨n, hn⟩ : ∃ n, currentHeight - keep - 1 = n + 1 := ⟨currentHeight - keep - 2, by omega⟩
  have hcutoff : currentHeight - keep ≠ 0 := by omega
  simp only [pruneHistory, hkeep, if_neg hcutoff, hn, List.range'_succ, List.foldl_cons]
  refine ⟨pruneBlocks_getBlock_none (pruneBlock_getBlock_self _ _) _, ?_⟩
  rw [pruneBlocks_getHeight, pruneBlock_getHeight]

/-- With a cutoff of at most 1 nothing is removed. -/
theorem pruneHistory_nothing {strategy : PruningStrategy} {currentHeight : ℕ}
    (hkeep : ∀ keep ∈ strategy.keepBlocks, currentHeight ≤ keep + 1) (s : Store) :
    s.pruneHistory strategy currentHeight = (s, 0) := by
  unfold pruneHistory
  split
  · rfl
  · rename_i keep hsome
    have hle := hkeep keep hsome
    dsimp only
    split
    · rfl
    · have hzero : currentHeight - keep - 1 = 0 := by omega
      rw [hzero]
      rfl

end Store

namespace ChainLedger
variable {P : Primitives}

/-- A loader that gets through has found every block. -/
theorem getBlock_of_rebuildLoop {s : Store} {r r' : Rebuilt} {hs : List ℕ}
    (hloop : rebuildLoop P s r hs = .ok r') {h : ℕ} (hmem : h ∈ hs) : s.getBlock h ≠ none := by
  induction hs generalizing r with
  | nil => simp at hmem
  | cons k hs ih =>
    rw [rebuildLoop] at hloop
    split at hloop
    · cases hloop
    · rename_i r₁ hblock
      rcases List.mem_cons.mp hmem with rfl | hrest
      · intro hnone
        simp only [rebuildBlock, hnone] at hblock
        cases hblock
      · exact ih hloop hrest

theorem getBlock_of_openOrInit {s : Store} {genesis : GenesisConfig} {L : ChainLedger} {H h : ℕ}
    (hheight : s.getHeight = some H) (hopen : openOrInit P s genesis = .ok L) (hle : h ≤ H) :
    s.getBlock h ≠ none := by
  simp only [openOrInit, hheight, rebuildFromStore] at hopen
  split at hopen
  · cases hopen
  · rename_i r hloop
    exact getBlock_of_rebuildLoop hloop (List.mem_range.mpr (by omega))

/-- The pruned store opens at the height it had, with every retained block unchanged. -/
def Startable (P : Primitives) (L : ChainLedger) (strategy : PruningStrategy) : Prop :=
  ∃ L', openOrInit P (L.store.pruneHistory strategy L.height).1 L.genesis = .ok L' ∧
    L'.height = L.height ∧
    ∀ h, strategy.Retains L.height h → L'.getBlockByHeight h = L.getBlockByHeight h

/-- A node can be started on its pruned store exactly if pruning removed nothing:
the strategy is to archive, or the height is at most one more than the number of
blocks to keep. -/
theorem startable_iff (genesis : GenesisConfig) (store : Store) (ops : List LedgerOp)
    (hheight : (reached P genesis store ops).height < 2 ^ 64) (strategy : PruningStrategy) :
    (reached P genesis store ops).Startable P strategy ↔
      ∀ keep ∈ strategy.keepBlocks, (reached P genesis store ops).height ≤ keep + 1 := by
  have hholds := persisted_reached (P := P) genesis store ops hheight
  generalize reached P genesis store ops = L at hholds hheight ⊢
  constructor
  · rintro ⟨L', hopen, -, -⟩ keep hkeep
    by_contra hgt
    have hcut : keep + 1 < L.height := by omega
    obtain ⟨hgone, hsame⟩ := Store.pruneHistory_first hkeep hcut L.store
    have hfound := getBlock_of_openOrInit (hsame.trans hholds.height_eq) hopen (h := 1) (by
      have hlen := L.length_blocks
      omega)
    exact hfound hgone
  · intro hkeep
    obtain ⟨L', hopen, hL'⟩ := openOrInit_holds hholds L.blocks_ne L.genesis
    refine ⟨L', ?_, ?_, fun h _ => ?_⟩
    · rw [Store.pruneHistory_nothing hkeep]
      exact hopen
    · rw [height, height, hL'.blocks_eq]
    · rw [getBlockByHeight, getBlockByHeight, hL'.blocks_eq]

open Devnet in
/-- Three blocks after genesis. -/
def threeBlocks : List LedgerOp := List.replicate 3 (.call (.mine (addressOf 9)))

open Devnet in
/-- Keeping one of three blocks deletes the first one, and the node no longer starts. -/
theorem pruned_store_unreadable :
    (reached primitives (devGenesis []) Store.empty threeBlocks).height = 3 ∧
      ¬ (reached primitives (devGenesis []) Store.empty threeBlocks).Startable primitives
        (.keepRecent 1) := by
  refine ⟨by decide +kernel, ?_⟩
  rintro ⟨L', hopen, -⟩
  have hfails : (openOrInit primitives ((reached primitives (devGenesis []) Store.empty
      threeBlocks).store.pruneHistory (.keepRecent 1)
        (reached primitives (devGenesis []) Store.empty threeBlocks).height).1
          (reached primitives (devGenesis []) Store.empty threeBlocks).genesis).isOk =
            false := by decide +kernel
  rw [hopen] at hfails
  cases hfails

open Devnet in
theorem startable_iff_devnet :
    (reached primitives (devGenesis []) Store.empty threeBlocks).Startable primitives
    (.keepRecent 2) :=
  (startable_iff (devGenesis []) Store.empty threeBlocks (by decide +kernel) _).mpr
  (by decide +kernel)

end ChainLedger

end Sprax
