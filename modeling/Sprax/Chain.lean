import Sprax.Replication
import Sprax.Votes

/-!
# The header chain of a ledger

Blocks are only ever appended, and the one operation that overwrites a stored
block leaves its header alone. A ledger is therefore described over time by its
list of headers, which grows at the end: by the block mined, or by a received
block that names the next height and the latest hash.
-/
namespace Sprax
open Std FiniteMap

namespace ChainLedger
variable {P : Primitives}

/-- The headers of the chain, by height. -/
def headers (L : ChainLedger) : List BlockHeader := L.blocks.map Block.header

theorem length_headers (L : ChainLedger) : L.headers.length = L.height + 1 := by
  rw [headers, List.length_map, length_blocks]

theorem height_le_of_headers_prefix {L L' : ChainLedger} (h : L.headers <+: L'.headers) :
    L.height ≤ L'.height := by
  have hlen := h.length_le
  rw [length_headers, length_headers] at hlen
  omega

theorem getElem?_headers (L : ChainLedger) (h : ℕ) :
    L.headers[h]? = (L.getBlockByHeight h).map Block.header := by
  rw [headers, List.getElem?_map, getBlockByHeight]

@[simp] theorem mineBlock_headers (L : ChainLedger) (proposer : Address) :
    (L.mineBlock P proposer).1.headers = L.headers ++ [(L.mineBlock P proposer).2.header] := by
  simp [headers, mineBlock, commitBlock]

theorem height_of_headers_append {L L' : ChainLedger} {header : BlockHeader}
    (happend : L'.headers = L.headers ++ [header]) : L'.height = L.height + 1 := by
  have hlen := L'.length_headers
  rw [happend, List.length_append, length_headers] at hlen
  simpa using hlen.symm

@[simp] theorem mineBlock_height (L : ChainLedger) (proposer : Address) :
    (L.mineBlock P proposer).1.height = L.height + 1 :=
  height_of_headers_append (L.mineBlock_headers proposer)

@[simp] theorem submitTransaction_headers (L : ChainLedger) (tx : Transaction) :
    (L.submitTransaction P tx).1.headers = L.headers := by
  rcases submitTransaction_cases (P := P) L tx with h | h
  · rw [h]
  · rw [h]
    rfl

@[simp] theorem setLastCommit_headers (L : ChainLedger) (h : ℕ) (sigs : List CommitSignature) :
    (L.setLastCommit P h sigs).1.headers = L.headers := by
  unfold setLastCommit
  split
  · rfl
  · rename_i block hblock
    obtain ⟨hlt, hget⟩ := List.getElem?_eq_some_iff.mp hblock
    simp only [headers, List.map_set]
    apply List.ext_getElem (by simp)
    intro i h₁ h₂
    by_cases hi : h = i
    · subst hi
      simp [hget]
    · simp [hi]

/-- An applied block is appended or leaves the chain as it is. -/
theorem applyBlock_headers (L : ChainLedger) (block : Block) :
    (L.applyBlock P block).1.headers = L.headers ∨
      L.Extends P block.header ∧
        (L.applyBlock P block).1.headers = L.headers ++ [block.header] := by
  have houtcome := applyBlock_outcome (P := P) L block
  generalize L.applyBlock P block = result at houtcome
  cases houtcome with
  | ignored | refused | failed | mismatched => exact Or.inl rfl
  | accepted b hext =>
    refine Or.inr ⟨hext, ?_⟩
    simp [headers, acceptBlock, commitBlock]

/-- Success means that the block's height is reached: by this block if it
extends the chain, by an earlier one otherwise. -/
theorem applyBlock_ok {L : ChainLedger} {block : Block} {receipts : List TxReceipt}
    (h : (L.applyBlock P block).2 = .ok receipts) :
    (block.header.height ≤ L.height ∧ (L.applyBlock P block).1 = L) ∨
      L.Extends P block.header ∧
        (L.applyBlock P block).1.headers = L.headers ++ [block.header] := by
  have houtcome := applyBlock_outcome (P := P) L block
  generalize L.applyBlock P block = result at houtcome h
  cases houtcome with
  | ignored hold => exact Or.inl ⟨hold, rfl⟩
  | refused | failed | mismatched => cases h
  | accepted b hext =>
    refine Or.inr ⟨hext, ?_⟩
    simp [headers, acceptBlock, commitBlock]

theorem le_height_of_applyBlock_ok {L : ChainLedger} {block : Block} {receipts : List TxReceipt}
    (h : (L.applyBlock P block).2 = .ok receipts) :
    block.header.height ≤ (L.applyBlock P block).1.height := by
  rcases applyBlock_ok h with ⟨hold, hledger⟩ | ⟨hext, happend⟩
  · rw [hledger]
    exact hold
  · rw [height_of_headers_append happend, hext.height_eq]

end ChainLedger

namespace Node
variable {P : Primitives}

/-- What a step does to the ledger of the node. -/
inductive LedgerMove (P : Primitives) (n : Node) : Event → ChainLedger → Prop
  | same (ev : Event) : LedgerMove P n ev n.ledger
  | mined {h r : ℕ} {proposer : Address} (hp : n.phase = .proposing h r proposer) :
      LedgerMove P n .mine (n.ledger.mineBlock P proposer).1
  | applied {h r : ℕ} {proposer : Address} {block : Block} {o : IterOrder Hash32}
      (hp : n.phase = .applying h r proposer block) :
      LedgerMove P n (.apply o) (n.ledger.applyBlock P block).1
  | gossiped (block : Block) : LedgerMove P n (.gossipBlock block) (n.ledger.applyBlock P block).1
  | submitted (tx : Transaction) : LedgerMove P n (.gossipTx tx) (n.ledger.submitTransaction P tx).1
  | finalized {h : ℕ} {hash : Hash32} {sigs : List CommitSignature}
      (hp : n.phase = .finalizing h hash sigs) :
      LedgerMove P n .finalize (n.ledger.setLastCommit P h sigs).1

@[simp] theorem countPrecommit_ledger (n : Node) (h r : ℕ) (vote : Vote) (o : IterOrder Hash32) :
    (n.countPrecommit h r vote o).1.ledger = n.ledger := by
  obtain ⟨phase, hframe⟩ := n.countPrecommit_frame h r vote o
  rw [hframe]

@[simp] theorem countVote_ledger (n : Node) (h r : ℕ) (vote : Vote) (o : IterOrder Hash32) :
    (n.countVote h r vote o).1.ledger = n.ledger := by
  obtain ⟨engine, phase, hframe⟩ := n.countVote_frame h r vote o
  rw [hframe]

@[simp] theorem slashConflict_ledger (n : Node) (vote : Vote) :
    (n.slashConflict vote).1.ledger = n.ledger := by
  obtain ⟨staking, hframe⟩ := n.slashConflict_frame vote
  rw [hframe]

theorem ledger_moved (n : Node) (ev : Event) : LedgerMove P n ev (n.next P ev).ledger := by
  have hfired := step_fired (P := P) n ev
  unfold next
  generalize n.step P ev = result at hfired
  cases hfired with
  | mined hp => exact .mined hp
  | applied hp | applyFailed hp => exact .applied hp
  | reacted =>
    rw [countPrecommit_ledger]
    exact .same _
  | voted =>
    rw [countVote_ledger, slashConflict_ledger]
    exact .same _
  | finalized hp => exact .finalized hp
  | gossipedBlock block => exact .gossiped block
  | gossipedTx tx => exact .submitted tx
  | _ => exact .same _

/-- The chain of a node only grows. -/
theorem headers_next (n : Node) (ev : Event) :
    n.ledger.headers <+: (n.next P ev).ledger.headers := by
  have hmoved := ledger_moved (P := P) n ev
  generalize (n.next P ev).ledger = L at hmoved
  cases hmoved with
  | same => exact List.prefix_rfl
  | mined =>
    rw [ChainLedger.mineBlock_headers]
    exact List.prefix_append _ _
  | applied | gossiped =>
    rcases ChainLedger.applyBlock_headers (P := P) n.ledger _ with hsame | ⟨-, happend⟩
    · rw [hsame]
    · rw [happend]
      exact List.prefix_append _ _
  | submitted => rw [ChainLedger.submitTransaction_headers]
  | finalized => rw [ChainLedger.setLastCommit_headers]

theorem height_le_next (n : Node) (ev : Event) : n.ledger.height ≤ (n.next P ev).ledger.height :=
  ChainLedger.height_le_of_headers_prefix (n.headers_next ev)

end Node

end Sprax
