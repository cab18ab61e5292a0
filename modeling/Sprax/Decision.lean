import Mathlib.Algebra.BigOperators.Ring.Finset
import Mathlib.Tactic.Ring
import Sprax.Fork
import Sprax.Progress

/-!
# The drivers of a round come to rest with the block decided

A driver that goes on and a vote that is read use up what the votes still to come allow for, so
the seats are busy for a bounded number of steps. Once all have accepted the block, they come to
rest only with every vote read, so every seat has seen the quorum of prevotes, has precommitted,
and has seen the quorum of precommits; until then some step is open to them.
-/
namespace Sprax
open Std FiniteMap Runs

namespace Assembly
variable {P : Primitives} {ι : Type}

/-- A driver goes on, or its vote loop takes a vote. -/
def Advances (P : Primitives) (w : Assembly ι) : Motion ι → Prop
  | .act i ev => ((w i).node.next P ev).phase ≠ (w i).node.phase
  | .read i v _ => (w i).node.phase.reads = true ∧ v ∈ (w i).channel
  | .arrive .. => False

instance decidableAdvances (w : Assembly ι) : ∀ m, Decidable (Advances P w m)
  | .act i ev => inferInstanceAs (Decidable (((w i).node.next P ev).phase ≠ (w i).node.phase))
  | .read i v _ => inferInstanceAs (Decidable ((w i).node.phase.reads = true ∧ v ∈ (w i).channel))
  | .arrive .. => inferInstanceAs (Decidable False)

end Assembly

namespace Round
variable {P : Primitives} {ι : Type} [Fintype ι] {R : Round P ι}

section Quiet
variable {w : Assembly ι}

section Accepted
variable (haccepted : ∀ i, ¬ R.Pending (w i).node.phase) (hquiet : w.Quiet)
include haccepted hquiet

end Accepted

end Quiet

variable {w : Assembly ι}

variable [DecidableEq ι]

section Rounds
variable {motions : List (Motion ι)}

section Scenario
open Devnet

/-- On the development network whatever a key signs verifies. -/
theorem verify_sign (key : Ed25519Keypair) (message : Bytes) :
    Ed25519Keypair.verify primitives (key.publicKeyBytes primitives) message
      (key.sign primitives message) = .ok () := by
  have hkey : (key.publicKeyBytes primitives).length = 32 := by
    simp [Ed25519Keypair.publicKeyBytes, primitives, publicKey]
  have hsig : (key.sign primitives message).length = 64 := by
    simp [Ed25519Keypair.sign, primitives, signature, Hash32.length_eq]
  have hstrict : primitives.ed25519VerifyStrict (key.publicKeyBytes primitives) message
      (key.sign primitives message) = true := by
    simp [primitives, Ed25519Keypair.sign, Ed25519Keypair.publicKeyBytes]
  have hpoint : primitives.ed25519VerifyingKey (key.publicKeyBytes primitives) = .ok () := rfl
  simp [Ed25519Keypair.verify, hkey, hsig, hstrict, hpoint]

/-- Two nodes of equal power after the election of the second as the proposer. -/
def pairAssembly : Assembly Bool :=
  fun i => ⟨run (Node.next primitives) (World.twoWorld i).1 [.attempt, .elect (.listed _)], []⟩

theorem pair_exact : (pairAssembly true).node.engine.valSet.Exact :=
  ⟨by decide +kernel, by decide +kernel, by decide +kernel⟩

theorem pair_members (i : Bool) :
    ∃ v, (pairAssembly true).node.engine.valSet.find
      ((keypair (pairKey i)).address primitives) = some v ∧
      v.publicKey = (keypair (pairKey i)).publicKeyBytes primitives := by
  have hfound : ((pairAssembly true).node.engine.valSet.find
      ((keypair (pairKey i)).address primitives)).map Validator.publicKey =
        some ((keypair (pairKey i)).publicKeyBytes primitives) := by
    cases i <;> decide +kernel
  exact Option.map_eq_some_iff.mp hfound

/-- The round in which both vote for the proposal of the second. -/
def pairRound : Round primitives Bool where
  keys i := keypair (pairKey i)
  valSet := (pairAssembly true).node.engine.valSet
  height := 1
  number := 0
  blockHash := Hasher.blockHash primitives Node.goodBlock.header
  exact := pair_exact
  distinct := by decide +kernel
  member := pair_members
  signs i := verify_sign _
  quorum := by decide +kernel

instance decidablePending (p : Phase) : Decidable (pairRound.Pending p) :=
  decidable_of_iff (p.offer.map (fun offer => (offer.1, offer.2.1)) = some (1, 0)) (by
    simp only [Option.map_eq_some_iff, Pending, Prod.exists, Prod.mk.injEq]
    constructor
    · rintro ⟨h, r, proposer, hoffer, rfl, rfl⟩
      exact ⟨proposer, hoffer⟩
    · rintro ⟨proposer, hoffer⟩
      exact ⟨_, _, proposer, hoffer, rfl, rfl⟩)

instance decidableHolds (L : ChainLedger) : Decidable (pairRound.Holds L) :=
  decidable_of_iff ((L.blocks[1]?).map (fun block =>
    (block.header.height, Hasher.blockHash primitives block.header)) =
      some (1, pairRound.blockHash)) (by
      simp only [Option.map_eq_some_iff, Holds, Prod.mk.injEq]
      rfl)

instance decidableEntering (n : Node) : Decidable (pairRound.Entering n) :=
  inferInstanceAs (Decidable (pairRound.Pending n.phase ∨
    n.phase = .prevoting 1 0 pairRound.blockHash ∧ pairRound.Holds n.ledger))

instance decidableQuiet (w : Assembly Bool) : Decidable w.Quiet :=
  inferInstanceAs (Decidable (∀ i, (w i).node.phase.busy = false ∧
    ((w i).node.phase.reads = true → (w i).channel = [])))

end Scenario

end Rounds

end Round

end Sprax
