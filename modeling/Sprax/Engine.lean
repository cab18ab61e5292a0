import Sprax.Validators
import Mathlib.Data.List.Dedup

/-!
# The BFT consensus engine

The two-step voting state machine. Vote tables keep the first vote seen for each
height, round and validator; quorums are found by adding up the powers behind
each block hash. The tables of powers are rebuilt for every query and enumerated
in an arbitrary order, which is an argument of the query here. A commit is
returned together with the hash it is for, which the source computes and drops.
-/
namespace Sprax
open Std FiniteMap

inductive RoundStep
  | newHeight
  | newRound
  | propose
  | prevote
  | precommit
  | commit
  deriving DecidableEq

structure RoundState where
  height : ℕ
  round : ℕ
  step : RoundStep
  lockedRound : Option ℕ
  lockedBlock : Option Hash32
  validRound : Option ℕ
  validBlock : Option Hash32
  deriving DecidableEq

def RoundState.new (height : ℕ) : RoundState := ⟨height, 0, .newHeight, none, none, none, none⟩

instance transOrdVoteKey : TransOrd (ℕ × ℕ × Address) := inferInstance

/-- Votes by height, round and validator address. -/
abbrev VoteMap := ExtTreeMap (ℕ × ℕ × Address) Vote compare

def Vote.key (v : Vote) : ℕ × ℕ × Address := (v.height, v.round, v.validatorAddress)

structure BftConsensusEngine where
  state : RoundState
  valSet : ValidatorSet
  prevotes : VoteMap
  precommits : VoteMap
  proposedBlocks : ExtTreeMap (ℕ × ℕ) Hash32 compare

/-- The votes of a round that count, with the power behind each. -/
def tallied (s : ValidatorSet) (votes : VoteMap) (height round : ℕ) : List (Vote × ℕ) :=
  votes.toList.filterMap (fun e =>
    if e.1.1 = height ∧ e.1.2.1 = round then
      (s.find e.1.2.2).map (fun v => (e.2, v.votingPower))
    else none)

/-- Power behind one choice, added up with 64-bit wrapping. -/
def powerFor (ballots : List (Vote × ℕ)) (choice : Option Hash32) : ℕ :=
  ((ballots.filter (fun b => b.1.blockHash = choice)).map (·.2)).sum % 2 ^ 64

/-- The first block hash with a quorum, in the given enumeration order. -/
def blockWithQuorum (o : IterOrder Hash32) (s : ValidatorSet) (votes : VoteMap)
    (height round : ℕ) : Option Hash32 :=
  let ballots := tallied s votes height round
  (o.arrange (ballots.filterMap (·.1.blockHash)).dedup).find?
    (fun hash => s.hasQuorum (powerFor ballots (some hash)))

namespace BftConsensusEngine

def new (initialHeight : ℕ) (valSet : ValidatorSet) : BftConsensusEngine :=
  ⟨RoundState.new initialHeight, valSet, ∅, ∅, ∅⟩

/-- The priority a member had in the previous set, if it was there. -/
def carryPriority (old : ValidatorSet) (v : Validator) : Validator :=
  match old.find v.address with
  | some w => { v with proposerPriority := w.proposerPriority }
  | none => v

def setValidatorSet (E : BftConsensusEngine) (valSet : ValidatorSet) : BftConsensusEngine :=
  { E with valSet :=
      { valSet with
        validators := valSet.validators.map (carryPriority E.valSet)
        validators_ne := by simpa using valSet.validators_ne } }

def votesOf (E : BftConsensusEngine) : VoteType → VoteMap
  | .prevote => E.prevotes
  | .precommit => E.precommits

/-- A stored vote of the same validator, type, height and round for another block. -/
def findConflictingVote (E : BftConsensusEngine) (vote : Vote) : Option Vote :=
  (E.votesOf vote.voteType)[vote.key]?.filter (fun stored => stored.blockHash ≠ vote.blockHash)

def startHeight (E : BftConsensusEngine) (height : ℕ) : BftConsensusEngine :=
  { E with
    state := { RoundState.new height with step := .propose }
    prevotes := ∅
    precommits := ∅
    proposedBlocks := ∅ }

def setRound (E : BftConsensusEngine) (round : ℕ) : BftConsensusEngine :=
  { E with state := { E.state with round := round } }

def selectProposer (E : BftConsensusEngine) : BftConsensusEngine × Validator :=
  ({ E with valSet := E.valSet.selectProposer.1 }, E.valSet.selectProposer.2)

def proposeBlock (E : BftConsensusEngine) (blockHash : Hash32) (proposer : Address) :
    BftConsensusEngine × Except ConsensusError Unit :=
  if (E.valSet.find proposer).isNone then
    (E, .error (.invalidProposer "proposer is not in active validator set"))
  else
    ({ E with
        proposedBlocks := E.proposedBlocks.insert (E.state.height, E.state.round) blockHash
        state := { E.state with step := .prevote } }, .ok ())

/-- The checks both kinds of vote pass before they are stored. -/
def checkVote (E : BftConsensusEngine) (expected : VoteType) (wrongType : String) (vote : Vote) :
    Except ConsensusError Unit :=
  if vote.voteType ≠ expected then .error (.invalidVote wrongType)
  else if vote.height ≠ E.state.height ∨ vote.round ≠ E.state.round then
    .error (.invalidVote "vote height/round mismatch")
  else if (E.valSet.find vote.validatorAddress).isNone then
    .error (.invalidVote "voter is not an active validator")
  else .ok ()

/-- Whether any choice, nil included, has a prevote quorum. -/
def hasPrevoteQuorum (E : BftConsensusEngine) (height round : ℕ) : Bool :=
  let ballots := tallied E.valSet E.prevotes height round
  ballots.any (fun b => E.valSet.hasQuorum (powerFor ballots b.1.blockHash))

def getPrevotedBlockWithQuorum (o : IterOrder Hash32) (E : BftConsensusEngine)
    (height round : ℕ) : Option Hash32 :=
  blockWithQuorum o E.valSet E.prevotes height round

def getPrecommittedBlockWithQuorum (o : IterOrder Hash32) (E : BftConsensusEngine)
    (height round : ℕ) : Option Hash32 :=
  blockWithQuorum o E.valSet E.precommits height round

/-- Lock on a prevoted block; a quorum for nil only advances the step. -/
def lockOnQuorum (o : IterOrder Hash32) (E : BftConsensusEngine) : BftConsensusEngine :=
  let E := { E with state := { E.state with step := .precommit } }
  match E.getPrevotedBlockWithQuorum o E.state.height E.state.round with
  | none => E
  | some bh =>
    { E with state :=
        { E.state with
          lockedRound := some E.state.round
          lockedBlock := some bh
          validRound := some E.state.round
          validBlock := some bh } }

def receivePrevote (o : IterOrder Hash32) (E : BftConsensusEngine) (vote : Vote) :
    BftConsensusEngine × Except ConsensusError Bool :=
  match E.checkVote .prevote "expected Prevote vote" vote with
  | .error e => (E, .error e)
  | .ok () =>
    let E := { E with prevotes := E.prevotes.insertIfNew vote.key vote }
    if E.hasPrevoteQuorum E.state.height E.state.round then (E.lockOnQuorum o, .ok true)
    else (E, .ok false)

def commitLE (a b : CommitSignature) : Prop := compare a.validatorAddress b.validatorAddress ≠ .gt

instance : DecidableRel commitLE := fun _ _ => inferInstanceAs (Decidable (compare _ _ ≠ _))

/-- Commit signatures for a block, sorted by validator; the timestamp is fixed. -/
def aggregateCommitSignatures (E : BftConsensusEngine) (height round : ℕ) (blockHash : Hash32) :
    List CommitSignature :=
  let sigs := E.precommits.toList.filterMap (fun e =>
    if e.1.1 = height ∧ e.1.2.1 = round ∧ e.2.blockHash = some blockHash then
      some ⟨e.1.2.2, e.2.signature, 1700000000⟩
    else none)
  sigs.insertionSort commitLE

def receivePrecommit (o : IterOrder Hash32) (E : BftConsensusEngine) (vote : Vote) :
    BftConsensusEngine × Except ConsensusError (Option (Hash32 × List CommitSignature)) :=
  match E.checkVote .precommit "expected Precommit vote" vote with
  | .error e => (E, .error e)
  | .ok () =>
    let E := { E with precommits := E.precommits.insertIfNew vote.key vote }
    match E.getPrecommittedBlockWithQuorum o E.state.height E.state.round with
    | none => (E, .ok none)
    | some hash =>
      let sigs := E.aggregateCommitSignatures E.state.height E.state.round hash
      ({ E with state := { E.state with step := .commit } }, .ok (some (hash, sigs)))

end BftConsensusEngine

end Sprax
