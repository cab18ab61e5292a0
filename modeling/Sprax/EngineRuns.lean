import Sprax.Quorums
import Sprax.Runs
import Sprax.Devnet

/-!
# Runs of engine calls

The calls that a driver makes on its engine, with what each of them can do. A proposal
and a prevote quorum set the step without looking at it, so the step goes back when one
of them comes late: a proposal after the prevotes, a prevote after the commit. Nothing
else sets it back.
-/
namespace Sprax
open Std FiniteMap

/-- The calls of a driver on its engine. The enumeration orders of the tables that a call
builds belong to it. -/
inductive EngineCall
  | startHeight (height : ℕ)
  | setRound (round : ℕ)
  | proposeBlock (blockHash : Hash32) (proposer : Address)
  | receivePrevote (vote : Vote) (o : IterOrder Hash32)
  | receivePrecommit (vote : Vote) (o : IterOrder Hash32)

/-- Place in the order of the steps. -/
def RoundStep.rank : RoundStep → ℕ
  | .newHeight => 0
  | .newRound => 1
  | .propose => 2
  | .prevote => 3
  | .precommit => 4
  | .commit => 5

theorem RoundStep.rank_le_five (step : RoundStep) : step.rank ≤ 5 := by
  cases step <;> decide

/-- Neither a new height nor a new round. -/
def EngineCall.WithinRound : EngineCall → Prop
  | .startHeight _ | .setRound _ => False
  | .proposeBlock .. | .receivePrevote .. | .receivePrecommit .. => True

instance : DecidablePred EngineCall.WithinRound
  | .startHeight _ | .setRound _ => isFalse id
  | .proposeBlock .. | .receivePrevote .. | .receivePrecommit .. => isTrue trivial

namespace BftConsensusEngine

def perform (E : BftConsensusEngine) : EngineCall → BftConsensusEngine
  | .startHeight height => E.startHeight height
  | .setRound round => E.setRound round
  | .proposeBlock blockHash proposer => (E.proposeBlock blockHash proposer).1
  | .receivePrevote vote o => (E.receivePrevote o vote).1
  | .receivePrecommit vote o => (E.receivePrecommit o vote).1

/-- The engine with a prevote in its slot, if the slot was free. -/
def withPrevote (E : BftConsensusEngine) (vote : Vote) : BftConsensusEngine :=
  { E with prevotes := E.prevotes.insertIfNew vote.key vote }

def withPrecommit (E : BftConsensusEngine) (vote : Vote) : BftConsensusEngine :=
  { E with precommits := E.precommits.insertIfNew vote.key vote }

def withStep (E : BftConsensusEngine) (step : RoundStep) : BftConsensusEngine :=
  { E with state := { E.state with step := step } }

theorem withPrevote_votesOf {E : BftConsensusEngine} {vote : Vote}
    (htype : vote.voteType = .prevote) (voteType : VoteType) :
    (E.withPrevote vote).votesOf voteType =
      if vote.voteType = voteType then (E.votesOf voteType).insertIfNew vote.key vote
      else E.votesOf voteType := by
  rw [htype]
  cases voteType <;> rfl

theorem withPrecommit_votesOf {E : BftConsensusEngine} {vote : Vote}
    (htype : vote.voteType = .precommit) (voteType : VoteType) :
    (E.withPrecommit vote).votesOf voteType =
      if vote.voteType = voteType then (E.votesOf voteType).insertIfNew vote.key vote
      else E.votesOf voteType := by
  rw [htype]
  cases voteType <;> rfl

theorem counted_withPrevote {E : BftConsensusEngine} {vote : Vote}
    (htype : vote.voteType = .prevote) : Counted E (E.withPrevote vote) vote true :=
  ⟨rfl, rfl, rfl, rfl, by simpa using withPrevote_votesOf htype⟩

theorem counted_withPrecommit {E : BftConsensusEngine} {vote : Vote}
    (htype : vote.voteType = .precommit) : Counted E (E.withPrecommit vote) vote true :=
  ⟨rfl, rfl, rfl, rfl, by simpa using withPrecommit_votesOf htype⟩

@[simp] theorem withStep_votesOf (E : BftConsensusEngine) (step : RoundStep) :
    (E.withStep step).votesOf = E.votesOf := by
  funext voteType
  cases voteType <;> rfl

theorem Counted.withStep {E E' : BftConsensusEngine} {vote : Vote} {stored : Bool}
    (h : Counted E E' vote stored) (step : RoundStep) : Counted E (E'.withStep step) vote stored :=
  ⟨h.valSet_eq, h.proposedBlocks_eq, h.height_eq, h.round_eq, by simpa using h.votes⟩

/-- A vote of this type for the current height and round by a member. -/
def Accepts (E : BftConsensusEngine) (voteType : VoteType) (vote : Vote) : Prop :=
  vote.voteType = voteType ∧ vote.height = E.state.height ∧ vote.round = E.state.round ∧
    vote.validatorAddress ∈ E.valSet.members

instance (E : BftConsensusEngine) (voteType : VoteType) (vote : Vote) :
    Decidable (E.Accepts voteType vote) := inferInstanceAs (Decidable (_ ∧ _ ∧ _ ∧ _))

theorem checkVote_ok_iff {E : BftConsensusEngine} {voteType : VoteType} {text : String}
    {vote : Vote} :
    E.checkVote voteType text vote = .ok () ↔ E.Accepts voteType vote := by
  constructor
  · intro h
    obtain ⟨htype, hheight, hround, validator, hfind⟩ := checkVote_ok h
    exact ⟨htype, hheight, hround, ValidatorSet.mem_members_iff_find.mpr (by rw [hfind]; rfl)⟩
  · rintro ⟨htype, hheight, hround, hmember⟩
    obtain ⟨validator, hfind⟩ :=
      Option.isSome_iff_exists.mp (ValidatorSet.mem_members_iff_find.mp hmember)
    simp [checkVote, htype, hheight, hround, hfind]

theorem not_accepts_of_error {E : BftConsensusEngine} {voteType : VoteType} {text : String}
    {vote : Vote} {e : ConsensusError} (h : E.checkVote voteType text vote = .error e) :
      ¬ E.Accepts voteType vote := by
  intro haccepts
  rw [checkVote_ok_iff.mpr haccepts] at h
  cases h

/-- A prevote is refused, or stored, or stored and completes a quorum. -/
inductive Prevoted (E : BftConsensusEngine) (o : IterOrder Hash32) (vote : Vote) :
    BftConsensusEngine × Except ConsensusError Bool → Prop
  | refused (e : ConsensusError) (hrefused : ¬ E.Accepts .prevote vote) : Prevoted E o vote
      (E, .error e)
  | stored (haccepts : E.Accepts .prevote vote)
      (hnone : (E.withPrevote vote).hasPrevoteQuorum E.state.height E.state.round = false) :
      Prevoted E o vote (E.withPrevote vote, .ok false)
  | advanced (haccepts : E.Accepts .prevote vote)
      (hquorum : (E.withPrevote vote).hasPrevoteQuorum E.state.height E.state.round = true) :
      Prevoted E o vote ((E.withPrevote vote).lockOnQuorum o, .ok true)

theorem prevoted_receivePrevote (E : BftConsensusEngine) (o : IterOrder Hash32) (vote : Vote) :
    E.Prevoted o vote (E.receivePrevote o vote) := by
  unfold receivePrevote
  cases hcheck : E.checkVote .prevote "expected Prevote vote" vote with
  | error e => exact .refused e (not_accepts_of_error hcheck)
  | ok u =>
    have haccepts := checkVote_ok_iff.mp hcheck
    dsimp only
    split
    · rename_i hquorum
      exact .advanced haccepts hquorum
    · rename_i hnone
      exact .stored haccepts (Bool.eq_false_iff.mpr hnone)

/-- A precommit is refused, or stored, or stored and completes a commit. -/
inductive Precommitted (E : BftConsensusEngine) (o : IterOrder Hash32) (vote : Vote) :
    BftConsensusEngine × Except ConsensusError (Option (Hash32 × List CommitSignature)) → Prop
  | refused (e : ConsensusError) (hrefused : ¬ E.Accepts .precommit vote) :
      Precommitted E o vote (E, .error e)
  | stored (haccepts : E.Accepts .precommit vote)
      (hnone : (E.withPrecommit vote).getPrecommittedBlockWithQuorum o E.state.height
        E.state.round = none) :
      Precommitted E o vote (E.withPrecommit vote, .ok none)
  | committed {hash : Hash32} (haccepts : E.Accepts .precommit vote)
      (hquorum : (E.withPrecommit vote).getPrecommittedBlockWithQuorum o E.state.height
        E.state.round = some hash) :
      Precommitted E o vote ((E.withPrecommit vote).withStep .commit,
        .ok (some (hash,
          (E.withPrecommit vote).aggregateCommitSignatures E.state.height E.state.round hash)))

theorem precommitted_receivePrecommit (E : BftConsensusEngine) (o : IterOrder Hash32)
    (vote : Vote) :
    E.Precommitted o vote (E.receivePrecommit o vote) := by
  unfold receivePrecommit
  cases hcheck : E.checkVote .precommit "expected Precommit vote" vote with
  | error e => exact .refused e (not_accepts_of_error hcheck)
  | ok u =>
    have haccepts := checkVote_ok_iff.mp hcheck
    dsimp only
    split
    · rename_i hnone
      exact .stored haccepts hnone
    · rename_i hash hquorum
      exact .committed haccepts hquorum

/-- A proposal is refused, or recorded with the step set to prevoting. -/
inductive Proposed (E : BftConsensusEngine) (blockHash : Hash32) (proposer : Address) :
    BftConsensusEngine × Except ConsensusError Unit → Prop
  | refused (e : ConsensusError) (hforeign : proposer ∉ E.valSet.members) :
      Proposed E blockHash proposer (E, .error e)
  | recorded (hmember : proposer ∈ E.valSet.members) :
      Proposed E blockHash proposer
        ({ E.withStep .prevote with
            proposedBlocks :=
              E.proposedBlocks.insert (E.state.height, E.state.round) blockHash }, .ok ())

theorem proposed_proposeBlock (E : BftConsensusEngine) (blockHash : Hash32) (proposer : Address) :
    E.Proposed blockHash proposer (E.proposeBlock blockHash proposer) := by
  unfold proposeBlock
  split
  · rename_i hnone
    refine .refused _ (fun hmember => ?_)
    rw [ValidatorSet.mem_members_iff_find] at hmember
    simp_all
  · rename_i hsome
    exact .recorded (ValidatorSet.mem_members_iff_find.mpr
      (Option.isSome_iff_ne_none.mpr (by simpa using hsome)))

theorem lockOnQuorum_step (o : IterOrder Hash32) (E : BftConsensusEngine) :
    (E.lockOnQuorum o).state.step = .precommit := by
  unfold lockOnQuorum
  dsimp only
  split <;> rfl

/-- A call that comes too late for the step: a member's proposal when the prevotes are
through, or a prevote after the commit with which some choice has a quorum of prevotes. -/
def ComesLate (E : BftConsensusEngine) : EngineCall → Prop
  | .proposeBlock _ proposer =>
    proposer ∈ E.valSet.members ∧ (E.state.step = .precommit ∨ E.state.step = .commit)
  | .receivePrevote vote _ =>
    E.Accepts .prevote vote ∧ E.state.step = .commit ∧
      (E.withPrevote vote).hasPrevoteQuorum E.state.height E.state.round = true
  | _ => False

instance (E : BftConsensusEngine) : DecidablePred E.ComesLate
  | .proposeBlock .. => inferInstanceAs (Decidable (_ ∧ _))
  | .receivePrevote .. => inferInstanceAs (Decidable (_ ∧ _ ∧ _))
  | .startHeight _ | .setRound _ | .receivePrecommit .. => isFalse id

/-- A call lowers the step exactly if it comes late. -/
theorem rank_le_perform_iff (E : BftConsensusEngine) {c : EngineCall} (hc : c.WithinRound) :
    E.state.step.rank ≤ (E.perform c).state.step.rank ↔ ¬ E.ComesLate c := by
  cases c with
  | startHeight height | setRound round => exact hc.elim
  | proposeBlock blockHash proposer =>
    have hcall := E.proposed_proposeBlock blockHash proposer
    simp only [perform, ComesLate]
    generalize E.proposeBlock blockHash proposer = result at hcall ⊢
    cases hcall with
    | refused e hforeign => simp [hforeign]
    | recorded hmember =>
      simp only [withStep, hmember, true_and]
      cases E.state.step <;> simp [RoundStep.rank]
  | receivePrevote vote o =>
    have hcall := E.prevoted_receivePrevote o vote
    simp only [perform, ComesLate]
    generalize E.receivePrevote o vote = result at hcall ⊢
    cases hcall with
    | refused e hrefused => simp [hrefused]
    | stored haccepts hnone =>
      refine iff_of_true le_rfl (fun hlate => ?_)
      rw [hnone] at hlate
      cases hlate.2.2
    | advanced haccepts hquorum =>
      simp only [lockOnQuorum_step, haccepts, hquorum, true_and, and_true]
      cases E.state.step <;> simp [RoundStep.rank]
  | receivePrecommit vote o =>
    have hcall := E.precommitted_receivePrecommit o vote
    simp only [perform, ComesLate, not_false_eq_true, iff_true]
    generalize E.receivePrecommit o vote = result at hcall ⊢
    cases hcall with
    | refused | stored => exact le_rfl
    | committed => exact RoundStep.rank_le_five _

/-- Within a round the step never goes back exactly if no call comes late. -/
theorem steps_forward_iff (E : BftConsensusEngine) (calls : List EngineCall)
    (hcalls : ∀ c ∈ calls, c.WithinRound) :
    (∀ fs gs, fs ++ gs <+: calls → (Runs.run perform E fs).state.step.rank ≤
      (Runs.run perform E (fs ++ gs)).state.step.rank) ↔
      Runs.Along (fun E c => ¬ E.ComesLate c) perform E calls := by
  rw [← Runs.along_le_iff (m := fun E : BftConsensusEngine => E.state.step.rank)]
  exact Runs.along_congr (fun E c hc => E.rank_le_perform_iff (hcalls c hc))

section Scenario
open Devnet

/-- Four validators of one unit of power each. -/
def quartet : ValidatorSet :=
  okValue (ValidatorSet.new ([1, 2, 3, 4].map (fun n => ⟨addressOf n, [], 1, 0⟩)))
    (by decide +kernel)

/-- The votes of some of them for one block at height 1. -/
def ballotsOf (voteType : VoteType) (voters : List UInt8) : List EngineCall :=
  voters.map (fun n =>
    let vote : Vote := ⟨voteType, 1, 0, some Hash32.zero, addressOf n, []⟩
    match voteType with
    | .prevote => .receivePrevote vote (.listed _)
    | .precommit => .receivePrecommit vote (.listed _))

/-- A proposal and the prevotes and precommits of three of them. -/
def threeVoters : List EngineCall :=
  [.proposeBlock Hash32.zero (addressOf 1)] ++ ballotsOf .prevote [1, 2, 3] ++
    ballotsOf .precommit [1, 2, 3]

/-- The prevote of the fourth validator after the commit takes the step back, and so does
a second proposal after the prevotes. -/
theorem late_calls_set_back :
    (Runs.run perform ((new 1 quartet).startHeight 1) threeVoters).state.step = .commit ∧
      (Runs.run perform ((new 1 quartet).startHeight 1)
        (threeVoters ++ ballotsOf .prevote [4])).state.step = .precommit ∧
      (Runs.run perform ((new 1 quartet).startHeight 1)
        (threeVoters.take 4)).state.step = .precommit ∧
      (Runs.run perform ((new 1 quartet).startHeight 1)
        (threeVoters.take 4 ++ [.proposeBlock Hash32.zero (addressOf 1)])).state.step =
          .prevote := by
  decide +kernel

/-- With the calls in order the step after the prevotes is before that after the precommits. -/
theorem steps_forward_devnet :
    (Runs.run perform ((new 1 quartet).startHeight 1) (threeVoters.take 4)).state.step.rank ≤
      (Runs.run perform ((new 1 quartet).startHeight 1)
        (threeVoters.take 4 ++ threeVoters.drop 4)).state.step.rank := by
  have hforward :=
      (steps_forward_iff ((new 1 quartet).startHeight 1) threeVoters (by decide +kernel)).mpr
    (by decide +kernel)
  exact hforward (threeVoters.take 4) (threeVoters.drop 4) (by rw [List.take_append_drop])

end Scenario

end BftConsensusEngine

end Sprax
