import Sprax.Wasm
import Sprax.Tables

/-!
# The governance contract

Votes, weights, heights and the proposal counter are 64-bit and wrap. A vote
writes the new tally of the proposal first and the marker of the voter second,
and a proposal is stored after the counter that names it; each pair of writes
can be cut by the gas limit.
-/
namespace Sprax.Wasm
open Std FiniteMap Effects ContractStorage

inductive ProposalStatus
  | voting
  | passed
  | rejected
  | executed
  deriving DecidableEq

/-- The `Debug` text of the status. -/
def ProposalStatus.debug : ProposalStatus → String
  | .voting => "Voting"
  | .passed => "Passed"
  | .rejected => "Rejected"
  | .executed => "Executed"

inductive VoteOption
  | yes
  | no
  | abstain
  deriving DecidableEq

/-- The `Debug` text of the option. -/
def VoteOption.debug : VoteOption → String
  | .yes => "Yes"
  | .no => "No"
  | .abstain => "Abstain"

structure Proposal where
  id : UInt64
  proposer : Address
  title : String
  description : String
  startHeight : UInt64
  endHeight : UInt64
  yesVotes : UInt64
  noVotes : UInt64
  abstainVotes : UInt64
  status : ProposalStatus
  deriving DecidableEq

structure GovConfig where
  votingPeriodBlocks : UInt64
  quorumVotesRequired : UInt64
  proposalCount : UInt64
  deriving DecidableEq

inductive GovExecuteMsg
  | submitProposal (title description : String)
  | castVote (proposalId : UInt64) (option : VoteOption) (votingWeight : UInt64)
  | tallyAndExecute (proposalId : UInt64)
  deriving DecidableEq

/-- `serde_json` at the types the contract stores. -/
structure GovJson where
  config : Json GovConfig
  proposal : Json Proposal

/-- The votes counted for one option. -/
def Proposal.votes (p : Proposal) : VoteOption → UInt64
  | .yes => p.yesVotes
  | .no => p.noVotes
  | .abstain => p.abstainVotes

namespace GovernanceContract

def keyConfig : Bytes := ascii "gov_config"

def proposalKey (id : UInt64) : Bytes := ascii "prop_" ++ u64ToBeBytes id.toNat

def voterKey (proposalId : UInt64) (voter : Address) : Bytes :=
  ascii "voted_" ++ u64ToBeBytes proposalId.toNat ++ ascii "_" ++ voter.bytes

variable (P : Primitives) (J : GovJson)

def instantiate (env : Env) (info : MessageInfo) (votingPeriodBlocks quorumVotesRequired : UInt64) :
    Exec ContractResponse := do
  let config : GovConfig := ⟨votingPeriodBlocks, quorumVotesRequired, 0⟩
  ContractStorage.set env.contractAddress keyConfig (J.config.toVec config)
  pure ⟨[⟨"gov-instantiate", [("creator", info.sender.display P),
    ("voting_period", toString votingPeriodBlocks), ("quorum", toString quorumVotesRequired)]⟩], []⟩

/-- The proposal a submission stores. -/
def newProposal (env : Env) (info : MessageInfo) (config : GovConfig) (title description : String) :
    Proposal :=
  { id := config.proposalCount + 1
    proposer := info.sender
    title := title
    description := description
    startHeight := env.blockHeight
    endHeight := env.blockHeight + config.votingPeriodBlocks
    yesVotes := 0
    noVotes := 0
    abstainVotes := 0
    status := .voting }

/-- The proposal with one more vote; the sum wraps. -/
def addVote (p : Proposal) (weight : UInt64) : VoteOption → Proposal
  | .yes => { p with yesVotes := p.yesVotes + weight }
  | .no => { p with noVotes := p.noVotes + weight }
  | .abstain => { p with abstainVotes := p.abstainVotes + weight }

/-- The status a tally gives. -/
def tallyStatus (config : GovConfig) (p : Proposal) : ProposalStatus :=
  if p.yesVotes + p.noVotes + p.abstainVotes < config.quorumVotesRequired then .rejected
  else if p.noVotes < p.yesVotes then .passed
  else .rejected

def notFound (proposalId : UInt64) : ContractError :=
  .contractNotFound s!"proposal #{proposalId} not found"

def execute (env : Env) (info : MessageInfo) : GovExecuteMsg → Exec ContractResponse
  | .submitProposal title description => do
    let confVal ← ContractStorage.get env.contractAddress keyConfig
    let confBytes ← okOr (.contractNotFound "gov config not found") confVal
    let config ← unwrap (J.config.fromSlice confBytes).toOption
    let propId := config.proposalCount + 1
    ContractStorage.set env.contractAddress keyConfig
      (J.config.toVec { config with proposalCount := propId })
    ContractStorage.set env.contractAddress (proposalKey propId)
      (J.proposal.toVec (newProposal env info config title description))
    pure ⟨[⟨"gov-proposal-submitted", [("proposal_id", toString propId),
      ("proposer", info.sender.display P), ("title", title)]⟩], []⟩
  | .castVote proposalId option votingWeight =>
    if votingWeight = 0 then fail (.invalidInput "voting weight must be > 0")
    else do
      let propVal ← ContractStorage.get env.contractAddress (proposalKey proposalId)
      let propBytes ← okOr (notFound proposalId) propVal
      let proposal ← unwrap (J.proposal.fromSlice propBytes).toOption
      if proposal.status ≠ .voting then fail (.executionFailed "proposal voting is closed")
      else if proposal.endHeight < env.blockHeight then
        fail (.executionFailed "voting period has expired")
      else do
        let votedVal ← ContractStorage.get env.contractAddress (voterKey proposalId info.sender)
        if votedVal.isSome then fail (.unauthorized "voter has already cast a ballot")
        else do
          ContractStorage.set env.contractAddress (proposalKey proposalId)
            (J.proposal.toVec (addVote proposal votingWeight option))
          ContractStorage.set env.contractAddress (voterKey proposalId info.sender) [1]
          pure ⟨[⟨"gov-vote-cast", [("proposal_id", toString proposalId),
            ("voter", info.sender.display P), ("option", option.debug),
            ("weight", toString votingWeight)]⟩], []⟩
  | .tallyAndExecute proposalId => do
    let confVal ← ContractStorage.get env.contractAddress keyConfig
    let confBytes ← unwrap confVal
    let config ← unwrap (J.config.fromSlice confBytes).toOption
    let propVal ← ContractStorage.get env.contractAddress (proposalKey proposalId)
    let propBytes ← okOr (notFound proposalId) propVal
    let proposal ← unwrap (J.proposal.fromSlice propBytes).toOption
    if env.blockHeight < proposal.endHeight then
      fail (.executionFailed "voting period still active")
    else if proposal.status ≠ .voting then fail (.executionFailed "proposal already finalized")
    else do
      let status := tallyStatus config proposal
      ContractStorage.set env.contractAddress (proposalKey proposalId)
        (J.proposal.toVec { proposal with status := status })
      pure ⟨[⟨"gov-proposal-tallied",
        [("proposal_id", toString proposalId), ("status", status.debug),
        ("yes_votes", toString proposal.yesVotes), ("no_votes", toString proposal.noVotes)]⟩], []⟩

theorem proposalKey_injective : Function.Injective proposalKey := by
  intro a b h
  have hbytes := List.append_cancel_left h
  exact UInt64.toNat_inj.mp ((u64ToBeBytes_inj a.toNat_lt b.toNat_lt).mp hbytes)

theorem voterKey_inj {i j : UInt64} {v w : Address} : voterKey i v = voterKey j w ↔ i = j ∧
    v = w := by
  constructor
  · intro h
    simp only [voterKey, List.append_assoc] at h
    obtain ⟨hid, hrest⟩ := List.append_inj (List.append_cancel_left h) (by simp)
    refine ⟨UInt64.toNat_inj.mp ((u64ToBeBytes_inj i.toNat_lt j.toNat_lt).mp hid), ?_⟩
    exact Address.ext_bytes (List.append_cancel_left hrest)
  · rintro ⟨rfl, rfl⟩
    rfl

theorem length_keyConfig : keyConfig.length = 10 := by decide +kernel

theorem length_proposalKey (id : UInt64) : (proposalKey id).length = 13 := by
  simp [proposalKey, ascii]

theorem length_voterKey (id : UInt64) (v : Address) : (voterKey id v).length = 35 := by
  simp [voterKey, ascii, v.length_eq]

theorem keyConfig_ne_proposalKey (id : UInt64) : keyConfig ≠ proposalKey id := by
  intro h
  have hlen := congrArg List.length h
  simp [length_keyConfig, length_proposalKey] at hlen

theorem keyConfig_ne_voterKey (id : UInt64) (v : Address) : keyConfig ≠ voterKey id v := by
  intro h
  have hlen := congrArg List.length h
  simp [length_keyConfig, length_voterKey] at hlen

theorem proposalKey_ne_voterKey (i j : UInt64) (v : Address) : proposalKey i ≠ voterKey j v := by
  intro h
  have hlen := congrArg List.length h
  simp [length_proposalKey, length_voterKey] at hlen

def storedConfig (s : ContractStorage) (contract : Address) : Option GovConfig :=
  (s.getRaw contract keyConfig).bind (fun v => (J.config.fromSlice v).toOption)

def storedProposal (s : ContractStorage) (contract : Address) (id : UInt64) : Option Proposal :=
  (s.getRaw contract (proposalKey id)).bind (fun v => (J.proposal.fromSlice v).toOption)

/-- The checks of a vote pass, on this proposal. -/
structure VoteOpen (s : ContractStorage) (env : Env) (info : MessageInfo) (id weight : UInt64)
    (p : Proposal) :
    Prop where
  weight_ne : weight ≠ 0
  stored : storedProposal J s env.contractAddress id = some p
  voting : p.status = .voting
  height_le : env.blockHeight ≤ p.endHeight
  unmarked : s.getRaw env.contractAddress (voterKey id info.sender) = none

/-- The cost of a vote up to the write of the tally. -/
def tallyGas (s : ContractStorage) (env : Env) (info : MessageInfo) (id : UInt64)
    (p : Proposal) : ℕ :=
  s.readGas env.contractAddress (proposalKey id) +
    s.readGas env.contractAddress (voterKey id info.sender) + writeGas (proposalKey id)
      (J.proposal.toVec p)

/-- The cost of a whole vote. -/
def ballotGas (s : ContractStorage) (env : Env) (info : MessageInfo) (id : UInt64)
    (p : Proposal) : ℕ :=
  tallyGas J s env info id p + writeGas (voterKey id info.sender) [1]

/-- The storage with the tally written. -/
def tallied (s : ContractStorage) (contract : Address) (id : UInt64) (p : Proposal) :
    ContractStorage :=
  s.setRaw contract (proposalKey id) (J.proposal.toVec p)

/-- The cost of a submission up to the write of the counter. -/
def counterGas (s : ContractStorage) (contract : Address) (config : GovConfig) : ℕ :=
  s.readGas contract keyConfig +
    writeGas keyConfig (J.config.toVec { config with proposalCount := config.proposalCount + 1 })

/-- The cost of a whole submission. -/
def submitGas (s : ContractStorage) (contract : Address) (config : GovConfig) (p : Proposal) : ℕ :=
  counterGas J s contract config + writeGas (proposalKey p.id) (J.proposal.toVec p)

/-- The storage with the counter written. -/
def counted (s : ContractStorage) (contract : Address) (config : GovConfig) : ContractStorage :=
  s.setRaw contract keyConfig
    (J.config.toVec { config with proposalCount := config.proposalCount + 1 })

variable {P J} {s : ContractStorage} {g : GasMeter} {env : Env} {info : MessageInfo}
    {R : ContractStorage → Prop}

theorem returns_submit {title description : String} :
    Returns (execute P J env info (.submitProposal title description)) ⟨s, g⟩
      (fun _ w => R w.storage) ↔
      ∃ config, storedConfig J s env.contractAddress = some config ∧
        g.Affords (submitGas J s env.contractAddress config
          (newProposal env info config title description)) ∧
        R (tallied J (counted J s env.contractAddress config) env.contractAddress
          (config.proposalCount + 1) (newProposal env info config title description)) := by
  simp only [execute, returns_bind, returns_get, returns_okOr, returns_unwrap, returns_set,
    returns_pure, GasMeter.affords_after, GasMeter.after_after, storedConfig,
    Option.bind_eq_some_iff]
  constructor
  · rintro ⟨-, bytes, hb, config, hc, -, hall, hr⟩
    exact ⟨config, ⟨bytes, hb, hc⟩, hall, hr⟩
  · rintro ⟨config, ⟨bytes, hb, hc⟩, hall, hr⟩
    have hcounter := hall.mono (Nat.le_add_right _ _)
    exact ⟨hcounter.mono (Nat.le_add_right _ _), bytes, hb, config, hc, hcounter, hall, hr⟩

/-- A failing submission changes the storage when the gas runs out between the
counter and the proposal. -/
theorem raises_submit {title description : String} :
    Raises (execute P J env info (.submitProposal title description)) ⟨s, g⟩
        (fun _ w => w.storage ≠ s ∧ R w.storage) ↔
      ∃ config, storedConfig J s env.contractAddress = some config ∧
        g.Affords (counterGas J s env.contractAddress config) ∧
        ¬ g.Affords (submitGas J s env.contractAddress config
          (newProposal env info config title description)) ∧
        counted J s env.contractAddress config ≠ s ∧
          R (counted J s env.contractAddress config) := by
  simp only [execute, raises_bind, raises_get, returns_get, raises_okOr, returns_okOr,
    raises_unwrap, returns_unwrap, raises_set, returns_set, raises_pure, GasMeter.affords_after,
    GasMeter.after_after, ne_eq, not_true_eq_false, false_and, and_false, false_or, or_false,
    storedConfig, Option.bind_eq_some_iff]
  constructor
  · rintro ⟨-, bytes, hb, config, hc, hcounter, hrest⟩
    exact ⟨config, ⟨bytes, hb, hc⟩, hcounter, hrest⟩
  · rintro ⟨config, ⟨bytes, hb, hc⟩, hcounter, hrest⟩
    exact ⟨hcounter.mono (Nat.le_add_right _ _), bytes, hb, config, hc, hcounter, hrest⟩

theorem returns_vote {id weight : UInt64} {option : VoteOption} :
    Returns (execute P J env info (.castVote id option weight)) ⟨s, g⟩ (fun _ w => R w.storage) ↔
      ∃ p, VoteOpen J s env info id weight p ∧
        g.Affords (ballotGas J s env info id (addVote p weight option)) ∧
        R ((tallied J s env.contractAddress id (addVote p weight option)).setRaw env.contractAddress
          (voterKey id info.sender) [1]) := by
  simp only [execute, returns_bind, returns_get, returns_okOr, returns_unwrap, returns_set,
    returns_pure, returns_ite, returns_fail, and_false, false_or, GasMeter.affords_after,
    GasMeter.after_after, not_not, Bool.not_eq_true, Option.isSome_eq_false_iff,
      Option.isNone_iff_eq_none, UInt64.not_lt]
  constructor
  · rintro ⟨hw, -, bytes, hb, p, hp, hv, hh, -, hm, -, hall, hr⟩
    exact ⟨p, ⟨hw, by rw [storedProposal, hb, Option.bind_some, hp], hv, hh, hm⟩, hall, hr⟩
  · rintro ⟨p, ⟨hw, hp, hv, hh, hm⟩, hall, hr⟩
    obtain ⟨bytes, hb, hp⟩ := Option.bind_eq_some_iff.mp hp
    have htally := hall.mono (Nat.le_add_right _ _)
    have hreads := htally.mono (Nat.le_add_right _ _)
    exact ⟨hw, hreads.mono (Nat.le_add_right _ _), bytes, hb, p, hp, hv, hh, hreads, hm,
      htally, hall, hr⟩

/-- A failing vote changes the storage when the gas runs out between the tally
and the marker of the voter. -/
theorem raises_vote {id weight : UInt64} {option : VoteOption} :
    Raises (execute P J env info (.castVote id option weight)) ⟨s, g⟩
        (fun _ w => w.storage ≠ s ∧ R w.storage) ↔
      ∃ p, VoteOpen J s env info id weight p ∧
        g.Affords (tallyGas J s env info id (addVote p weight option)) ∧
        ¬ g.Affords (ballotGas J s env info id (addVote p weight option)) ∧
        tallied J s env.contractAddress id (addVote p weight option) ≠ s ∧
        R (tallied J s env.contractAddress id (addVote p weight option)) := by
  simp only [execute, raises_bind, raises_get, returns_get, raises_okOr, returns_okOr,
    raises_unwrap, returns_unwrap, raises_set, returns_set, raises_pure, raises_ite, raises_fail,
    GasMeter.affords_after, GasMeter.after_after, ne_eq,
    not_true_eq_false, false_and, and_false, false_or, or_false, not_not,
    Bool.not_eq_true, Option.isSome_eq_false_iff, Option.isNone_iff_eq_none, UInt64.not_lt]
  constructor
  · rintro ⟨hw, -, bytes, hb, p, hp, hv, hh, -, hm, htally, hrest⟩
    exact ⟨p, ⟨hw, by rw [storedProposal, hb, Option.bind_some, hp], hv, hh, hm⟩, htally, hrest⟩
  · rintro ⟨p, ⟨hw, hp, hv, hh, hm⟩, htally, hrest⟩
    obtain ⟨bytes, hb, hp⟩ := Option.bind_eq_some_iff.mp hp
    have hreads := htally.mono (Nat.le_add_right _ _)
    exact ⟨hw, hreads.mono (Nat.le_add_right _ _), bytes, hb, p, hp, hv, hh, hreads, hm,
      htally, hrest⟩

theorem returns_tally {id : UInt64}
    (h : Returns (execute P J env info (.tallyAndExecute id)) ⟨s, g⟩ (fun _ w => R w.storage)) :
    ∃ config p, storedConfig J s env.contractAddress = some config ∧
      storedProposal J s env.contractAddress id = some p ∧
      (p.endHeight ≤ env.blockHeight ∧ p.status = .voting) ∧
      R (tallied J s env.contractAddress id { p with status := tallyStatus config p }) := by
  simp only [execute, returns_bind, returns_get, returns_okOr, returns_unwrap, returns_set,
    returns_pure, returns_ite, returns_fail, and_false, false_or, not_not, UInt64.not_lt] at h
  obtain ⟨-, conf, hconf, config, hconfig, -, bytes, hb, p, hp, hover, hvoting, -, hr⟩ := h
  exact ⟨config, p, by rw [storedConfig, hconf, Option.bind_some, hconfig],
    by rw [storedProposal, hb, Option.bind_some, hp], ⟨hover, hvoting⟩, hr⟩

/-- The tally writes once, as its last step. -/
theorem not_raises_tally {id : UInt64} :
    ¬ Raises (execute P J env info (.tallyAndExecute id)) ⟨s, g⟩ (fun _ w => w.storage ≠ s ∧
      R w.storage) := by
  simp [execute]

end GovernanceContract

end Sprax.Wasm
