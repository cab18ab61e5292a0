import Sprax.Engine

/-!
# One validator node

A node runs three tasks over one ledger and one staking keeper: the consensus
driver, the gossip processor and the evidence listener. Every access to shared
state is a step of its own, so the tasks interleave freely; what the driver does
between two such accesses is one step. A channel read or a timeout is an event
with arbitrary content, which covers every delay, loss, repetition and
reordering of messages. Events that do not fit the driver's phase do nothing.
-/
namespace Sprax
open Std FiniteMap

/-- Where the driver stands inside `run_one_height`. -/
inductive Phase
  | idle
  | electing (height round : ℕ)
  | proposing (height round : ℕ) (proposer : Address)
  | awaiting (height round : ℕ) (proposer : Address)
  | applying (height round : ℕ) (proposer : Address) (block : Block)
  | prevoting (height round : ℕ) (blockHash : Hash32)
  | reacting (height round : ℕ)
  | voting (height round : ℕ)
  | finalizing (height : ℕ) (blockHash : Hash32) (commitSigs : List CommitSignature)
  | rebroadcasting (height : ℕ)
  deriving DecidableEq

/-- Shared state and driver state of a node. -/
structure Node where
  ledger : ChainLedger
  staking : StakingKeeper
  localKey : Ed25519Keypair
  engine : BftConsensusEngine
  precommittedThisRound : Bool
  lastAttemptedHeight : ℕ
  currentRound : ℕ
  phase : Phase

/-- Steps of the three tasks. Orders are those of the hash tables enumerated in
the step. -/
inductive Event
  | attempt
  | elect (records : IterOrder StakingValidator)
  | mine
  | proposal (height round : ℕ) (block : Block) (o : IterOrder Hash32)
  | proposeTimeout (o : IterOrder Hash32)
  | apply (o : IterOrder Hash32)
  | prevote (o : IterOrder Hash32)
  | react (o o' : IterOrder Hash32)
  | vote (vote : Vote) (o : IterOrder Hash32)
  | voteTimeout
  | finalize
  | rebroadcast
  | gossipBlock (block : Block)
  | gossipTx (tx : Transaction)
  | evidence (evidence : EquivocationEvidence)
  | serveBlocks (fromHeight toHeight : ℕ)

/-- What a step shows to the outside. A vote is signed and broadcast at once. -/
inductive Effect
  | castVote (vote : Vote)
  | sentProposal (height round : ℕ) (block : Block)
  | sentBlocks (blocks : List Block)
  | sentEvidence (evidence : EquivocationEvidence)
  | committed (height round : ℕ) (blockHash : Hash32) (commitSigs : List CommitSignature)
  | recorded (height : ℕ) (blockHash : Hash32) (commitSigs : List CommitSignature)
  deriving DecidableEq

/-- The votes among the effects of a run. -/
def castVotes (effects : List Effect) : List Vote :=
  effects.filterMap (fun e => match e with
    | .castVote v => some v
    | _ => none)

@[simp] theorem castVotes_append (es fs : List Effect) :
    castVotes (es ++ fs) = castVotes es ++ castVotes fs := List.filterMap_append

@[simp] theorem castVotes_cons_castVote (v : Vote) (es : List Effect) :
    castVotes (.castVote v :: es) = v :: castVotes es := rfl

theorem mem_castVotes {effects : List Effect} {v : Vote} :
    v ∈ castVotes effects ↔ .castVote v ∈ effects := by
  simp only [castVotes, List.mem_filterMap]
  constructor
  · rintro ⟨e, he, hv⟩
    cases e <;> simp_all
  · intro h
    exact ⟨_, h, rfl⟩

theorem castVotes_eq_nil {effects : List Effect} (h : ∀ v, .castVote v ∉ effects) :
    castVotes effects = [] :=
  List.eq_nil_iff_forall_not_mem.mpr (fun v hv => h v (mem_castVotes.mp hv))

variable (P : Primitives)

def buildSignedVote (voteType : VoteType) (height round : ℕ) (blockHash : Option Hash32)
    (signer : Ed25519Keypair) : Vote :=
  let vote : Vote := ⟨voteType, height, round, blockHash, signer.address P, []⟩
  { vote with signature := signer.sign P (vote.signBytes P) }

/-- The blocks of a height range, up to the first missing one. -/
def fetchBlocks (L : ChainLedger) (fromHeight toHeight : ℕ) : List Block :=
  (L.blocks.take (toHeight + 1)).drop fromHeight

namespace Node

/-- Local address of the validator. -/
def localAddr (n : Node) : Address := n.localKey.address P

/-- `NodeService::start`: a fresh engine and a driver that remembers no attempt. -/
def start (ledger : ChainLedger) (staking : StakingKeeper) (localKey : Ed25519Keypair)
    (records : IterOrder StakingValidator) : Except ConsensusError Node :=
  match staking.getActiveValidatorSet records with
  | .error e => .error e
  | .ok valSet => .ok
    { ledger := ledger
      staking := staking
      localKey := localKey
      engine := .new (ledger.height + 1) valSet
      precommittedThisRound := false
      lastAttemptedHeight := 0
      currentRound := 0
      phase := .idle }

/-- `run_one_height` up to the choice of height and round. -/
def attempt (n : Node) : Node × List Effect :=
  let nextHeight := n.ledger.height + 1
  if nextHeight = n.lastAttemptedHeight then
    let round := (n.currentRound + 1) % 2 ^ 32
    ({ n with currentRound := round, phase := .electing nextHeight round }, [])
  else
    ({ n with
        lastAttemptedHeight := nextHeight
        currentRound := 0
        phase := .electing nextHeight 0 }, [])

/-- Refresh the validator set, reset the engine and select the proposer. -/
def elect (n : Node) (records : IterOrder StakingValidator) (height round : ℕ) :
    Node × List Effect :=
  match n.staking.getActiveValidatorSet records with
  | .error _ => ({ n with phase := .idle }, [])
  | .ok valSet =>
    let E := (((n.engine.setValidatorSet valSet).startHeight height).setRound round).selectProposer
    let proposer := E.2.address
    ({ n with
        engine := E.1
        precommittedThisRound := false
        phase := if proposer = n.localAddr P then .proposing height round proposer
          else .awaiting height round proposer }, [])

/-- `propose_as_local`: the block enters the ledger before any vote. -/
def mine (n : Node) (height round : ℕ) (proposer : Address) : Node × List Effect :=
  let mined := n.ledger.mineBlock P proposer
  let hash := Hasher.blockHash P mined.2.header
  let proposed := n.engine.proposeBlock hash proposer
  ({ n with
      ledger := mined.1
      engine := proposed.1
      phase := match proposed.2 with
        | .ok () => .prevoting height round hash
        | .error _ => .idle }, [.sentProposal height round mined.2])

/-- Sign a prevote for nil, broadcast it, count it, and give the attempt up. -/
def castNilPrevote (n : Node) (height round : ℕ) (o : IterOrder Hash32) : Node × List Effect :=
  let vote := buildSignedVote P .prevote height round none n.localKey
  ({ n with engine := (n.engine.receivePrevote o vote).1, phase := .idle }, [.castVote vote])

/-- One proposal read by `await_proposal`; only its height and round are compared
with the wanted ones, not those of the block. -/
def proposal (n : Node) (height round : ℕ) (proposer : Address) (h r : ℕ) (block : Block)
    (o : IterOrder Hash32) : Node × List Effect :=
  if h = height ∧ r = round then
    if block.header.proposer ≠ proposer then n.castNilPrevote P height round o
    else ({ n with phase := .applying height round proposer block }, [])
  else (n, [])

/-- `apply_block` on the received proposal, and what its answer leads to. -/
def apply (n : Node) (height round : ℕ) (proposer : Address) (block : Block)
    (o : IterOrder Hash32) : Node × List Effect :=
  let applied := n.ledger.applyBlock P block
  match applied.2 with
  | .ok _ =>
    let hash := Hasher.blockHash P block.header
    ({ n with
        ledger := applied.1
        engine := (n.engine.proposeBlock hash proposer).1
        phase := .prevoting height round hash }, [])
  | .error _ => { n with ledger := applied.1 }.castNilPrevote P height round o

/-- The prevote for the accepted block. -/
def prevote (n : Node) (height round : ℕ) (blockHash : Hash32) (o : IterOrder Hash32) :
    Node × List Effect :=
  let vote := buildSignedVote P .prevote height round (some blockHash) n.localKey
  ({ n with engine := (n.engine.receivePrevote o vote).1, phase := .reacting height round },
    [.castVote vote])

/-- Count a precommit; a quorum ends the attempt. -/
def countPrecommit (n : Node) (height round : ℕ) (vote : Vote) (o : IterOrder Hash32) :
    Node × List Effect :=
  let received := n.engine.receivePrecommit o vote
  match received.2 with
  | .ok (some (hash, sigs)) =>
    ({ n with engine := received.1, phase := .finalizing height hash sigs },
      [.committed height round hash sigs])
  | _ => ({ n with engine := received.1, phase := .voting height round }, [])

/-- `maybe_cast_reactive_precommit`. -/
def react (n : Node) (height round : ℕ) (o o' : IterOrder Hash32) : Node × List Effect :=
  if n.precommittedThisRound then ({ n with phase := .voting height round }, [])
  else match n.engine.getPrevotedBlockWithQuorum o height round with
    | none => ({ n with phase := .voting height round }, [])
    | some hash =>
      let vote := buildSignedVote P .precommit height round (some hash) n.localKey
      let counted := { n with precommittedThisRound := true }.countPrecommit height round vote o'
      (counted.1, .castVote vote :: counted.2)

/-- The slashing part of `handle_inbound_vote`. -/
def slashConflict (n : Node) (vote : Vote) : Node × List Effect :=
  match n.engine.findConflictingVote vote with
  | none => (n, [])
  | some conflicting =>
    let evidence : EquivocationEvidence :=
      ⟨vote.validatorAddress, vote.height, vote.round, conflicting, vote⟩
    if evidence.isValidEquivocation then
      let slashed := n.staking.slashEquivocation evidence
      ({ n with staking := slashed.1 },
        match slashed.2 with
        | .ok amount => if amount.isZero then [] else [.sentEvidence evidence]
        | .error _ => [])
    else (n, [])

/-- Count a vote that passed the signature check. -/
def countVote (n : Node) (height round : ℕ) (vote : Vote) (o : IterOrder Hash32) :
    Node × List Effect :=
  match vote.voteType with
  | .prevote =>
    let received := n.engine.receivePrevote o vote
    ({ n with
        engine := received.1
        phase := match received.2 with
          | .ok true => .reacting height round
          | _ => .voting height round }, [])
  | .precommit => n.countPrecommit height round vote o

/-- One vote read by the vote loop: `handle_inbound_vote` behind the height and
round filter. -/
def vote (n : Node) (height round : ℕ) (vote : Vote) (o : IterOrder Hash32) : Node × List Effect :=
  if vote.height ≠ height ∨ vote.round ≠ round then (n, [])
  else match n.engine.valSet.find vote.validatorAddress with
    | none => (n, [])
    | some validator =>
      match Ed25519Keypair.verify P validator.publicKey (vote.signBytes P) vote.signature with
      | .error _ => (n, [])
      | .ok () =>
        let slashed := n.slashConflict vote
        let counted := slashed.1.countVote height round vote o
        (counted.1, slashed.2 ++ counted.2)

/-- `finalize_height`: the signatures go to whatever block the ledger holds. -/
def finalize (n : Node) (height : ℕ) (blockHash : Hash32) (commitSigs : List CommitSignature) :
    Node × List Effect :=
  let updated := n.ledger.setLastCommit P height commitSigs
  ({ n with ledger := updated.1, phase := .rebroadcasting height },
    match updated.2 with
    | .ok () => [.recorded height blockHash commitSigs]
    | .error _ => [])

def rebroadcast (n : Node) (height : ℕ) : Node × List Effect :=
  ({ n with phase := .idle },
    match n.ledger.getBlockByHeight height with
    | some block => [.sentBlocks [block]]
    | none => [])

/-- `run_evidence_listener`: the structural check and nothing else. -/
def listenEvidence (n : Node) (evidence : EquivocationEvidence) : Node × List Effect :=
  if evidence.isValidEquivocation then
    ({ n with staking := (n.staking.slashEquivocation evidence).1 }, [])
  else (n, [])

/-- One step of the node. -/
def step (n : Node) : Event → Node × List Effect
  | .attempt => match n.phase with
    | .idle => n.attempt
    | _ => (n, [])
  | .elect records => match n.phase with
    | .electing h r => n.elect P records h r
    | _ => (n, [])
  | .mine => match n.phase with
    | .proposing h r proposer => n.mine P h r proposer
    | _ => (n, [])
  | .proposal h' r' block o => match n.phase with
    | .awaiting h r proposer => n.proposal P h r proposer h' r' block o
    | _ => (n, [])
  | .proposeTimeout o => match n.phase with
    | .awaiting h r _ => n.castNilPrevote P h r o
    | _ => (n, [])
  | .apply o => match n.phase with
    | .applying h r proposer block => n.apply P h r proposer block o
    | _ => (n, [])
  | .prevote o => match n.phase with
    | .prevoting h r hash => n.prevote P h r hash o
    | _ => (n, [])
  | .react o o' => match n.phase with
    | .reacting h r => n.react P h r o o'
    | _ => (n, [])
  | .vote v o => match n.phase with
    | .voting h r => n.vote P h r v o
    | _ => (n, [])
  | .voteTimeout => match n.phase with
    | .voting _ _ => ({ n with phase := .idle }, [])
    | _ => (n, [])
  | .finalize => match n.phase with
    | .finalizing h hash sigs => n.finalize P h hash sigs
    | _ => (n, [])
  | .rebroadcast => match n.phase with
    | .rebroadcasting h => n.rebroadcast h
    | _ => (n, [])
  | .gossipBlock block => ({ n with ledger := (n.ledger.applyBlock P block).1 }, [])
  | .gossipTx tx => ({ n with ledger := (n.ledger.submitTransaction P tx).1 }, [])
  | .evidence e => n.listenEvidence e
  | .serveBlocks lo hi => (n, [.sentBlocks (fetchBlocks n.ledger lo hi)])

/-- The state after a step, its effects dropped. -/
def next (n : Node) (ev : Event) : Node := (n.step P ev).1

theorem start_ok {ledger : ChainLedger} {staking : StakingKeeper} {localKey : Ed25519Keypair}
    {records : IterOrder StakingValidator} {n : Node}
    (h : start ledger staking localKey records = .ok n) :
    ∃ valSet, staking.getActiveValidatorSet records = .ok valSet ∧
      n = ⟨ledger, staking, localKey, .new (ledger.height + 1) valSet, false, 0, 0, .idle⟩ := by
  unfold start at h
  split at h
  · cases h
  · rename_i valSet hset
    exact ⟨valSet, hset, (Except.ok.inj h).symm⟩

/-- The round of the next attempt. -/
def nextRound (n : Node) : ℕ :=
  if n.ledger.height + 1 = n.lastAttemptedHeight then (n.currentRound + 1) % 2 ^ 32 else 0

theorem attempt_eq (n : Node) :
    n.attempt = ({ n with
      lastAttemptedHeight := n.ledger.height + 1
      currentRound := n.nextRound
      phase := .electing (n.ledger.height + 1) n.nextRound }, []) := by
  unfold attempt nextRound
  by_cases h : n.ledger.height + 1 = n.lastAttemptedHeight
  · simp only [h, if_true]
  · simp only [h, if_false]

/-- The engine at the start of an attempt, with the proposer it selects. -/
def electedEngine (n : Node) (valSet : ValidatorSet) (height round : ℕ) :
    BftConsensusEngine × Validator :=
  (((n.engine.setValidatorSet valSet).startHeight height).setRound round).selectProposer

/-- The transitions of a node. Every step is one of them. -/
inductive Fired (n : Node) : Event → Node × List Effect → Prop
  | stutter (ev : Event) : Fired n ev (n, [])
  | attempted (hp : n.phase = .idle) : Fired n .attempt ({ n with
      lastAttemptedHeight := n.ledger.height + 1
      currentRound := n.nextRound
      phase := .electing (n.ledger.height + 1) n.nextRound }, [])
  | electFailed {records : IterOrder StakingValidator} {h r : ℕ} (hp : n.phase = .electing h r) :
      Fired n (.elect records) ({ n with phase := .idle }, [])
  | elected {records : IterOrder StakingValidator} {h r : ℕ} {valSet : ValidatorSet} {phase : Phase}
      (hp : n.phase = .electing h r)
      (hset : n.staking.getActiveValidatorSet records = .ok valSet)
      (hphase : ((n.electedEngine valSet h r).2.address = n.localAddr P ∧
          phase = .proposing h r (n.electedEngine valSet h r).2.address) ∨
        ((n.electedEngine valSet h r).2.address ≠ n.localAddr P ∧
          phase = .awaiting h r (n.electedEngine valSet h r).2.address)) :
      Fired n (.elect records) ({ n with
        engine := (n.electedEngine valSet h r).1, precommittedThisRound := false, phase :=
          phase }, [])
  | mined {h r : ℕ} {proposer : Address} {phase : Phase} (hp : n.phase = .proposing h r proposer)
      (hphase : phase = .idle ∨
        phase = .prevoting h r (Hasher.blockHash P (n.ledger.mineBlock P proposer).2.header)) :
      Fired n .mine ({ n with
        ledger := (n.ledger.mineBlock P proposer).1
        engine := (n.engine.proposeBlock
          (Hasher.blockHash P (n.ledger.mineBlock P proposer).2.header) proposer).1
        phase := phase }, [.sentProposal h r (n.ledger.mineBlock P proposer).2])
  | proposalRefused {h r : ℕ} {proposer : Address} {block : Block} {o : IterOrder Hash32}
      (hp : n.phase = .awaiting h r proposer) :
      Fired n (.proposal h r block o) (n.castNilPrevote P h r o)
  | proposalTaken {h r : ℕ} {proposer : Address} {block : Block} {o : IterOrder Hash32}
      (hp : n.phase = .awaiting h r proposer) (hproposer : block.header.proposer = proposer) :
      Fired n (.proposal h r block o) ({ n with phase := .applying h r proposer block }, [])
  | proposeTimedOut {h r : ℕ} {proposer : Address} {o : IterOrder Hash32}
      (hp : n.phase = .awaiting h r proposer) :
      Fired n (.proposeTimeout o) (n.castNilPrevote P h r o)
  | applied {h r : ℕ} {proposer : Address} {block : Block} {o : IterOrder Hash32}
      {receipts : List TxReceipt} (hp : n.phase = .applying h r proposer block)
      (hok : (n.ledger.applyBlock P block).2 = .ok receipts) :
      Fired n (.apply o) ({ n with
        ledger := (n.ledger.applyBlock P block).1
        engine := (n.engine.proposeBlock (Hasher.blockHash P block.header) proposer).1
        phase := .prevoting h r (Hasher.blockHash P block.header) }, [])
  | applyFailed {h r : ℕ} {proposer : Address} {block : Block} {o : IterOrder Hash32}
      {e : CoreError} (hp : n.phase = .applying h r proposer block)
      (herr : (n.ledger.applyBlock P block).2 = .error e) :
      Fired n (.apply o)
        ({ n with ledger := (n.ledger.applyBlock P block).1 }.castNilPrevote P h r o)
  | prevoted {h r : ℕ} {hash : Hash32} {o : IterOrder Hash32} (hp : n.phase = .prevoting h r hash) :
      Fired n (.prevote o) (n.prevote P h r hash o)
  | reactedNot {h r : ℕ} {o o' : IterOrder Hash32} (hp : n.phase = .reacting h r) :
      Fired n (.react o o') ({ n with phase := .voting h r }, [])
  | reacted {h r : ℕ} {hash : Hash32} {o o' : IterOrder Hash32} (hp : n.phase = .reacting h r)
      (hfirst : n.precommittedThisRound = false)
      (hquorum : n.engine.getPrevotedBlockWithQuorum o h r = some hash) :
      Fired n (.react o o')
        (({ n with precommittedThisRound := true }.countPrecommit h r
            (buildSignedVote P .precommit h r (some hash) n.localKey) o').1,
          .castVote (buildSignedVote P .precommit h r (some hash) n.localKey) ::
            ({ n with precommittedThisRound := true }.countPrecommit h r
              (buildSignedVote P .precommit h r (some hash) n.localKey) o').2)
  | voted {h r : ℕ} {v : Vote} {o : IterOrder Hash32} {validator : Validator}
      (hp : n.phase = .voting h r) (hheight : v.height = h) (hround : v.round = r)
      (hvalidator : n.engine.valSet.find v.validatorAddress = some validator)
      (hverify : Ed25519Keypair.verify P validator.publicKey (v.signBytes P) v.signature = .ok ()) :
      Fired n (.vote v o) (((n.slashConflict v).1.countVote h r v o).1,
        (n.slashConflict v).2 ++ ((n.slashConflict v).1.countVote h r v o).2)
  | voteTimedOut {h r : ℕ} (hp : n.phase = .voting h r) :
      Fired n .voteTimeout ({ n with phase := .idle }, [])
  | finalized {h : ℕ} {hash : Hash32} {sigs : List CommitSignature}
      (hp : n.phase = .finalizing h hash sigs) : Fired n .finalize (n.finalize P h hash sigs)
  | rebroadcasted {h : ℕ} (hp : n.phase = .rebroadcasting h) : Fired n .rebroadcast
      (n.rebroadcast h)
  | gossipedBlock (block : Block) :
      Fired n (.gossipBlock block) ({ n with ledger := (n.ledger.applyBlock P block).1 }, [])
  | gossipedTx (tx : Transaction) :
      Fired n (.gossipTx tx) ({ n with ledger := (n.ledger.submitTransaction P tx).1 }, [])
  | listened (e : EquivocationEvidence) :
      Fired n (.evidence e) ({ n with staking := (n.staking.slashEquivocation e).1 }, [])
  | served (lo hi : ℕ) : Fired n (.serveBlocks lo hi)
      (n, [.sentBlocks (fetchBlocks n.ledger lo hi)])

variable {P}

@[simp] theorem castVotes_finalize (n : Node) (h : ℕ) (hash : Hash32)
    (sigs : List CommitSignature) : castVotes (n.finalize P h hash sigs).2 = [] := by
  unfold finalize
  dsimp only
  split <;> rfl

@[simp] theorem castVotes_rebroadcast (n : Node) (h : ℕ) : castVotes (n.rebroadcast h).2 = [] := by
  unfold rebroadcast
  dsimp only
  split <;> rfl

theorem elect_fired {n : Node} {records : IterOrder StakingValidator} {h r : ℕ}
    (hp : n.phase = .electing h r) : Fired P n (.elect records) (n.elect P records h r) := by
  unfold elect
  split
  · exact .electFailed hp
  · rename_i valSet hset
    refine .elected hp hset ?_
    by_cases hlocal : (n.electedEngine valSet h r).2.address = n.localAddr P
    · exact Or.inl ⟨hlocal, if_pos hlocal⟩
    · exact Or.inr ⟨hlocal, if_neg hlocal⟩

theorem mine_fired {n : Node} {h r : ℕ} {proposer : Address}
    (hp : n.phase = .proposing h r proposer) : Fired P n .mine (n.mine P h r proposer) := by
  refine .mined hp ?_
  split
  · exact Or.inr rfl
  · exact Or.inl rfl

theorem proposal_fired {n : Node} {h r h' r' : ℕ} {proposer : Address} {block : Block}
    {o : IterOrder Hash32} (hp : n.phase = .awaiting h r proposer) :
    Fired P n (.proposal h' r' block o) (n.proposal P h r proposer h' r' block o) := by
  unfold proposal
  split
  · rename_i hwanted
    obtain ⟨rfl, rfl⟩ := hwanted
    split
    · exact .proposalRefused hp
    · rename_i hproposer
      exact .proposalTaken hp (not_not.mp hproposer)
  · exact .stutter _

theorem apply_fired {n : Node} {h r : ℕ} {proposer : Address} {block : Block}
    {o : IterOrder Hash32} (hp : n.phase = .applying h r proposer block) :
    Fired P n (.apply o) (n.apply P h r proposer block o) := by
  unfold apply
  dsimp only
  split
  · rename_i receipts hok
    exact .applied hp hok
  · rename_i e herr
    exact .applyFailed hp herr

theorem react_fired {n : Node} {h r : ℕ} {o o' : IterOrder Hash32}
    (hp : n.phase = .reacting h r) : Fired P n (.react o o') (n.react P h r o o') := by
  unfold react
  split
  · exact .reactedNot hp
  · rename_i hfirst
    split
    · exact .reactedNot hp
    · rename_i hash hquorum
      exact .reacted hp (Bool.not_eq_true _ ▸ hfirst) hquorum

theorem vote_fired {n : Node} {h r : ℕ} {v : Vote} {o : IterOrder Hash32}
    (hp : n.phase = .voting h r) : Fired P n (.vote v o) (n.vote P h r v o) := by
  unfold vote
  split
  · exact .stutter _
  · rename_i hwanted
    push Not at hwanted
    split
    · exact .stutter _
    · rename_i validator hvalidator
      split
      · exact .stutter _
      · rename_i hverify
        exact .voted hp hwanted.1 hwanted.2 hvalidator hverify

/-- Every step of a node is one of its transitions. -/
theorem step_fired (n : Node) (ev : Event) : Fired P n ev (n.step P ev) := by
  cases ev with
  | attempt =>
    simp only [step]
    split
    · rename_i hp
      rw [attempt_eq]
      exact .attempted hp
    · exact .stutter _
  | elect records =>
    simp only [step]
    split
    · rename_i h r hp
      exact elect_fired hp
    · exact .stutter _
  | mine =>
    simp only [step]
    split
    · rename_i h r proposer hp
      exact mine_fired hp
    · exact .stutter _
  | proposal h' r' block o =>
    simp only [step]
    split
    · rename_i h r proposer hp
      exact proposal_fired hp
    · exact .stutter _
  | proposeTimeout o =>
    simp only [step]
    split
    · rename_i h r proposer hp
      exact .proposeTimedOut hp
    · exact .stutter _
  | apply o =>
    simp only [step]
    split
    · rename_i h r proposer block hp
      exact apply_fired hp
    · exact .stutter _
  | prevote o =>
    simp only [step]
    split
    · rename_i h r hash hp
      exact .prevoted hp
    · exact .stutter _
  | react o o' =>
    simp only [step]
    split
    · rename_i h r hp
      exact react_fired hp
    · exact .stutter _
  | vote v o =>
    simp only [step]
    split
    · rename_i h r hp
      exact vote_fired hp
    · exact .stutter _
  | voteTimeout =>
    simp only [step]
    split
    · rename_i h r hp
      exact .voteTimedOut hp
    · exact .stutter _
  | finalize =>
    simp only [step]
    split
    · rename_i h hash sigs hp
      exact .finalized hp
    · exact .stutter _
  | rebroadcast =>
    simp only [step]
    split
    · rename_i h hp
      exact .rebroadcasted hp
    · exact .stutter _
  | gossipBlock block => exact .gossipedBlock block
  | gossipTx tx => exact .gossipedTx tx
  | evidence e =>
    simp only [step, listenEvidence]
    split
    · exact .listened e
    · exact .stutter _
  | serveBlocks lo hi => exact .served lo hi

end Node

end Sprax
