import Sprax.Votes
import Sprax.Devnet

/-!
# Slashing an honest validator

Two tasks slash: the driver, on a vote that contradicts a stored one, and the
evidence listener, on whatever arrives. The driver compares votes whose
signatures it has checked, so it can only remove a validator that signed two
different votes. The listener checks the shape of the evidence alone; an honest
validator keeps its stake exactly if every well-shaped evidence against it also
carries two signatures under its key.
-/
namespace Sprax
open Std FiniteMap

/-- The signature on a vote verifies under a key. -/
def Vote.VerifiesUnder (P : Primitives) (key : Bytes) (v : Vote) : Prop :=
  Ed25519Keypair.verify P key (v.signBytes P) v.signature = .ok ()

/-- No two votes of one type, height and round name different blocks. -/
def NeverEquivocates (signed : Set SignableVote) : Prop :=
  ∀ s ∈ signed, ∀ t ∈ signed, s.voteType = t.voteType → s.height = t.height →
    s.round = t.round → s.blockHash = t.blockHash

/-- The votes an event brings in from the network. -/
def Event.votes : Event → List Vote
  | .vote v _ => [v]
  | .evidence e => [e.voteA, e.voteB]
  | _ => []

namespace Node
variable (P : Primitives)

/-- `signed` covers what the validator's key signs: votes that verify under it
are not forged, and votes cast here in its name are its own. -/
structure SignedBy (a : Address) (key : Bytes) (signed : Set SignableVote) (n : Node) (ev : Event) :
    Prop where
  unforged : ∀ v ∈ ev.votes, v.VerifiesUnder P key → v.signable ∈ signed
  own : ∀ v ∈ castVotes (n.step P ev).2, v.validatorAddress = a → v.signable ∈ signed

instance (key : Bytes) (v : Vote) : Decidable (v.VerifiesUnder P key) :=
  inferInstanceAs (Decidable (_ = _))

instance (a : Address) (key : Bytes) (signed : Set SignableVote) [DecidablePred (· ∈ signed)]
    (n : Node) (ev : Event) : Decidable (SignedBy P a key signed n ev) :=
  decidable_of_iff
    ((∀ v ∈ ev.votes, v.VerifiesUnder P key → v.signable ∈ signed) ∧
      ∀ v ∈ castVotes (n.step P ev).2, v.validatorAddress = a → v.signable ∈ signed)
    ⟨fun h => ⟨h.1, h.2⟩, fun h => ⟨h.unforged, h.own⟩⟩

variable {P}

/-- The three ways a step treats the staking keeper. -/
theorem staking_step (n : Node) (ev : Event) :
    (n.next P ev).staking = n.staking ∨
      (∃ e, ev = .evidence e ∧ (n.next P ev).staking = (n.staking.slashEquivocation e).1) ∨
      ∃ v o validator conflicting, ev = .vote v o ∧
        n.engine.valSet.find v.validatorAddress = some validator ∧
        v.VerifiesUnder P validator.publicKey ∧
        n.engine.findConflictingVote v = some conflicting ∧
        (n.next P ev).staking = (n.staking.slashEquivocation
          ⟨v.validatorAddress, v.height, v.round, conflicting, v⟩).1 := by
  have hfired := step_fired (P := P) n ev
  unfold next
  generalize n.step P ev = result at hfired
  cases hfired with
  | reacted =>
    rw [countPrecommit_staking]
    exact Or.inl rfl
  | voted hp hheight hround hvalidator hverify =>
    rw [countVote_staking]
    rcases n.slashConflict_cases _ with hsame | ⟨conflicting, effects, hconflict, -, hslash⟩
    · rw [hsame]
      exact Or.inl rfl
    · rw [hslash]
      exact Or.inr (Or.inr ⟨_, _, _, conflicting, rfl, hvalidator, hverify, hconflict, rfl⟩)
  | listened e => exact Or.inr (Or.inl ⟨e, rfl, rfl⟩)
  | _ => exact Or.inl rfl

/-- What holds of a node as long as it leaves the validator at `a` alone. -/
structure Unslashed (a : Address) (record : StakingValidator) (signed : Set SignableVote)
    (n : Node) :
    Prop where
  record_eq : n.staking.validators[a]? = some record
  stored : n.engine.VotesOk (fun v => v.validatorAddress = a → v.signable ∈ signed)
  key_eq : ∀ validator, n.engine.valSet.find a = some validator →
    validator.publicKey = record.consensusPubkey

theorem unslashed_start {ledger : ChainLedger} {staking : StakingKeeper} {localKey : Ed25519Keypair}
    {records : IterOrder StakingValidator} {n : Node}
    (hstart : start ledger staking localKey records = .ok n) {a : Address}
    {record : StakingValidator} (hrecord : staking.validators[a]? = some record)
    (signed : Set SignableVote) :
    n.Unslashed a record signed := by
  obtain ⟨valSet, hset, rfl⟩ := start_ok hstart
  refine ⟨hrecord, BftConsensusEngine.votesOk_of_empty _ (BftConsensusEngine.votesOf_new _ _), ?_⟩
  intro validator hfind
  obtain ⟨record', hrecord', hkey⟩ :=
    StakingKeeper.exists_record_of_mem_roster hset (ValidatorSet.find_mem_roster hfind)
  rw [hrecord] at hrecord'
  cases hrecord'
  exact hkey.symm

variable {a : Address} {record : StakingValidator} {signed : Set SignableVote}

/-- Evidence that the validator really signed cannot exist. -/
theorem not_isValidEquivocation_of_signed (honest : NeverEquivocates signed)
    {e : EquivocationEvidence} (hA : e.voteA.signable ∈ signed) (hB : e.voteB.signable ∈ signed) :
    e.isValidEquivocation = false := by
  have hsame := honest _ hA _ hB
  simp only [Vote.signable] at hsame
  simp only [EquivocationEvidence.isValidEquivocation, decide_eq_false_iff_not]
  rintro ⟨-, hheight, hround, htype, hne⟩
  exact hne (hsame htype hheight hround)

/-- The driver never slashes an honest validator: the stored vote and the one it
contradicts would both be signed by it. -/
theorem Unslashed.of_conflict {n : Node} (h : n.Unslashed a record signed)
    (honest : NeverEquivocates signed) {v conflicting : Vote} {validator : Validator}
    (hunforged : v.VerifiesUnder P record.consensusPubkey → v.signable ∈ signed)
    (hvalidator : n.engine.valSet.find v.validatorAddress = some validator)
    (hverify : v.VerifiesUnder P validator.publicKey)
    (hconflict : n.engine.findConflictingVote v = some conflicting) :
    (n.staking.slashEquivocation
      ⟨v.validatorAddress, v.height, v.round, conflicting, v⟩).1.validators[a]? = some record := by
  by_cases haddr : v.validatorAddress = a
  · obtain ⟨hkey, htype, hne, hok⟩ := h.stored.conflicting hconflict
    have haddr' : conflicting.validatorAddress = a := by
      rw [← haddr]
      exact congrArg (·.2.2) hkey
    rw [haddr] at hvalidator
    rw [h.key_eq validator hvalidator] at hverify
    have hinvalid : (⟨v.validatorAddress, v.height, v.round, conflicting, v⟩ :
        EquivocationEvidence).isValidEquivocation = false :=
      not_isValidEquivocation_of_signed honest (hok haddr') (hunforged hverify)
    rw [StakingKeeper.slashEquivocation_invalid hinvalid]
    exact h.record_eq
  · rw [StakingKeeper.slashEquivocation_other _ _ haddr]
    exact h.record_eq

/-- Evidence against the validator that passes the structural check carries two
signatures under its key. -/
def EvidenceSigned (P : Primitives) (a : Address) (key : Bytes) (ev : Event) : Prop :=
  ∀ e, ev = .evidence e → e.validatorAddress = a → e.isValidEquivocation = true →
    e.voteA.VerifiesUnder P key ∧ e.voteB.VerifiesUnder P key

theorem Unslashed.of_evidence {n : Node} (h : n.Unslashed a record signed)
    (honest : NeverEquivocates signed) {e : EquivocationEvidence}
    (hunforged : ∀ v ∈ (Event.evidence e).votes, v.VerifiesUnder P record.consensusPubkey →
      v.signable ∈ signed)
    (hevidence : EvidenceSigned P a record.consensusPubkey (.evidence e)) :
    (n.staking.slashEquivocation e).1.validators[a]? = some record := by
  by_cases haddr : e.validatorAddress = a
  · cases hvalid : e.isValidEquivocation with
    | false =>
      rw [StakingKeeper.slashEquivocation_invalid hvalid]
      exact h.record_eq
    | true =>
      obtain ⟨hA, hB⟩ := hevidence e rfl haddr hvalid
      have hinvalid := not_isValidEquivocation_of_signed honest
        (hunforged _ (by simp [Event.votes]) hA) (hunforged _ (by simp [Event.votes]) hB)
      rw [hvalid] at hinvalid
      cases hinvalid
  · rw [StakingKeeper.slashEquivocation_other _ _ haddr]
    exact h.record_eq

theorem Unslashed.next {n : Node} (h : n.Unslashed a record signed)
    (honest : NeverEquivocates signed) {ev : Event}
    (hsigned : SignedBy P a record.consensusPubkey signed n ev)
    (hevidence : EvidenceSigned P a record.consensusPubkey ev) :
    (n.next P ev).Unslashed a record signed where
  record_eq := by
    rcases staking_step (P := P) n ev with hsame | ⟨e, rfl, hslash⟩ |
      ⟨v, o, validator, conflicting, rfl, hvalidator, hverify, hconflict, hslash⟩
    · rw [hsame]
      exact h.record_eq
    · rw [hslash]
      exact h.of_evidence honest hsigned.unforged hevidence
    · rw [hslash]
      exact h.of_conflict honest (hsigned.unforged v (by simp [Event.votes])) hvalidator hverify
        hconflict
  stored := by
    refine votesOk_step h.stored (fun v hv => hsigned.own v (mem_castVotes.mpr hv)) ?_
    rintro v o validator rfl hvalidator hverify haddr
    rw [haddr] at hvalidator
    rw [h.key_eq validator hvalidator] at hverify
    exact hsigned.unforged v (by simp [Event.votes]) hverify
  key_eq := by
    rcases valSet_step (P := P) n ev with hsame | ⟨records, valSet, rfl, hset, hroster, -⟩
    · unfold Node.next
      rw [hsame]
      exact h.key_eq
    · intro validator hfind
      have hmem := ValidatorSet.find_mem_roster hfind
      unfold Node.next at hmem
      rw [hroster] at hmem
      obtain ⟨record', hrecord', hkey⟩ := StakingKeeper.exists_record_of_mem_roster hset hmem
      rw [h.record_eq] at hrecord'
      cases hrecord'
      exact hkey.symm

/-- A registered validator that never signs two conflicting votes keeps its
record throughout a run exactly if all evidence against it that passes the
structural check is signed by it. -/
theorem honest_unslashed_iff {ledger : ChainLedger} {staking : StakingKeeper}
    {localKey : Ed25519Keypair} {records : IterOrder StakingValidator} {n : Node}
    (hstart : start ledger staking localKey records = .ok n)
    (hrecord : staking.validators[a]? = some record) (hlive : record.isTombstoned = false)
    (honest : NeverEquivocates signed) (events : List Event)
    (hsigned : Runs.Along (SignedBy P a record.consensusPubkey signed) (next P) n events) :
    Runs.Throughout (fun m => m.staking.validators[a]? = some record) (next P) n events ↔
      ∀ ev ∈ events, EvidenceSigned P a record.consensusPubkey ev := by
  constructor
  · intro hkept ev hev e hevidence haddr hvalid
    subst hevidence
    subst haddr
    obtain ⟨before, after, rfl⟩ := List.append_of_mem hev
    rw [Runs.throughout_iff] at hkept
    have hbefore := hkept before (List.prefix_append _ _)
    have hafter := hkept (before ++ [.evidence e]) (by simp)
    -- the step on the evidence removes the validator, which the kept record excludes
    have hslashed := StakingKeeper.slashEquivocation_self hvalid hbefore hlive
    rw [Runs.run_append, Runs.run_cons, Runs.run_nil] at hafter
    simp only [Node.next, Node.step, listenEvidence, hvalid, if_true] at hafter hslashed
    rw [hslashed] at hafter
    have htomb := congrArg StakingValidator.isTombstoned (Option.some.inj hafter)
    rw [hlive] at htomb
    cases htomb
  · intro hevidence
    exact (hsigned.and_events hevidence).throughout (I := Unslashed a record signed)
      (fun m ev hok hm => hm.next honest hok.1 hok.2) (fun m hm => hm.record_eq)
      (unslashed_start hstart hrecord signed)

section Scenario
open Devnet

/-- Two unsigned votes under the name of keypair 2. -/
def forgedEvidence : EquivocationEvidence :=
  ⟨addressOf 2, 5, 0, ⟨.prevote, 5, 0, none, addressOf 2, []⟩,
    ⟨.prevote, 5, 0, some Hash32.zero, addressOf 2, []⟩⟩

def secondRecord : StakingValidator :=
  ⟨addressOf 2, (keypair 2).publicKeyBytes primitives, .active,
    (validator (2, 1000)).selfStake, false⟩

/-- A validator that signed nothing at all is removed on unsigned evidence. -/
theorem honest_validator_slashed :
    pairNode.staking.validators[addressOf 2]? = some secondRecord ∧
      NeverEquivocates ∅ ∧
      SignedBy primitives (addressOf 2) secondRecord.consensusPubkey ∅ pairNode
        (.evidence forgedEvidence) ∧
      ∃ after, (pairNode.next primitives (.evidence forgedEvidence)).staking.validators[addressOf
          2]? = some after ∧
        after.isTombstoned = true ∧ after.status = .jailed ∧
        after.tokens.atto < secondRecord.tokens.atto := by
  refine ⟨by decide +kernel, by simp [NeverEquivocates], by decide +kernel, ?_⟩
  exact ⟨pairNode.staking.slashed secondRecord, by decide +kernel, by decide +kernel,
    by decide +kernel, by decide +kernel⟩

/-- The node proposes and commits a block on its own and then hears evidence
against the other validator. -/
def slashingEvents : List Event :=
  [.attempt, .elect (.listed _), .mine, .prevote (.listed _), .react (.listed _) (.listed _),
    .finalize, .rebroadcast, .evidence forgedEvidence]

def firstRecord : StakingValidator :=
  ⟨addressOf 1, (keypair 1).publicKeyBytes primitives, .active,
    (validator (1, 3000)).selfStake, false⟩

/-- The votes of the node in that run. -/
def firstSigned : List SignableVote :=
  (castVotes (Runs.run (Runs.recorded (step primitives)) (pairNode, []) slashingEvents).2).map
    Vote.signable

theorem honest_unslashed_iff_devnet :
    firstSigned.length = 2 ∧
      Runs.Throughout (fun m => m.staking.validators[addressOf 1]? = some firstRecord)
        (next primitives) pairNode slashingEvents := by
  refine ⟨by decide +kernel, ?_⟩
  have hstart :=
      start_of_startNode (eq_okValue (startNode 1 [(1, 3000), (2, 1000)]) startNode_pair_isOk)
  have honest : NeverEquivocates {s | s ∈ firstSigned} := by
    have hcast : ∀ s ∈ firstSigned, ∀ t ∈ firstSigned, s.voteType = t.voteType →
        s.height = t.height → s.round = t.round → s.blockHash = t.blockHash := by decide +kernel
    exact hcast
  refine (honest_unslashed_iff (P := primitives) hstart (by decide +kernel) rfl honest
    slashingEvents (by decide +kernel)).mpr ?_
  intro ev hev e hevidence haddr
  subst hevidence
  have hforged : e = forgedEvidence := by simpa [slashingEvents] using hev
  rw [hforged] at haddr
  exact absurd haddr (by decide +kernel)

end Scenario

end Node

end Sprax
