import Sprax.Slashing
import Sprax.EngineRuns
import Sprax.Precommits

/-!
# Equivocation within an attempt

Between two resets of the engine every vote, cast or read, goes through the same
tables, and a slot is written once. So a slot holds the first vote of its type
and validator, and a vote that is read later for another block contradicts it.
Of two contradicting votes at least one contradicts the stored vote, whichever
of them came first and whatever the node itself cast in between: the validator
is removed from the staking keeper by the time the second is read.
-/
namespace Sprax
open Std FiniteMap

namespace StakingKeeper

/-- The validator is registered and removed for good. -/
def Tombstoned (k : StakingKeeper) (a : Address) : Prop :=
  ∃ record, k.validators[a]? = some record ∧ record.isTombstoned = true

/-- Slashing drops no record and revives no validator. -/
theorem slashEquivocation_record (k : StakingKeeper) (e : EquivocationEvidence) {a : Address}
    {record : StakingValidator} (hrecord : k.validators[a]? = some record) :
    ∃ record', (k.slashEquivocation e).1.validators[a]? = some record' ∧
      (record.isTombstoned = true → record'.isTombstoned = true) := by
  by_cases haddr : e.validatorAddress = a
  · subst haddr
    cases hvalid : e.isValidEquivocation with
    | false =>
      rw [slashEquivocation_invalid hvalid]
      exact ⟨record, hrecord, id⟩
    | true =>
      cases hlive : record.isTombstoned with
      | false => exact ⟨_, slashEquivocation_self hvalid hrecord hlive, fun _ => rfl⟩
      | true => exact ⟨record, by simp [slashEquivocation, hvalid, hrecord, hlive], fun _ => hlive⟩
  · rw [slashEquivocation_other _ _ haddr]
    exact ⟨record, hrecord, id⟩

theorem Tombstoned.slashEquivocation {k : StakingKeeper} {a : Address} (h : k.Tombstoned a)
    (e : EquivocationEvidence) : (k.slashEquivocation e).1.Tombstoned a := by
  obtain ⟨record, hrecord, htomb⟩ := h
  obtain ⟨record', hrecord', hkept⟩ := k.slashEquivocation_record e hrecord
  exact ⟨record', hrecord', hkept htomb⟩

/-- Valid evidence removes the validator, unless it was removed before. -/
theorem tombstoned_of_evidence {k : StakingKeeper} {e : EquivocationEvidence}
    {record : StakingValidator} (hvalid : e.isValidEquivocation = true)
    (hrecord : k.validators[e.validatorAddress]? = some record) :
    (k.slashEquivocation e).1.Tombstoned e.validatorAddress := by
  cases hlive : record.isTombstoned with
  | false => exact ⟨_, slashEquivocation_self hvalid hrecord hlive, rfl⟩
  | true => exact Tombstoned.slashEquivocation ⟨record, hrecord, hlive⟩ e

end StakingKeeper

/-- A vote that was handed to the engine: cast by the node, or read and found to
be signed by a member. -/
inductive Ballot
  | own (vote : Vote)
  | inbound (vote : Vote)
  deriving DecidableEq

def Ballot.vote : Ballot → Vote
  | .own vote | .inbound vote => vote

/-- The first vote of a validator of a type. -/
def firstVote (ballots : List Ballot) (voteType : VoteType) (a : Address) : Option Vote :=
  firstBy Vote.validatorAddress (ballots.map Ballot.vote) voteType a

theorem exists_firstVote {ballots : List Ballot} {v : Vote} (hv : .inbound v ∈ ballots) :
    ∃ first, firstVote ballots v.voteType v.validatorAddress = some first :=
  exists_firstBy _ (List.mem_map_of_mem hv)

theorem firstVote_append (ballots later : List Ballot) (voteType : VoteType) (a : Address) :
    firstVote (ballots ++ later) voteType a =
      (firstVote ballots voteType a).or (firstVote later voteType a) := by
  rw [firstVote, List.map_append, firstBy_append]
  rfl

theorem firstVote_singleton (b : Ballot) (voteType : VoteType) (a : Address) :
    firstVote [b] voteType a =
      if b.vote.voteType = voteType ∧ b.vote.validatorAddress = a then some b.vote else none :=
  firstBy_singleton b.vote

namespace BftConsensusEngine

section Filed
variable {E : BftConsensusEngine} {vote : Vote} {voteType : VoteType}

/-- A vote for the current height and round is accepted from members. -/
theorem isOk_checkVote (htype : vote.voteType = voteType) (hheight : vote.height = E.state.height)
    (hround : vote.round = E.state.round) (text : String) :
    (E.checkVote voteType text vote).isOk = (E.valSet.find vote.validatorAddress).isSome := by
  cases hfind : E.valSet.find vote.validatorAddress <;>
    simp [checkVote, htype, hheight, hround, hfind, Except.isOk, Except.toBool]

theorem receivePrevote_filed (o : IterOrder Hash32) (htype : vote.voteType = .prevote)
    (hheight : vote.height = E.state.height) (hround : vote.round = E.state.round) :
    Counted E (E.receivePrevote o vote).1 vote (E.valSet.find vote.validatorAddress).isSome := by
  rw [← isOk_checkVote htype hheight hround]
  exact receivePrevote_counted o E vote

theorem receivePrecommit_filed (o : IterOrder Hash32) (htype : vote.voteType = .precommit)
    (hheight : vote.height = E.state.height) (hround : vote.round = E.state.round) :
    Counted E (E.receivePrecommit o vote).1 vote (E.valSet.find vote.validatorAddress).isSome := by
  rw [← isOk_checkVote htype hheight hround]
  exact receivePrecommit_counted o E vote

end Filed

/-- In the slots of a height and round stand the first votes of the members. -/
def HoldsFirst (E : BftConsensusEngine) (h r : ℕ) (ballots : List Ballot) : Prop :=
  ∀ voteType a, (E.votesOf voteType)[(h, r, a)]? =
    if (E.valSet.find a).isSome then firstVote ballots voteType a else none

theorem HoldsFirst.counted {E E' : BftConsensusEngine} {h r : ℕ} {ballots : List Ballot}
    {b : Ballot} (hfirst : E.HoldsFirst h r ballots)
    (hcount : E.Counted E' b.vote (E.valSet.find b.vote.validatorAddress).isSome)
    (hheight : b.vote.height = h) (hround : b.vote.round = r) :
    E'.HoldsFirst h r (ballots ++ [b]) := by
  intro voteType a
  have hold := hfirst voteType a
  have hkey : b.vote.key = (h, r, b.vote.validatorAddress) := by rw [Vote.key, hheight, hround]
  rw [hcount.votes, hcount.valSet_eq, firstVote_append, firstVote_singleton]
  by_cases haddr : b.vote.validatorAddress = a
  · subst haddr
    cases hmember : (E.valSet.find b.vote.validatorAddress).isSome with
    | false => simpa [hmember] using hold
    | true =>
      rw [hmember, if_pos rfl] at hold
      by_cases htype : b.vote.voteType = voteType
      · rw [if_pos ⟨htype, rfl⟩, if_pos rfl, if_pos ⟨htype, rfl⟩, hkey, getElem?_insertIfNew_self,
          hold]
      · simpa [htype] using hold
  · have hother : (if b.vote.voteType = voteType ∧ b.vote.validatorAddress = a then some b.vote
        else none) = none := if_neg (fun hboth => haddr hboth.2)
    rw [hother, Option.or_none, ← hold]
    split
    · exact getElem?_insertIfNew_ne _ _ (fun hslot => haddr (congrArg (·.2.2) hslot))
    · rfl

/-- A tally counts the first vote of each member, with the power of the member,
and counts no validator twice. -/
structure TalliesFirst (E : BftConsensusEngine) (h r : ℕ) (ballots : List Ballot)
    (voteType : VoteType) : Prop where
  mem_iff : ∀ vote power, (vote, power) ∈ tallied E.valSet (E.votesOf voteType) h r ↔
    firstVote ballots voteType vote.validatorAddress = some vote ∧
      ∃ validator, E.valSet.find vote.validatorAddress = some validator ∧
        power = validator.votingPower
  nodup : ((tallied E.valSet (E.votesOf voteType) h r).map (·.1.validatorAddress)).Nodup

theorem HoldsFirst.get_iff {E : BftConsensusEngine} {h r : ℕ} {ballots : List Ballot}
    (hfirst : E.HoldsFirst h r ballots) {voteType : VoteType} {a : Address} {vote : Vote} :
    (E.votesOf voteType)[(h, r, a)]? = some vote ↔
      (∃ validator, E.valSet.find a = some validator) ∧ firstVote ballots voteType a =
        some vote := by
  rw [hfirst voteType a]
  cases E.valSet.find a <;> simp

theorem HoldsFirst.tallies {E : BftConsensusEngine} {h r : ℕ} {ballots : List Ballot}
    (hfirst : E.HoldsFirst h r ballots) (voteType : VoteType) :
    E.TalliesFirst h r ballots voteType where
  mem_iff vote power := by
    rw [mem_tallied]
    constructor
    · rintro ⟨a, validator, hget, hfind, rfl⟩
      obtain ⟨-, hvote⟩ := hfirst.get_iff.mp hget
      obtain rfl := (firstBy_some hvote).2.1
      exact ⟨hvote, validator, hfind, rfl⟩
    · rintro ⟨hvote, validator, hfind, rfl⟩
      exact ⟨_, validator, hfirst.get_iff.mpr ⟨⟨validator, hfind⟩, hvote⟩, hfind, rfl⟩
  nodup := nodup_tallied (fun _ _ hget => (firstBy_some (hfirst.get_iff.mp hget).2).2.1)

end BftConsensusEngine

namespace Node
variable (P : Primitives)

/-- The vote loop is open for the vote's height and round and its signature is
that of a member: the vote reaches the body of `handle_inbound_vote`. -/
def Handles (n : Node) (v : Vote) : Prop :=
  n.phase = .voting v.height v.round ∧
    (n.engine.valSet.find v.validatorAddress).any (fun validator =>
      decide (v.VerifiesUnder P validator.publicKey)) = true

instance decidableHandles (n : Node) (v : Vote) : Decidable (n.Handles P v) :=
  inferInstanceAs (Decidable (_ ∧ _))

/-- The votes a step hands to the engine. -/
def ballots (n : Node) (ev : Event) : List Ballot :=
  (castVotes (n.step P ev).2).map .own ++ match ev with
    | .vote v _ => if n.Handles P v then [.inbound v] else []
    | _ => []

variable {P}

theorem handles_iff {n : Node} {v : Vote} : n.Handles P v ↔
    n.phase = .voting v.height v.round ∧
      ∃ validator, n.engine.valSet.find v.validatorAddress = some validator ∧
        v.VerifiesUnder P validator.publicKey := by
  unfold Handles
  cases n.engine.valSet.find v.validatorAddress <;> simp

theorem step_vote_of_handles {n : Node} {v : Vote} (hv : n.Handles P v) (o : IterOrder Hash32) :
    n.step P (.vote v o) = (((n.slashConflict v).1.countVote v.height v.round v o).1,
      (n.slashConflict v).2 ++ ((n.slashConflict v).1.countVote v.height v.round v o).2) := by
  obtain ⟨hp, validator, hfind, hverify⟩ := handles_iff.mp hv
  unfold Vote.VerifiesUnder at hverify
  simp [step, hp, vote, hfind, hverify]

theorem step_vote_of_not_handles {n : Node} {v : Vote} (hv : ¬ n.Handles P v)
    (o : IterOrder Hash32) :
    n.step P (.vote v o) = (n, []) := by
  have hfired := step_fired (P := P) n (.vote v o)
  generalize n.step P (.vote v o) = result at hfired
  cases hfired with
  | stutter => rfl
  | voted hp hheight hround hvalidator hverify =>
    subst hheight
    subst hround
    exact absurd (handles_iff.mpr ⟨hp, _, hvalidator, hverify⟩) hv

theorem ballots_vote_of_handles {n : Node} {v : Vote} (hv : n.Handles P v) (o : IterOrder Hash32) :
    n.ballots P (.vote v o) = [.inbound v] := by
  unfold ballots
  rw [step_vote_of_handles hv o]
  simp [hv]

theorem ballots_vote_of_not_handles {n : Node} {v : Vote} (hv : ¬ n.Handles P v)
    (o : IterOrder Hash32) : n.ballots P (.vote v o) = [] := by
  unfold ballots
  rw [step_vote_of_not_handles hv o]
  simp [hv, castVotes]

theorem countVote_filed (n : Node) {v : Vote} (hheight : v.height = n.engine.state.height)
    (hround : v.round = n.engine.state.round) (h r : ℕ) (o : IterOrder Hash32) :
    n.engine.Counted (n.countVote h r v o).1.engine v
      (n.engine.valSet.find v.validatorAddress).isSome := by
  rcases n.countVote_cases h r v o with ⟨htype, phase, -, hprevote⟩ | ⟨htype, hprecommit⟩
  · rw [hprevote]
    exact BftConsensusEngine.receivePrevote_filed o htype hheight hround
  · rw [hprecommit, countPrecommit_engine]
    exact BftConsensusEngine.receivePrecommit_filed o htype hheight hround

/-- Height, round and validator set of the engine stay. -/
structure SameSlot (n m : Node) : Prop where
  valSet_eq : m.engine.valSet = n.engine.valSet
  height_eq : m.engine.state.height = n.engine.state.height
  round_eq : m.engine.state.round = n.engine.state.round

/-- A step that does not reset the engine hands it at most one vote, for the
current height and round. -/
inductive HandsOver (n m : Node) (ballots : List Ballot) : Prop
  | nothing (hslot : n.SameSlot m) (hvotes : m.engine.votesOf = n.engine.votesOf)
      (hempty : ballots = [])
  | one (b : Ballot) (hheight : b.vote.height = n.engine.state.height)
      (hround : b.vote.round = n.engine.state.round)
      (hcount : n.engine.Counted m.engine b.vote
        (n.engine.valSet.find b.vote.validatorAddress).isSome)
      (hone : ballots = [b])

theorem HandsOver.same {n m : Node} (hengine : m.engine = n.engine) : n.HandsOver m [] :=
  .nothing ⟨by rw [hengine], by rw [hengine], by rw [hengine]⟩ (by rw [hengine]) rfl

/-- A vote the node casts is handed over at once. -/
theorem handsOver_prevote {n m : Node} (hs : n.Synced) {h r : ℕ} (hp : n.phase.slot = some (h, r))
    {hash : Option Hash32} {o : IterOrder Hash32} (hengine : m.engine =
      (n.engine.receivePrevote o (buildSignedVote P .prevote h r hash n.localKey)).1) :
    n.HandsOver m [.own (buildSignedVote P .prevote h r hash n.localKey)] := by
  obtain ⟨hheight, hround⟩ := hs h r hp
  refine .one (.own (buildSignedVote P .prevote h r hash n.localKey)) hheight.symm
    hround.symm ?_ rfl
  rw [hengine]
  exact BftConsensusEngine.receivePrevote_filed o rfl hheight.symm hround.symm

theorem handsOver_proposeBlock {n m : Node} {hash : Hash32} {proposer : Address}
    (hengine : m.engine = (n.engine.proposeBlock hash proposer).1) : n.HandsOver m [] := by
  obtain ⟨hset, hvotes⟩ := n.engine.proposeBlock_frame hash proposer
  obtain ⟨hheight, hround⟩ := n.engine.proposeBlock_state hash proposer
  rw [← hengine] at hset hvotes hheight hround
  exact .nothing ⟨hset, hheight, hround⟩ hvotes rfl

/-- The steps in which no vote is read. -/
theorem handsOver_fired {n : Node} (hs : n.Synced) {ev : Event} {result : Node × List Effect}
    (hfired : Fired P n ev result) (helect : ∀ records, ev ≠ .elect records)
    (hvote : ∀ v o, ev ≠ .vote v o) : n.HandsOver result.1 ((castVotes result.2).map .own) := by
  cases hfired with
  | stutter | attempted | proposalTaken | reactedNot | voteTimedOut | gossipedBlock | gossipedTx
  | listened | served => exact .same rfl
  | electFailed | elected => exact absurd rfl (helect _)
  | voted => exact absurd rfl (hvote _ _)
  | mined | applied => exact handsOver_proposeBlock rfl
  | proposalRefused hp | proposeTimedOut hp | applyFailed hp | prevoted hp =>
    exact handsOver_prevote hs (by rw [hp]; rfl) rfl
  | @reacted h r hash o o' hp hfirst hquorum =>
    obtain ⟨hheight, hround⟩ := hs h r (by rw [hp]; rfl)
    rw [castVotes_cons_castVote, castVotes_countPrecommit]
    refine .one (.own (buildSignedVote P .precommit h r (some hash) n.localKey)) hheight.symm
      hround.symm ?_ rfl
    rw [countPrecommit_engine]
    exact BftConsensusEngine.receivePrecommit_filed o' rfl hheight.symm hround.symm
  | finalized =>
    rw [castVotes_finalize]
    exact .same rfl
  | rebroadcasted =>
    rw [castVotes_rebroadcast]
    exact .same rfl

theorem handsOver_next {n : Node} (hs : n.Synced) {ev : Event}
    (helect : ∀ records, ev ≠ .elect records) : n.HandsOver (n.next P ev) (n.ballots P ev) := by
  by_cases hvote : ∃ v o, ev = .vote v o
  · obtain ⟨v, o, rfl⟩ := hvote
    by_cases hv : n.Handles P v
    · obtain ⟨hheight, hround⟩ := hs v.height v.round (by rw [hv.1]; rfl)
      have hcount := countVote_filed (n.slashConflict v).1 (v := v)
        (by rw [slashConflict_engine, hheight]) (by rw [slashConflict_engine, hround])
        v.height v.round o
      rw [slashConflict_engine] at hcount
      rw [ballots_vote_of_handles hv, next, step_vote_of_handles hv]
      exact .one (.inbound v) hheight.symm hround.symm hcount rfl
    · rw [ballots_vote_of_not_handles hv, next, step_vote_of_not_handles hv]
      exact .same rfl
  · push Not at hvote
    have hown : n.ballots P ev = (castVotes (n.step P ev).2).map .own := by
      unfold ballots
      split
      · exact absurd rfl (hvote _ _)
      · exact List.append_nil _
    rw [hown]
    exact handsOver_fired hs (step_fired n ev) helect hvote

/-- What holds of a node at height `h` and round `r` after the ballots handed
over so far. -/
structure Attempt (h r : ℕ) (n : Node) (ballots : List Ballot) : Prop where
  synced : n.Synced
  height_eq : n.engine.state.height = h
  round_eq : n.engine.state.round = r
  slots : ∀ b ∈ ballots, b.vote.height = h ∧ b.vote.round = r
  first : n.engine.HoldsFirst h r ballots
  registered : ∀ a validator, n.engine.valSet.find a = some validator →
    ∃ record, n.staking.validators[a]? = some record
  punished : ∀ v, .inbound v ∈ ballots → ∀ first,
    firstVote ballots v.voteType v.validatorAddress = some first → first.blockHash ≠ v.blockHash →
      n.staking.Tombstoned v.validatorAddress

/-- No step drops a record or revives a validator. -/
theorem record_next (n : Node) (ev : Event) {a : Address} {record : StakingValidator}
    (hrecord : n.staking.validators[a]? = some record) :
    ∃ record', (n.next P ev).staking.validators[a]? = some record' ∧
      (record.isTombstoned = true → record'.isTombstoned = true) := by
  rcases staking_step (P := P) n ev with hsame | ⟨e, -, hslash⟩ | ⟨_, _, _, _, -, -, -, -, hslash⟩
  · rw [hsame]
    exact ⟨record, hrecord, id⟩
  · rw [hslash]
    exact n.staking.slashEquivocation_record e hrecord
  · rw [hslash]
    exact n.staking.slashEquivocation_record _ hrecord

theorem tombstoned_next {n : Node} (ev : Event) {a : Address} (h : n.staking.Tombstoned a) :
    (n.next P ev).staking.Tombstoned a := by
  obtain ⟨record, hrecord, htomb⟩ := h
  obtain ⟨record', hrecord', hkept⟩ := record_next (P := P) n ev hrecord
  exact ⟨record', hrecord', hkept htomb⟩

theorem mem_ballots_inbound {n : Node} {ev : Event} {v : Vote} (hv : .inbound v ∈ n.ballots P ev) :
    n.Handles P v ∧ ∃ o, ev = .vote v o := by
  unfold ballots at hv
  rcases List.mem_append.mp hv with hown | hread
  · obtain ⟨_, -, hcast⟩ := List.mem_map.mp hown
    cases hcast
  · split at hread
    · split at hread
      · rename_i hhandles
        cases List.mem_singleton.mp hread
        exact ⟨hhandles, _, rfl⟩
      · cases hread
    · cases hread

/-- A vote that is handled and contradicts the first vote of its validator has the
validator removed. -/
theorem Attempt.tombstoned {h r : ℕ} {n : Node} {ballots : List Ballot}
    (hm : Attempt h r n ballots) {v first : Vote} (hv : n.Handles P v)
    (hfirst : firstVote ballots v.voteType v.validatorAddress = some first)
    (hne : first.blockHash ≠ v.blockHash) (o : IterOrder Hash32) :
    (n.next P (.vote v o)).staking.Tombstoned v.validatorAddress := by
  obtain ⟨hp, validator, hfind, -⟩ := handles_iff.mp hv
  obtain ⟨hheight, hround⟩ := hm.synced v.height v.round (by rw [hp]; rfl)
  rw [hm.height_eq] at hheight
  rw [hm.round_eq] at hround
  obtain ⟨htype, haddr, hmem⟩ := firstBy_some hfirst
  obtain ⟨b, hb, rfl⟩ := List.mem_map.mp hmem
  obtain ⟨hslot, hslot'⟩ := hm.slots b hb
  have hstored : (n.engine.votesOf v.voteType)[v.key]? = some b.vote := by
    rw [Vote.key, ← hheight, ← hround]
    exact hm.first.get_iff.mpr ⟨⟨validator, hfind⟩, hfirst⟩
  have hconflict : n.engine.findConflictingVote v = some b.vote := by
    simp [BftConsensusEngine.findConflictingVote, hstored, hne]
  have hvalid : (⟨v.validatorAddress, v.height, v.round, b.vote, v⟩ :
      EquivocationEvidence).isValidEquivocation = true := by
    simp [EquivocationEvidence.isValidEquivocation, htype, haddr, hslot, hslot', ← hheight,
      ← hround, hne]
  obtain ⟨record, hrecord⟩ := hm.registered _ validator hfind
  rw [next, step_vote_of_handles hv, countVote_staking, slashConflict, hconflict]
  dsimp only
  rw [if_pos hvalid]
  exact StakingKeeper.tombstoned_of_evidence hvalid hrecord

theorem Attempt.next {h r : ℕ} {n : Node} {ballots : List Ballot} (hm : Attempt h r n ballots)
    {ev : Event} (helect : ∀ records, ev ≠ .elect records) :
    Attempt h r (n.next P ev) (ballots ++ n.ballots P ev) := by
  have hover := handsOver_next (P := P) hm.synced helect
  have hslot : n.SameSlot (n.next P ev) := by
    cases hover with
    | nothing hslot => exact hslot
    | one _ _ _ hcount => exact ⟨hcount.valSet_eq, hcount.height_eq, hcount.round_eq⟩
  refine ⟨hm.synced.next ev, hslot.height_eq.trans hm.height_eq, hslot.round_eq.trans hm.round_eq,
    ?_, ?_, ?_, ?_⟩
  · intro b hb
    rcases List.mem_append.mp hb with hold | hnew
    · exact hm.slots b hold
    · cases hover with
      | nothing _ _ hempty =>
        rw [hempty] at hnew
        cases hnew
      | one b' hheight hround _ hone =>
        rw [hone, List.mem_singleton] at hnew
        subst hnew
        exact ⟨hheight.trans hm.height_eq, hround.trans hm.round_eq⟩
  · cases hover with
    | nothing _ hvotes hempty =>
      intro voteType a
      rw [hempty, List.append_nil, hvotes, hslot.valSet_eq]
      exact hm.first voteType a
    | one b hheight hround hcount hone =>
      rw [hone]
      exact hm.first.counted hcount (hheight.trans hm.height_eq) (hround.trans hm.round_eq)
  · intro a validator hfind
    obtain ⟨record, hrecord⟩ := hm.registered a validator (hslot.valSet_eq ▸ hfind)
    obtain ⟨record', hrecord', -⟩ := record_next (P := P) n ev hrecord
    exact ⟨record', hrecord'⟩
  · intro v hv first hfirst hne
    rw [firstVote_append] at hfirst
    rcases List.mem_append.mp hv with hold | hnew
    · -- the first vote was known before the step
      obtain ⟨first', hfirst'⟩ := exists_firstVote hold
      rw [hfirst', Option.some_or] at hfirst
      cases hfirst
      exact tombstoned_next ev (hm.punished v hold first hfirst' hne)
    · obtain ⟨hhandles, o, rfl⟩ := mem_ballots_inbound hnew
      cases hfirst' : firstVote ballots v.voteType v.validatorAddress with
      | none =>
        -- the vote is itself the first
        rw [hfirst', ballots_vote_of_handles hhandles, Option.none_or, firstVote_singleton,
          if_pos ⟨rfl, rfl⟩] at hfirst
        cases hfirst
        exact absurd rfl hne
      | some first' =>
        rw [hfirst', Option.some_or] at hfirst
        cases hfirst
        exact hm.tombstoned hhandles hfirst' hne o

/-- The engine is reset for the attempt; its members are registered. -/
theorem attempt_elected {m : Node} {records : IterOrder StakingValidator} {h r : ℕ}
    {valSet : ValidatorSet} (hp : m.phase = .electing h r)
    (hset : m.staking.getActiveValidatorSet records = .ok valSet) :
    Attempt h r (m.next P (.elect records)) [] := by
  have hengine : (m.next P (.elect records)).engine = (m.electedEngine valSet h r).1 := by
    simp [Node.next, step, hp, elect, hset, electedEngine]
  have hstaking : (m.next P (.elect records)).staking = m.staking := by
    simp [Node.next, step, hp, elect, hset]
  refine ⟨(synced_of_none (by rw [hp]; rfl)).next _, by rw [hengine]; rfl, by rw [hengine]; rfl,
    by simp, ?_, ?_, by simp⟩
  · intro voteType a
    rw [hengine, electedEngine_votesOf]
    simp [firstVote, firstBy]
  · intro a validator hfind
    rw [hengine] at hfind
    have hmem := ValidatorSet.find_mem_roster hfind
    rw [(m.electedEngine_valSet valSet h r).1] at hmem
    obtain ⟨record, hrecord, -⟩ := StakingKeeper.exists_record_of_mem_roster hset hmem
    rw [hstaking]
    exact ⟨record, hrecord⟩

/-- A run that also collects the ballots handed to the engine. -/
def attemptRun (P : Primitives) (n : Node) (events : List Event) : Node × List Ballot :=
  Runs.run (Runs.recorded (fun n ev => (n.next P ev, n.ballots P ev))) (n, []) events

theorem attempt_run {h r : ℕ} {n : Node} (hn : Attempt h r n []) {events : List Event}
    (helect : ∀ records, .elect records ∉ events) :
    Attempt h r (attemptRun P n events).1 (attemptRun P n events).2 :=
  Runs.run_invariant_of_events (I := fun m : Node × List Ballot => Attempt h r m.1 m.2)
    (Q := fun ev => ∀ records, ev ≠ .elect records) (fun _ _ hev hm => hm.next hev) (n, []) events
    (fun _ hev records heq => helect records (heq ▸ hev)) hn

/-- From any election on, and as long as the engine is not reset: a validator of
which two contradicting votes were handled is removed, and both tallies count the
first vote of each member. -/
theorem equivocator_tombstoned {m : Node} {records : IterOrder StakingValidator} {h r : ℕ}
    {valSet : ValidatorSet} (hp : m.phase = .electing h r)
    (hset : m.staking.getActiveValidatorSet records = .ok valSet) (events : List Event)
    (helect : ∀ records, .elect records ∉ events) :
    let reached := attemptRun P (m.next P (.elect records)) events
    (∀ v w, .inbound v ∈ reached.2 → .inbound w ∈ reached.2 → v.voteType = w.voteType →
      v.validatorAddress = w.validatorAddress → v.blockHash ≠ w.blockHash →
        reached.1.staking.Tombstoned v.validatorAddress) ∧
      ∀ voteType, reached.1.engine.TalliesFirst h r reached.2 voteType := by
  have hreached := attempt_run (P := P) (attempt_elected (P := P) hp hset) helect
  refine ⟨fun v w hv hw htype haddr hne => ?_, hreached.first.tallies⟩
  -- one of the two contradicts the first vote of the validator
  obtain ⟨first, hfirst⟩ := exists_firstVote hv
  by_cases hsame : first.blockHash = v.blockHash
  · rw [haddr]
    rw [htype, haddr] at hfirst
    exact hreached.punished w hw first hfirst (fun hw' => hne (hsame.symm.trans hw'))
  · exact hreached.punished v hv first hfirst hsame

section Scenario
open Devnet

theorem startNode_equal_isOk : (startNode 2 [(1, 1000), (2, 1000)]).isOk = true := by decide +kernel

/-- Two validators of equal stake; the node is that of keypair 2, before its first
election. -/
def electingNode : Node :=
  (okValue (startNode 2 [(1, 1000), (2, 1000)]) startNode_equal_isOk).next primitives .attempt

def contradicting (choice : Option Hash32) : Vote :=
  buildSignedVote primitives .prevote 1 0 choice (keypair 1)

/-- The node proposes and prevotes, and reads two prevotes of the other validator,
the first for an unknown block and the second for none. -/
def contradictingEvents : List Event :=
  [.mine, .prevote (.listed _), .react (.listed _) (.listed _),
    .vote (contradicting (some Hash32.zero)) (.listed _), .vote (contradicting none) (.listed _)]

theorem equivocator_tombstoned_devnet :
    let reached := attemptRun primitives (electingNode.next primitives (.elect (.listed _)))
      contradictingEvents
    .inbound (contradicting (some Hash32.zero)) ∈ reached.2 ∧
      .inbound (contradicting none) ∈ reached.2 ∧ reached.1.staking.Tombstoned (addressOf 1) := by
  have hset := eq_okValue (electingNode.staking.getActiveValidatorSet (.listed _))
    (by decide +kernel)
  have hreached := equivocator_tombstoned (P := primitives) (h := 1) (r := 0)
    (by decide +kernel : electingNode.phase = .electing 1 0) hset contradictingEvents
    (by simp [contradictingEvents])
  refine ⟨by decide +kernel, by decide +kernel, ?_⟩
  exact hreached.1 (contradicting (some Hash32.zero)) (contradicting none) (by decide +kernel)
    (by decide +kernel) rfl rfl (by decide +kernel)

end Scenario

end Node

end Sprax
