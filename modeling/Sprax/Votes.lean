import Sprax.Node

/-!
# The votes an engine stores

A stored vote sits under its own height, round and validator, in the table of
its own type, and got there in one of two ways: the node cast it itself, or it
arrived and its signature verified under the key of a member of the current
validator set. Both facts are carried through every step here, for an arbitrary
property of votes that these two ways establish.
-/
namespace Sprax
open Std FiniteMap

/-- Every stored vote is filed under its own key, has the type of the table and
satisfies `ok`. -/
def VoteMap.Holds (votes : VoteMap) (voteType : VoteType) (ok : Vote → Prop) : Prop :=
  ∀ key vote, votes[key]? = some vote → vote.key = key ∧ vote.voteType = voteType ∧ ok vote

theorem VoteMap.holds_empty (voteType : VoteType) (ok : Vote → Prop) :
    VoteMap.Holds ∅ voteType ok := by
  intro key vote h
  simp at h

theorem VoteMap.Holds.insertIfNew {votes : VoteMap} {voteType : VoteType} {ok : Vote → Prop}
    (h : VoteMap.Holds votes voteType ok) {vote : Vote} (htype : vote.voteType = voteType)
    (hok : ok vote) : VoteMap.Holds (votes.insertIfNew vote.key vote) voteType ok := by
  intro key stored hstored
  rw [ExtTreeMap.getElem?_insertIfNew] at hstored
  split at hstored
  · rename_i hnew
    cases hstored
    exact ⟨LawfulEqCmp.eq_of_compare hnew.1, htype, hok⟩
  · exact h key stored hstored

theorem VoteMap.Holds.mono {votes : VoteMap} {voteType : VoteType} {ok ok' : Vote → Prop}
    (h : VoteMap.Holds votes voteType ok) (himp : ∀ v, ok v → ok' v) :
    VoteMap.Holds votes voteType ok' := by
  intro key vote hvote
  obtain ⟨hkey, htype, hok⟩ := h key vote hvote
  exact ⟨hkey, htype, himp vote hok⟩

/-- A stored vote is that of the validator whose slot it is in. -/
theorem VoteMap.Holds.slot {votes : VoteMap} {voteType : VoteType} {ok : Vote → Prop}
    (hvotes : VoteMap.Holds votes voteType ok) {h r : ℕ} (a : Address) (v : Vote)
    (hget : votes[(h, r, a)]? = some v) : v.validatorAddress = a := by
  have hkey : v.key = (h, r, a) := (hvotes _ v hget).1
  exact congrArg (·.2.2) hkey

/-- The first vote of a type for a slot; slots tell votes apart by one of their parts. -/
def firstBy {κ : Type} [DecidableEq κ] (slot : Vote → κ) (votes : List Vote) (voteType : VoteType)
    (k : κ) : Option Vote :=
  votes.find? (fun v => v.voteType = voteType ∧ slot v = k)

section FirstVotes
variable {κ : Type} [DecidableEq κ] {slot : Vote → κ} {votes : List Vote}
    {voteType : VoteType} {k : κ}

theorem firstBy_some {v : Vote} (h : firstBy slot votes voteType k = some v) :
    v.voteType = voteType ∧ slot v = k ∧ v ∈ votes := by
  have hv : v.voteType = voteType ∧ slot v = k := by simpa using List.find?_some h
  exact ⟨hv.1, hv.2, List.mem_of_find?_eq_some h⟩

/-- A slot that was voted for has a first vote. -/
theorem exists_firstBy (slot : Vote → κ) {v : Vote} (hv : v ∈ votes) :
    ∃ first, firstBy slot votes v.voteType (slot v) = some first :=
  Option.isSome_iff_exists.mp (List.find?_isSome.mpr ⟨v, hv, by simp⟩)

theorem firstBy_append (votes later : List Vote) :
    firstBy slot (votes ++ later) voteType k =
      (firstBy slot votes voteType k).or (firstBy slot later voteType k) := List.find?_append

theorem firstBy_singleton (v : Vote) : firstBy slot [v] voteType k =
    if v.voteType = voteType ∧ slot v = k then some v else none := by
  rw [firstBy, List.find?_singleton]
  simp

end FirstVotes

namespace BftConsensusEngine

/-- Both vote tables are well filed and hold only votes that satisfy `ok`. -/
def VotesOk (E : BftConsensusEngine) (ok : Vote → Prop) : Prop :=
  ∀ voteType, VoteMap.Holds (E.votesOf voteType) voteType ok

theorem VotesOk.mono {E : BftConsensusEngine} {ok ok' : Vote → Prop} (h : E.VotesOk ok)
    (himp : ∀ v, ok v → ok' v) : E.VotesOk ok' :=
  fun voteType => (h voteType).mono himp

/-- Engines without votes. -/
theorem votesOk_of_empty {E : BftConsensusEngine} (ok : Vote → Prop)
    (hempty : ∀ voteType, E.votesOf voteType = ∅) : E.VotesOk ok := by
  intro voteType
  rw [hempty]
  exact VoteMap.holds_empty _ _

theorem votesOf_new (height : ℕ) (valSet : ValidatorSet) (voteType : VoteType) :
    (new height valSet).votesOf voteType = ∅ := by
  cases voteType <;> rfl

theorem checkVote_ok {E : BftConsensusEngine} {expected : VoteType} {text : String} {vote : Vote}
    (h : E.checkVote expected text vote = .ok ()) :
    vote.voteType = expected ∧ vote.height = E.state.height ∧ vote.round = E.state.round ∧
      ∃ validator, E.valSet.find vote.validatorAddress = some validator := by
  unfold checkVote at h
  split at h
  · cases h
  · rename_i htype
    split at h
    · cases h
    · rename_i hround
      push Not at hround
      split at h
      · cases h
      · rename_i hmember
        refine ⟨not_not.mp htype, hround.1, hround.2, ?_⟩
        exact Option.ne_none_iff_exists'.mp (by simpa using hmember)

/-- `E'` is `E` with this vote, if it is stored, added to the table of its type, as far
as voting reads an engine. -/
structure Counted (E E' : BftConsensusEngine) (vote : Vote) (stored : Bool) : Prop where
  valSet_eq : E'.valSet = E.valSet
  proposedBlocks_eq : E'.proposedBlocks = E.proposedBlocks
  height_eq : E'.state.height = E.state.height
  round_eq : E'.state.round = E.state.round
  votes : ∀ voteType, E'.votesOf voteType =
    if vote.voteType = voteType ∧ stored = true then (E.votesOf voteType).insertIfNew vote.key vote
    else E.votesOf voteType

theorem counted_refused (E : BftConsensusEngine) (vote : Vote) : Counted E E vote false :=
  ⟨rfl, rfl, rfl, rfl, fun _ => by simp⟩

/-- Taking a quorum lock changes the round state only. -/
theorem Counted.lock {E E' : BftConsensusEngine} {vote : Vote} {stored : Bool}
    (h : Counted E E' vote stored) (o : IterOrder Hash32) :
    Counted E (E'.lockOnQuorum o) vote stored := by
  unfold lockOnQuorum
  dsimp only
  split
  · exact ⟨h.valSet_eq, h.proposedBlocks_eq, h.height_eq, h.round_eq, h.votes⟩
  · exact ⟨h.valSet_eq, h.proposedBlocks_eq, h.height_eq, h.round_eq, h.votes⟩

theorem lockOnQuorum_votesOf (o : IterOrder Hash32) (E : BftConsensusEngine) (voteType : VoteType) :
    (E.lockOnQuorum o).votesOf voteType = E.votesOf voteType := by
  unfold lockOnQuorum
  dsimp only
  split <;> cases voteType <;> rfl

theorem receivePrevote_counted (o : IterOrder Hash32) (E : BftConsensusEngine) (vote : Vote) :
    Counted E (E.receivePrevote o vote).1 vote
      (E.checkVote .prevote "expected Prevote vote" vote).isOk := by
  unfold receivePrevote
  cases hcheck : E.checkVote .prevote "expected Prevote vote" vote with
  | error e => exact counted_refused E vote
  | ok u =>
    have htype := (checkVote_ok hcheck).1
    have hstored :
        Counted E { E with prevotes := E.prevotes.insertIfNew vote.key vote } vote true := by
      refine ⟨rfl, rfl, rfl, rfl, fun voteType => ?_⟩
      cases voteType <;> simp [votesOf, htype]
    dsimp only
    split
    · exact hstored.lock o
    · exact hstored

theorem receivePrecommit_counted (o : IterOrder Hash32) (E : BftConsensusEngine) (vote : Vote) :
    Counted E (E.receivePrecommit o vote).1 vote
      (E.checkVote .precommit "expected Precommit vote" vote).isOk := by
  unfold receivePrecommit
  cases hcheck : E.checkVote .precommit "expected Precommit vote" vote with
  | error e => exact counted_refused E vote
  | ok u =>
    have htype := (checkVote_ok hcheck).1
    have hstored : ∀ state : RoundState, state.height = E.state.height →
        state.round = E.state.round → Counted E
          { E with precommits := E.precommits.insertIfNew vote.key vote, state := state } vote
            true := by
      intro state hheight hround
      refine ⟨rfl, rfl, hheight, hround, fun voteType => ?_⟩
      cases voteType <;> simp [votesOf, htype]
    dsimp only
    split
    · exact hstored _ rfl rfl
    · exact hstored _ rfl rfl

theorem VotesOk.counted {E E' : BftConsensusEngine} {ok : Vote → Prop} (h : E.VotesOk ok)
    {vote : Vote} {stored : Bool} (hcount : Counted E E' vote stored) (hok : ok vote) :
    E'.VotesOk ok := by
  intro voteType
  rw [hcount.votes]
  split
  · rename_i hstored
    exact (h voteType).insertIfNew hstored.1 hok
  · exact h voteType

/-- A conflict is a stored vote in the same slot for another block. -/
theorem VotesOk.conflicting {E : BftConsensusEngine} {ok : Vote → Prop} (h : E.VotesOk ok)
    {vote stored : Vote} (hconflict : E.findConflictingVote vote = some stored) :
    stored.key = vote.key ∧ stored.voteType = vote.voteType ∧
      stored.blockHash ≠ vote.blockHash ∧ ok stored := by
  obtain ⟨hget, hne⟩ := Option.filter_eq_some_iff.mp hconflict
  obtain ⟨hkey, htype, hok⟩ := h _ _ _ hget
  exact ⟨hkey, htype, by simpa using hne, hok⟩

/-- Refreshing the set carries priorities over and nothing else. -/
theorem setValidatorSet_roster (E : BftConsensusEngine) (valSet : ValidatorSet) :
    (E.setValidatorSet valSet).valSet.roster = valSet.roster := by
  simp only [setValidatorSet, ValidatorSet.roster, List.map_map]
  apply List.map_congr_left
  intro v _
  simp only [Function.comp_apply, carryPriority]
  split <;> rfl

theorem proposeBlock_frame (E : BftConsensusEngine) (hash : Hash32) (proposer : Address) :
    (E.proposeBlock hash proposer).1.valSet = E.valSet ∧
      (E.proposeBlock hash proposer).1.votesOf = E.votesOf := by
  unfold proposeBlock
  split <;> exact ⟨rfl, rfl⟩

theorem proposeBlock_state (E : BftConsensusEngine) (hash : Hash32)
    (proposer : Address) : (E.proposeBlock hash proposer).1.state.height = E.state.height ∧
      (E.proposeBlock hash proposer).1.state.round = E.state.round := by
  unfold proposeBlock
  split <;> exact ⟨rfl, rfl⟩

end BftConsensusEngine

namespace Node
variable {P : Primitives}

/-- Counting a precommit stores it; a quorum shows as a commit for the hash that
has it. -/
theorem countPrecommit_cases (n : Node) (h r : ℕ) (vote : Vote) (o : IterOrder Hash32) :
    (∃ hash sigs, (n.engine.receivePrecommit o vote).2 = .ok (some (hash, sigs)) ∧
      n.countPrecommit h r vote o =
        ({ n with
            engine := (n.engine.receivePrecommit o vote).1
            phase := .finalizing h hash sigs }, [.committed h r hash sigs])) ∨
    n.countPrecommit h r vote o =
      ({ n with engine := (n.engine.receivePrecommit o vote).1, phase := .voting h r }, []) := by
  unfold countPrecommit
  dsimp only
  split
  · rename_i hash sigs hquorum
    exact Or.inl ⟨hash, sigs, hquorum, rfl⟩
  · exact Or.inr rfl

/-- Counting a prevote stores it; whether any quorum was reached decides the next
phase. -/
theorem countVote_cases (n : Node) (h r : ℕ) (vote : Vote) (o : IterOrder Hash32) :
    (vote.voteType = .prevote ∧ ∃ phase, (phase = .reacting h r ∨ phase = .voting h r) ∧
      n.countVote h r vote o =
        ({ n with engine := (n.engine.receivePrevote o vote).1, phase := phase }, [])) ∨
    (vote.voteType = .precommit ∧ n.countVote h r vote o = n.countPrecommit h r vote o) := by
  unfold countVote
  cases htype : vote.voteType with
  | prevote =>
    refine Or.inl ⟨rfl, _, ?_, rfl⟩
    split
    · exact Or.inl rfl
    · exact Or.inr rfl
  | precommit => exact Or.inr ⟨rfl, rfl⟩

/-- Handling a conflict touches the staking keeper and shows evidence only. -/
theorem slashConflict_cases (n : Node) (vote : Vote) :
    n.slashConflict vote = (n, []) ∨
      ∃ conflicting effects, n.engine.findConflictingVote vote = some conflicting ∧
        (∀ e ∈ effects, ∃ evidence, e = .sentEvidence evidence) ∧
        n.slashConflict vote = ({ n with staking := (n.staking.slashEquivocation
          ⟨vote.validatorAddress, vote.height, vote.round, conflicting, vote⟩).1 }, effects) := by
  unfold slashConflict
  split
  · exact Or.inl rfl
  · rename_i conflicting hconflict
    dsimp only
    split
    · refine Or.inr ⟨conflicting, _, hconflict, ?_, rfl⟩
      intro e he
      split at he
      · split at he
        · cases he
        · exact ⟨_, List.mem_singleton.mp he⟩
      · cases he
    · exact Or.inl rfl

theorem countPrecommit_frame (n : Node) (h r : ℕ) (vote : Vote) (o : IterOrder Hash32) :
    ∃ phase, (n.countPrecommit h r vote o).1 =
      { n with engine := (n.engine.receivePrecommit o vote).1, phase := phase } := by
  rcases n.countPrecommit_cases h r vote o with ⟨hash, sigs, -, hcommit⟩ | hwait
  · exact ⟨_, congrArg Prod.fst hcommit⟩
  · exact ⟨_, congrArg Prod.fst hwait⟩

theorem countVote_frame (n : Node) (h r : ℕ) (vote : Vote) (o : IterOrder Hash32) :
    ∃ engine phase, (n.countVote h r vote o).1 = { n with engine := engine, phase := phase } := by
  rcases n.countVote_cases h r vote o with ⟨-, phase, -, hprevote⟩ | ⟨-, hprecommit⟩
  · exact ⟨_, _, congrArg Prod.fst hprevote⟩
  · obtain ⟨phase, hframe⟩ := n.countPrecommit_frame h r vote o
    exact ⟨_, _, (congrArg Prod.fst hprecommit).trans hframe⟩

theorem slashConflict_frame (n : Node) (vote : Vote) :
    ∃ staking, (n.slashConflict vote).1 = { n with staking := staking } := by
  rcases n.slashConflict_cases vote with hsame | ⟨conflicting, effects, -, -, hslash⟩
  · exact ⟨n.staking, congrArg Prod.fst hsame⟩
  · exact ⟨_, congrArg Prod.fst hslash⟩

@[simp] theorem slashConflict_engine (n : Node) (vote : Vote) :
    (n.slashConflict vote).1.engine = n.engine := by
  obtain ⟨staking, hframe⟩ := n.slashConflict_frame vote
  rw [hframe]

@[simp] theorem countPrecommit_engine (n : Node) (h r : ℕ) (vote : Vote) (o : IterOrder Hash32) :
    (n.countPrecommit h r vote o).1.engine = (n.engine.receivePrecommit o vote).1 := by
  obtain ⟨phase, hframe⟩ := n.countPrecommit_frame h r vote o
  rw [hframe]

theorem countVote_counted (n : Node) (h r : ℕ) (vote : Vote) (o : IterOrder Hash32) :
    ∃ stored, n.engine.Counted (n.countVote h r vote o).1.engine vote stored := by
  rcases n.countVote_cases h r vote o with ⟨-, phase, -, hprevote⟩ | ⟨-, hprecommit⟩
  · rw [hprevote]
    exact ⟨_, n.engine.receivePrevote_counted o vote⟩
  · rw [hprecommit, countPrecommit_engine]
    exact ⟨_, n.engine.receivePrecommit_counted o vote⟩

@[simp] theorem countPrecommit_staking (n : Node) (h r : ℕ) (vote : Vote) (o : IterOrder Hash32) :
    (n.countPrecommit h r vote o).1.staking = n.staking := by
  obtain ⟨phase, hframe⟩ := n.countPrecommit_frame h r vote o
  rw [hframe]

@[simp] theorem countVote_staking (n : Node) (h r : ℕ) (vote : Vote) (o : IterOrder Hash32) :
    (n.countVote h r vote o).1.staking = n.staking := by
  obtain ⟨engine, phase, hframe⟩ := n.countVote_frame h r vote o
  rw [hframe]

theorem slashConflict_effects {n : Node} {vote : Vote} {e : Effect}
    (he : e ∈ (n.slashConflict vote).2) : ∃ evidence, e = .sentEvidence evidence := by
  rcases n.slashConflict_cases vote with hresult | ⟨conflicting, effects, -, heffects, hresult⟩
  · rw [hresult] at he
    cases he
  · rw [hresult] at he
    exact heffects e he

theorem countPrecommit_effects {n : Node} {h r : ℕ} {vote : Vote} {o : IterOrder Hash32}
    {e : Effect} (he : e ∈ (n.countPrecommit h r vote o).2) :
      ∃ hash sigs, e = .committed h r hash sigs := by
  rcases n.countPrecommit_cases h r vote o with ⟨hash, sigs, -, hresult⟩ | hresult
  · rw [hresult] at he
    exact ⟨hash, sigs, List.mem_singleton.mp he⟩
  · rw [hresult] at he
    cases he

theorem countVote_effects {n : Node} {h r : ℕ} {vote : Vote} {o : IterOrder Hash32} {e : Effect}
    (he : e ∈ (n.countVote h r vote o).2) : ∃ hash sigs, e = .committed h r hash sigs := by
  rcases n.countVote_cases h r vote o with ⟨-, phase, -, hresult⟩ | ⟨-, hresult⟩
  · rw [hresult] at he
    cases he
  · rw [hresult] at he
    exact countPrecommit_effects he

@[simp] theorem castVotes_slashConflict (n : Node) (vote : Vote) :
    castVotes (n.slashConflict vote).2 = [] := by
  refine castVotes_eq_nil (fun v hv => ?_)
  obtain ⟨evidence, he⟩ := slashConflict_effects hv
  cases he

@[simp] theorem castVotes_countPrecommit (n : Node) (h r : ℕ) (vote : Vote) (o : IterOrder Hash32) :
    castVotes (n.countPrecommit h r vote o).2 = [] := by
  refine castVotes_eq_nil (fun v hv => ?_)
  obtain ⟨hash, sigs, he⟩ := countPrecommit_effects hv
  cases he

@[simp] theorem castVotes_countVote (n : Node) (h r : ℕ) (vote : Vote) (o : IterOrder Hash32) :
    castVotes (n.countVote h r vote o).2 = [] := by
  refine castVotes_eq_nil (fun v hv => ?_)
  obtain ⟨hash, sigs, he⟩ := countVote_effects hv
  cases he

theorem finalize_effects {n : Node} {h : ℕ} {hash : Hash32} {sigs : List CommitSignature}
    {e : Effect} (he : e ∈ (n.finalize P h hash sigs).2) : e = .recorded h hash sigs := by
  unfold finalize at he
  dsimp only at he
  split at he
  · exact List.mem_singleton.mp he
  · cases he

theorem rebroadcast_effects {n : Node} {h : ℕ} {e : Effect} (he : e ∈ (n.rebroadcast h).2) :
    ∃ block ∈ n.ledger.blocks, e = .sentBlocks [block] := by
  unfold rebroadcast at he
  dsimp only at he
  split at he
  · rename_i block hstored
    exact ⟨block, List.mem_of_getElem? hstored, List.mem_singleton.mp he⟩
  · cases he

/-- An attempt starts with empty tables. -/
theorem electedEngine_votesOf (n : Node) (valSet : ValidatorSet) (h r : ℕ) (voteType : VoteType) :
    (n.electedEngine valSet h r).1.votesOf voteType = ∅ := by
  cases voteType <;> rfl

/-- An attempt votes under the set it was started with. -/
theorem electedEngine_valSet (n : Node) (valSet : ValidatorSet) (h r : ℕ) :
    (n.electedEngine valSet h r).1.valSet.roster = valSet.roster ∧
      (n.electedEngine valSet h r).1.valSet.totalVotingPower = valSet.totalVotingPower := by
  constructor
  · exact (ValidatorSet.selectProposer_roster _).trans (n.engine.setValidatorSet_roster valSet)
  · rfl

/-- What is stored after a step satisfies `ok` if what was stored before does,
the votes cast in the step do, and every vote read whose signature verifies
does. -/
theorem votesOk_step {n : Node} {ev : Event} {ok : Vote → Prop} (hstored : n.engine.VotesOk ok)
    (hcast : ∀ v, .castVote v ∈ (n.step P ev).2 → ok v)
    (hread : ∀ v o validator, ev = .vote v o →
      n.engine.valSet.find v.validatorAddress = some validator →
      Ed25519Keypair.verify P validator.publicKey (v.signBytes P) v.signature = .ok () → ok v) :
    (n.step P ev).1.engine.VotesOk ok := by
  have hfired := step_fired (P := P) n ev
  generalize n.step P ev = result at hfired hcast
  cases hfired with
  | stutter | attempted | electFailed | proposalTaken | reactedNot | voteTimedOut | finalized
  | rebroadcasted | gossipedBlock | gossipedTx | listened | served => exact hstored
  | elected => exact BftConsensusEngine.votesOk_of_empty ok (n.electedEngine_votesOf _ _ _)
  | mined | applied =>
    intro voteType
    rw [(n.engine.proposeBlock_frame _ _).2]
    exact hstored voteType
  | proposalRefused | proposeTimedOut | applyFailed | prevoted =>
    exact hstored.counted (n.engine.receivePrevote_counted _ _) (hcast _ List.mem_cons_self)
  | reacted =>
    rw [countPrecommit_engine]
    exact hstored.counted (n.engine.receivePrecommit_counted _ _) (hcast _ List.mem_cons_self)
  | @voted h r v o validator hp hheight hround hvalidator hverify =>
    obtain ⟨_, hcount⟩ := countVote_counted (n.slashConflict v).1 h r v o
    rw [slashConflict_engine] at hcount
    exact hstored.counted hcount (hread v o validator rfl hvalidator hverify)

/-- The validator set changes only at the start of an attempt, to the active set
of that moment. -/
theorem valSet_step (n : Node) (ev : Event) :
    (n.step P ev).1.engine.valSet = n.engine.valSet ∨
      ∃ records valSet, ev = .elect records ∧
        n.staking.getActiveValidatorSet records = .ok valSet ∧
        (n.step P ev).1.engine.valSet.roster = valSet.roster ∧
        (n.step P ev).1.engine.valSet.totalVotingPower = valSet.totalVotingPower := by
  have hfired := step_fired (P := P) n ev
  generalize n.step P ev = result at hfired
  cases hfired with
  | elected hp hset =>
    exact Or.inr ⟨_, _, rfl, hset, n.electedEngine_valSet _ _ _⟩
  | mined | applied => exact Or.inl (n.engine.proposeBlock_frame _ _).1
  | proposalRefused | proposeTimedOut | applyFailed | prevoted =>
    exact Or.inl (n.engine.receivePrevote_counted _ _).valSet_eq
  | reacted =>
    rw [countPrecommit_engine]
    exact Or.inl (n.engine.receivePrecommit_counted _ _).valSet_eq
  | @voted h r v o =>
    obtain ⟨_, hcount⟩ := countVote_counted (n.slashConflict v).1 h r v o
    rw [slashConflict_engine] at hcount
    exact Or.inl hcount.valSet_eq
  | _ => exact Or.inl rfl

end Node

end Sprax
