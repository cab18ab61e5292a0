import Sprax.Ranking
import Sprax.EngineRuns

/-!
# Commit certificates

A run is taken together with the votes that were accepted since the last new height. The
tables of the engine hold the first accepted vote of every slot, whatever conflicting,
repeated or foreign votes came as well. A precommit is therefore answered with signatures
exactly if the members whose first precommit is for one block have a quorum, and the
signatures are those of these members, one each, in the order of their addresses.
-/
namespace Sprax
open Std FiniteMap

namespace BftConsensusEngine

/-- An engine with the votes it has accepted since the last new height, in order. -/
def logged (s : BftConsensusEngine × List Vote) (c : EngineCall) : BftConsensusEngine × List Vote :=
  (s.1.perform c, match c with
    | .startHeight _ => []
    | .receivePrevote vote _ => if s.1.Accepts .prevote vote then s.2 ++ [vote] else s.2
    | .receivePrecommit vote _ => if s.1.Accepts .precommit vote then s.2 ++ [vote] else s.2
    | .setRound _ | .proposeBlock .. => s.2)

/-- The tables hold the first accepted vote of every slot. -/
def Logged (s : BftConsensusEngine × List Vote) : Prop :=
  ∀ voteType key, (s.1.votesOf voteType)[key]? = firstBy Vote.key s.2 voteType key

theorem Logged.filed {s : BftConsensusEngine × List Vote} (h : Logged s) :
    s.1.VotesOk (fun _ => True) := by
  intro voteType key vote hvote
  rw [h] at hvote
  exact ⟨(firstBy_some hvote).2.1, (firstBy_some hvote).1, trivial⟩

theorem Logged.same {E E' : BftConsensusEngine} {accepted : List Vote} (h : Logged (E, accepted))
    (hvotes : E'.votesOf = E.votesOf) : Logged (E', accepted) := by
  intro voteType key
  rw [← h voteType key, ← hvotes]

/-- Storing an accepted vote under its key keeps the first of every slot. -/
theorem Logged.stored {E E' : BftConsensusEngine} {accepted : List Vote} (h : Logged (E, accepted))
    {vote : Vote} (hcount : E.Counted E' vote true) : Logged (E', accepted ++ [vote]) := by
  intro voteType key
  have hold : (E.votesOf voteType)[key]? = firstBy Vote.key accepted voteType key := h voteType key
  rw [hcount.votes, firstBy_append, firstBy_singleton]
  by_cases htype : vote.voteType = voteType
  · rw [if_pos ⟨htype, rfl⟩]
    by_cases hkey : vote.key = key
    · subst hkey
      rw [if_pos ⟨htype, rfl⟩, getElem?_insertIfNew_self, hold]
    · rw [if_neg (fun hboth => hkey hboth.2), Option.or_none, getElem?_insertIfNew_ne _ _ hkey,
        hold]
  · rw [if_neg (fun hboth => htype hboth.1), if_neg (fun hboth => htype hboth.1), Option.or_none,
      hold]

theorem Logged.perform {s : BftConsensusEngine × List Vote} (h : Logged s) (c : EngineCall) :
    Logged (logged s c) := by
  obtain ⟨E, accepted⟩ := s
  cases c with
  | startHeight height =>
    intro voteType key
    cases voteType <;> simp [logged, BftConsensusEngine.perform, startHeight, votesOf, firstBy]
  | setRound round => exact h.same (by funext voteType; cases voteType <;> rfl)
  | proposeBlock blockHash proposer => exact h.same (E.proposeBlock_frame blockHash proposer).2
  | receivePrevote vote o =>
    have hcall := E.prevoted_receivePrevote o vote
    simp only [logged, BftConsensusEngine.perform]
    generalize E.receivePrevote o vote = result at hcall ⊢
    cases hcall with
    | refused e hrefused =>
      rw [if_neg hrefused]
      exact h
    | stored haccepts =>
      rw [if_pos haccepts]
      exact h.stored (counted_withPrevote haccepts.1)
    | advanced haccepts =>
      rw [if_pos haccepts]
      exact h.stored ((counted_withPrevote haccepts.1).lock o)
  | receivePrecommit vote o =>
    have hcall := E.precommitted_receivePrecommit o vote
    simp only [logged, BftConsensusEngine.perform]
    generalize E.receivePrecommit o vote = result at hcall ⊢
    cases hcall with
    | refused e hrefused =>
      rw [if_neg hrefused]
      exact h
    | stored haccepts =>
      rw [if_pos haccepts]
      exact h.stored (counted_withPrecommit haccepts.1)
    | committed haccepts =>
      rw [if_pos haccepts]
      exact h.stored ((counted_withPrecommit haccepts.1).withStep .commit)

theorem perform_valSet (E : BftConsensusEngine) (c : EngineCall) :
    (E.perform c).valSet = E.valSet := by
  cases c with
  | startHeight | setRound => rfl
  | proposeBlock blockHash proposer => exact (E.proposeBlock_frame blockHash proposer).1
  | receivePrevote vote o =>
    have hcount := receivePrevote_counted o E vote
    exact hcount.valSet_eq
  | receivePrecommit vote o =>
    have hcount := receivePrecommit_counted o E vote
    exact hcount.valSet_eq

/-- What holds along every run over one set: the tables are those of the accepted votes,
and these come from members. -/
structure Kept (s : ValidatorSet) (p : BftConsensusEngine × List Vote) : Prop where
  valSet_eq : p.1.valSet = s
  tables : Logged p
  members : ∀ v ∈ p.2, v.validatorAddress ∈ s.members

theorem Kept.members_append {s : ValidatorSet} {E : BftConsensusEngine} {accepted : List Vote}
    (h : Kept s (E, accepted)) {voteType : VoteType} {vote : Vote}
    (haccepts : E.Accepts voteType vote) :
    ∀ v ∈ accepted ++ [vote], v.validatorAddress ∈ s.members := by
  intro v hv
  rcases List.mem_append.mp hv with hv | hv
  · exact h.members v hv
  · rw [List.mem_singleton.mp hv, ← h.valSet_eq]
    exact haccepts.2.2.2

theorem Kept.perform {s : ValidatorSet} {p : BftConsensusEngine × List Vote} (h : Kept s p)
    (c : EngineCall) : Kept s (logged p c) := by
  refine ⟨(p.1.perform_valSet c).trans h.valSet_eq, h.tables.perform c, ?_⟩
  have happend : ∀ (voteType : VoteType) (vote : Vote), ∀ v ∈ (if p.1.Accepts voteType vote then
      p.2 ++ [vote] else p.2), v.validatorAddress ∈ s.members := by
    intro voteType vote
    split
    · rename_i haccepts
      exact h.members_append haccepts
    · exact h.members
  cases c with
  | startHeight => simp [logged]
  | setRound | proposeBlock => exact h.members
  | receivePrevote vote => exact happend .prevote vote
  | receivePrecommit vote => exact happend .precommit vote

theorem kept_run (h₀ : ℕ) (s : ValidatorSet) (calls : List EngineCall) :
    Kept s (Runs.run logged (new h₀ s, []) calls) := by
  refine Runs.run_invariant (I := Kept s) (fun p c h => h.perform c) _ _
    ⟨rfl, fun voteType key => ?_, by simp⟩
  simp [votesOf_new, firstBy]

/-- The members whose first accepted precommit of a height and round is for the block. -/
def backersOf (s : ValidatorSet) (accepted : List Vote) (h r : ℕ) (x : Hash32) : Finset Address :=
  s.members.filter (fun a => (firstBy Vote.key accepted .precommit (h, r, a)).map Vote.blockHash =
    some (some x))

/-- The signatures of the first precommits for the block, one for each of its backers, in
the order of their addresses. -/
structure Certificate (s : ValidatorSet) (accepted : List Vote) (h r : ℕ) (x : Hash32)
    (sigs : List CommitSignature) : Prop where
  sorted : sigs.Pairwise (fun a b => compare a.validatorAddress b.validatorAddress = .lt)
  mem_iff : ∀ sig, sig ∈ sigs ↔ ∃ a ∈ backersOf s accepted h r x, ∃ vote,
    firstBy Vote.key accepted .precommit (h, r, a) = some vote ∧
    sig = ⟨a, vote.signature, 1700000000⟩

theorem supporters_eq_backersOf {s : ValidatorSet} {E : BftConsensusEngine} {accepted : List Vote}
    (h : Logged (E, accepted)) (height r : ℕ) (x : Hash32) :
    supporters s E.precommits height r (some x) = backersOf s accepted height r x := by
  refine Finset.filter_congr (fun a _ => ?_)
  rw [← h .precommit (height, r, a)]
  rfl

/-- A signature of the block comes from a stored precommit, under its slot. -/
theorem mem_aggregate {E : BftConsensusEngine} {h r : ℕ} {x : Hash32} {sig : CommitSignature} :
    sig ∈ E.aggregateCommitSignatures h r x ↔ ∃ a vote, E.precommits[(h, r, a)]? = some vote ∧
      vote.blockHash = some x ∧ sig = ⟨a, vote.signature, 1700000000⟩ := by
  simp only [aggregateCommitSignatures, List.mem_insertionSort, List.mem_filterMap]
  constructor
  · rintro ⟨⟨⟨h', r', a⟩, vote⟩, hmem, hsig⟩
    split at hsig
    · rename_i hmatch
      obtain ⟨rfl, rfl, hhash⟩ := hmatch
      exact ⟨a, vote, ExtTreeMap.mem_toList_iff_getElem?_eq_some.mp hmem, hhash,
        (Option.some.inj hsig).symm⟩
    · cases hsig
  · rintro ⟨a, vote, hget, hhash, rfl⟩
    exact ⟨((h, r, a), vote), ExtTreeMap.mem_toList_iff_getElem?_eq_some.mpr hget,
      if_pos ⟨rfl, rfl, hhash⟩⟩

/-- The signatures for a block in a listing of the precommits, in its order. -/
def collected (h r : ℕ) (x : Hash32) (entries : List ((ℕ × ℕ × Address) × Vote)) :
    List CommitSignature :=
  entries.filterMap (fun e =>
    if e.1.1 = h ∧ e.1.2.1 = r ∧ e.2.blockHash = some x then
      some ⟨e.1.2.2, e.2.signature, 1700000000⟩
    else none)

/-- No address signs twice. -/
theorem nodup_collected (E : BftConsensusEngine) (h r : ℕ) (x : Hash32) :
    ((collected h r x E.precommits.toList).map CommitSignature.validatorAddress).Nodup := by
  refine List.pairwise_map.mpr
    (List.pairwise_filterMap.mpr (ExtTreeMap.distinct_keys_toList.imp ?_))
  intro e e' hne sig hsig sig' hsig' haddr
  split at hsig
  · rename_i hmatch
    split at hsig'
    · rename_i hmatch'
      cases hsig
      cases hsig'
      refine hne ?_
      have hkey : e.1 = e'.1 := Prod.ext (hmatch.1.trans hmatch'.1.symm)
        (Prod.ext (hmatch.2.1.trans hmatch'.2.1.symm) haddr)
      rw [hkey]
      exact ReflCmp.compare_self
    · cases hsig'
  · cases hsig

theorem aggregate_sorted (E : BftConsensusEngine) (h r : ℕ) (x : Hash32) :
    (E.aggregateCommitSignatures h r x).Pairwise
      (fun a b => compare a.validatorAddress b.validatorAddress = .lt) :=
  Ranking.sort_strict (fun _ _ => Iff.rfl) (E.nodup_collected h r x)

/-- The signatures do not depend on the order in which the table is gone through. -/
theorem aggregate_listing (E : BftConsensusEngine) {entries : List ((ℕ × ℕ × Address) × Vote)}
    (hperm : entries.Perm E.precommits.toList) (h r : ℕ) (x : Hash32) :
    (collected h r x entries).insertionSort commitLE = E.aggregateCommitSignatures h r x :=
  (Ranking.sort_eq_of_perm (fun _ _ => Iff.rfl) (hperm.symm.filterMap _)
    (E.nodup_collected h r x)).symm

theorem aggregate_certificate {s : ValidatorSet} {E : BftConsensusEngine} {accepted : List Vote}
    (hkept : Kept s (E, accepted)) (h r : ℕ) (x : Hash32) :
    Certificate s accepted h r x (E.aggregateCommitSignatures h r x) := by
  refine ⟨E.aggregate_sorted h r x, fun sig => mem_aggregate.trans ?_⟩
  have hget : ∀ a, E.precommits[(h, r, a)]? = firstBy Vote.key accepted .precommit (h, r, a) :=
    fun a => hkept.tables .precommit (h, r, a)
  constructor
  · rintro ⟨a, vote, hstored, hhash, hsig⟩
    rw [hget] at hstored
    obtain ⟨-, hkey, hmem⟩ := firstBy_some hstored
    have hmember : vote.validatorAddress ∈ s.members := hkept.members vote hmem
    rw [show vote.validatorAddress = a from congrArg (·.2.2) hkey] at hmember
    exact ⟨a, Finset.mem_filter.mpr ⟨hmember, by rw [hstored, Option.map_some, hhash]⟩, vote,
      hstored, hsig⟩
  · rintro ⟨a, hbacks, vote, hfirst, hsig⟩
    have hhash := (Finset.mem_filter.mp hbacks).2
    rw [hfirst, Option.map_some] at hhash
    exact ⟨a, vote, (hget a).trans hfirst, Option.some.inj hhash, hsig⟩

theorem Kept.precommitted_iff {s : ValidatorSet} (hs : s.Exact) {E : BftConsensusEngine}
    {accepted : List Vote} (hkept : Kept s (E, accepted)) (o : IterOrder Hash32) (h r : ℕ)
    (x : Hash32) :
    E.getPrecommittedBlockWithQuorum o h r = some x ↔
      s.quorumThreshold ≤ ∑ a ∈ backersOf s accepted h r x, s.powerOf a := by
  have hvalSet : E.valSet = s := hkept.valSet_eq
  rw [← supporters_eq_backersOf hkept.tables, getPrecommittedBlockWithQuorum, hvalSet]
  exact blockWithQuorum_eq_some_iff hs (hkept.tables.filed .precommit).slot

/-- A precommit that is accepted is answered with a block exactly if the members whose
first accepted precommit is for that block have a quorum, and the answer carries the
certificate of the block. -/
theorem certificates_sound_complete {s : ValidatorSet} (hs : s.Exact) (h₀ : ℕ)
    (calls : List EngineCall) {E : BftConsensusEngine} {accepted : List Vote}
    (hrun : Runs.run logged (new h₀ s, []) calls = (E, accepted)) (vote : Vote)
    (o : IterOrder Hash32) (hok : (E.receivePrecommit o vote).2.isOk = true) (x : Hash32) :
    ((∃ sigs, (E.receivePrecommit o vote).2 = .ok (some (x, sigs))) ↔ s.quorumThreshold ≤
        ∑ a ∈ backersOf s (accepted ++ [vote]) E.state.height E.state.round x, s.powerOf a) ∧
      ∀ sigs, (E.receivePrecommit o vote).2 = .ok (some (x, sigs)) →
        Certificate s (accepted ++ [vote]) E.state.height E.state.round x sigs := by
  have hkept : Kept s (E, accepted) := by
    rw [← hrun]
    exact kept_run h₀ s calls
  -- the answer is read off the engine with the vote stored
  have hnext : E.Accepts .precommit vote → Kept s (E.withPrecommit vote, accepted ++ [vote]) := by
    intro haccepts
    exact ⟨hkept.valSet_eq, hkept.tables.stored (counted_withPrecommit haccepts.1),
      hkept.members_append haccepts⟩
  have hcall := E.precommitted_receivePrecommit o vote
  generalize E.receivePrecommit o vote = result at hcall hok ⊢
  cases hcall with
  | refused => cases hok
  | stored haccepts hnone =>
    have hquery := (hnext haccepts).precommitted_iff hs o E.state.height E.state.round x
    rw [hnone] at hquery
    simpa using hquery
  | committed haccepts hquorum =>
    have hquery := (hnext haccepts).precommitted_iff hs o E.state.height E.state.round x
    rw [hquorum, Option.some.injEq] at hquery
    rw [← hquery]
    refine ⟨⟨?_, ?_⟩, ?_⟩
    · rintro ⟨sigs, hsigs⟩
      cases hsigs
      rfl
    · rintro rfl
      exact ⟨_, rfl⟩
    · intro sigs hsigs
      cases hsigs
      exact aggregate_certificate (hnext haccepts) _ _ _

section Scenario
open Devnet

theorem quartet_exact : quartet.Exact := by
  constructor <;> decide +kernel

/-- The engine before the third precommit. -/
def twoPrecommits : BftConsensusEngine × List Vote :=
  Runs.run logged (new 1 quartet, []) threeVoters.dropLast

theorem third_precommit_certified : ∃ sigs, (twoPrecommits.1.receivePrecommit (.listed _)
      ⟨.precommit, 1, 0, some Hash32.zero, addressOf 3, []⟩).2 = .ok (some (Hash32.zero, sigs)) ∧
    Certificate quartet (twoPrecommits.2 ++ [⟨.precommit, 1, 0, some Hash32.zero, addressOf 3, []⟩])
      twoPrecommits.1.state.height twoPrecommits.1.state.round Hash32.zero sigs := by
  have hrun : Runs.run logged (new 1 quartet, []) threeVoters.dropLast =
      (twoPrecommits.1, twoPrecommits.2) := (Prod.mk.eta (p := twoPrecommits)).symm
  have hthird := certificates_sound_complete quartet_exact 1 threeVoters.dropLast hrun
    ⟨.precommit, 1, 0, some Hash32.zero, addressOf 3, []⟩ (.listed _) (by decide +kernel)
      Hash32.zero
  obtain ⟨sigs, hsigs⟩ := hthird.1.mpr (by decide +kernel)
  exact ⟨sigs, hsigs, hthird.2 sigs hsigs⟩

end Scenario

end BftConsensusEngine

end Sprax
