import Sprax.Certificates

/-!
# Locks and the order of votes

A lock is taken on a quorum of prevotes that the engine holds, and it keeps them until the
next height, so every lock is justified by what is stored. Within one round the lock, the
queries and the signatures are read off the tables, and a table does not depend on the
order in which the votes came as long as no validator votes twice.
-/
namespace Sprax
open Std FiniteMap

theorem support_le_insertIfNew (s : ValidatorSet) (votes : VoteMap) (key : ℕ × ℕ × Address)
    (vote : Vote) (h r : ℕ) (choice : Option Hash32) :
    support s votes h r choice ≤ support s (votes.insertIfNew key vote) h r choice := by
  refine Finset.sum_le_sum_of_subset (fun a ha => ?_)
  obtain ⟨hmember, stored, hget, hchoice⟩ := mem_supporters.mp ha
  refine mem_supporters.mpr ⟨hmember, stored, ?_, hchoice⟩
  by_cases hkey : key = (h, r, a)
  · rw [hkey, getElem?_insertIfNew_self, hget, Option.some_or]
  · rw [getElem?_insertIfNew_ne _ _ hkey, hget]

namespace BftConsensusEngine

/-- The engine locked on a block in its round. -/
def withLock (E : BftConsensusEngine) (bh : Hash32) : BftConsensusEngine :=
  { E with state :=
      { E.state with
        lockedRound := some E.state.round
        lockedBlock := some bh
        validRound := some E.state.round
        validBlock := some bh } }

/-- A prevote quorum ends the prevotes, and locks on its block if it is not for nil. -/
inductive Locking (E : BftConsensusEngine) (o : IterOrder Hash32) : BftConsensusEngine → Prop
  | unlocked (hnone : E.getPrevotedBlockWithQuorum o E.state.height E.state.round = none) :
      Locking E o (E.withStep .precommit)
  | locked {bh : Hash32} (hsome : E.getPrevotedBlockWithQuorum o E.state.height E.state.round =
      some bh) :
      Locking E o ((E.withStep .precommit).withLock bh)

theorem locking_lockOnQuorum (E : BftConsensusEngine) (o : IterOrder Hash32) :
    E.Locking o (E.lockOnQuorum o) := by
  unfold lockOnQuorum
  dsimp only
  split
  · rename_i hnone
    exact .unlocked hnone
  · rename_i bh hsome
    exact .locked hsome

/-- The prevotes are filed under their own slots, a lock on a block is a lock of a round in
which the stored prevotes for the block have a quorum, and what is valid is what is locked. -/
structure Justified (E : BftConsensusEngine) : Prop where
  filed : VoteMap.Holds E.prevotes .prevote (fun _ => True)
  locked : ∀ b, E.state.lockedBlock = some b → ∃ r, E.state.lockedRound = some r ∧
    E.valSet.quorumThreshold ≤ support E.valSet E.prevotes E.state.height r (some b)
  validBlock_eq : E.state.validBlock = E.state.lockedBlock
  validRound_eq : E.state.validRound = E.state.lockedRound

theorem justified_of_unlocked {E : BftConsensusEngine} (hvotes : E.prevotes = ∅)
    (hstate : E.state.lockedBlock = none ∧ E.state.validBlock = none ∧
      E.state.validRound = E.state.lockedRound) : E.Justified where
  filed := by
    rw [hvotes]
    exact VoteMap.holds_empty _ _
  locked b hb := by
    rw [hstate.1] at hb
    cases hb
  validBlock_eq := hstate.2.1.trans hstate.1.symm
  validRound_eq := hstate.2.2

theorem Justified.withPrevote {E : BftConsensusEngine} (h : E.Justified) {vote : Vote}
    (htype : vote.voteType = .prevote) : (E.withPrevote vote).Justified where
  filed := h.filed.insertIfNew htype trivial
  locked b hb := by
    obtain ⟨r, hround, hquorum⟩ := h.locked b hb
    exact ⟨r, hround, hquorum.trans (support_le_insertIfNew _ _ _ _ _ _ _)⟩
  validBlock_eq := h.validBlock_eq
  validRound_eq := h.validRound_eq

theorem Justified.withStep {E : BftConsensusEngine} (h : E.Justified) (step : RoundStep) :
    (E.withStep step).Justified :=
  ⟨h.filed, h.locked, h.validBlock_eq, h.validRound_eq⟩

theorem Justified.lockOnQuorum {E : BftConsensusEngine} (hs : E.valSet.Exact) (h : E.Justified)
    (o : IterOrder Hash32) : (E.lockOnQuorum o).Justified := by
  have hlock := E.locking_lockOnQuorum o
  generalize E.lockOnQuorum o = E' at hlock ⊢
  cases hlock with
  | unlocked => exact h.withStep _
  | locked hsome =>
    refine ⟨h.filed, ?_, rfl, rfl⟩
    rintro b hb
    cases hb
    exact ⟨E.state.round, rfl, (blockWithQuorum_eq_some_iff hs h.filed.slot).mp hsome⟩

theorem Justified.perform {E : BftConsensusEngine} (hs : E.valSet.Exact) (h : E.Justified)
    (c : EngineCall) : (E.perform c).Justified := by
  cases c with
  | startHeight height => exact justified_of_unlocked rfl ⟨rfl, rfl, rfl⟩
  | setRound round => exact ⟨h.filed, h.locked, h.validBlock_eq, h.validRound_eq⟩
  | proposeBlock blockHash proposer =>
    have hcall := E.proposed_proposeBlock blockHash proposer
    simp only [BftConsensusEngine.perform]
    generalize E.proposeBlock blockHash proposer = result at hcall ⊢
    cases hcall with
    | refused => exact h
    | recorded => exact ⟨h.filed, h.locked, h.validBlock_eq, h.validRound_eq⟩
  | receivePrevote vote o =>
    have hcall := E.prevoted_receivePrevote o vote
    simp only [BftConsensusEngine.perform]
    generalize E.receivePrevote o vote = result at hcall ⊢
    cases hcall with
    | refused => exact h
    | stored haccepts => exact h.withPrevote haccepts.1
    | advanced haccepts =>
      exact Justified.lockOnQuorum (E := E.withPrevote vote) hs (h.withPrevote haccepts.1) o
  | receivePrecommit vote o =>
    have hcall := E.precommitted_receivePrecommit o vote
    simp only [BftConsensusEngine.perform]
    generalize E.receivePrecommit o vote = result at hcall ⊢
    cases hcall with
    | refused => exact h
    | stored | committed => exact ⟨h.filed, h.locked, h.validBlock_eq, h.validRound_eq⟩

theorem justified_run {E : BftConsensusEngine} (hs : E.valSet.Exact) (h : E.Justified)
    (calls : List EngineCall) :
    (Runs.run perform E calls).Justified ∧ (Runs.run perform E calls).valSet = E.valSet := by
  refine Runs.run_invariant (I := fun E' => E'.Justified ∧ E'.valSet = E.valSet) ?_ E calls ⟨h, rfl⟩
  rintro E' c ⟨hjustified, hvalSet⟩
  exact ⟨hjustified.perform (hvalSet ▸ hs) c, (E'.perform_valSet c).trans hvalSet⟩

/-- In every run a lock is backed by a quorum of the prevotes that the engine stores for the
locked round and block, and the valid block and round are the locked ones. -/
theorem locks_justified {s : ValidatorSet} (hs : s.Exact) (h₀ : ℕ) (calls : List EngineCall) :
    (Runs.run perform (new h₀ s) calls).Justified ∧
      (Runs.run perform (new h₀ s) calls).valSet = s :=
  justified_run (E := new h₀ s) hs (justified_of_unlocked rfl ⟨rfl, rfl, rfl⟩) calls

theorem locks_justified_devnet :
    (Runs.run perform (new 1 quartet) threeVoters).state.lockedBlock = some Hash32.zero ∧
      (Runs.run perform (new 1 quartet) threeVoters).Justified ∧
      (Runs.run perform (new 1 quartet) threeVoters).valSet = quartet :=
  ⟨by decide +kernel, locks_justified quartet_exact 1 threeVoters⟩

/-- Hand a vote to the receiver of its type. -/
def castCall (ballot : Vote × IterOrder Hash32) : EngineCall :=
  match ballot.1.voteType with
  | .prevote => .receivePrevote ballot.1 ballot.2
  | .precommit => .receivePrecommit ballot.1 ballot.2

/-- A round of a new height, with the votes that come in it. The enumeration order of the
tables built for a vote stands beside it. -/
def polled (E : BftConsensusEngine) (h r : ℕ) (ballots : List (Vote × IterOrder Hash32)) :
    BftConsensusEngine :=
  Runs.run perform ((E.startHeight h).setRound r) (ballots.map castCall)

/-- At most one choice has a quorum of prevotes and at most one block one of precommits,
so the queries return the same in every enumeration order. -/
structure Decided (E : BftConsensusEngine) (h r : ℕ) : Prop where
  prevote_unique : ∀ choice other,
    E.valSet.hasQuorum (powerFor (tallied E.valSet E.prevotes h r) choice) = true →
    E.valSet.hasQuorum (powerFor (tallied E.valSet E.prevotes h r) other) = true → choice = other
  precommit_unique : ∀ x y : Hash32,
    E.valSet.hasQuorum (powerFor (tallied E.valSet E.precommits h r) (some x)) = true →
    E.valSet.hasQuorum (powerFor (tallied E.valSet E.precommits h r) (some y)) = true → x = y
  prevoted_order : ∀ o o', E.getPrevotedBlockWithQuorum o h r = E.getPrevotedBlockWithQuorum o' h r
  precommitted_order : ∀ o o',
    E.getPrecommittedBlockWithQuorum o h r = E.getPrecommittedBlockWithQuorum o' h r

/-- The lock is on the block that the prevotes of the current round elect. -/
def LockedCurrent (E : BftConsensusEngine) : Prop :=
  ∀ b, E.state.lockedBlock = some b ↔
    E.valSet.quorumThreshold ≤ support E.valSet E.prevotes E.state.height E.state.round (some b)

theorem hasQuorum_unique {s : ValidatorSet} (hs : s.Exact) {votes : VoteMap} {h r : ℕ}
    (hslot : ∀ (a : Address) (v : Vote), votes[(h, r, a)]? = some v → v.validatorAddress = a)
    {choice other : Option Hash32}
    (hchoice : s.hasQuorum (powerFor (tallied s votes h r) choice) = true)
    (hother : s.hasQuorum (powerFor (tallied s votes h r) other) = true) : choice = other := by
  rw [ValidatorSet.hasQuorum_iff, powerFor_eq_support hs hslot] at hchoice hother
  exact quorum_unique hs hchoice hother

theorem decided_of_exact {E : BftConsensusEngine} (hs : E.valSet.Exact) {ok : Vote → Prop}
    (hvotes : E.VotesOk ok) (h r : ℕ) : E.Decided h r where
  prevote_unique _ _ := hasQuorum_unique hs (hvotes .prevote).slot
  precommit_unique _ _ hx hy := Option.some.inj (hasQuorum_unique hs (hvotes .precommit).slot hx hy)
  prevoted_order := blockWithQuorum_order hs (hvotes .prevote).slot
  precommitted_order := blockWithQuorum_order hs (hvotes .precommit).slot

/-- A prevote with which no block has a quorum leaves the lock as it is. -/
theorem LockedCurrent.withPrevote {E : BftConsensusEngine} (h : E.LockedCurrent) {vote : Vote}
    (hnone : ∀ b, ¬ E.valSet.quorumThreshold ≤ support E.valSet (E.withPrevote vote).prevotes
      E.state.height E.state.round (some b)) : (E.withPrevote vote).LockedCurrent := by
  intro b
  refine iff_of_false (fun hlocked => hnone b ?_) (hnone b)
  exact ((h b).mp hlocked).trans (support_le_insertIfNew _ _ _ _ _ _ _)

theorem LockedCurrent.receivePrevote {E : BftConsensusEngine} (hs : E.valSet.Exact)
    (hjustified : E.Justified) (h : E.LockedCurrent) (vote : Vote) (o : IterOrder Hash32) :
    (E.receivePrevote o vote).1.LockedCurrent := by
  have hcall := E.prevoted_receivePrevote o vote
  generalize E.receivePrevote o vote = result at hcall ⊢
  cases hcall with
  | refused => exact h
  | stored haccepts hnone =>
    refine h.withPrevote (fun b hquorum => ?_)
    have hsome : (E.withPrevote vote).hasPrevoteQuorum E.state.height E.state.round = true :=
      (hasPrevoteQuorum_iff (E := E.withPrevote vote) hs
        (hjustified.withPrevote haccepts.1).filed.slot).mpr ⟨some b, hquorum⟩
    rw [hnone] at hsome
    cases hsome
  | advanced haccepts =>
    have hquery : ∀ b, (E.withPrevote vote).getPrevotedBlockWithQuorum o E.state.height
        E.state.round = some b ↔ E.valSet.quorumThreshold ≤
          support E.valSet (E.withPrevote vote).prevotes E.state.height E.state.round (some b) :=
      fun b => blockWithQuorum_eq_some_iff hs (hjustified.withPrevote haccepts.1).filed.slot
    have hlock := (E.withPrevote vote).locking_lockOnQuorum o
    generalize (E.withPrevote vote).lockOnQuorum o = E' at hlock ⊢
    cases hlock with
    | unlocked hnone =>
      refine h.withPrevote (fun b hquorum => ?_)
      rw [← hquery] at hquorum
      exact absurd (hnone.symm.trans hquorum) (by simp)
    | locked hsome =>
      intro b
      refine Iff.trans ?_ (hquery b)
      exact Eq.congr_left hsome.symm

theorem LockedCurrent.cast {E : BftConsensusEngine} (hs : E.valSet.Exact) (hjustified : E.Justified)
    (h : E.LockedCurrent) (ballot : Vote × IterOrder Hash32) :
    (E.perform (castCall ballot)).LockedCurrent := by
  unfold castCall
  split
  · exact h.receivePrevote hs hjustified ballot.1 ballot.2
  · have hcall := E.precommitted_receivePrecommit ballot.2 ballot.1
    simp only [perform]
    generalize E.receivePrecommit ballot.2 ballot.1 = result at hcall ⊢
    cases hcall with
    | refused | stored | committed => exact h

theorem perform_cast_frame (E : BftConsensusEngine) (ballot : Vote × IterOrder Hash32) :
    (E.perform (castCall ballot)).state.height = E.state.height ∧
      (E.perform (castCall ballot)).state.round = E.state.round := by
  unfold castCall
  split
  · have hcounted := receivePrevote_counted ballot.2 E ballot.1
    exact ⟨hcounted.height_eq, hcounted.round_eq⟩
  · have hcounted := receivePrecommit_counted ballot.2 E ballot.1
    exact ⟨hcounted.height_eq, hcounted.round_eq⟩

theorem logged_castCall (E : BftConsensusEngine) (accepted : List Vote)
    (ballot : Vote × IterOrder Hash32) :
    logged (E, accepted) (castCall ballot) = (E.perform (castCall ballot),
      if E.Accepts ballot.1.voteType ballot.1 then accepted ++ [ballot.1] else accepted) := by
  unfold castCall
  split
  · rename_i htype
    rw [htype]
    rfl
  · rename_i htype
    rw [htype]
    rfl

theorem accepts_cast (E : BftConsensusEngine) (ballot : Vote × IterOrder Hash32) (v : Vote) :
    (E.perform (castCall ballot)).Accepts v.voteType v ↔ E.Accepts v.voteType v := by
  simp only [Accepts, perform_valSet, perform_cast_frame]

/-- The log of a round is the list of its votes without those that are refused. -/
theorem logged_cast (E : BftConsensusEngine) (accepted : List Vote)
    (ballots : List (Vote × IterOrder Hash32)) :
    Runs.run logged (E, accepted) (ballots.map castCall) =
      (Runs.run perform E (ballots.map castCall), accepted ++ (ballots.map (·.1)).filter
        (fun v => E.Accepts v.voteType v)) := by
  induction ballots generalizing E accepted with
  | nil => simp
  | cons ballot ballots ih =>
    rw [List.map_cons, List.map_cons, Runs.run_cons, Runs.run_cons, logged_castCall, ih,
      List.filter_cons]
    simp only [accepts_cast, decide_eq_true_eq]
    split <;> simp

/-- Without a second vote of a validator the first vote for a slot is the vote for it. -/
theorem firstBy_key_eq_some_iff {accepted : List Vote}
    (hnodup : (accepted.map (fun v => (v.voteType, v.validatorAddress))).Nodup)
    {voteType : VoteType} {key : ℕ × ℕ × Address} {v : Vote} :
      firstBy Vote.key accepted voteType key = some v ↔
      v ∈ accepted ∧ v.voteType = voteType ∧ v.key = key := by
  constructor
  · intro hfirst
    obtain ⟨htype, hkey, hmem⟩ := firstBy_some hfirst
    exact ⟨hmem, htype, hkey⟩
  · rintro ⟨hmem, rfl, rfl⟩
    obtain ⟨w, hfirst⟩ := exists_firstBy Vote.key hmem
    obtain ⟨htype, hkey, hw⟩ := firstBy_some hfirst
    have haddress : w.validatorAddress = v.validatorAddress := congrArg (·.2.2) hkey
    rw [hfirst, List.inj_on_of_nodup_map hnodup hw hmem (Prod.ext htype haddress)]

theorem firstBy_key_perm {accepted accepted' : List Vote} (hperm : accepted.Perm accepted')
    (hnodup : (accepted.map (fun v => (v.voteType, v.validatorAddress))).Nodup)
    (voteType : VoteType) (key : ℕ × ℕ × Address) : firstBy Vote.key accepted voteType key =
      firstBy Vote.key accepted' voteType key := by
  ext v
  rw [firstBy_key_eq_some_iff hnodup, firstBy_key_eq_some_iff ((hperm.map _).nodup_iff.mp hnodup),
    hperm.mem_iff]

/-- What holds after the votes of a round. -/
structure Round (E : BftConsensusEngine) (h r : ℕ) (P : BftConsensusEngine) : Prop where
  valSet_eq : P.valSet = E.valSet
  height_eq : P.state.height = h
  round_eq : P.state.round = r
  justified : P.Justified
  lockedCurrent : P.LockedCurrent

theorem round_start (E : BftConsensusEngine) (hs : E.valSet.Exact) (h r : ℕ) :
    Round E h r ((E.startHeight h).setRound r) := by
  refine ⟨rfl, rfl, rfl, justified_of_unlocked rfl ⟨rfl, rfl, rfl⟩, fun b => ?_⟩
  refine iff_of_false (Option.some_ne_none b).symm ?_
  have hempty : support E.valSet ∅ h r (some b) = 0 := by simp [support, supporters]
  change ¬ E.valSet.quorumThreshold ≤ support E.valSet ∅ h r (some b)
  rw [hs.quorumThreshold_le_iff, hempty]
  omega

theorem Round.cast {E P : BftConsensusEngine} {h r : ℕ} (hs : E.valSet.Exact) (hP : Round E h r P)
    (ballot : Vote × IterOrder Hash32) : Round E h r (P.perform (castCall ballot)) where
  valSet_eq := (P.perform_valSet _).trans hP.valSet_eq
  height_eq := (P.perform_cast_frame ballot).1.trans hP.height_eq
  round_eq := (P.perform_cast_frame ballot).2.trans hP.round_eq
  justified := hP.justified.perform (hP.valSet_eq ▸ hs) _
  lockedCurrent := hP.lockedCurrent.cast (hP.valSet_eq ▸ hs) hP.justified ballot

theorem round_polled {E : BftConsensusEngine} (hs : E.valSet.Exact) (h r : ℕ)
    (ballots : List (Vote × IterOrder Hash32)) : Round E h r (E.polled h r ballots) := by
  refine Runs.run_invariant_of_events (Q := fun c => ∃ ballot, castCall ballot = c) ?_ _ _ ?_
    (E.round_start hs h r)
  · rintro P c ⟨ballot, rfl⟩ hP
    exact hP.cast hs ballot
  · intro c hc
    obtain ⟨ballot, -, hcall⟩ := List.mem_map.mp hc
    exact ⟨ballot, hcall⟩

/-- The tables hold the accepted votes of the round. -/
theorem logged_polled (E : BftConsensusEngine) (h r : ℕ)
    (ballots : List (Vote × IterOrder Hash32)) :
    Logged (E.polled h r ballots, (ballots.map (·.1)).filter
      (fun v => ((E.startHeight h).setRound r).Accepts v.voteType v)) := by
  have hrun := ((E.startHeight h).setRound r).logged_cast [] ballots
  rw [List.nil_append] at hrun
  rw [polled, ← hrun]
  refine Runs.run_invariant (I := Logged) (fun p c hp => hp.perform c) _ _ (fun voteType key => ?_)
  cases voteType <;> simp [setRound, startHeight, votesOf, firstBy]

/-- The same votes, the same answers of the queries in whatever order they look, the same
lock and the same signatures for every block. -/
structure SameOutcome (P P' : BftConsensusEngine) (h r : ℕ) : Prop where
  prevotes_eq : P.prevotes = P'.prevotes
  precommits_eq : P.precommits = P'.precommits
  prevoted_eq : ∀ o o', P.getPrevotedBlockWithQuorum o h r = P'.getPrevotedBlockWithQuorum o' h r
  precommitted_eq : ∀ o o',
    P.getPrecommittedBlockWithQuorum o h r = P'.getPrecommittedBlockWithQuorum o' h r
  lockedBlock_eq : P.state.lockedBlock = P'.state.lockedBlock
  validBlock_eq : P.state.validBlock = P'.state.validBlock
  signatures_eq : ∀ x entries, entries.Perm P.precommits.toList →
    (collected h r x entries).insertionSort commitLE = P'.aggregateCommitSignatures h r x

theorem sameOutcome_of_votes {E P P' : BftConsensusEngine} {h r : ℕ}
    (hP : Round E h r P) (hP' : Round E h r P') (hvotes : P.votesOf = P'.votesOf)
    (hdecided : P.Decided h r) : SameOutcome P P' h r := by
  have hprevotes : P.prevotes = P'.prevotes := congrFun hvotes .prevote
  have hprecommits : P.precommits = P'.precommits := congrFun hvotes .precommit
  have hvalSet : P.valSet = P'.valSet := hP.valSet_eq.trans hP'.valSet_eq.symm
  have hlocked : P.state.lockedBlock = P'.state.lockedBlock := by
    ext b
    rw [hP.lockedCurrent b, hP'.lockedCurrent b, hvalSet, hprevotes, hP.height_eq, hP'.height_eq,
      hP.round_eq, hP'.round_eq]
  refine ⟨hprevotes, hprecommits, fun o o' => ?_, fun o o' => ?_, hlocked, ?_,
    fun x entries hperm => ?_⟩
  · rw [hdecided.prevoted_order o o', getPrevotedBlockWithQuorum, getPrevotedBlockWithQuorum,
      hvalSet, hprevotes]
  · rw [hdecided.precommitted_order o o', getPrecommittedBlockWithQuorum,
      getPrecommittedBlockWithQuorum, hvalSet, hprecommits]
  · rw [hP.justified.validBlock_eq, hP'.justified.validBlock_eq, hlocked]
  · rw [P.aggregate_listing hperm, aggregateCommitSignatures, aggregateCommitSignatures,
      hprecommits]

/-- After any part of the votes at most one choice has a quorum, and a list in which no
validator votes twice with one type has the same outcome in every order. -/
theorem votes_order_independent {E : BftConsensusEngine} (hs : E.valSet.Exact) (h r : ℕ)
    (ballots : List (Vote × IterOrder Hash32)) :
    (∀ taken, taken <+: ballots → (E.polled h r taken).Decided h r) ∧
      ∀ ballots' : List (Vote × IterOrder Hash32),
        (ballots.map (fun b => (b.1.voteType, b.1.validatorAddress))).Nodup →
        (ballots.map (·.1)).Perm (ballots'.map (·.1)) →
        SameOutcome (E.polled h r ballots) (E.polled h r ballots') h r := by
  have hdecided : ∀ taken, (E.polled h r taken).Decided h r := by
    intro taken
    refine decided_of_exact ?_ (E.logged_polled h r taken).filed h r
    rw [(round_polled hs h r taken).valSet_eq]
    exact hs
  refine ⟨fun taken _ => hdecided taken, fun ballots' hnodup hperm => ?_⟩
  refine sameOutcome_of_votes (round_polled hs h r ballots) (round_polled hs h r ballots') ?_
    (hdecided _)
  funext voteType
  refine ExtTreeMap.ext_getElem? (fun key => ?_)
  have hdistinct : (((ballots.map (·.1)).filter
      (fun v => ((E.startHeight h).setRound r).Accepts v.voteType v)).map
        (fun v => (v.voteType, v.validatorAddress))).Nodup := by
    refine List.Nodup.sublist (List.filter_sublist.map _) ?_
    rw [List.map_map]
    exact hnodup
  rw [E.logged_polled h r ballots voteType key, E.logged_polled h r ballots' voteType key]
  exact firstBy_key_perm (hperm.filter _) hdistinct voteType key

section Scenario
open Devnet

/-- Three prevotes and three precommits for one block. -/
def sixBallots : List (Vote × IterOrder Hash32) :=
  [VoteType.prevote, .precommit].flatMap (fun voteType =>
    [1, 2, 3].map (fun n => (⟨voteType, 1, 0, some Hash32.zero, addressOf n, []⟩, .listed _)))

theorem votes_reversed_devnet :
    ((new 1 quartet).polled 1 0 sixBallots).state.lockedBlock = some Hash32.zero ∧
      (∀ taken, taken <+: sixBallots → ((new 1 quartet).polled 1 0 taken).Decided 1 0) ∧
      SameOutcome ((new 1 quartet).polled 1 0 sixBallots)
        ((new 1 quartet).polled 1 0 sixBallots.reverse) 1 0 := by
  obtain ⟨hdecided, hsame⟩ :=
    votes_order_independent (E := new 1 quartet) quartet_exact 1 0 sixBallots
  refine ⟨by decide +kernel, hdecided, hsame _ (by decide +kernel) ?_⟩
  exact (List.reverse_perm sixBallots).symm.map _

end Scenario

end BftConsensusEngine

end Sprax
