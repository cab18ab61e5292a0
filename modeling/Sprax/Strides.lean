import Sprax.Assembly

/-!
# What one seat does in a round of voting

A seat accepts the block of the round, prevotes it, precommits it once a quorum has prevoted
it, and commits it once a quorum has precommitted it. Every step of its driver is one
stride: it says what the seat reads and casts, what its tables hold afterwards, and that the
seat goes on waiting only as long as it has reason to.
-/
namespace Sprax
open Std FiniteMap Runs

namespace BftConsensusEngine.Counted
variable {E E' : BftConsensusEngine} {v u : Vote} {stored : Bool} {t : VoteType}
    {k : ℕ × ℕ × Address}

theorem grows (h : Counted E E' v stored) (hu : (E.votesOf t)[k]? = some u) :
    (E'.votesOf t)[k]? = some u := by
  rw [h.votes]
  split
  · by_cases hk : v.key = k
    · rw [← hk, getElem?_insertIfNew_self, hk, hu, Option.some_or]
    · rw [getElem?_insertIfNew_ne _ _ hk, hu]
  · exact hu

theorem origin (h : Counted E E' v stored) (hu : (E'.votesOf t)[k]? = some u) :
    (E.votesOf t)[k]? = some u ∨ u = v := by
  rw [h.votes] at hu
  split at hu
  · by_cases hk : v.key = k
    · rw [← hk, getElem?_insertIfNew_self] at hu
      rw [← hk]
      cases hold : (E.votesOf t)[v.key]? with
      | none => exact .inr (by simpa [hold] using hu.symm)
      | some u' => exact .inl (by simpa [hold] using hu)
    · rw [getElem?_insertIfNew_ne _ _ hk] at hu
      exact .inl hu
  · exact .inl hu

/-- The slot of a stored vote is taken, by this vote or by an earlier one. -/
theorem filled (h : Counted E E' v true) : ∃ u, (E'.votesOf v.voteType)[v.key]? = some u := by
  rw [h.votes, if_pos ⟨rfl, rfl⟩, getElem?_insertIfNew_self]
  cases (E.votesOf v.voteType)[v.key]? with
  | none => exact ⟨v, rfl⟩
  | some u => exact ⟨u, rfl⟩

theorem other (h : Counted E E' v stored) (ht : v.voteType ≠ t) : E'.votesOf t = E.votesOf t := by
  rw [h.votes, if_neg (fun hboth => ht hboth.1)]

end BftConsensusEngine.Counted

namespace Round
variable {P : Primitives} {ι : Type} [Fintype ι] {R : Round P ι}

/-- The engine is in the round. -/
structure At (R : Round P ι) (E : BftConsensusEngine) : Prop where
  valSet_eq : E.valSet = R.valSet
  height_eq : E.state.height = R.height
  round_eq : E.state.round = R.number
  lawful : E.VotesOk R.Lawful

theorem At.counted {E E' : BftConsensusEngine} {v : Vote} (hE : R.At E) (h : E.Counted E' v true)
    (hv : R.Lawful v) : R.At E' :=
  ⟨h.valSet_eq.trans hE.valSet_eq, h.height_eq.trans hE.height_eq, h.round_eq.trans hE.round_eq,
    hE.lawful.counted h hv⟩

theorem At.decides_iff {E : BftConsensusEngine} (hE : R.At E) (o : IterOrder Hash32)
    (t : VoteType) {y : Hash32} :
    blockWithQuorum o E.valSet (E.votesOf t) E.state.height E.state.round = some y ↔
      y = R.blockHash ∧ R.Decides E t := by
  rw [hE.valSet_eq, hE.height_eq, hE.round_eq, blockWithQuorum_eq_some_iff R.exact
    (hE.lawful t).slot]
  constructor
  · intro hq
    have hy : y = R.blockHash := Option.some.inj (R.quorum_block (hE.lawful t) hq)
    exact ⟨hy, by rwa [hy] at hq⟩
  · rintro ⟨rfl, hq⟩
    exact hq

theorem At.accepts {E : BftConsensusEngine} (hE : R.At E) (t : VoteType) (i : ι) :
    E.Accepts t (R.ballot t i) :=
  ⟨rfl, hE.height_eq.symm, hE.round_eq.symm, by rw [hE.valSet_eq]; exact R.addr_mem i⟩

section Receiving
variable {E : BftConsensusEngine} {v : Vote}

/-- An accepted prevote is stored, and the answer is whether the block has a quorum by now. -/
theorem At.receivePrevote (hE : R.At E) (hv : R.Lawful v) (haccepts : E.Accepts .prevote v)
    (o : IterOrder Hash32) : ∃ E' b, E.receivePrevote o v = (E', .ok b) ∧ E.Counted E' v true ∧
      (b = true ↔ R.Decides E' .prevote) := by
  have htakes := BftConsensusEngine.counted_withPrevote (E := E) haccepts.1
  have hnext := hE.counted htakes hv
  have hanswer : (E.withPrevote v).hasPrevoteQuorum E.state.height E.state.round = true ↔
      R.Decides (E.withPrevote v) .prevote := by
    have hiff := BftConsensusEngine.hasPrevoteQuorum_iff (E := E.withPrevote v)
      (by rw [hnext.valSet_eq]; exact R.exact) (hnext.lawful .prevote).slot (h := R.height)
      (r := R.number)
    rw [hE.height_eq, hE.round_eq, hiff, hnext.valSet_eq]
    constructor
    · rintro ⟨choice, hq⟩
      rw [R.quorum_block (hnext.lawful .prevote) hq] at hq
      exact hq
    · intro hq
      exact ⟨_, hq⟩
  have hcall := E.prevoted_receivePrevote o v
  generalize E.receivePrevote o v = result at hcall ⊢
  cases hcall with
  | refused e hrefused => exact absurd haccepts hrefused
  | stored _ hnone => exact ⟨_, _, rfl, htakes, by simp [← hanswer, hnone]⟩
  | advanced _ hquorum =>
    refine ⟨_, _, rfl, htakes.lock o, iff_of_true rfl ?_⟩
    rw [Decides, BftConsensusEngine.lockOnQuorum_votesOf]
    exact hanswer.mp hquorum

/-- The engine may note a proposal; its tables stay as they are. -/
theorem At.proposeBlock (hE : R.At E) (hash : Hash32) (proposer : Address) :
    R.At (E.proposeBlock hash proposer).1 ∧
      (E.proposeBlock hash proposer).1.votesOf = E.votesOf := by
  obtain ⟨hset, hvotes⟩ := E.proposeBlock_frame hash proposer
  obtain ⟨hheight, hround⟩ := E.proposeBlock_state hash proposer
  refine ⟨⟨hset.trans hE.valSet_eq, hheight.trans hE.height_eq, hround.trans hE.round_eq,
    fun t => ?_⟩, hvotes⟩
  rw [hvotes]
  exact hE.lawful t

/-- An accepted precommit is stored, and answered with signatures once the block has a quorum. -/
theorem At.receivePrecommit (hE : R.At E) (hv : R.Lawful v) (haccepts : E.Accepts .precommit v)
    (o : IterOrder Hash32) : ∃ E', E.Counted E' v true ∧
      ((¬ R.Decides E' .precommit ∧ E.receivePrecommit o v = (E', .ok none)) ∨
        (R.Decides E' .precommit ∧ E.receivePrecommit o v =
          (E', .ok (some (R.blockHash, E'.aggregateCommitSignatures R.height R.number
            R.blockHash))))) := by
  have htakes := BftConsensusEngine.counted_withPrecommit (E := E) haccepts.1
  have hanswer : ∀ y, (E.withPrecommit v).getPrecommittedBlockWithQuorum o E.state.height
      E.state.round = some y ↔ y = R.blockHash ∧ R.Decides (E.withPrecommit v) .precommit :=
    fun y => (hE.counted htakes hv).decides_iff o .precommit
  have hcall := E.precommitted_receivePrecommit o v
  generalize E.receivePrecommit o v = result at hcall ⊢
  cases hcall with
  | refused e hrefused => exact absurd haccepts hrefused
  | stored _ hnone =>
    refine ⟨_, htakes, .inl ⟨fun hq => ?_, rfl⟩⟩
    rw [(hanswer R.blockHash).mpr ⟨rfl, hq⟩] at hnone
    cases hnone
  | committed _ hquorum =>
    obtain ⟨rfl, hq⟩ := (hanswer _).mp hquorum
    refine ⟨(E.withPrecommit v).withStep .commit, htakes.withStep .commit, .inr ⟨?_, ?_⟩⟩
    · rwa [Decides, BftConsensusEngine.withStep_votesOf]
    · rw [hE.height_eq, hE.round_eq]
      rfl

end Receiving

/-- What holds of a seat on its own: it waits for precommits, and has precommitted if it reads
votes while the block has its quorum of prevotes. -/
structure Ready (R : Round P ι) (i : ι) (n : Node) : Prop where
  localKey : n.localKey = R.keys i
  engine : R.At n.engine
  phase : R.Open n.phase ∨ R.Closed n.phase
  waiting : R.Open n.phase → ¬ R.Decides n.engine .precommit
  reacted : n.phase = .voting R.height R.number → R.Decides n.engine .prevote →
    n.precommittedThisRound = true

/-- Weight of a vote on its way to all other seats. -/
def ballotLoad (_ : Round P ι) : ℕ := 4 * (Fintype.card ι - 1)

/-- A bound on what the driver has still to do, votes to read apart. -/
def work (R : Round P ι) (n : Node) : ℕ :=
  let pending := if n.precommittedThisRound then 0 else R.ballotLoad + 8
  match n.phase with
  | .awaiting .. => 2 * (R.ballotLoad + 8) + 2
  | .proposing .. | .applying .. => 2 * (R.ballotLoad + 8) + 1
  | .prevoting .. => 2 * (R.ballotLoad + 8)
  | .reacting .. => pending + 1
  | .voting .. => pending
  | .finalizing .. => 2
  | .rebroadcasting _ => 1
  | _ => 0

/-- One if the driver has moved on. -/
def moved (n n' : Node) : ℕ := if n'.phase = n.phase then 0 else 1

theorem moved_le (n n' : Node) : moved n n' ≤ 1 := by
  unfold moved
  split <;> omega

/-- All that a step can do to a seat that reads and casts the given votes. -/
structure Stride (R : Round P ι) (i : ι) (n n' : Node) (read cast : List Vote) : Prop where
  ready : R.Ready i n'
  grows : ∀ (t : VoteType) (k : ℕ × ℕ × Address) (v : Vote),
    (n.engine.votesOf t)[k]? = some v → (n'.engine.votesOf t)[k]? = some v
  origin : ∀ (t : VoteType) (k : ℕ × ℕ × Address) (v : Vote), (n'.engine.votesOf t)[k]? = some v →
    (n.engine.votesOf t)[k]? = some v ∨ v ∈ read ++ cast
  stored : ∀ t j, R.ballot t j ∈ read ++ cast → ∃ u, (n'.engine.votesOf t)[R.slot j]? = some u
  own : ∀ v ∈ cast, ∃ t, v = R.ballot t i
  hasCast : ∀ t, R.HasCast n' t ↔ R.HasCast n t ∨ R.ballot t i ∈ cast
  closed : R.Closed n.phase → R.Closed n'.phase
  decided : R.Open n.phase → R.Closed n'.phase → R.Decides n'.engine .precommit ∧
    n'.phase = .finalizing R.height R.blockHash
      (n'.engine.aggregateCommitSignatures R.height R.number R.blockHash)
  lighter : R.work n' + R.ballotLoad * cast.length + moved n n' ≤ R.work n + 3 * read.length

section Strides
variable {i : ι} {n n' : Node}

/-- A step that neither counts nor casts a vote and does not leave the vote loop. -/
theorem Stride.still (hn : R.Ready i n) (hkey : n'.localKey = n.localKey) (hengine : R.At n'.engine)
    (hvotes : n'.engine.votesOf = n.engine.votesOf)
    (hflag : n'.precommittedThisRound = n.precommittedThisRound)
    (hphase : R.Open n'.phase ∨ R.Closed n'.phase) (hopen : R.Open n'.phase ↔ R.Open n.phase)
    (hprevoted : R.HasCast n' .prevote ↔ R.HasCast n .prevote)
    (hreacted : n'.phase = .voting R.height R.number → R.Decides n.engine .prevote →
      n.precommittedThisRound = true)
    (hlighter : R.work n' + moved n n' ≤ R.work n) : R.Stride i n n' [] [] where
  ready := by
    refine ⟨hkey.trans hn.localKey, hengine, hphase, ?_, ?_⟩
    · rw [Decides, hvotes, hopen]
      exact hn.waiting
    · rw [Decides, hvotes, hflag]
      exact hreacted
  grows t k v h := by rwa [hvotes]
  origin t k v h := .inl (by rwa [hvotes] at h)
  stored t j h := by cases h
  own v hv := by cases hv
  hasCast t := by
    cases t with
    | prevote => simpa using hprevoted
    | precommit => simp [HasCast, hflag]
  closed h := hphase.resolve_left (fun hafter => R.open_ne_closed (hopen.mp hafter) h)
  decided hbefore hclosed := absurd hclosed (R.open_ne_closed (hopen.mpr hbefore))
  lighter := by simpa using hlighter

/-- A step beside the vote loop. -/
theorem Stride.rest (hn : R.Ready i n) (hkey : n'.localKey = n.localKey)
    (hengine : n'.engine = n.engine) (hflag : n'.precommittedThisRound = n.precommittedThisRound)
    (hphase : n'.phase = n.phase) :
    R.Stride i n n' [] [] := by
  refine .still hn hkey (hengine ▸ hn.engine) (by rw [hengine]) hflag (hphase ▸ hn.phase)
    (by rw [hphase]) (by simp only [HasCast, hphase]) ?_ ?_
  · rw [hphase]
    exact hn.reacted
  · simp [work, moved, hphase, hflag]

/-- A driver that reads votes, or reacts to them, has prevoted. -/
theorem hasCast_prevote (h : n.phase = .reacting R.height R.number ∨
    n.phase = .voting R.height R.number ∨ R.Closed n.phase) : R.HasCast n .prevote := by
  rcases h with h | h | ⟨_, h⟩ | h | h <;> simp [HasCast, Pending, Phase.offer, h]

/-- A step after the commit. -/
theorem Stride.close (hn : R.Ready i n) (hkey : n'.localKey = n.localKey)
    (hengine : n'.engine = n.engine) (hflag : n'.precommittedThisRound = n.precommittedThisRound)
    (hbefore : R.Closed n.phase) (hafter : R.Closed n'.phase)
    (hlighter : R.work n' + 1 ≤ R.work n) : R.Stride i n n' [] [] := by
  have hnot : ∀ {p : Phase}, R.Closed p → ¬ R.Open p :=
    fun hclosed hopen => R.open_ne_closed hopen hclosed
  have hle : moved n n' ≤ 1 := moved_le n n'
  exact .still hn hkey (hengine ▸ hn.engine) (by rw [hengine]) hflag (.inr hafter)
    (iff_of_false (hnot hafter) (hnot hbefore))
    (iff_of_true (hasCast_prevote (.inr (.inr hafter))) (hasCast_prevote (.inr (.inr hbefore))))
    (fun h => absurd (.inr (.inr (.inr h))) (hnot hafter)) (by omega)

/-- A step that counts one vote, read or cast. -/
theorem Stride.take {v : Vote} {read cast : List Vote} (hn : R.Ready i n) (hopen : R.Open n.phase)
    (hkey : n'.localKey = n.localKey) (htakes : n.engine.Counted n'.engine v true)
    (hv : R.Lawful v) (htaken : read ++ cast = [v]) (hown : ∀ u ∈ cast, ∃ t, u = R.ballot t i)
    (hprevoted : R.HasCast n .prevote ∨ R.ballot .prevote i ∈ cast)
    (hflag : n'.precommittedThisRound = true ↔
      n.precommittedThisRound = true ∨ R.ballot .precommit i ∈ cast)
    (hphase : (n'.phase = .reacting R.height R.number ∨ n'.phase = .voting R.height R.number) ∧
        ¬ R.Decides n'.engine .precommit ∨
      n'.phase = .finalizing R.height R.blockHash
        (n'.engine.aggregateCommitSignatures R.height R.number R.blockHash) ∧
          R.Decides n'.engine .precommit)
    (hreacted : n'.phase = .voting R.height R.number → R.Decides n'.engine .prevote →
      n'.precommittedThisRound = true)
    (hlighter : R.work n' + R.ballotLoad * cast.length + 1 ≤ R.work n + 3 * read.length) :
    R.Stride i n n' read cast where
  ready := by
    refine ⟨hkey.trans hn.localKey, hn.engine.counted htakes hv,
      hphase.imp (fun h => .inr (.inr h.1)) (fun h => .inl ⟨_, h.1⟩), ?_, hreacted⟩
    intro hafter
    rcases hphase with ⟨-, hnot⟩ | ⟨hclosed, -⟩
    · exact hnot
    · exact absurd (.inl ⟨_, hclosed⟩) (R.open_ne_closed hafter)
  grows t k u h := htakes.grows h
  origin t k u h := by
    rw [htaken, List.mem_singleton]
    exact htakes.origin h
  stored t j h := by
    rw [htaken, List.mem_singleton] at h
    subst h
    exact htakes.filled
  own := hown
  hasCast t := by
    cases t with
    | prevote =>
      refine iff_of_true (hasCast_prevote ?_) hprevoted
      rcases hphase with ⟨h | h, -⟩ | ⟨h, -⟩
      · exact .inl h
      · exact .inr (.inl h)
      · exact .inr (.inr (.inl ⟨_, h⟩))
    | precommit => exact hflag
  closed h := absurd h (R.open_ne_closed hopen)
  decided _ hclosed := by
    rcases hphase with ⟨hafter, -⟩ | hend
    · exact absurd hclosed (R.open_ne_closed (.inr (.inr hafter)))
    · exact hend.symm
  lighter := by
    have hle : moved n n' ≤ 1 := moved_le n n'
    omega

end Strides

section Events
variable {i : ι} {n : Node}

theorem Ready.stay (hn : R.Ready i n) {ev : Event} (hstep : n.step P ev = (n, [])) :
    R.Stride i n (n.next P ev) [] (castVotes (n.step P ev).2) := by
  rw [Node.next, hstep]
  exact .rest hn rfl rfl rfl rfl

theorem Ready.ballot_eq (hn : R.Ready i n) (t : VoteType) :
    buildSignedVote P t R.height R.number (some R.blockHash) n.localKey = R.ballot t i := by
  rw [hn.localKey]
  rfl

theorem Ready.prevoted_iff (hn : R.Ready i n) (o : IterOrder Hash32) {y : Hash32} :
    n.engine.getPrevotedBlockWithQuorum o R.height R.number = some y ↔
      y = R.blockHash ∧ R.Decides n.engine .prevote := by
  have hiff := hn.engine.decides_iff o .prevote (y := y)
  rwa [hn.engine.height_eq, hn.engine.round_eq] at hiff

theorem Ready.stride_prevote (hn : R.Ready i n)
    (hp : n.phase = .prevoting R.height R.number R.blockHash) (o : IterOrder Hash32) :
    R.Stride i n (n.next P (.prevote o)) [] (castVotes (n.step P (.prevote o)).2) := by
  have hlawful : R.Lawful (R.ballot .prevote i) := .inl ⟨i, rfl⟩
  obtain ⟨E', b, hreceived, htakes, -⟩ :=
    hn.engine.receivePrevote hlawful (hn.engine.accepts .prevote i) o
  have hstep : n.step P (.prevote o) =
      ({ n with engine := E', phase := .reacting R.height R.number },
        [.castVote (R.ballot .prevote i)]) := by
    simp only [Node.step, hp, Node.prevote, hn.ballot_eq, hreceived]
  have hother : E'.votesOf .precommit = n.engine.votesOf .precommit := htakes.other (by simp)
  rw [Node.next, hstep]
  refine .take hn (.inr (.inl hp)) rfl htakes hlawful rfl ?_ (.inr ?_) ?_ (.inl ⟨.inl rfl, ?_⟩)
    ?_ ?_
  · intro u hu
    exact ⟨.prevote, List.mem_singleton.mp hu⟩
  · exact List.mem_singleton_self _
  · simp [castVotes, ballot, buildSignedVote]
  · rw [Decides, hother]
    exact hn.waiting (.inr (.inl hp))
  · intro hvoting
    cases hvoting
  · simp only [work, hp, castVotes, List.filterMap_cons, List.filterMap_nil, List.length_cons,
      List.length_nil]
    split <;> omega

/-- The own precommit, once the block has its quorum of prevotes. -/
theorem Ready.stride_precommit (hn : R.Ready i n) (hp : n.phase = .reacting R.height R.number)
    {o o' : IterOrder Hash32} (hfirst : n.precommittedThisRound = false)
    (hquorum : R.Decides n.engine .prevote) :
    R.Stride i n (n.next P (.react o o')) [] (castVotes (n.step P (.react o o')).2) := by
  have hlawful : R.Lawful (R.ballot .precommit i) := .inl ⟨i, rfl⟩
  obtain ⟨E', htakes, hanswer⟩ :=
    hn.engine.receivePrecommit hlawful (hn.engine.accepts .precommit i) o'
  have hblock := (hn.prevoted_iff o).mpr ⟨rfl, hquorum⟩
  have hstep : n.step P (.react o o') =
      (({ n with precommittedThisRound := true }.countPrecommit R.height R.number
        (R.ballot .precommit i) o').1, .castVote (R.ballot .precommit i) ::
          ({ n with precommittedThisRound := true }.countPrecommit R.height R.number
            (R.ballot .precommit i) o').2) := by
    simp only [Node.step, hp, Node.react, hfirst, hblock, hn.ballot_eq, Bool.false_eq_true,
      if_false]
  have hown : ∀ u ∈ [R.ballot .precommit i], ∃ t, u = R.ballot t i :=
    fun u hu => ⟨.precommit, List.mem_singleton.mp hu⟩
  have hlight : ∀ n' : Node, R.work n' ≤ 2 →
      R.work n' + R.ballotLoad * [R.ballot .precommit i].length + 1 ≤
        R.work n + 3 * ([] : List Vote).length := by
    intro n' hle
    simp only [work, hp, hfirst, List.length_cons, List.length_nil, Bool.false_eq_true,
      if_false] at hle ⊢
    omega
  rw [Node.next, hstep]
  rcases hanswer with ⟨hnot, hreceived⟩ | ⟨hdecides, hreceived⟩
  · simp only [Node.countPrecommit, hreceived]
    exact .take hn (.inr (.inr (.inl hp))) rfl htakes hlawful rfl hown
      (.inl (hasCast_prevote (.inl hp))) (by simp) (.inl ⟨.inr rfl, hnot⟩) (fun _ _ => rfl)
      (hlight _ (by simp [work]))
  · simp only [Node.countPrecommit, hreceived]
    exact .take hn (.inr (.inr (.inl hp))) rfl htakes hlawful rfl hown
      (.inl (hasCast_prevote (.inl hp))) (by simp) (.inr ⟨rfl, hdecides⟩) (fun _ _ => rfl)
      (hlight _ (by simp [work]))

theorem Ready.stride_react (hn : R.Ready i n) (hp : n.phase = .reacting R.height R.number)
    (o o' : IterOrder Hash32) :
    R.Stride i n (n.next P (.react o o')) [] (castVotes (n.step P (.react o o')).2) := by
  -- the driver only turns to reading votes if it has precommitted or there is no quorum
  have hpass : n.precommittedThisRound = true ∨ ¬ R.Decides n.engine .prevote →
      n.step P (.react o o') = ({ n with phase := .voting R.height R.number }, []) →
      R.Stride i n (n.next P (.react o o')) [] (castVotes (n.step P (.react o o')).2) := by
    intro hquiet hstep
    rw [Node.next, hstep]
    exact .still hn rfl hn.engine rfl rfl (.inl (.inr (.inr (.inr rfl))))
      (iff_of_true (.inr (.inr (.inr rfl))) (.inr (.inr (.inl hp))))
      (iff_of_true (hasCast_prevote (.inr (.inl rfl))) (hasCast_prevote (.inl hp)))
      (fun _ hq => hquiet.resolve_right (not_not.mpr hq)) (by simp [work, moved, hp])
  cases hfirst : n.precommittedThisRound with
  | true =>
    refine hpass (.inl hfirst) ?_
    simp only [Node.step, hp, Node.react, hfirst, if_true]
  | false =>
    by_cases hquorum : R.Decides n.engine .prevote
    · exact hn.stride_precommit hp hfirst hquorum
    · refine hpass (.inr hquorum) ?_
      have hnone : n.engine.getPrevotedBlockWithQuorum o R.height R.number = none := by
        rw [Option.eq_none_iff_forall_ne_some]
        intro y hy
        exact hquorum ((hn.prevoted_iff o).mp hy).2
      simp only [Node.step, hp, Node.react, hfirst, hnone, Bool.false_eq_true, if_false]

/-- A vote that passed the checks is counted. -/
theorem Ready.stride_count (hn : R.Ready i n) (hp : n.phase = .voting R.height R.number) {v : Vote}
    (hv : R.Lawful v) (hheight : v.height = R.height) (hround : v.round = R.number)
    {validator : Validator} (hfind : n.engine.valSet.find v.validatorAddress = some validator)
    (o : IterOrder Hash32) :
    R.Stride i n ((n.slashConflict v).1.countVote R.height R.number v o).1 [v] [] := by
  obtain ⟨staking, hslash⟩ := n.slashConflict_frame v
  have haccepts : ∀ t, v.voteType = t → n.engine.Accepts t v := fun t ht =>
    ⟨ht, hheight.trans hn.engine.height_eq.symm, hround.trans hn.engine.round_eq.symm,
      ValidatorSet.mem_members_iff_find.mpr (by rw [hfind]; rfl)⟩
  have hcast := hasCast_prevote (R := R) (.inr (.inl hp))
  rw [hslash]
  unfold Node.countVote
  cases htype : v.voteType with
  | prevote =>
    obtain ⟨E', b, hreceived, htakes, hanswer⟩ := hn.engine.receivePrevote hv (haccepts _ htype) o
    have hother : E'.votesOf .precommit = n.engine.votesOf .precommit :=
      htakes.other (by simp [htype])
    have hwaiting : ¬ R.Decides E' .precommit := by
      rw [Decides, hother]
      exact hn.waiting (.inr (.inr (.inr hp)))
    simp only [hreceived]
    cases b with
    | true =>
      exact .take hn (.inr (.inr (.inr hp))) rfl htakes hv rfl (fun u hu => by cases hu)
        (.inl hcast) (by simp) (.inl ⟨.inl rfl, hwaiting⟩) (fun h => by cases h)
        (by simp [work, hp])
    | false =>
      exact .take hn (.inr (.inr (.inr hp))) rfl htakes hv rfl (fun u hu => by cases hu)
        (.inl hcast) (by simp) (.inl ⟨.inr rfl, hwaiting⟩)
        (fun _ hq => absurd (hanswer.mpr hq) Bool.false_ne_true) (by simp [work, hp])
  | precommit =>
    obtain ⟨E', htakes, hanswer⟩ := hn.engine.receivePrecommit hv (haccepts _ htype) o
    have hother : E'.votesOf .prevote = n.engine.votesOf .prevote := htakes.other (by simp [htype])
    have hreacted : R.Decides E' .prevote → n.precommittedThisRound = true := by
      rw [Decides, hother]
      exact hn.reacted hp
    rcases hanswer with ⟨hnot, hreceived⟩ | ⟨hdecides, hreceived⟩
    · simp only [Node.countPrecommit, hreceived]
      exact .take hn (.inr (.inr (.inr hp))) rfl htakes hv rfl (fun u hu => by cases hu)
        (.inl hcast) (by simp) (.inl ⟨.inr rfl, hnot⟩) (fun _ => hreacted) (by simp [work, hp])
    · simp only [Node.countPrecommit, hreceived]
      exact .take hn (.inr (.inr (.inr hp))) rfl htakes hv rfl (fun u hu => by cases hu)
        (.inl hcast) (by simp) (.inr ⟨rfl, hdecides⟩) (fun h => by cases h) (by simp [work, hp])

/-- A vote that no seat has cast may be dropped. -/
theorem Stride.drop {n' : Node} (h : R.Stride i n n' [] []) {v : Vote}
    (hv : ∀ t j, R.ballot t j ≠ v) :
    R.Stride i n n' [v] [] where
  ready := h.ready
  grows := h.grows
  origin t k u hu := (h.origin t k u hu).imp_right (fun hmem => by cases hmem)
  stored t j hmem := absurd (List.mem_singleton.mp hmem) (hv t j)
  own := h.own
  hasCast := h.hasCast
  closed := h.closed
  decided := h.decided
  lighter := h.lighter.trans (by simp)

theorem Ready.stride_vote (hn : R.Ready i n) (hreads : n.phase.reads = true) {v : Vote}
    (hv : R.Lawful v ∨ R.Stray v) (o : IterOrder Hash32) :
    R.Stride i n (n.next P (.vote v o)) [v] (castVotes (n.step P (.vote v o)).2) := by
  have hp : n.phase = .voting R.height R.number := by
    rcases hn.phase with (hp | hp | hp | hp) | (⟨sigs, hp⟩ | hp | hp)
    · obtain ⟨_, hp⟩ | ⟨_, hp⟩ | ⟨_, _, hp⟩ := hp.cases <;> rw [hp] at hreads <;> cases hreads
    all_goals rw [hp] at hreads
    all_goals first | exact hp | cases hreads
  have hdrop : R.Stray v → n.step P (.vote v o) = (n, []) →
      R.Stride i n (n.next P (.vote v o)) [v] (castVotes (n.step P (.vote v o)).2) := by
    intro hstray hstep
    rw [Node.next, hstep]
    exact (Stride.rest hn rfl rfl rfl rfl).drop (fun t j => (hstray.ne_ballot t j).symm)
  by_cases hat : v.height ≠ R.height ∨ v.round ≠ R.number
  · exact hdrop (hat.imp_right .inl) (by simp only [Node.step, hp, Node.vote, if_pos hat])
  cases hfind : n.engine.valSet.find v.validatorAddress with
  | none =>
    refine hdrop (.inr (.inr (fun validator hsome => ?_)))
      (by simp only [Node.step, hp, Node.vote, if_neg hat, hfind])
    rw [← hn.engine.valSet_eq, hfind] at hsome
    cases hsome
  | some validator =>
    have hmember : R.valSet.find v.validatorAddress = some validator := hn.engine.valSet_eq ▸ hfind
    cases hverify : Ed25519Keypair.verify P validator.publicKey (v.signBytes P) v.signature with
    | error e =>
      refine hdrop (.inr (.inr (fun validator' hsome => ?_)))
        (by simp only [Node.step, hp, Node.vote, if_neg hat, hfind, hverify])
      obtain rfl := Option.some.inj (hmember.symm.trans hsome)
      simp [hverify]
    | ok u =>
      push Not at hat
      have hlawful : R.Lawful v := by
        refine hv.resolve_right ?_
        rintro (hheight | hround | hforged)
        · exact hheight hat.1
        · exact hround hat.2
        · exact hforged validator hmember hverify
      have hstep : n.step P (.vote v o) =
          (((n.slashConflict v).1.countVote R.height R.number v o).1, (n.slashConflict v).2 ++
            ((n.slashConflict v).1.countVote R.height R.number v o).2) := by
        simp only [Node.step, hp, Node.vote, hat, ne_eq, not_true, or_self, if_false, hfind,
          hverify]
      rw [Node.next, hstep, castVotes_append, Node.castVotes_slashConflict,
        Node.castVotes_countVote]
      exact hn.stride_count hp hlawful hat.1 hat.2 hfind o

theorem Ready.stride_finalize (hn : R.Ready i n) {sigs : List CommitSignature}
    (hp : n.phase = .finalizing R.height R.blockHash sigs) :
    R.Stride i n (n.next P .finalize) [] (castVotes (n.step P .finalize).2) := by
  have hstep : n.step P .finalize = n.finalize P R.height R.blockHash sigs := by
    simp only [Node.step, hp]
  rw [Node.next, hstep, Node.castVotes_finalize]
  exact .close hn rfl rfl rfl (.inl ⟨sigs, hp⟩) (.inr (.inl rfl))
    (by simp [work, Node.finalize, hp])

theorem Ready.stride_rebroadcast (hn : R.Ready i n) (hp : n.phase = .rebroadcasting R.height) :
    R.Stride i n (n.next P .rebroadcast) [] (castVotes (n.step P .rebroadcast).2) := by
  have hstep : n.step P .rebroadcast = n.rebroadcast R.height := by simp only [Node.step, hp]
  rw [Node.next, hstep, Node.castVotes_rebroadcast]
  exact .close hn rfl rfl rfl (.inr (.inl hp)) (.inr (.inr rfl))
    (by simp [work, Node.rebroadcast, hp])

theorem Entering.open (h : R.Entering n) : R.Open n.phase := h.imp_right (fun h => .inl h.1)

theorem Entering.not_prevoted (h : R.Entering n) : ¬ R.HasCast n .prevote :=
  fun hcast => h.elim hcast.1 (fun h => hcast.2 h.1)

theorem Entering.not_voting (h : R.Entering n) : n.phase ≠ .voting R.height R.number := by
  intro hp
  rcases h with ⟨_, h⟩ | ⟨h, -⟩ <;> rw [hp] at h <;> cases h

theorem Entering.not_idle (h : R.Entering n) : n.phase ≠ .idle :=
  fun hp => R.open_ne_closed h.open (.inr (.inr hp))

/-- The vote loop is not open to a seat without a block. -/
theorem Pending.entering (hp : R.Pending n.phase) {ev : Event}
    (hev : ev.inRound = true ∨ R.Pending n.phase ∧ R.Entering (n.next P ev)) :
    R.Entering (n.next P ev) := by
  rcases hev with hev | ⟨-, hafter⟩
  · have hfired := n.step_fired (P := P) ev
    unfold Node.next
    generalize n.step P ev = result at hfired ⊢
    cases hfired with
    | stutter | gossipedBlock | gossipedTx | listened | served => exact .inl hp
    | prevoted hphase | reactedNot hphase | reacted hphase | finalized hphase
    | rebroadcasted hphase =>
      rw [Pending, hphase] at hp
      obtain ⟨_, hp⟩ := hp
      cases hp
    | _ => cases hev
  · exact hafter

/-- A seat without a block goes on without one, or accepts that of the round. -/
theorem Ready.stride_pending (hn : R.Ready i n) (hp : R.Pending n.phase) {ev : Event}
    (hafter : R.Entering (n.next P ev)) : R.Stride i n (n.next P ev) []
      (castVotes (n.step P ev).2) := by
  have hmoves : ∀ n' : Node, n'.localKey = n.localKey → R.At n'.engine →
      n'.engine.votesOf = n.engine.votesOf → n'.precommittedThisRound = n.precommittedThisRound →
      R.Entering n' → R.work n' + 1 ≤ R.work n → R.Stride i n n' [] [] := by
    intro n' hkey hengine hvotes hflag hentering hwork
    have hle : moved n n' ≤ 1 := moved_le n n'
    exact .still hn hkey hengine hvotes hflag (.inl hentering.open)
      (iff_of_true hentering.open (.inl hp)) (iff_of_false hentering.not_prevoted (fun h => h.1 hp))
      (fun hvoting => absurd hvoting hentering.not_voting) (by omega)
  have hfired := n.step_fired (P := P) ev
  unfold Node.next at hafter ⊢
  generalize n.step P ev = result at hafter hfired ⊢
  cases hfired with
  | stutter | gossipedBlock | gossipedTx | listened | served => exact .rest hn rfl rfl rfl rfl
  | @proposalTaken h r proposer block o hphase =>
    rw [Pending, hphase] at hp
    exact hmoves _ rfl hn.engine rfl rfl (.inl hp) (by simp [work, hphase])
  | mined hphase hmined =>
    obtain ⟨hat, hvotes⟩ := hn.engine.proposeBlock _ _
    rcases hmined with rfl | rfl
    · exact absurd rfl hafter.not_idle
    · exact hmoves _ rfl hat hvotes rfl hafter (by simp [work, hphase])
  | applied hphase =>
    obtain ⟨hat, hvotes⟩ := hn.engine.proposeBlock _ _
    exact hmoves _ rfl hat hvotes rfl hafter (by simp [work, hphase])
  | proposalRefused | proposeTimedOut | applyFailed => exact absurd rfl hafter.not_idle
  | attempted hphase | electFailed hphase | elected hphase | prevoted hphase | reactedNot hphase
  | reacted hphase | voted hphase | voteTimedOut hphase | finalized hphase
  | rebroadcasted hphase =>
    rw [Pending, hphase] at hp
    obtain ⟨_, hp⟩ := hp
    cases hp

/-- Every step of a seat is a stride. -/
theorem Ready.stride_act (hn : R.Ready i n) {ev : Event}
    (hev : ev.inRound = true ∨ R.Pending n.phase ∧ R.Entering (n.next P ev)) :
    R.Stride i n (n.next P ev) [] (castVotes (n.step P ev).2) := by
  by_cases hpending : R.Pending n.phase
  · exact hn.stride_pending hpending (hpending.entering hev)
  have hphase := hn.phase.imp_left (fun hopen => hopen.resolve_left hpending)
  have hin := hev.resolve_right (fun h => hpending h.1)
  cases ev with
  | prevote o =>
    rcases hphase with (hp | hp | hp) | (⟨sigs, hp⟩ | hp | hp)
    · exact hn.stride_prevote hp o
    all_goals exact hn.stay (by simp only [Node.step, hp])
  | react o o' =>
    rcases hphase with (hp | hp | hp) | (⟨sigs, hp⟩ | hp | hp)
    on_goal 2 => exact hn.stride_react hp o o'
    all_goals exact hn.stay (by simp only [Node.step, hp])
  | finalize =>
    rcases hphase with (hp | hp | hp) | (⟨sigs, hp⟩ | hp | hp)
    on_goal 4 => exact hn.stride_finalize hp
    all_goals exact hn.stay (by simp only [Node.step, hp])
  | rebroadcast =>
    rcases hphase with (hp | hp | hp) | (⟨sigs, hp⟩ | hp | hp)
    on_goal 5 => exact hn.stride_rebroadcast hp
    all_goals exact hn.stay (by simp only [Node.step, hp])
  | gossipBlock block => exact .rest hn rfl rfl rfl rfl
  | gossipTx tx => exact .rest hn rfl rfl rfl rfl
  | evidence e =>
    simp only [Node.next, Node.step, Node.listenEvidence]
    split <;> exact .rest hn rfl rfl rfl rfl
  | serveBlocks lo hi => exact .rest hn rfl rfl rfl rfl
  | _ => cases hin

end Events

end Round

end Sprax
