import Sprax.Tally
import Sprax.Rounds

/-!
# One precommit per height

A driver precommits only after it has taken a block for its attempt. A mined
block brings the ledger to the height of the attempt, and so does a proposal
whose header is not below that height. No later attempt is made at a height the
ledger has reached, and within an attempt the flag stops a second precommit, so
the driver precommits at most once at each height, over all rounds. A proposal
with a lower header breaks this: it is answered with success, nothing is stored,
and the same height is attempted again.
-/
namespace Sprax
open Std FiniteMap

namespace Phase

/-- Height and round of an attempt whose engine is set up. -/
def slot : Phase → Option (ℕ × ℕ)
  | .proposing h r _ | .awaiting h r _ | .applying h r _ _ | .prevoting h r _ | .reacting h r
  | .voting h r => some (h, r)
  | _ => none

/-- How far the ledger is when the driver is in the phase: at most one block short
until a block is taken, at the height of the attempt from then on. -/
def Reached (H : ℕ) : Phase → Prop
  | .electing h _ | .proposing h _ _ => h ≤ H + 1
  | .applying h _ _ block => h ≤ block.header.height
  | .prevoting h _ _ | .reacting h _ | .voting h _ => h ≤ H
  | _ => True

theorem Reached.mono {H H' : ℕ} {p : Phase} (hp : p.Reached H) (hle : H ≤ H') : p.Reached H' := by
  cases p <;> simp only [Reached] at hp ⊢ <;> omega

/-- Where counting a vote leaves an attempt: still waiting for quorums, or over. -/
def After (h r : ℕ) (p : Phase) : Prop := p.deciding = some (h, r) ∨ p.Over

theorem After.slot {h r : ℕ} {p : Phase} (hp : p.After h r) :
    p.slot = some (h, r) ∨ p.slot = none := by
  rcases hp with hd | ⟨hu, hd⟩
  · cases p <;> simp_all [deciding, Phase.slot]
  · cases p <;> simp_all [unvoted, deciding, Phase.slot]

theorem After.reached {h r H : ℕ} {p : Phase} (hp : p.After h r) (hle : h ≤ H) : p.Reached H := by
  rcases hp with hd | ⟨hu, hd⟩
  · cases p <;> simp_all [deciding, Phase.Reached]
  · cases p <;> simp_all [unvoted, deciding, Phase.Reached]

end Phase

/-- A quorum of stored precommits stands behind the block. -/
def BftConsensusEngine.Backed (E : BftConsensusEngine) (h r : ℕ) (x : Hash32) : Prop :=
  E.valSet.hasQuorum (powerFor (tallied E.valSet E.precommits h r) (some x)) = true

namespace Node
variable {P : Primitives}

theorem countPrecommit_phase (n : Node) (h r : ℕ) (vote : Vote) (o : IterOrder Hash32) :
    (n.countPrecommit h r vote o).1.phase.After h r := by
  rcases n.countPrecommit_cases h r vote o with ⟨hash, sigs, -, hcommit⟩ | hwait
  · rw [hcommit]
    exact Or.inr ⟨rfl, rfl⟩
  · rw [hwait]
    exact Or.inl rfl

theorem countVote_phase (n : Node) (h r : ℕ) (vote : Vote) (o : IterOrder Hash32) :
    (n.countVote h r vote o).1.phase.After h r := by
  rcases n.countVote_cases h r vote o with ⟨-, phase, hphase, hprevote⟩ | ⟨-, hprecommit⟩
  · rw [hprevote]
    rcases hphase with rfl | rfl <;> exact Or.inl rfl
  · rw [hprecommit]
    exact n.countPrecommit_phase h r vote o

/-- The engine is at the height and round of the attempt. -/
def Synced (n : Node) : Prop :=
  ∀ h r, n.phase.slot = some (h, r) → n.engine.state.height = h ∧ n.engine.state.round = r

theorem synced_of_none {n : Node} (h : n.phase.slot = none) : n.Synced := by
  intro height r hat
  rw [h] at hat
  cases hat

theorem Synced.congr {n m : Node} (hs : n.Synced) {h r : ℕ} (hp : n.phase.slot = some (h, r))
    (hheight : m.engine.state.height = n.engine.state.height)
    (hround : m.engine.state.round = n.engine.state.round)
    (hphase : m.phase.slot = some (h, r) ∨ m.phase.slot = none) : m.Synced := by
  rcases hphase with hphase | hphase
  · intro h' r' hat
    rw [hphase] at hat
    cases hat
    rw [hheight, hround]
    exact hs h r hp
  · exact synced_of_none hphase

theorem Synced.next {n : Node} (hs : n.Synced) (ev : Event) : (n.next P ev).Synced := by
  have hfired := step_fired (P := P) n ev
  unfold Node.next
  generalize n.step P ev = result at hfired
  cases hfired with
  | stutter | gossipedBlock | gossipedTx | listened | served => exact hs
  | attempted | electFailed | proposalRefused | proposeTimedOut | applyFailed | voteTimedOut
  | finalized | rebroadcasted => exact synced_of_none rfl
  | elected hp hset hphase =>
    rcases hphase with ⟨-, rfl⟩ | ⟨-, rfl⟩
    · rintro h r ⟨⟩
      exact ⟨rfl, rfl⟩
    · rintro h r ⟨⟩
      exact ⟨rfl, rfl⟩
  | @mined h r proposer phase hp hphase =>
    obtain ⟨hheight, hround⟩ := n.engine.proposeBlock_state
      (Hasher.blockHash P (n.ledger.mineBlock P proposer).2.header) proposer
    refine hs.congr (by rw [hp]; rfl) hheight hround ?_
    rcases hphase with rfl | rfl
    · exact Or.inr rfl
    · exact Or.inl rfl
  | proposalTaken hp => exact hs.congr (by rw [hp]; rfl) rfl rfl (Or.inl rfl)
  | @applied h r proposer block o receipts hp hok =>
    obtain ⟨hheight, hround⟩ :=
      n.engine.proposeBlock_state (Hasher.blockHash P block.header) proposer
    exact hs.congr (by rw [hp]; rfl) hheight hround (Or.inl rfl)
  | @prevoted h r hash o hp =>
    have hcount := n.engine.receivePrevote_counted o
      (buildSignedVote P .prevote h r (some hash) n.localKey)
    exact hs.congr (by rw [hp]; rfl) hcount.height_eq hcount.round_eq (Or.inl rfl)
  | reactedNot hp => exact hs.congr (by rw [hp]; rfl) rfl rfl (Or.inl rfl)
  | @reacted h r hash o o' hp hfirst hquorum =>
    have hcount := n.engine.receivePrecommit_counted o'
      (buildSignedVote P .precommit h r (some hash) n.localKey)
    refine hs.congr (h := h) (r := r) (by rw [hp]; rfl) ?_ ?_ (countPrecommit_phase _ h r _ o').slot
    · rw [countPrecommit_engine]
      exact hcount.height_eq
    · rw [countPrecommit_engine]
      exact hcount.round_eq
  | @voted h r v o validator hp =>
    obtain ⟨_, hcount⟩ := countVote_counted (n.slashConflict v).1 h r v o
    rw [slashConflict_engine] at hcount
    exact hs.congr (by rw [hp]; rfl) hcount.height_eq hcount.round_eq
      (countVote_phase _ h r v o).slot

/-- A proposal that is about to be taken is not below the height of the attempt. -/
def Current (n : Node) : Event → Prop
  | .proposal h r block _ => match n.phase with
    | .awaiting h' r' proposer =>
      h = h' → r = r' → block.header.proposer = proposer → h' ≤ block.header.height
    | _ => True
  | _ => True

instance (n : Node) : (ev : Event) → Decidable (n.Current ev)
  | .proposal h r block _ =>
    match hp : n.phase with
    | .awaiting h' r' proposer =>
      decidable_of_iff (h = h' → r = r' → block.header.proposer = proposer →
        h' ≤ block.header.height) (by simp [Current, hp])
    | .idle | .electing .. | .proposing .. | .applying .. | .prevoting .. | .reacting ..
    | .voting ..
    | .finalizing .. | .rebroadcasting .. => isTrue (by simp [Current, hp])
  | .attempt | .elect _ | .mine | .proposeTimeout _ | .apply _ | .prevote _ | .react .. | .vote ..
  | .voteTimeout | .finalize | .rebroadcast | .gossipBlock _ | .gossipTx _ | .evidence _
  | .serveBlocks .. => isTrue trivial

/-- One step brings the ledger as far as the next phase says. -/
theorem reached_next {n : Node} (hn : n.phase.Reached n.ledger.height) {ev : Event}
    (hcur : n.Current ev) : (n.next P ev).phase.Reached (n.next P ev).ledger.height := by
  have hle := n.height_le_next (P := P) ev
  have hfired := step_fired (P := P) n ev
  unfold Node.next at hle ⊢
  generalize n.step P ev = result at hfired hle
  cases hfired with
  | stutter | gossipedBlock | gossipedTx | listened | served => exact hn.mono hle
  | attempted => exact le_rfl
  | electFailed | proposalRefused | proposeTimedOut | applyFailed | voteTimedOut | finalized
  | rebroadcasted => trivial
  | elected hp hset hphase =>
    rw [hp] at hn
    rcases hphase with ⟨-, rfl⟩ | ⟨-, rfl⟩
    · exact hn
    · trivial
  | @mined h r proposer phase hp hphase =>
    rw [hp] at hn
    rcases hphase with rfl | rfl
    · trivial
    · show h ≤ (n.ledger.mineBlock P proposer).1.height
      rw [ChainLedger.mineBlock_height]
      exact hn
  | @proposalTaken h r proposer block o hp hproposer =>
    simp only [Current, hp] at hcur
    exact hcur trivial trivial hproposer
  | @applied h r proposer block o receipts hp hok =>
    rw [hp] at hn
    show h ≤ (n.ledger.applyBlock P block).1.height
    exact Nat.le_trans hn (ChainLedger.le_height_of_applyBlock_ok hok)
  | prevoted hp | reactedNot hp =>
    rw [hp] at hn
    exact hn
  | @reacted h r hash o o' hp =>
    rw [hp] at hn
    exact (countPrecommit_phase _ h r _ o').reached (Nat.le_trans hn hle)
  | @voted h r v o validator hp =>
    rw [hp] at hn
    exact (countVote_phase _ h r v o).reached (Nat.le_trans hn hle)

theorem countPrecommit_committed {n : Node} {h r : ℕ} {vote : Vote} {o : IterOrder Hash32}
    (hheight : n.engine.state.height = h) (hround : n.engine.state.round = r) {h' r' : ℕ}
    {x : Hash32} {sigs : List CommitSignature}
    (he : .committed h' r' x sigs ∈ (n.countPrecommit h r vote o).2) :
    (n.countPrecommit h r vote o).1.engine.Backed h' r' x := by
  rcases n.countPrecommit_cases h r vote o with ⟨hash, sigs', hcommit, hresult⟩ | hresult
  · rw [hresult] at he ⊢
    obtain ⟨rfl, rfl, rfl, rfl⟩ := Effect.committed.inj (List.mem_singleton.mp he)
    obtain ⟨-, htable, hquorum⟩ := BftConsensusEngine.receivePrecommit_commit hcommit
    rw [hheight, hround] at hquorum
    have hcount := n.engine.receivePrecommit_counted o vote
    rw [BftConsensusEngine.Backed, htable, hcount.valSet_eq]
    exact hquorum
  · rw [hresult] at he
    cases he

/-- The commit of a step is backed by the precommits stored after it. -/
theorem committed_step {n : Node} (hs : n.Synced) {ev : Event} {h r : ℕ} {x : Hash32}
    {sigs : List CommitSignature} (he : .committed h r x sigs ∈ (n.step P ev).2) :
    (n.next P ev).engine.Backed h r x := by
  have hfired := step_fired (P := P) n ev
  unfold Node.next
  generalize n.step P ev = result at hfired he
  cases hfired with
  | mined | proposalRefused | proposeTimedOut | applyFailed | prevoted | served =>
    cases List.mem_singleton.mp he
  | @reacted h' r' hash o o' hp =>
    obtain ⟨hheight, hround⟩ := hs h' r' (by rw [hp]; rfl)
    rcases List.mem_cons.mp he with he | he
    · cases he
    · exact countPrecommit_committed (n := { n with precommittedThisRound := true })
        hheight hround he
  | @voted h' r' v o validator hp =>
    obtain ⟨hheight, hround⟩ := hs h' r' (by rw [hp]; rfl)
    rw [← n.slashConflict_engine v] at hheight hround
    rcases List.mem_append.mp he with he | he
    · obtain ⟨evidence, hevidence⟩ := slashConflict_effects he
      cases hevidence
    · rcases (n.slashConflict v).1.countVote_cases h' r' v o with
        ⟨-, phase, -, hresult⟩ | ⟨-, hresult⟩
      · rw [hresult] at he
        cases he
      · rw [hresult] at he ⊢
        exact countPrecommit_committed hheight hround he
  | finalized => cases finalize_effects he
  | rebroadcasted =>
    obtain ⟨block, -, hblock⟩ := rebroadcast_effects he
    cases hblock
  | _ => cases he

end Node

/-- All precommits among the votes are below a height. -/
def PrecommitsBelow (votes : List Vote) (h : ℕ) : Prop :=
  ∀ v ∈ votes, v.voteType = .precommit → v.height < h

theorem PrecommitsBelow.mono {votes : List Vote} {h h' : ℕ} (hv : PrecommitsBelow votes h)
    (hle : h ≤ h') : PrecommitsBelow votes h' :=
  fun v hmem htype => (hv v hmem htype).trans_le hle

theorem PrecommitsBelow.snoc {votes : List Vote} {h : ℕ} (hv : PrecommitsBelow votes h) {w : Vote}
    (hw : w.voteType = .precommit → w.height < h) : PrecommitsBelow (votes ++ [w]) h := by
  intro v hmem htype
  rcases List.mem_append.mp hmem with hmem | hmem
  · exact hv v hmem htype
  · rw [List.mem_singleton.mp hmem] at htype ⊢
    exact hw htype

/-- Precommits at one height are for one block. -/
def OnePrecommit (votes : List Vote) : Prop :=
  ∀ v ∈ votes, ∀ w ∈ votes, v.voteType = .precommit → w.voteType = .precommit →
    v.height = w.height → v.blockHash = w.blockHash

theorem OnePrecommit.snoc {votes : List Vote} (hone : OnePrecommit votes) {w : Vote}
    (hw : w.voteType = .precommit → PrecommitsBelow votes w.height) :
      OnePrecommit (votes ++ [w]) := by
  intro u hu v hv htu htv hheight
  rw [List.mem_append, List.mem_singleton] at hu hv
  rcases hu with hu | rfl <;> rcases hv with hv | rfl
  · exact hone u hu v hv htu htv hheight
  · exact absurd hheight (hw htv u hu htu).ne
  · exact absurd hheight (hw htu v hv htv).ne'
  · rfl

/-- A driver at position `p` over a ledger of height `H` that has cast `votes`
has no precommit at or above the height of an attempt in which it may still
precommit. -/
structure Settled (p : Position) (H : ℕ) (votes : List Vote) : Prop where
  spent : PrecommitsBelow votes (H + 1)
  unvoted : ∀ h r, p.phase.unvoted = some (h, r) → PrecommitsBelow votes h
  deciding : ∀ h r, p.phase.deciding = some (h, r) → p.precommittedThisRound = false →
    PrecommitsBelow votes h
  onePrecommit : OnePrecommit votes

namespace Settled
variable {P : Primitives} {p : Position} {H : ℕ} {votes : List Vote}

theorem mono (h : Settled p H votes) {H' : ℕ} (hH : H ≤ H') : Settled p H' votes where
  spent := h.spent.mono (by omega)
  unvoted := h.unvoted
  deciding := h.deciding
  onePrecommit := h.onePrecommit

theorem move {n : Node} (h : Settled n.position n.ledger.height votes)
    (hreached : n.phase.Reached n.ledger.height) {ev : Event} {q : Position} {cast : List Vote}
    (hmove : n.DriverMove P ev q cast) : Settled q n.ledger.height (votes ++ cast) := by
  cases hmove with
  | rested => simpa using h
  | attempted =>
    rw [List.append_nil]
    refine ⟨h.spent, ?_, by simp [Phase.deciding], h.onePrecommit⟩
    rintro height r ⟨⟩
    exact h.spent
  | advanced hp hp' hd =>
    rw [List.append_nil]
    refine ⟨h.spent, ?_, by simp [hd], h.onePrecommit⟩
    intro height r hat
    exact h.unvoted height r (hp.trans (hp'.symm.trans hat))
  | refused =>
    exact ⟨h.spent.snoc (by simp [buildSignedVote]), by simp [Phase.unvoted],
      by simp [Phase.deciding], h.onePrecommit.snoc (by simp [buildSignedVote])⟩
  | @prevoted _ height r hash hp =>
    have hbelow := h.unvoted height r (by rw [Node.position, hp]; rfl)
    refine ⟨h.spent.snoc (by simp [buildSignedVote]), by simp [Phase.unvoted], ?_,
      h.onePrecommit.snoc (by simp [buildSignedVote])⟩
    rintro height r ⟨⟩ -
    exact hbelow.snoc (by simp [buildSignedVote])
  | waited hp hp' hu =>
    rw [List.append_nil]
    refine ⟨h.spent, by simp [hu], ?_, h.onePrecommit⟩
    intro height r hat
    exact h.deciding height r (hp.trans (hp'.symm.trans hat))
  | @precommitted _ height r hash phase hp hfirst hp' =>
    have hbelow := h.deciding height r (by rw [Node.position, hp]; rfl) hfirst
    rw [hp] at hreached
    refine ⟨h.spent.snoc (fun _ => Nat.lt_succ_of_le hreached), ?_, by simp,
      h.onePrecommit.snoc (fun _ => hbelow)⟩
    intro height' r' hat
    rcases hp' with rfl | hover
    · cases hat
    · rw [hover.1] at hat
      cases hat
  | ended hp' =>
    rw [List.append_nil]
    exact ⟨h.spent, by simp [hp'.1], by simp [hp'.2], h.onePrecommit⟩

theorem next {n : Node} (h : Settled n.position n.ledger.height votes)
    (hreached : n.phase.Reached n.ledger.height) (ev : Event) :
    Settled (n.next P ev).position (n.next P ev).ledger.height
      (votes ++ castVotes (n.step P ev).2) :=
  (h.move hreached (n.driver_moved ev)).mono (n.height_le_next ev)

end Settled

end Sprax
