import Sprax.Chain

/-!
# Heights, rounds and the votes cast in them

The driver's position is its phase, the height and round of its latest attempt
and the flag that its precommit is out. Seen through the position and the votes
cast, a step is one of eight moves. Every attempt gets a height and round of its
own, so a driver that keeps its memory casts at most one prevote and at most one
precommit in each.
-/
namespace Sprax
open Std FiniteMap

namespace Phase

/-- Height and round of an attempt in which no vote was cast yet. -/
def unvoted : Phase → Option (ℕ × ℕ)
  | .electing h r | .proposing h r _ | .awaiting h r _ | .applying h r _ _ | .prevoting h r _ =>
    some (h, r)
  | _ => none

/-- Height, round and proposer of an attempt that waits for its block. -/
def offer : Phase → Option (ℕ × ℕ × Address)
  | .proposing h r a | .awaiting h r a | .applying h r a _ => some (h, r, a)
  | _ => none

/-- Height and round of an attempt that waits for quorums. -/
def deciding : Phase → Option (ℕ × ℕ)
  | .reacting h r | .voting h r => some (h, r)
  | _ => none

/-- The attempt is over as far as votes are concerned. -/
def Over (p : Phase) : Prop := p.unvoted = none ∧ p.deciding = none

end Phase

/-- The driver's own state, without the engine. -/
structure Position where
  phase : Phase
  lastAttemptedHeight : ℕ
  currentRound : ℕ
  precommittedThisRound : Bool

namespace Node
variable {P : Primitives}

def position (n : Node) : Position :=
  ⟨n.phase, n.lastAttemptedHeight, n.currentRound, n.precommittedThisRound⟩

/-- The moves of a driver, with the votes they cast. -/
inductive DriverMove (P : Primitives) (n : Node) : Event → Position → List Vote → Prop
  | rested (ev : Event) : DriverMove P n ev n.position []
  | attempted (hp : n.phase = .idle) : DriverMove P n .attempt
      ⟨.electing (n.ledger.height + 1) n.nextRound, n.ledger.height + 1, n.nextRound,
        n.precommittedThisRound⟩ []
  | advanced {ev : Event} {at' : ℕ × ℕ} {phase : Phase} {flag : Bool}
      (hp : n.phase.unvoted = some at') (hp' : phase.unvoted = some at')
      (hd : phase.deciding = none) :
      DriverMove P n ev ⟨phase, n.lastAttemptedHeight, n.currentRound, flag⟩ []
  | refused {ev : Event} {h r : ℕ} (hp : n.phase.unvoted = some (h, r)) : DriverMove P n ev
      ⟨.idle, n.lastAttemptedHeight, n.currentRound, n.precommittedThisRound⟩
      [buildSignedVote P .prevote h r none n.localKey]
  | prevoted {ev : Event} {h r : ℕ} {hash : Hash32} (hp : n.phase = .prevoting h r hash) :
      DriverMove P n ev ⟨.reacting h r, n.lastAttemptedHeight, n.currentRound,
        n.precommittedThisRound⟩
      [buildSignedVote P .prevote h r (some hash) n.localKey]
  | waited {ev : Event} {at' : ℕ × ℕ} {phase : Phase} (hp : n.phase.deciding = some at')
      (hp' : phase.deciding = some at') (hu : phase.unvoted = none) : DriverMove P n ev
      ⟨phase, n.lastAttemptedHeight, n.currentRound, n.precommittedThisRound⟩ []
  | precommitted {ev : Event} {h r : ℕ} {hash : Hash32} {phase : Phase}
      (hp : n.phase = .reacting h r) (hfirst : n.precommittedThisRound = false)
      (hp' : phase = .voting h r ∨ phase.Over) : DriverMove P n ev
      ⟨phase, n.lastAttemptedHeight, n.currentRound, true⟩
      [buildSignedVote P .precommit h r (some hash) n.localKey]
  | ended {ev : Event} {phase : Phase} (hp' : phase.Over) : DriverMove P n ev
      ⟨phase, n.lastAttemptedHeight, n.currentRound, n.precommittedThisRound⟩ []

theorem countPrecommit_position (n : Node) (h r : ℕ) (vote : Vote) (o : IterOrder Hash32) :
    ∃ phase : Phase, (phase = .voting h r ∨ phase.Over) ∧
      (n.countPrecommit h r vote o).1.position =
        ⟨phase, n.lastAttemptedHeight, n.currentRound, n.precommittedThisRound⟩ := by
  rcases n.countPrecommit_cases h r vote o with ⟨hash, sigs, -, hcommit⟩ | hwait
  · rw [hcommit]
    exact ⟨_, Or.inr ⟨rfl, rfl⟩, rfl⟩
  · rw [hwait]
    exact ⟨_, Or.inl rfl, rfl⟩

theorem slashConflict_position (n : Node) (vote : Vote) :
    (n.slashConflict vote).1.position = n.position := by
  obtain ⟨staking, hframe⟩ := n.slashConflict_frame vote
  rw [hframe]
  rfl

/-- A counted vote keeps the driver deciding or ends the attempt. -/
theorem voted_moved {n m : Node} {h r : ℕ} (hp : n.phase = .voting h r)
    (hm : m.position = n.position) (ev : Event) (vote : Vote) (o : IterOrder Hash32) :
    DriverMove P n ev (m.countVote h r vote o).1.position [] := by
  have hdeciding : n.phase.deciding = some (h, r) := by rw [hp]; rfl
  simp only [position, Position.mk.injEq] at hm
  obtain ⟨-, hlast, hround, hflag⟩ := hm
  rcases m.countVote_cases h r vote o with ⟨-, phase, hphase, hprevote⟩ | ⟨-, hprecommit⟩
  · rw [hprevote]
    simp only [position, hlast, hround, hflag]
    refine .waited hdeciding ?_ ?_
    · rcases hphase with rfl | rfl <;> rfl
    · rcases hphase with rfl | rfl <;> rfl
  · obtain ⟨phase, hphase, hpos⟩ := m.countPrecommit_position h r vote o
    rw [hprecommit, hpos, hlast, hround, hflag]
    rcases hphase with rfl | hover
    · exact .waited hdeciding rfl rfl
    · exact .ended hover

theorem driver_moved (n : Node) (ev : Event) :
    DriverMove P n ev (n.next P ev).position (castVotes (n.step P ev).2) := by
  have hfired := step_fired (P := P) n ev
  unfold next
  generalize n.step P ev = result at hfired
  cases hfired with
  | stutter | gossipedBlock | gossipedTx | listened | served => exact .rested _
  | attempted hp => exact .attempted hp
  | electFailed | voteTimedOut => exact .ended ⟨rfl, rfl⟩
  | elected hp hset hphase =>
    rcases hphase with ⟨-, rfl⟩ | ⟨-, rfl⟩ <;> exact .advanced (by rw [hp]; rfl) rfl rfl
  | mined hp hphase =>
    rcases hphase with rfl | rfl
    · exact .ended ⟨rfl, rfl⟩
    · exact .advanced (by rw [hp]; rfl) rfl rfl
  | proposalTaken hp | applied hp => exact .advanced (by rw [hp]; rfl) rfl rfl
  | proposalRefused hp | proposeTimedOut hp | applyFailed hp => exact .refused (by rw [hp]; rfl)
  | prevoted hp => exact .prevoted hp
  | reactedNot hp => exact .waited (by rw [hp]; rfl) rfl rfl
  | @reacted h r hash o o' hp hfirst hquorum =>
    obtain ⟨phase, hphase, hpos⟩ :=
      countPrecommit_position { n with precommittedThisRound := true } h r
        (buildSignedVote P .precommit h r (some hash) n.localKey) o'
    rw [castVotes_cons_castVote, castVotes_countPrecommit, hpos]
    exact .precommitted hp hfirst hphase
  | @voted h r v o validator hp =>
    rw [castVotes_append, castVotes_slashConflict, castVotes_countVote]
    exact voted_moved hp (n.slashConflict_position v) _ v o
  | finalized =>
    rw [castVotes_finalize]
    exact .ended ⟨rfl, rfl⟩
  | rebroadcasted =>
    rw [castVotes_rebroadcast]
    exact .ended ⟨rfl, rfl⟩

end Node

/-- No two votes of one type, height and round differ in their block. -/
def OneVote (votes : List Vote) : Prop :=
  ∀ v ∈ votes, ∀ w ∈ votes, v.voteType = w.voteType → v.height = w.height → v.round = w.round →
    v.blockHash = w.blockHash

/-- The vote is for this height and round. -/
def Vote.At (v : Vote) (h r : ℕ) : Prop := v.height = h ∧ v.round = r

instance (v : Vote) (h r : ℕ) : Decidable (v.At h r) := inferInstanceAs (Decidable (_ ∧ _))

/-- A vote in a slot where no vote of its type was cast contradicts none. -/
theorem OneVote.snoc {votes : List Vote} (h : OneVote votes) {v : Vote}
    (hnew : ∀ w ∈ votes, w.voteType = v.voteType → ¬ w.At v.height v.round) :
    OneVote (votes ++ [v]) := by
  intro x hx y hy htype hheight hround
  rw [List.mem_append, List.mem_singleton] at hx hy
  rcases hx with hx | rfl <;> rcases hy with hy | rfl
  · exact h x hx y hy htype hheight hround
  · exact absurd ⟨hheight, hround⟩ (hnew x hx htype)
  · exact absurd ⟨hheight.symm, hround.symm⟩ (hnew y hy htype.symm)
  · rfl

/-- A driver at position `p` over a ledger of height `H` has cast `votes` and has
kept count of them. -/
structure Steady (p : Position) (H : ℕ) (votes : List Vote) : Prop where
  spent : ∀ v ∈ votes, v.height ≤ H ∨ v.height = p.lastAttemptedHeight ∧ v.round ≤ p.currentRound
  reach : p.lastAttemptedHeight ≤ H + 1
  unvoted : ∀ h r, p.phase.unvoted = some (h, r) →
    h = p.lastAttemptedHeight ∧ r = p.currentRound ∧ ∀ v ∈ votes, ¬ v.At h r
  deciding : ∀ h r, p.phase.deciding = some (h, r) →
    h = p.lastAttemptedHeight ∧ r = p.currentRound ∧
      (p.precommittedThisRound = false → ∀ v ∈ votes, v.voteType = .precommit → ¬ v.At h r)
  oneVote : OneVote votes

namespace Steady
variable {P : Primitives} {p : Position} {H : ℕ} {votes : List Vote}

theorem mono (h : Steady p H votes) {H' : ℕ} (hH : H ≤ H') : Steady p H' votes where
  spent v hv := (h.spent v hv).imp (fun hle => hle.trans hH) id
  reach := h.reach.trans (by omega)
  unvoted := h.unvoted
  deciding := h.deciding
  oneVote := h.oneVote

/-- A fresh attempt has a height and round that no vote was cast in. -/
theorem lt_nextRound {n : Node} (h : Steady n.position n.ledger.height votes)
    (hwrap : n.ledger.height + 1 = n.lastAttemptedHeight → n.currentRound + 1 < 2 ^ 32) :
    ∀ v ∈ votes, v.height ≤ n.ledger.height ∨
      v.height = n.ledger.height + 1 ∧ v.round < n.nextRound := by
  intro v hv
  have hreach := h.reach
  rcases h.spent v hv with hle | ⟨hheight, hround⟩
  · exact Or.inl hle
  · simp only [Node.position] at hheight hround hreach
    by_cases hretry : n.ledger.height + 1 = n.lastAttemptedHeight
    · have hsmall := hwrap hretry
      have hnext : n.nextRound = n.currentRound + 1 := by
        rw [Node.nextRound, if_pos hretry, Nat.mod_eq_of_lt hsmall]
      exact Or.inr ⟨by omega, by omega⟩
    · exact Or.inl (by omega)

theorem attempted {n : Node} (h : Steady n.position n.ledger.height votes)
    (hwrap : n.ledger.height + 1 = n.lastAttemptedHeight → n.currentRound + 1 < 2 ^ 32)
    (flag : Bool) :
    Steady ⟨.electing (n.ledger.height + 1) n.nextRound, n.ledger.height + 1, n.nextRound, flag⟩
      n.ledger.height votes where
  spent v hv := (h.lt_nextRound hwrap v hv).imp id (fun hlt => ⟨hlt.1, hlt.2.le⟩)
  reach := le_rfl
  unvoted := by
    intro height r hat
    obtain ⟨rfl, rfl⟩ : n.ledger.height + 1 = height ∧ n.nextRound = r := by
      simpa [Phase.unvoted] using hat
    refine ⟨rfl, rfl, fun v hv hv' => ?_⟩
    obtain ⟨hheight, hround⟩ := hv'
    rcases h.lt_nextRound hwrap v hv with hle | hlt
    · omega
    · omega
  deciding := by simp [Phase.deciding]
  oneVote := h.oneVote

/-- Adding a vote cast at the height and round of the latest attempt. -/
theorem spent_snoc {v : Vote} (h : Steady p H votes)
    (hv : v.At p.lastAttemptedHeight p.currentRound) :
    ∀ w ∈ votes ++ [v], w.height ≤ H ∨
      w.height = p.lastAttemptedHeight ∧ w.round ≤ p.currentRound := by
  intro w hw
  rcases List.mem_append.mp hw with hw | hw
  · exact h.spent w hw
  · rw [List.mem_singleton.mp hw]
    exact Or.inr ⟨hv.1, hv.2.le⟩

/-- One move of a driver whose round counter does not wrap. -/
theorem move {n : Node} (h : Steady n.position n.ledger.height votes) {ev : Event} {q : Position}
    {cast : List Vote} (hmove : n.DriverMove P ev q cast)
    (hwrap : ev = .attempt → n.phase = .idle → n.ledger.height + 1 = n.lastAttemptedHeight →
      n.currentRound + 1 < 2 ^ 32) :
    Steady q n.ledger.height (votes ++ cast) := by
  cases hmove with
  | rested => simpa using h
  | attempted hp => simpa using h.attempted (hwrap rfl hp) _
  | advanced hp hp' hd =>
    rw [List.append_nil]
    exact ⟨h.spent, h.reach, fun height r hat => h.unvoted height r (by rw [← hat, hp']; exact hp),
      fun height r hat => by simp [hd] at hat, h.oneVote⟩
  | @refused _ height r hp =>
    obtain ⟨rfl, rfl, hfresh⟩ := h.unvoted height r hp
    refine ⟨h.spent_snoc ⟨rfl, rfl⟩, h.reach, by simp [Phase.unvoted], by simp [Phase.deciding],
      h.oneVote.snoc (fun w hw _ => hfresh w hw)⟩
  | @prevoted _ height r hash hp =>
    obtain ⟨rfl, rfl, hfresh⟩ := h.unvoted height r (by rw [Node.position, hp]; rfl)
    refine ⟨h.spent_snoc ⟨rfl, rfl⟩, h.reach, by simp [Phase.unvoted], ?_,
      h.oneVote.snoc (fun w hw _ => hfresh w hw)⟩
    intro height r hat
    obtain ⟨rfl, rfl⟩ : n.position.lastAttemptedHeight = height ∧ n.position.currentRound = r := by
      simpa [Phase.deciding] using hat
    refine ⟨rfl, rfl, fun _ v hv htype => ?_⟩
    rcases List.mem_append.mp hv with hv | hv
    · exact hfresh v hv
    · -- the vote just cast is a prevote
      rw [List.mem_singleton.mp hv] at htype
      cases htype
  | waited hp hp' hu =>
    rw [List.append_nil]
    exact ⟨h.spent, h.reach, fun height r hat => by simp [hu] at hat,
      fun height r hat => h.deciding height r (by rw [← hat, hp']; exact hp), h.oneVote⟩
  | @precommitted _ height r hash phase hp hfirst hp' =>
    obtain ⟨rfl, rfl, hnone⟩ := h.deciding height r (by rw [Node.position, hp]; rfl)
    refine ⟨h.spent_snoc ⟨rfl, rfl⟩, h.reach, ?_, ?_,
      h.oneVote.snoc (fun w hw htype => hnone hfirst w hw htype)⟩
    · intro height r hat
      rcases hp' with rfl | hover
      · cases hat
      · rw [hover.1] at hat
        cases hat
    · intro height r hat
      rcases hp' with rfl | hover
      · obtain ⟨rfl, rfl⟩ : n.position.lastAttemptedHeight = height ∧
            n.position.currentRound = r := by simpa [Phase.deciding] using hat
        exact ⟨rfl, rfl, fun hflag => by cases hflag⟩
      · rw [hover.2] at hat
        cases hat
  | ended hp' =>
    rw [List.append_nil]
    exact ⟨h.spent, h.reach, fun height r hat => by simp [hp'.1] at hat,
      fun height r hat => by simp [hp'.2] at hat, h.oneVote⟩

/-- One step of a node. -/
theorem next {n : Node} (h : Steady n.position n.ledger.height votes) (ev : Event)
    (hwrap : ev = .attempt → n.phase = .idle → n.ledger.height + 1 = n.lastAttemptedHeight →
      n.currentRound + 1 < 2 ^ 32) :
    Steady (n.next P ev).position (n.next P ev).ledger.height
      (votes ++ castVotes (n.step P ev).2) :=
  (h.move (n.driver_moved ev) hwrap).mono (n.height_le_next ev)

end Steady

end Sprax
