import Sprax.Reload

/-!
# Which proposer a node expects

Proposers are selected by priorities that live in the engine: every attempt raises and
lowers them once, a refreshed validator set inherits them, and a restart forgets them.
What a node selects is therefore a function of the validator sets it has selected from
since its last start, and not of height and round. Two nodes agree if these sequences
are the same; a timeout, a restart or a block taken from gossip is enough to part them.
-/
namespace Sprax
open Std FiniteMap

namespace ValidatorSet

/-- A fresh set with the priorities that its members had in an older one. -/
def carriedFrom (s old : ValidatorSet) : ValidatorSet :=
  { s with
    validators := s.validators.map (BftConsensusEngine.carryPriority old)
    validators_ne := by simpa using s.validators_ne }

/-- No member has a priority yet. -/
def Fresh (s : ValidatorSet) : Prop := ∀ v ∈ s.validators, v.proposerPriority = 0

theorem eq_of_validators {t u : ValidatorSet} (hv : t.validators = u.validators)
    (htotal : t.totalVotingPower = u.totalVotingPower) : t = u := by
  cases t
  cases u
  simp_all

theorem carriedFrom_fresh {s old : ValidatorSet} (hs : s.Fresh) (hold : old.Fresh) :
    s.carriedFrom old = s := by
  refine eq_of_validators ((List.map_congr_left (fun v hv => ?_)).trans (List.map_id _)) rfl
  unfold BftConsensusEngine.carryPriority
  cases hfind : old.find v.address with
  | none => rfl
  | some w =>
    have hzero := hold w (List.mem_of_find?_eq_some hfind)
    simp only [hzero, ← hs v hv, id_eq]

/-- The set from which a proposer is selected after selections from the sets before,
the latest first. -/
def inTurn : List ValidatorSet → ValidatorSet → ValidatorSet
  | [], s => s
  | last :: earlier, s => s.carriedFrom (inTurn earlier last).selectProposer.1

/-- The priorities of a set are those of a fresh one, or what the selections at the
given heights have left, the latest first. -/
def Rotated (V : ℕ → ValidatorSet) : List ℕ → ValidatorSet → Prop
  | [], s => s.Fresh
  | h :: earlier, s => s = (inTurn (earlier.map V) (V h)).selectProposer.1

theorem Rotated.carriedFrom {V : ℕ → ValidatorSet} {heights : List ℕ} {s : ValidatorSet}
    (h : Rotated V heights s) {height : ℕ} (hfresh : (V height).Fresh) :
    (V height).carriedFrom s = inTurn (heights.map V) (V height) := by
  cases heights with
  | nil => exact carriedFrom_fresh hfresh h
  | cons last earlier =>
    have hs : s = (inTurn (earlier.map V) (V last)).selectProposer.1 := h
    rw [hs]
    rfl

end ValidatorSet

theorem StakingKeeper.fresh_of_active {k : StakingKeeper} {o : IterOrder StakingValidator}
    {s : ValidatorSet} (h : k.getActiveValidatorSet o = .ok s) : s.Fresh := by
  intro v hv
  obtain ⟨record, -, -, rfl⟩ := exists_active_of_mem h hv
  rfl

namespace Node
variable {P : Primitives}

/-- The heights at which a proposer was selected, extended by what the event does. -/
def elections (n : Node) (heights : List ℕ) : Event → List ℕ
  | .elect _ => match n.phase with
    | .electing h _ => h :: heights
    | _ => heights
  | _ => heights

/-- The validator that `select_proposer` returns in a step. -/
def selected (n : Node) : Event → Option Validator
  | .elect records => match n.phase with
    | .electing h r => match n.staking.getActiveValidatorSet records with
      | .ok valSet => some (n.electedEngine valSet h r).2
      | .error _ => none
    | _ => none
  | _ => none

/-- At every height the keeper yields the given set. -/
def Yields (V : ℕ → ValidatorSet) (n : Node) : Event → Prop
  | .elect records => match n.phase with
    | .electing h _ => n.staking.getActiveValidatorSet records = .ok (V h)
    | _ => True
  | _ => True

instance (V : ℕ → ValidatorSet) (n : Node) : (ev : Event) → Decidable (n.Yields V ev)
  | .elect records =>
    match hp : n.phase with
    | .electing h r =>
      decidable_of_iff (n.staking.getActiveValidatorSet records = .ok (V h)) (by simp [Yields, hp])
    | .idle | .proposing .. | .awaiting .. | .applying .. | .prevoting .. | .reacting ..
    | .voting ..
    | .finalizing .. | .rebroadcasting .. => isTrue (by simp [Yields, hp])
  | .attempt | .mine | .proposal .. | .proposeTimeout _ | .apply _ | .prevote _ | .react ..
  | .vote ..
  | .voteTimeout | .finalize | .rebroadcast | .gossipBlock _ | .gossipTx _ | .evidence _
  | .serveBlocks .. => isTrue trivial

theorem selected_of_rotated {V : ℕ → ValidatorSet} {n : Node} {heights : List ℕ}
    (hrotated : ValidatorSet.Rotated V heights n.engine.valSet) {h r : ℕ}
    (hp : n.phase = .electing h r) {records : IterOrder StakingValidator}
    (hyields : n.Yields V (.elect records)) :
    n.selected (.elect records) =
      some (ValidatorSet.inTurn (heights.map V) (V h)).selectProposer.2 := by
  simp only [Yields, hp] at hyields
  have hcarried := hrotated.carriedFrom (StakingKeeper.fresh_of_active hyields)
  simp only [selected, hp, hyields]
  exact congrArg (fun s => some s.selectProposer.2) hcarried

theorem rotated_next {V : ℕ → ValidatorSet} {n : Node} {heights : List ℕ}
    (hrotated : ValidatorSet.Rotated V heights n.engine.valSet) {ev : Event}
    (hyields : n.Yields V ev) :
    ValidatorSet.Rotated V (n.elections heights ev) (n.next P ev).engine.valSet := by
  by_cases helects : ∃ records h r, ev = .elect records ∧ n.phase = .electing h r
  · obtain ⟨records, h, r, rfl, hp⟩ := helects
    simp only [Yields, hp] at hyields
    have hcarried := hrotated.carriedFrom (StakingKeeper.fresh_of_active hyields)
    simp only [elections, hp, ValidatorSet.Rotated, ← hcarried, next, step, elect, hyields]
    rfl
  · -- everything but an election keeps both the list and the set
    have hlist : n.elections heights ev = heights := by
      cases ev with
      | elect records =>
        unfold elections
        cases hp : n.phase with
        | electing h r => exact absurd ⟨records, h, r, rfl, hp⟩ helects
        | _ => rfl
      | _ => rfl
    have hset : (n.next P ev).engine.valSet = n.engine.valSet := by
      rcases n.valSet_step (P := P) ev with hsame | ⟨records, valSet, rfl, -⟩
      · exact hsame
      · unfold next step
        cases hp : n.phase with
        | electing h r => exact absurd ⟨records, h, r, rfl, hp⟩ helects
        | _ => rfl
    rw [hlist, hset]
    exact hrotated

end Node

namespace Home
variable (P : Primitives)

/-- A home directory with the heights at which its node has selected a proposer since
the last start, the latest first. -/
def tracked (s : Home × List ℕ) (ev : ProcessEvent) : Home × List ℕ :=
  (s.1.step P ev, match ev with
    | .start _ => match s.1.node with
      | some _ => s.2
      | none => []
    | .stop => s.2
    | .run ev => match s.1.node with
      | some n => n.elections s.2 ev
      | none => s.2)

/-- The running node's keeper yields the given set at every height. -/
def Yields (V : ℕ → ValidatorSet) (s : Home × List ℕ) : ProcessEvent → Prop
  | .run ev => ∀ n ∈ s.1.node, n.Yields V ev
  | _ => True

instance (V : ℕ → ValidatorSet) (s : Home × List ℕ) : (ev : ProcessEvent) →
    Decidable (Yields V s ev)
  | .run ev => inferInstanceAs (Decidable (∀ n ∈ s.1.node, n.Yields V ev))
  | .start _ | .stop => isTrue trivial

variable {P}

/-- The running node's priorities are what the recorded selections have left. -/
def InTurn (V : ℕ → ValidatorSet) (s : Home × List ℕ) : Prop :=
  ∀ n ∈ s.1.node, ValidatorSet.Rotated V s.2 n.engine.valSet

theorem InTurn.tracked {V : ℕ → ValidatorSet} {s : Home × List ℕ} (hturn : InTurn V s)
    {ev : ProcessEvent} (hyields : Yields V s ev) : InTurn V (tracked P s ev) := by
  obtain ⟨h, heights⟩ := s
  unfold Home.tracked
  have hstep := h.stepped_step (P := P) ev
  generalize h.step P ev = h' at hstep ⊢
  intro m hm
  cases hstep with
  | @running records n hnode =>
    simp only [hnode]
    exact hturn m hm
  | started hnode hstarted =>
    simp only [hnode]
    cases hstarted with
    | failed store | loaded hload store =>
      simp only [hnode] at hm
      cases hm
    | running hload hstart =>
      cases hm
      obtain ⟨valSet, hset, rfl⟩ := Node.start_ok hstart
      exact StakingKeeper.fresh_of_active hset
  | stopped => cases hm
  | down hnode =>
    simp only [hnode] at hm
    cases hm
  | @ran ev n hnode =>
    cases hm
    simp only [hnode]
    exact Node.rotated_next (hturn n hnode) (hyields n hnode)

/-- Two nodes that have selected from the same sequence of validator sets since their
last start select the same proposer whenever both attempt one height and round, after
whatever histories. -/
theorem proposers_agree {V : ℕ → ValidatorSet} {p q : Home} (hp : p.node = none)
    (hq : q.node = none) {es fs : List ProcessEvent} {o o' : IterOrder StakingValidator}
    (hes : Runs.Along (Yields V) (tracked P) (p, []) (es ++ [.run (.elect o)]))
    (hfs : Runs.Along (Yields V) (tracked P) (q, []) (fs ++ [.run (.elect o')]))
    {n m : Node} (hn : (Runs.run (tracked P) (p, []) es).1.node = some n)
    (hm : (Runs.run (tracked P) (q, []) fs).1.node = some m) {h r : ℕ}
    (hphase : n.phase = .electing h r) (hphase' : m.phase = .electing h r)
    (hsame : (Runs.run (tracked P) (p, []) es).2.map V =
      (Runs.run (tracked P) (q, []) fs).2.map V) :
    ∃ v, n.selected (.elect o) = some v ∧ m.selected (.elect o') = some v := by
  obtain ⟨hes, hlast, -⟩ := Runs.Along.append.mp hes
  obtain ⟨hfs, hlast', -⟩ := Runs.Along.append.mp hfs
  have hrotated := hes.invariant (I := InTurn V) (fun s ev hyields h => h.tracked hyields)
    (fun n hn => by simp [hp] at hn) n hn
  have hrotated' := hfs.invariant (I := InTurn V) (fun s ev hyields h => h.tracked hyields)
    (fun m hm => by simp [hq] at hm) m hm
  refine ⟨_, Node.selected_of_rotated hrotated hphase (hlast n hn), ?_⟩
  rw [hsame]
  exact Node.selected_of_rotated hrotated' hphase' (hlast' m hm)

section Scenario
open Devnet

/-- The validator set of two equal validators. -/
def devSet : ValidatorSet :=
  okValue (Process.devProcess.stakingFile.getActiveValidatorSet (.listed _)) (by decide +kernel)

/-- The first block on the directory's chain, from keypair 2. -/
def firstBlock : Block :=
  ((ChainLedger.initFromGenesisWithStore primitives devHome.genesis Store.empty).mineBlock
    primitives (addressOf 2)).2

/-- An attempt of height 1 that times out, the block from gossip, an attempt of height 2. -/
def lateHistory : List ProcessEvent :=
  [.start (.listed _), .run .attempt, .run (.elect (.listed _)), .run (.proposeTimeout (.listed _)),
    .run (.gossipBlock firstBlock), .run .attempt]

/-- The block from gossip before any attempt, and an attempt of height 2. -/
def syncedHistory : List ProcessEvent :=
  [.start (.listed _), .run (.gossipBlock firstBlock), .run .attempt]

/-- Where the node stands, and whom it would select. -/
def standing (h : Home) : Option (Phase × Option Address) :=
  h.node.map (fun n => (n.phase, (n.selected (.elect (.listed _))).map Validator.address))

/-- The directory of keypair 2 on the same network. -/
def secondHome : Home := { devHome with localKey := keypair 2 }

/-- At height 2 and round 0 the node that attempted height 1 selects keypair 1, the one
that took the block from gossip selects keypair 2. -/
theorem proposers_disagree :
    Runs.Along (Yields (fun _ => devSet)) (tracked primitives) (devHome, [])
        (lateHistory ++ [.run (.elect (.listed _))]) ∧
      Runs.Along (Yields (fun _ => devSet)) (tracked primitives) (secondHome, [])
        (syncedHistory ++ [.run (.elect (.listed _))]) ∧
      standing (Runs.run (tracked primitives) (devHome, []) lateHistory).1 =
        some (.electing 2 0, some (addressOf 1)) ∧
      standing (Runs.run (tracked primitives) (secondHome, []) syncedHistory).1 =
        some (.electing 2 0, some (addressOf 2)) ∧
      addressOf 1 ≠ addressOf 2 := by
  decide +kernel

/-- An attempt of height 1 that times out, and a second one. -/
def retryHistory : List ProcessEvent :=
  [.start (.listed _), .run .attempt, .run (.elect (.listed _)), .run (.proposeTimeout (.listed _)),
    .run .attempt]

/-- A restart before the first attempt makes no difference to the second one. -/
theorem proposers_agree_devnet :
    ∃ n m v, (Runs.run (tracked primitives) (devHome, []) retryHistory).1.node = some n ∧
      (Runs.run (tracked primitives) (devHome, [])
        ([.start (.listed _), .stop] ++ retryHistory)).1.node = some m ∧
      n.selected (.elect (.listed _)) = some v ∧ m.selected (.elect (.listed _)) = some v := by
  have hphase : (Runs.run (tracked primitives) (devHome, []) retryHistory).1.node.map Node.phase =
      some (.electing 1 1) := by decide +kernel
  have hphase' : (Runs.run (tracked primitives) (devHome, [])
      ([.start (.listed _), .stop] ++ retryHistory)).1.node.map Node.phase =
        some (.electing 1 1) := by
    decide +kernel
  obtain ⟨n, hn, hphase⟩ := Option.map_eq_some_iff.mp hphase
  obtain ⟨m, hm, hphase'⟩ := Option.map_eq_some_iff.mp hphase'
  have hyields : Runs.Along (Yields (fun _ => devSet)) (tracked primitives) (devHome, [])
      (retryHistory ++ [.run (.elect (.listed _))]) := by decide +kernel
  have hyields' : Runs.Along (Yields (fun _ => devSet)) (tracked primitives) (devHome, [])
      ([.start (.listed _), .stop] ++ retryHistory ++ [.run (.elect (.listed _))]) := by
        decide +kernel
  obtain ⟨v, hv, hv'⟩ :=
    proposers_agree rfl rfl hyields hyields' hn hm hphase hphase' (by decide +kernel)
  exact ⟨n, m, v, hn, hm, hv, hv'⟩

end Scenario

end Home

end Sprax
