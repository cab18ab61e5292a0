import Sprax.Precommits
import Sprax.Slashing
import Sprax.World
import Sprax.Binding

/-!
# Commit agreement

Nodes of one committee exchange votes over a network that loses, repeats and
reorders them, and Byzantine validators send what they like. A vote in the name
of an honest validator that verifies was cast by the node that holds its key, so
a commit anywhere is certified by a quorum whose honest members precommitted the
block at that height and round. Honest drivers precommit once per height as long
as the proposals they take are not below the height of the attempt; then two
commits at one height agree, whatever their nodes and rounds.
-/
namespace Sprax
open Std FiniteMap

/-- The same members with the same keys and powers, and the same total. -/
def ValidatorSet.SameMembers (s t : ValidatorSet) : Prop :=
  s.roster = t.roster ∧ s.totalVotingPower = t.totalVotingPower

instance (s t : ValidatorSet) : Decidable (s.SameMembers t) := inferInstanceAs (Decidable (_ ∧ _))

theorem ValidatorSet.publicKey_of_roster {s t : ValidatorSet} (h : s.roster = t.roster)
    {a : Address} {v w : Validator} (hv : s.find a = some v) (hw : t.find a = some w) :
    v.publicKey = w.publicKey := by
  have hs := s.find_eq_roster a
  have ht := t.find_eq_roster a
  rw [h, hv] at hs
  rw [hw] at ht
  have hsame := hs.trans ht.symm
  simp only [Option.map_some, Option.some.injEq, Prod.mk.injEq] at hsame
  exact hsame.2.1

/-- Height, round and block of every commit among the effects. -/
def commitsOf (effects : List Effect) : List (ℕ × ℕ × Hash32) :=
  effects.filterMap (fun e => match e with
    | .committed h r x _ => some (h, r, x)
    | _ => none)

theorem mem_commitsOf {effects : List Effect} {h r : ℕ} {x : Hash32} :
    (h, r, x) ∈ commitsOf effects ↔ ∃ sigs, .committed h r x sigs ∈ effects := by
  simp only [commitsOf, List.mem_filterMap]
  constructor
  · rintro ⟨e, he, hx⟩
    cases e with
    | committed h' r' x' sigs =>
      cases hx
      exact ⟨sigs, he⟩
    | _ => cases hx
  · rintro ⟨sigs, he⟩
    exact ⟨_, he, rfl⟩

namespace World
variable (P : Primitives) {ι : Type*}

/-- The node that holds the key has cast a vote of this content. -/
def CastBy (w : World ι) (key : Bytes) (s : SignableVote) : Prop :=
  ∃ i, (w i).1.localKey.publicKeyBytes P = key ∧ ∃ u ∈ castVotes (w i).2, u.signable = s

instance [Fintype ι] (w : World ι) (key : Bytes) (s : SignableVote) :
    Decidable (CastBy P w key s) :=
  inferInstanceAs (Decidable (∃ _, _ ∧ ∃ _ ∈ _, _))

/-- Commits at one height are for one block, over all nodes and rounds. -/
def Agree (w : World ι) : Prop :=
  ∀ i j, ∀ c ∈ commitsOf (w i).2, ∀ d ∈ commitsOf (w j).2, c.1 = d.1 → c.2.2 = d.2.2

instance [Fintype ι] (w : World ι) : Decidable w.Agree :=
  inferInstanceAs (Decidable (∀ _ _, ∀ _ ∈ _, ∀ _ ∈ _, _ → _))

end World

namespace Committee
variable (C : Committee) (P : Primitives) {ι : Type*}

/-- The validator set is fixed and signatures are not forged: an attempt starts
with the members of the committee, and a vote in the name of an honest validator
that verifies under its key was cast by the node that holds the key. -/
def Admissible (w : World ι) (e : ι × Event) : Prop :=
  match e.2 with
  | .elect records => match (w e.1).1.staking.getActiveValidatorSet records with
    | .ok s => s.SameMembers C.valSet
    | .error _ => True
  | .vote v _ => match C.valSet.find v.validatorAddress with
    | some m => v.validatorAddress ∉ C.byzantine → v.VerifiesUnder P m.publicKey →
        w.CastBy P m.publicKey v.signable
    | none => True
  | _ => True

instance [Fintype ι] (w : World ι) : (e : ι × Event) → Decidable (C.Admissible P w e)
  | (i, .elect records) =>
    match hs : (w i).1.staking.getActiveValidatorSet records with
    | .ok s => decidable_of_iff (s.SameMembers C.valSet) (by simp [Admissible, hs])
    | .error _ => isTrue (by simp [Admissible, hs])
  | (_, .vote v _) =>
    match hm : C.valSet.find v.validatorAddress with
    | some m =>
      decidable_of_iff (v.validatorAddress ∉ C.byzantine → v.VerifiesUnder P m.publicKey →
        w.CastBy P m.publicKey v.signable) (by simp [Admissible, hm])
    | none => isTrue (by simp [Admissible, hm])
  | (_, .attempt) | (_, .mine) | (_, .proposal ..) | (_, .proposeTimeout _) | (_, .apply _)
  | (_, .prevote _) | (_, .react ..) | (_, .voteTimeout) | (_, .finalize) | (_, .rebroadcast)
  | (_, .gossipBlock _) | (_, .gossipTx _) | (_, .evidence _) | (_, .serveBlocks ..) =>
    isTrue trivial

/-- A node that is a member signs with the key registered for it, and no two nodes
hold the same key. -/
structure Keyed (w : World ι) : Prop where
  registered : ∀ i, ∀ m ∈ C.valSet.find ((w i).1.localAddr P),
    m.publicKey = (w i).1.localKey.publicKeyBytes P
  distinct : Function.Injective (fun i => (w i).1.localKey.publicKeyBytes P)

/-- Freshly started nodes of the committee. -/
structure Launched (w : World ι) : Prop where
  started : ∀ i, ∃ ledger staking localKey records,
    Node.start ledger staking localKey records = .ok (w i).1
  silent : ∀ i, (w i).2 = []
  members : ∀ i, (w i).1.engine.valSet.SameMembers C.valSet
  keyed : C.Keyed P w

/-- If the vote is in the name of an honest validator, its node has cast it. -/
def Vouched (w : World ι) (v : Vote) : Prop :=
  ∀ m, C.valSet.find v.validatorAddress = some m → v.validatorAddress ∉ C.byzantine →
    w.CastBy P m.publicKey v.signable

/-- The precommits of honest validators: who, at which height and round, for what. -/
def box (w : World ι) : Agreement.Box Address ℕ ℕ Hash32 :=
  {b | ∃ m, C.valSet.find b.1 = some m ∧
    w.CastBy P m.publicKey ⟨.precommit, b.2.1, b.2.2.1, some b.2.2.2⟩}

/-- What holds in every state of an admissible run. -/
structure Consistent (w : World ι) : Prop where
  keyed : C.Keyed P w
  members : ∀ i, (w i).1.engine.valSet.SameMembers C.valSet
  synced : ∀ i, (w i).1.Synced
  reached : ∀ i, (w i).1.phase.Reached (w i).1.ledger.height
  settled : ∀ i, Settled (w i).1.position (w i).1.ledger.height (castVotes (w i).2)
  vouched : ∀ i, (w i).1.engine.VotesOk (C.Vouched P w)
  certified : ∀ i h r x sigs, .committed h r x sigs ∈ (w i).2 →
    C.electorate.Certified (C.box P w) h r x

variable {C P}

/-- Every honest validator precommits at most one block per height. -/
theorem Consistent.oneValue {w : World ι} (hw : C.Consistent P w) : (C.box P w).OneValue := by
  rintro a h r r' x y ⟨m, hm, i, hi, u, hu, hux⟩ ⟨m', hm', j, hj, v, hv, hvy⟩
  obtain rfl : m = m' := Option.some.inj (hm.symm.trans hm')
  obtain rfl : i = j := hw.keyed.distinct (hi.trans hj.symm)
  simp only [Vote.signable, SignableVote.mk.injEq] at hux hvy
  have hsame := (hw.settled i).onePrecommit u hu v hv hux.1 hvy.1 (hux.2.1.trans hvy.2.1.symm)
  rw [hux.2.2.2, hvy.2.2.2] at hsame
  exact Option.some.inj hsame

theorem Consistent.agree {w : World ι} (hw : C.Consistent P w) : w.Agree := by
  rintro i j ⟨h, r, x⟩ hc ⟨h', r', y⟩ hd heq
  obtain ⟨sigs, hx⟩ := mem_commitsOf.mp hc
  obtain ⟨sigs', hy⟩ := mem_commitsOf.mp hd
  obtain rfl : h = h' := heq
  exact C.electorate.agreement hw.oneValue (hw.certified i h r x sigs hx)
    (hw.certified j h r' y sigs' hy)

theorem Launched.consistent {w : World ι} (hw : C.Launched P w) : C.Consistent P w := by
  -- a started node is idle at round 0 with empty vote tables
  have hnode : ∀ i, (w i).1.Synced ∧ (w i).1.phase.Reached (w i).1.ledger.height ∧
      Settled (w i).1.position (w i).1.ledger.height [] ∧
        (w i).1.engine.VotesOk (C.Vouched P w) := by
    intro i
    obtain ⟨ledger, staking, localKey, records, hstart⟩ := hw.started i
    obtain ⟨valSet, -, hn⟩ := Node.start_ok hstart
    rw [hn]
    exact ⟨Node.synced_of_none rfl, trivial, ⟨nofun, nofun, nofun, nofun⟩,
      BftConsensusEngine.votesOk_of_empty _ (BftConsensusEngine.votesOf_new _ _)⟩
  refine ⟨hw.keyed, hw.members, fun i => (hnode i).1, fun i => (hnode i).2.1, fun i => ?_,
    fun i => (hnode i).2.2.2, fun i h r x sigs hmem => ?_⟩
  · rw [hw.silent i]
    exact (hnode i).2.2.1
  · rw [hw.silent i] at hmem
    cases hmem

theorem members_step {w : World ι} {e : ι × Event}
    (hw : (w e.1).1.engine.valSet.SameMembers C.valSet) (hok : C.Admissible P w e) :
    ((w e.1).1.next P e.2).engine.valSet.SameMembers C.valSet := by
  rcases (w e.1).1.valSet_step (P := P) e.2 with hsame | ⟨records, s, hev, hset, hroster, htotal⟩
  · unfold Node.next
    rw [hsame]
    exact hw
  · simp only [Admissible, hev, hset] at hok
    exact ⟨hroster.trans hok.1, htotal.trans hok.2⟩

/-- A commit of a step is certified by the precommits cast up to it. -/
theorem certified_self (hsmall : 2 * C.valSet.totalVotingPower < 2 ^ 64) {w : World ι} {n : Node}
    (hmembers : n.engine.valSet.SameMembers C.valSet) (hvouched : n.engine.VotesOk (C.Vouched P w))
    {h r : ℕ} {x : Hash32} (hbacked : n.engine.Backed h r x) :
    C.electorate.Certified (C.box P w) h r x := by
  have hholds := hvouched .precommit
  refine ⟨_, C.quorum_backers hsmall hmembers.1 hmembers.2 hholds hbacked, ?_⟩
  intro a ha hhonest
  obtain ⟨hbacker, hvoter⟩ := Finset.mem_filter.mp ha
  obtain ⟨v, htype, ⟨hheight, hround, hx⟩, rfl, hv⟩ :=
    mem_backers hholds (List.mem_toFinset.mp hbacker)
  obtain ⟨m, hm⟩ := Option.isSome_iff_exists.mp (ValidatorSet.mem_members_iff_find.mp hvoter)
  have hnot : v.validatorAddress ∉ C.byzantine :=
    fun hbyz => hhonest (Finset.mem_inter.mpr ⟨hvoter, hbyz⟩)
  refine ⟨m, hm, ?_⟩
  have hcast := hv m hm hnot
  rwa [Vote.signable, htype, hheight, hround, hx] at hcast

variable [DecidableEq ι]

theorem castBy_step {w : World ι} {key : Bytes} {s : SignableVote} (h : w.CastBy P key s)
    (e : ι × Event) : (w.step P e).CastBy P key s := by
  obtain ⟨i, hi, u, hu, hs⟩ := h
  refine ⟨i, by rw [World.localKey_step, hi], u, ?_, hs⟩
  exact mem_castVotes.mpr (World.mem_step (mem_castVotes.mp hu) e)

theorem vouched_step {w : World ι} {v : Vote} (h : C.Vouched P w v) (e : ι × Event) :
    C.Vouched P (w.step P e) v :=
  fun m hm hhonest => castBy_step (h m hm hhonest) e

theorem box_step (w : World ι) (e : ι × Event) : C.box P w ⊆ C.box P (w.step P e) := by
  rintro b ⟨m, hm, hcast⟩
  exact ⟨m, hm, castBy_step hcast e⟩

theorem Keyed.step {w : World ι} (hw : C.Keyed P w) (e : ι × Event) : C.Keyed P (w.step P e) := by
  constructor
  · intro i m
    rw [Node.localAddr, World.localKey_step]
    exact hw.registered i m
  · intro i j hij
    simp only [World.localKey_step] at hij
    exact hw.distinct hij

/-- What the stepping node stores is vouched for: its own votes by its record,
the votes it reads by the assumption on signatures. -/
theorem Consistent.vouched_self {w : World ι} (hw : C.Consistent P w) {e : ι × Event}
    (hok : C.Admissible P w e) :
    ((w e.1).1.next P e.2).engine.VotesOk (C.Vouched P (w.step P e)) := by
  apply Node.votesOk_step ((hw.vouched e.1).mono (fun v hv => vouched_step hv e))
  · intro v hv m hm _
    have hown := Node.castVotes_own (mem_castVotes.mpr hv)
    rw [hown] at hm
    refine ⟨e.1, ?_, v, ?_, rfl⟩
    · rw [World.localKey_step, hw.keyed.registered e.1 m hm]
    · rw [mem_castVotes, World.step_self]
      exact List.mem_append_right _ hv
  · intro v o validator hev hvalidator hverify m hm hhonest
    have hkey := ValidatorSet.publicKey_of_roster (hw.members e.1).1 hvalidator hm
    simp only [Admissible, hev, hm] at hok
    apply castBy_step
    apply hok hhonest
    rw [← hkey]
    exact hverify

theorem Consistent.step (hsmall : 2 * C.valSet.totalVotingPower < 2 ^ 64) {w : World ι}
    (hw : C.Consistent P w) {e : ι × Event} (hok : C.Admissible P w e)
    (hcur : (w e.1).1.Current e.2) : C.Consistent P (w.step P e) where
  keyed := hw.keyed.step e
  members := World.forall_step (Q := fun _ n _ => n.engine.valSet.SameMembers C.valSet)
    (members_step (hw.members e.1) hok) hw.members
  synced := World.forall_step (Q := fun _ n _ => n.Synced) ((hw.synced e.1).next e.2) hw.synced
  reached := World.forall_step (Q := fun _ n _ => n.phase.Reached n.ledger.height)
    (Node.reached_next (hw.reached e.1) hcur) hw.reached
  settled := by
    refine World.forall_step
      (Q := fun _ n log => Settled n.position n.ledger.height (castVotes log)) ?_ hw.settled
    rw [castVotes_append]
    exact (hw.settled e.1).next (hw.reached e.1) e.2
  vouched := World.forall_step (Q := fun _ n _ => n.engine.VotesOk (C.Vouched P (w.step P e)))
    (hw.vouched_self hok) (fun j => (hw.vouched j).mono (fun v hv => vouched_step hv e))
  certified := by
    have hold : ∀ i h r x sigs, .committed h r x sigs ∈ (w i).2 →
        C.electorate.Certified (C.box P (w.step P e)) h r x :=
      fun i h r x sigs hmem => (hw.certified i h r x sigs hmem).mono (box_step w e)
    refine World.forall_step (Q := fun _ _ log => ∀ h r x sigs, .committed h r x sigs ∈ log →
      C.electorate.Certified (C.box P (w.step P e)) h r x) ?_ hold
    intro h r x sigs hmem
    rcases List.mem_append.mp hmem with hmem | hmem
    · exact hold e.1 h r x sigs hmem
    · exact certified_self hsmall (members_step (hw.members e.1) hok) (hw.vouched_self hok)
        (Node.committed_step (hw.synced e.1) hmem)

end Committee

/-- Commits agree in every run of a network with a light Byzantine minority, a
fixed set and unforged signatures, if the doubled total fits into 64 bits and no
proposal below the height of an attempt is taken. -/
theorem World.commits_agree {P : Primitives} {ι : Type*} [DecidableEq ι] {C : Committee}
    (hsmall : 2 * C.valSet.totalVotingPower < 2 ^ 64) {w : World ι} (hw : C.Launched P w)
    (events : List (ι × Event))
    (hrun : Runs.Along (fun w e => C.Admissible P w e ∧ (w e.1).1.Current e.2) (World.step P) w
      events) : Runs.Throughout World.Agree (World.step P) w events :=
  hrun.throughout (I := C.Consistent P) (fun _ _ hok hcons => hcons.step hsmall hok.1 hok.2)
    (fun _ hcons => hcons.agree) hw.consistent

section Scenario
open Devnet

/-- The network of keypair 1 with three quarters of the power; keypair 2 is
Byzantine. -/
def loneWorld : World Unit := fun _ => (pairNode, [])

def loneCommittee : Committee where
  valSet := (loneWorld ()).1.engine.valSet
  byzantine := {addressOf 2}
  distinct := by decide +kernel
  exact_total := by decide +kernel
  light := by decide +kernel

/-- An attempt in which the node proposes and commits by its own votes. -/
def ownRound : List Event :=
  [.attempt, .elect (.listed _), .mine, .prevote (.listed _), .react (.listed _) (.listed _),
    .finalize, .rebroadcast]

/-- An attempt of height 2 in which the proposal carries a block of height 0. -/
def oldRound : List Event :=
  [.attempt, .elect (.listed _), .proposal 2 0 Node.staleBlock (.listed _), .apply (.listed _),
    .prevote (.listed _), .react (.listed _) (.listed _), .finalize, .rebroadcast]

def loneRun : List (Unit × Event) := (ownRound ++ oldRound ++ ownRound).map (fun ev => ((), ev))

theorem loneLaunched : loneCommittee.Launched primitives loneWorld where
  started _ := ⟨_, _, _, _, start_of_startNode (eq_okValue _ startNode_pair_isOk)⟩
  silent _ := rfl
  members _ := ⟨rfl, rfl⟩
  keyed := ⟨by decide +kernel, fun _ _ _ => rfl⟩

/-- The node commits the old block at height 2 and then, in the next round, the
block it mines there. -/
theorem World.commits_disagree :
    loneCommittee.Launched primitives loneWorld ∧
      Runs.Along (loneCommittee.Admissible primitives) (World.step primitives) loneWorld loneRun ∧
      ¬ (Runs.run (World.step primitives) loneWorld loneRun).Agree := by
  exact ⟨loneLaunched, by decide +kernel, by decide +kernel⟩

/-- Keypairs 1 and 2 with two fifths of the power each; keypair 3 is Byzantine. -/
def shares : List (UInt8 × Fin (2 ^ 64)) := [(1, 2000), (2, 2000), (3, 1000)]

theorem pair_isOk (i : Bool) : (startNode (pairKey i) shares).isOk = true := by
  cases i <;> decide +kernel

def pairWorld : World Bool := fun i => (okValue (startNode (pairKey i) shares) (pair_isOk i), [])

def pairCommittee : Committee where
  valSet := (pairWorld true).1.engine.valSet
  byzantine := {addressOf 3}
  distinct := by decide +kernel
  exact_total := by decide +kernel
  light := by decide +kernel

theorem pairLaunched : pairCommittee.Launched primitives pairWorld where
  started i := ⟨_, _, _, _, start_of_startNode (eq_okValue _ (pair_isOk i))⟩
  silent _ := rfl
  members := by decide +kernel
  keyed := ⟨by decide +kernel, by decide +kernel⟩

def pairVote (voteType : VoteType) (i : Bool) : Event :=
  .vote (buildSignedVote primitives voteType 1 0
    (some (Hasher.blockHash primitives Node.goodBlock.header)) (keypair (pairKey i))) (.listed _)

/-- Keypair 2 proposes; the votes of both nodes are exchanged. -/
def pairRun : List (Bool × Event) :=
  [(true, .attempt), (true, .elect (.listed _)), (true, .mine), (true, .prevote (.listed _)),
    (true, .react (.listed _) (.listed _)),
    (false, .attempt), (false, .elect (.listed _)),
    (false, .proposal 1 0 Node.goodBlock (.listed _)), (false, .apply (.listed _)),
    (false, .prevote (.listed _)), (false, .react (.listed _) (.listed _)),
    (false, pairVote .prevote true), (false, .react (.listed _) (.listed _)),
    (true, pairVote .prevote false), (true, .react (.listed _) (.listed _)),
    (true, pairVote .precommit false), (false, pairVote .precommit true)]

/-- Both nodes commit the block. -/
theorem World.commits_agree_pair :
    (∀ i, commitsOf (Runs.run (World.step primitives) pairWorld pairRun i).2 =
        [(1, 0, Hasher.blockHash primitives Node.goodBlock.header)]) ∧
      Runs.Throughout World.Agree (World.step primitives) pairWorld pairRun :=
  ⟨by decide +kernel,
    World.commits_agree (C := pairCommittee) (by decide +kernel) pairLaunched pairRun
    (by decide +kernel)⟩

end Scenario

end Sprax
