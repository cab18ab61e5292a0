import Sprax.Certificates
import Sprax.Gossip
import Sprax.World

/-!
# A round of voting over channels that lose nothing

The vote loop of a node reads from a channel into which the connections of the node put
what they receive. Here every seat of a round is a node with the votes it has not read yet.
A vote that is cast goes into the channel of every other seat; the votes of a channel are
read in any order, and others may put votes into any channel. Some seats may vote while others
still wait for the proposal. The seats hold a quorum of the power together and none accepts
another block than the rest.
-/
namespace Sprax
open Std FiniteMap Runs

/-- A node and the votes in its channel. -/
structure Seat where
  node : Node
  channel : List Vote

abbrev Assembly (ι : Type) := ι → Seat

/-- A node acts, its vote loop takes a vote from the channel, or a vote of somebody else
arrives. -/
inductive Motion (ι : Type)
  | act (i : ι) (ev : Event)
  | read (i : ι) (v : Vote) (o : IterOrder Hash32)
  | arrive (i : ι) (v : Vote)

/-- The driver is in its vote loop. -/
def Phase.reads : Phase → Bool
  | .voting _ _ => true
  | _ => false

/-- The driver goes on without a message. -/
def Phase.busy : Phase → Bool
  | .electing .. | .proposing .. | .applying .. | .prevoting .. | .reacting .. | .finalizing ..
  | .rebroadcasting _ => true
  | _ => false

/-- Steps of the vote loop and of the tasks beside it. -/
def Event.inRound : Event → Bool
  | .prevote _ | .react _ _ | .finalize | .rebroadcast | .gossipBlock _ | .gossipTx _ | .evidence _
  | .serveBlocks _ _ => true
  | _ => false

namespace Assembly
variable {P : Primitives} {ι : Type} [DecidableEq ι]

/-- A node takes a step with the given channel left; its votes go to the others. -/
def acted (P : Primitives) (w : Assembly ι) (i : ι) (ev : Event) (channel : List Vote) :
    Assembly ι :=
  fun j =>
    if j = i then ⟨(w i).node.next P ev, channel⟩
    else { w j with channel := (w j).channel ++ castVotes ((w i).node.step P ev).2 }

def step (P : Primitives) (w : Assembly ι) : Motion ι → Assembly ι
  | .act i ev => w.acted P i ev (w i).channel
  | .read i v o =>
    if (w i).node.phase.reads = true ∧ v ∈ (w i).channel then
      w.acted P i (.vote v o) ((w i).channel.erase v)
    else w
  | .arrive i v => Function.update w i { w i with channel := (w i).channel ++ [v] }

/-- No driver can go on. -/
def Quiet (w : Assembly ι) : Prop :=
  ∀ i, (w i).node.phase.busy = false ∧ ((w i).node.phase.reads = true → (w i).channel = [])

end Assembly

/-- A height and round, the block the seats accept in it, their keys, and the set they
vote under, in which they have a quorum. -/
structure Round (P : Primitives) (ι : Type) [Fintype ι] where
  keys : ι → Ed25519Keypair
  valSet : ValidatorSet
  height : ℕ
  number : ℕ
  blockHash : Hash32
  exact : valSet.Exact
  distinct : Function.Injective (fun i => (keys i).address P)
  member : ∀ i, ∃ v, valSet.find ((keys i).address P) = some v ∧
    v.publicKey = (keys i).publicKeyBytes P
  signs : ∀ i message, Ed25519Keypair.verify P ((keys i).publicKeyBytes P) message
    ((keys i).sign P message) = .ok ()
  quorum : valSet.quorumThreshold ≤ ∑ i, valSet.powerOf ((keys i).address P)

namespace Round
variable {P : Primitives} {ι : Type} [Fintype ι] (R : Round P ι)

def addr (i : ι) : Address := (R.keys i).address P

/-- The vote of a seat for the block. -/
def ballot (t : VoteType) (i : ι) : Vote :=
  buildSignedVote P t R.height R.number (some R.blockHash) (R.keys i)

def slot (i : ι) : ℕ × ℕ × Address := (R.height, R.number, R.addr i)

@[simp] theorem ballot_voteType (t : VoteType) (i : ι) : (R.ballot t i).voteType = t := rfl

@[simp] theorem ballot_blockHash (t : VoteType) (i : ι) :
    (R.ballot t i).blockHash = some R.blockHash := rfl

@[simp] theorem ballot_validatorAddress (t : VoteType) (i : ι) :
    (R.ballot t i).validatorAddress = R.addr i := rfl

/-- A vote of somebody else that does not precommit the block. -/
def Outside (v : Vote) : Prop :=
  (∀ i, v.validatorAddress ≠ R.addr i) ∧
    ¬ (v.voteType = .precommit ∧ v.blockHash = some R.blockHash)

/-- A vote that the checks of the vote loop drop: one of another height or round, or one that
does not verify under the key of the member in whose name it is. -/
def Stray (v : Vote) : Prop :=
  v.height ≠ R.height ∨ v.round ≠ R.number ∨
    ∀ validator, R.valSet.find v.validatorAddress = some validator →
      Ed25519Keypair.verify P validator.publicKey (v.signBytes P) v.signature ≠ .ok ()

/-- A vote that may be in a table. -/
def Lawful (v : Vote) : Prop := (∃ i, v = R.ballot v.voteType i) ∨ R.Outside v

/-- The driver has no block of this round yet. -/
def Pending (p : Phase) : Prop := ∃ proposer, p.offer = some (R.height, R.number, proposer)

/-- The driver has not committed in this round. -/
def Open (p : Phase) : Prop :=
  R.Pending p ∨ p = .prevoting R.height R.number R.blockHash ∨ p = .reacting R.height R.number ∨
    p = .voting R.height R.number

/-- The ledger has the block at its height. -/
def Holds (L : ChainLedger) : Prop :=
  ∃ block, L.blocks[R.height]? = some block ∧ block.header.height = R.height ∧
    Hasher.blockHash P block.header = R.blockHash

/-- The seat has no block yet, or it has accepted and stored that of the round. -/
def Entering (n : Node) : Prop :=
  R.Pending n.phase ∨ n.phase = .prevoting R.height R.number R.blockHash ∧ R.Holds n.ledger

/-- The driver has committed the block. -/
def Closed (p : Phase) : Prop :=
  (∃ sigs, p = .finalizing R.height R.blockHash sigs) ∨ p = .rebroadcasting R.height ∨ p = .idle

/-- A quorum of the votes of a type that an engine holds are for the block. -/
def Decides (E : BftConsensusEngine) (t : VoteType) : Prop :=
  R.valSet.quorumThreshold ≤ support R.valSet (E.votesOf t) R.height R.number (some R.blockHash)

/-- The seat has cast its vote of the type. -/
def HasCast (n : Node) : VoteType → Prop
  | .prevote => ¬ R.Pending n.phase ∧ n.phase ≠ .prevoting R.height R.number R.blockHash
  | .precommit => n.precommittedThisRound = true

variable {R} in
theorem Pending.cases {p : Phase} (h : R.Pending p) :
    (∃ a, p = .proposing R.height R.number a) ∨ (∃ a, p = .awaiting R.height R.number a) ∨
      ∃ a block, p = .applying R.height R.number a block := by
  obtain ⟨proposer, h⟩ := h
  cases p <;> simp_all [Phase.offer]

theorem open_ne_closed {p : Phase} (hopen : R.Open p) : ¬ R.Closed p := by
  rintro (⟨sigs, rfl⟩ | rfl | rfl) <;> rcases hopen with ⟨_, h⟩ | h | h | h <;> cases h

theorem addr_mem (i : ι) : R.addr i ∈ R.valSet.members := by
  obtain ⟨v, hfind, -⟩ := R.member i
  exact ValidatorSet.mem_members_iff_find.mpr (by rw [addr, hfind]; rfl)

variable {R} in
/-- No vote for the block that a seat casts is dropped. -/
theorem Stray.ne_ballot {v : Vote} (h : R.Stray v) (t : VoteType) (i : ι) : v ≠ R.ballot t i := by
  rintro rfl
  obtain ⟨validator, hfind, hkey⟩ := R.member i
  rcases h with h | h | h
  · exact h rfl
  · exact h rfl
  · exact h validator hfind (by rw [hkey]; exact R.signs i _)

variable {R} in
theorem Stray.outside {v : Vote} (h : R.Stray v) (hlawful : R.Lawful v) : R.Outside v :=
  hlawful.resolve_left (fun ⟨i, hi⟩ => h.ne_ballot _ i hi)

/-- What is stored in the slot of a seat is its vote for the block. -/
theorem slot_lawful {votes : VoteMap} {t : VoteType} (hvotes : votes.Holds t R.Lawful) {i : ι}
    {v : Vote} (h : votes[R.slot i]? = some v) : v = R.ballot t i := by
  obtain ⟨hkey, htype, hlawful⟩ := hvotes _ _ h
  have haddr : v.validatorAddress = R.addr i := congrArg (·.2.2) hkey
  rcases hlawful with ⟨j, hv⟩ | hout
  · rw [hv, ballot_validatorAddress] at haddr
    rw [hv, htype, R.distinct haddr]
  · exact absurd haddr (hout.1 i)

/-- Power of some of the seats. -/
theorem sum_image (A : Finset ι) :
    ∑ a ∈ A.image R.addr, R.valSet.powerOf a = ∑ i ∈ A, R.valSet.powerOf (R.addr i) :=
  Finset.sum_image (fun _ _ _ _ h => R.distinct h)

/-- Precommits for the block come from seats. -/
theorem support_le_sum {votes : VoteMap} (hvotes : votes.Holds .precommit R.Lawful) {A : Finset ι}
    (h : ∀ i, votes[R.slot i]? = some (R.ballot .precommit i) → i ∈ A) :
    support R.valSet votes R.height R.number (some R.blockHash) ≤
      ∑ i ∈ A, R.valSet.powerOf (R.addr i) := by
  rw [← R.sum_image]
  refine Finset.sum_le_sum_of_subset (fun a ha => ?_)
  obtain ⟨-, vote, hget, hhash⟩ := mem_supporters.mp ha
  obtain ⟨hkey, htype, hlawful⟩ := hvotes _ _ hget
  have haddr : vote.validatorAddress = a := congrArg (·.2.2) hkey
  rcases hlawful with ⟨i, hi⟩ | hout
  · rw [hi, ballot_validatorAddress] at haddr
    rw [← haddr] at hget ⊢
    exact Finset.mem_image_of_mem _ (h i (by rw [← htype, ← hi]; exact hget))
  · exact absurd ⟨htype, hhash⟩ hout.2

/-- No other choice has a quorum. -/
theorem quorum_block {votes : VoteMap} {t : VoteType} (hvotes : votes.Holds t R.Lawful)
    {choice : Option Hash32}
    (hq : R.valSet.quorumThreshold ≤ support R.valSet votes R.height R.number choice) :
    choice = some R.blockHash := by
  by_contra hne
  have hdisjoint : Disjoint (Finset.univ.image R.addr)
      (supporters R.valSet votes R.height R.number choice) := by
    refine Finset.disjoint_left.mpr (fun a ha hsupports => ?_)
    obtain ⟨i, -, rfl⟩ := Finset.mem_image.mp ha
    obtain ⟨-, vote, hget, hchoice⟩ := mem_supporters.mp hsupports
    rw [R.slot_lawful hvotes hget, ballot_blockHash] at hchoice
    exact hne hchoice.symm
  have hsub : Finset.univ.image R.addr ∪ supporters R.valSet votes R.height R.number choice ⊆
      R.valSet.members := by
    refine Finset.union_subset (fun a ha => ?_) (Finset.filter_subset _ _)
    obtain ⟨i, -, rfl⟩ := Finset.mem_image.mp ha
    exact R.addr_mem i
  have hsum := Finset.sum_le_sum_of_subset (f := R.valSet.powerOf) hsub
  rw [Finset.sum_union hdisjoint, R.sum_image, ValidatorSet.sum_powerOf R.exact.distinct,
    ← R.exact.total_eq] at hsum
  have hseats := R.exact.quorumThreshold_le_iff.mp R.quorum
  have hother := R.exact.quorumThreshold_le_iff.mp hq
  simp only [support] at hother
  simp only [addr] at hsum
  omega

end Round

end Sprax
