import Sprax.Tally
import Sprax.Rounds
import Sprax.Devnet

/-!
# Votes, commits and the stored block

A driver votes for a hash and records commit signatures at a height, while the
block of that height is in a ledger that the gossip processor writes as well.
Nothing ties the three together unless three things are granted: the proposer
mines at the height it was elected for, the proposal taken is a block of that
height and no other block got there first, and the other validators do not bring
a different hash to a quorum. Under these conditions every vote for a block and
every recorded commit names the block the ledger holds at that height.
-/
namespace Sprax
open Std FiniteMap

namespace ChainLedger

/-- Header hash of the block stored at a height. -/
def hashAt (P : Primitives) (L : ChainLedger) (h : ℕ) : Option Hash32 :=
  (L.getBlockByHeight h).map (fun b => Hasher.blockHash P b.header)

variable {P : Primitives}

theorem hashAt_eq (L : ChainLedger) (h : ℕ) :
    L.hashAt P h = L.headers[h]?.map (Hasher.blockHash P) := by
  rw [getElem?_headers, Option.map_map]
  rfl

theorem hashAt_mono {L L' : ChainLedger} (hgrows : L.headers <+: L'.headers) {h : ℕ} {x : Hash32}
    (hx : L.hashAt P h = some x) : L'.hashAt P h = some x := by
  rw [hashAt_eq] at hx ⊢
  obtain ⟨header, hheader, rfl⟩ := Option.map_eq_some_iff.mp hx
  obtain ⟨hlt, rfl⟩ := List.getElem?_eq_some_iff.mp hheader
  rw [List.prefix_iff_getElem?.mp hgrows h hlt]
  rfl

/-- A block appended at the next height is found there. -/
theorem hashAt_append {L L' : ChainLedger} {header : BlockHeader}
    (happend : L'.headers = L.headers ++ [header]) {h : ℕ} (hh : L.height + 1 = h) :
    L'.hashAt P h = some (Hasher.blockHash P header) := by
  rw [hashAt_eq, happend, ← hh, ← length_headers]
  simp

end ChainLedger

/-- What a vote or a recorded commit names is what the ledger holds. -/
def Effect.RefersTo (P : Primitives) (L : ChainLedger) : Effect → Prop
  | .castVote v => ∀ x ∈ v.blockHash, L.hashAt P v.height = some x
  | .recorded h hash _ => L.hashAt P h = some hash
  | _ => True

theorem Effect.RefersTo.mono {P : Primitives} {L L' : ChainLedger}
    (hgrows : L.headers <+: L'.headers) {e : Effect} (h : e.RefersTo P L) : e.RefersTo P L' := by
  cases e with
  | castVote v => exact fun x hx => ChainLedger.hashAt_mono hgrows (h x hx)
  | recorded height hash sigs => exact ChainLedger.hashAt_mono hgrows h
  | _ => trivial

namespace Node
variable (P : Primitives)

/-- The conditions on the steps of a node, by the event that is about to happen. -/
def Guarded (n : Node) : Event → Prop
  | .mine => match n.phase with
    | .proposing h _ _ => n.ledger.height + 1 = h
    | _ => True
  | .apply _ => match n.phase with
    | .applying h _ _ block => block.header.height = h ∧
        ∀ x ∈ n.ledger.hashAt P h, x = Hasher.blockHash P block.header
    | _ => True
  | .vote v _ => match n.phase with
    | .voting h r => v.At h r → QuorumOnly n.engine.valSet
        ((n.engine.votesOf v.voteType).insertIfNew v.key v) h r n.engine.proposedBlocks[(h, r)]?
    | _ => True
  | _ => True

instance (n : Node) (ev : Event) : Decidable (n.Guarded P ev) := by
  unfold Guarded
  split <;> (try split) <;> infer_instance

/-- The engine stands at this height and round, has taken the proposal with this
hash and has seen no quorum for another; the ledger holds that block. -/
structure Accepted (n : Node) (h r : ℕ) (hash : Hash32) : Prop where
  height_eq : n.engine.state.height = h
  round_eq : n.engine.state.round = r
  proposed : n.engine.proposedBlocks[(h, r)]? = some hash
  stored : n.ledger.hashAt P h = some hash
  quorums : ∀ voteType, QuorumOnly n.engine.valSet (n.engine.votesOf voteType) h r (some hash)

/-- No vote was counted yet, and the proposer is a member of the set. -/
structure Offered (n : Node) (h r : ℕ) (proposer : Address) : Prop where
  height_eq : n.engine.state.height = h
  round_eq : n.engine.state.round = r
  votes : ∀ voteType, n.engine.votesOf voteType = ∅
  member : (n.engine.valSet.find proposer).isSome = true

/-- The engine, the phase and the ledger of a node agree on the current block. -/
structure Bound (n : Node) : Prop where
  filed : n.engine.VotesOk (fun _ => True)
  offered : ∀ h r proposer, n.phase.offer = some (h, r, proposer) → n.Offered h r proposer
  prevoting : ∀ h r hash, n.phase = .prevoting h r hash → n.Accepted P h r hash
  deciding : ∀ h r, n.phase.deciding = some (h, r) → ∃ hash, n.Accepted P h r hash
  finalizing : ∀ h hash sigs, n.phase = .finalizing h hash sigs → n.ledger.hashAt P h = some hash

variable {P}

theorem Accepted.congr {n m : Node} {h r : ℕ} {hash : Hash32} (ha : n.Accepted P h r hash)
    (hengine : m.engine = n.engine) (hgrows : n.ledger.headers <+: m.ledger.headers) :
    m.Accepted P h r hash := by
  obtain ⟨hheight, hround, hproposed, hstored, hquorums⟩ := ha
  rw [← hengine] at hheight hround hproposed hquorums
  exact ⟨hheight, hround, hproposed, ChainLedger.hashAt_mono hgrows hstored, hquorums⟩

/-- A step outside the driver changes at most the ledger, at its end. -/
theorem Bound.congr {n m : Node} (hb : n.Bound P) (hphase : m.phase = n.phase)
    (hengine : m.engine = n.engine) (hgrows : n.ledger.headers <+: m.ledger.headers) :
    m.Bound P where
  filed := hengine ▸ hb.filed
  offered h r proposer hat := by
    obtain ⟨hheight, hround, hvotes, hmember⟩ := hb.offered h r proposer (hphase ▸ hat)
    rw [← hengine] at hheight hround hvotes hmember
    exact ⟨hheight, hround, hvotes, hmember⟩
  prevoting h r hash hat := (hb.prevoting h r hash (hphase ▸ hat)).congr hengine hgrows
  deciding h r hat := by
    obtain ⟨hash, ha⟩ := hb.deciding h r (hphase ▸ hat)
    exact ⟨hash, ha.congr hengine hgrows⟩
  finalizing h hash sigs hat :=
    ChainLedger.hashAt_mono hgrows (hb.finalizing h hash sigs (hphase ▸ hat))

/-- Between attempts there is nothing to agree on. -/
theorem bound_of_idle {n : Node} (hfiled : n.engine.VotesOk (fun _ => True))
    (hoffer : n.phase.offer = none) (hprevoting : ∀ h r hash, n.phase ≠ .prevoting h r hash)
    (hdeciding : n.phase.deciding = none)
    (hfinal : ∀ h hash sigs, n.phase ≠ .finalizing h hash sigs) :
    n.Bound P where
  filed := hfiled
  offered h r proposer hat := by rw [hoffer] at hat; cases hat
  prevoting h r hash hat := absurd hat (hprevoting h r hash)
  deciding h r hat := by rw [hdeciding] at hat; cases hat
  finalizing h hash sigs hat := absurd hat (hfinal h hash sigs)

theorem offered_elected {n : Node} (valSet : ValidatorSet) (h r : ℕ) {m : Node}
    (hm : m.engine = (n.electedEngine valSet h r).1) :
    m.Offered h r (n.electedEngine valSet h r).2.address := by
  refine ⟨by rw [hm]; rfl, by rw [hm]; rfl,
    by rw [hm]; exact n.electedEngine_votesOf valSet h r, ?_⟩
  rw [hm]
  have hmem := ValidatorSet.selectProposer_mem
    (((n.engine.setValidatorSet valSet).startHeight h).setRound r).valSet
  exact List.find?_isSome.mpr ⟨_, hmem, decide_eq_true rfl⟩

/-- Taking a proposal whose block the ledger holds at the right height. -/
theorem Offered.accepted {n m : Node} {h r : ℕ} {proposer : Address} (ho : n.Offered h r proposer)
    {hash : Hash32} (hengine : m.engine = (n.engine.proposeBlock hash proposer).1)
    (hstored : m.ledger.hashAt P h = some hash) : m.Accepted P h r hash := by
  have hpropose : (n.engine.proposeBlock hash proposer).1 = { n.engine with
      proposedBlocks := n.engine.proposedBlocks.insert (h, r) hash
      state := { n.engine.state with step := .prevote } } := by
    have hmember : ¬ (n.engine.valSet.find proposer).isNone = true := by
      simpa [Option.isSome_iff_ne_none] using ho.member
    rw [BftConsensusEngine.proposeBlock, if_neg hmember, ho.height_eq, ho.round_eq]
  have hvotes := (n.engine.proposeBlock_frame hash proposer).2
  rw [← hengine] at hvotes
  rw [hpropose] at hengine
  refine ⟨?_, ?_, ?_, hstored, fun voteType => ?_⟩
  · rw [hengine]
    exact ho.height_eq
  · rw [hengine]
    exact ho.round_eq
  · rw [hengine]
    simp
  · rw [hvotes, ho.votes]
    exact quorumOnly_empty _ _ _ _

/-- Counting a vote after which still no other hash has a quorum. -/
theorem Accepted.counted {n m : Node} {h r : ℕ} {hash : Hash32} (ha : n.Accepted P h r hash)
    {vote : Vote} {stored : Bool} (hcount : n.engine.Counted m.engine vote stored)
    (hledger : m.ledger = n.ledger)
    (hq : QuorumOnly n.engine.valSet ((n.engine.votesOf vote.voteType).insertIfNew vote.key vote)
      h r (some hash)) : m.Accepted P h r hash := by
  refine ⟨?_, ?_, ?_, ?_, fun voteType => ?_⟩
  · rw [hcount.height_eq, ha.height_eq]
  · rw [hcount.round_eq, ha.round_eq]
  · rw [hcount.proposedBlocks_eq, ha.proposed]
  · rw [hledger, ha.stored]
  · rw [hcount.valSet_eq]
    rw [hcount.votes]
    split
    · rename_i hstored
      rw [← hstored.1]
      exact hq
    · exact ha.quorums voteType

theorem Offered.bound {n : Node} {h r : ℕ} {proposer : Address} (ho : n.Offered h r proposer)
    (hfiled : n.engine.VotesOk (fun _ => True)) (hoffer : n.phase.offer = some (h, r, proposer)) :
    n.Bound P where
  filed := hfiled
  offered h' r' proposer' hat := by
    rw [hoffer] at hat
    cases hat
    exact ho
  prevoting h' r' hash' hat := by rw [hat] at hoffer; cases hoffer
  deciding h' r' hat := by
    cases hphase : n.phase <;> rw [hphase] at hoffer hat <;> cases hoffer <;> cases hat
  finalizing h' hash' sigs hat := by rw [hat] at hoffer; cases hoffer

theorem Accepted.bound_prevoting {n : Node} {h r : ℕ} {hash : Hash32} (ha : n.Accepted P h r hash)
    (hfiled : n.engine.VotesOk (fun _ => True)) (hphase : n.phase = .prevoting h r hash) :
    n.Bound P where
  filed := hfiled
  offered h' r' proposer hat := by rw [hphase] at hat; cases hat
  prevoting h' r' hash' hat := by
    rw [hphase] at hat
    cases hat
    exact ha
  deciding h' r' hat := by rw [hphase] at hat; cases hat
  finalizing h' hash' sigs hat := by rw [hphase] at hat; cases hat

/-- While votes are counted the node stays with the accepted block. -/
theorem Accepted.bound_deciding {n : Node} {h r : ℕ} {hash : Hash32} (ha : n.Accepted P h r hash)
    (hfiled : n.engine.VotesOk (fun _ => True)) (hphase : n.phase = .reacting h r ∨
      n.phase = .voting h r) :
    n.Bound P where
  filed := hfiled
  offered h' r' proposer hat := by
    rcases hphase with hphase | hphase <;> rw [hphase] at hat <;> cases hat
  prevoting h' r' hash' hat := by
    rcases hphase with hphase | hphase <;> rw [hphase] at hat <;> cases hat
  deciding h' r' hat := by
    have hsame : some (h, r) = some (h', r') := by
      rcases hphase with hphase | hphase <;> rw [hphase] at hat <;> exact hat
    cases hsame
    exact ⟨hash, ha⟩
  finalizing h' hash' sigs hat := by
    rcases hphase with hphase | hphase <;> rw [hphase] at hat <;> cases hat

/-- A precommit that gives no other hash a quorum can only commit the accepted
block. -/
theorem Accepted.bound_countPrecommit {n : Node} {h r : ℕ} {hash : Hash32}
    (ha : n.Accepted P h r hash) (hfiled : n.engine.VotesOk (fun _ => True)) {vote : Vote}
    (o : IterOrder Hash32)
    (hq : QuorumOnly n.engine.valSet ((n.engine.votesOf vote.voteType).insertIfNew vote.key vote)
      h r (some hash)) : (n.countPrecommit h r vote o).1.Bound P := by
  have hcount := n.engine.receivePrecommit_counted o vote
  have hfiled' := hfiled.counted hcount trivial
  rcases n.countPrecommit_cases h r vote o with ⟨hash', sigs, hcommit, hresult⟩ | hresult
  · obtain ⟨htype, -, hquorum⟩ := BftConsensusEngine.receivePrecommit_commit hcommit
    rw [ha.height_eq, ha.round_eq] at hquorum
    rw [htype] at hq
    obtain rfl : hash = hash' := Option.some.inj (hq hash' hquorum)
    rw [hresult]
    refine ⟨hfiled', by simp [Phase.offer], by simp, by simp [Phase.deciding], ?_⟩
    rintro h' hash' sigs' hat
    cases hat
    exact ha.stored
  · have ha' : Accepted P { n with
        engine := (n.engine.receivePrecommit o vote).1, phase := .voting h r } h r hash :=
      ha.counted hcount rfl hq
    rw [hresult]
    exact ha'.bound_deciding hfiled' (Or.inr rfl)

theorem Accepted.bound_countVote {n : Node} {h r : ℕ} {hash : Hash32}
    (ha : n.Accepted P h r hash) (hfiled : n.engine.VotesOk (fun _ => True)) {vote : Vote}
    (o : IterOrder Hash32)
    (hq : QuorumOnly n.engine.valSet ((n.engine.votesOf vote.voteType).insertIfNew vote.key vote)
      h r (some hash)) : (n.countVote h r vote o).1.Bound P := by
  rcases n.countVote_cases h r vote o with ⟨-, phase, hphase, hresult⟩ | ⟨-, hresult⟩
  · have hcount := n.engine.receivePrevote_counted o vote
    have ha' : Accepted P { n with
        engine := (n.engine.receivePrevote o vote).1, phase := phase } h r hash :=
      ha.counted hcount rfl hq
    rw [hresult]
    exact ha'.bound_deciding (hfiled.counted hcount trivial) hphase
  · rw [hresult]
    exact ha.bound_countPrecommit hfiled o hq

/-- A proposal that is applied under its own height is the block stored there. -/
theorem hashAt_applied {L : ChainLedger} {block : Block} {h : ℕ} {receipts : List TxReceipt}
    (hok : (L.applyBlock P block).2 = .ok receipts) (hheight : block.header.height = h)
    (hsame : ∀ x ∈ L.hashAt P h, x = Hasher.blockHash P block.header) :
    (L.applyBlock P block).1.hashAt P h = some (Hasher.blockHash P block.header) := by
  rcases ChainLedger.applyBlock_ok hok with ⟨hold, hledger⟩ | ⟨hext, happend⟩
  · -- an ignored block: the height is taken, and by assumption by the same block
    rw [hledger]
    have hlt : h < L.headers.length := by
      rw [ChainLedger.length_headers]
      omega
    rw [ChainLedger.hashAt_eq, List.getElem?_eq_getElem hlt] at hsame ⊢
    simpa using hsame
  · exact ChainLedger.hashAt_append happend (by rw [← hext.height_eq, hheight])

/-- The only hash with a prevote quorum is the accepted one. -/
theorem Bound.prevoted_quorum {n : Node} (hb : n.Bound P) {h r : ℕ} (hp : n.phase = .reacting h r)
    {o : IterOrder Hash32} {hash : Hash32}
    (hquorum : n.engine.getPrevotedBlockWithQuorum o h r = some hash) : n.Accepted P h r hash := by
  obtain ⟨hash', haccepted⟩ := hb.deciding h r (by rw [hp]; rfl)
  obtain rfl : hash' = hash :=
    Option.some.inj (haccepted.quorums .prevote hash (blockWithQuorum_some hquorum))
  exact haccepted

/-- One step under the conditions keeps engine, phase and ledger in agreement. -/
theorem Bound.next {n : Node} (hb : n.Bound P) {ev : Event} (hok : n.Guarded P ev) :
    (n.next P ev).Bound P := by
  have hfiled : (n.step P ev).1.engine.VotesOk (fun _ => True) :=
    votesOk_step hb.filed (fun _ _ => trivial) (fun _ _ _ _ _ _ => trivial)
  have hgrows := n.headers_next (P := P) ev
  have hfired := step_fired (P := P) n ev
  unfold Node.next at hgrows ⊢
  generalize n.step P ev = result at hfired hfiled hgrows
  cases hfired with
  | stutter | gossipedBlock | gossipedTx | listened | served => exact hb.congr rfl rfl hgrows
  | attempted | electFailed | voteTimedOut | rebroadcasted | proposalRefused | proposeTimedOut
  | applyFailed => exact bound_of_idle hfiled rfl (fun _ _ _ => nofun) rfl (fun _ _ _ => nofun)
  | @elected records h r valSet phase hp hset hphase =>
    refine (offered_elected valSet h r (by rfl)).bound hfiled ?_
    rcases hphase with ⟨-, rfl⟩ | ⟨-, rfl⟩ <;> rfl
  | @mined h r proposer phase hp hphase =>
    have hoffered := hb.offered h r proposer (by rw [hp]; rfl)
    simp only [Guarded, hp] at hok
    have hstored := ChainLedger.hashAt_append (P := P)
      (n.ledger.mineBlock_headers (P := P) proposer) hok
    rcases hphase with rfl | rfl
    · exact bound_of_idle hfiled rfl (fun _ _ _ => nofun) rfl (fun _ _ _ => nofun)
    · exact Accepted.bound_prevoting (hoffered.accepted (by rfl) hstored) hfiled rfl
  | @proposalTaken h r proposer block o hp hproposer =>
    obtain ⟨hheight, hround, hvotes, hmember⟩ := hb.offered h r proposer (by rw [hp]; rfl)
    exact Offered.bound ⟨hheight, hround, hvotes, hmember⟩ hfiled rfl
  | @applied h r proposer block o receipts hp happlied =>
    have hoffered := hb.offered h r proposer (by rw [hp]; rfl)
    simp only [Guarded, hp] at hok
    have hstored := hashAt_applied happlied hok.1 hok.2
    exact Accepted.bound_prevoting (hoffered.accepted (by rfl) hstored) hfiled rfl
  | @prevoted h r hash o hp =>
    have haccepted := hb.prevoting h r hash hp
    have hq := (haccepted.quorums .prevote).insertIfNew (hb.filed .prevote) (by rfl) trivial
      (show (buildSignedVote P .prevote h r (some hash) n.localKey).blockHash = some hash from rfl)
    have hcount := n.engine.receivePrevote_counted o
      (buildSignedVote P .prevote h r (some hash) n.localKey)
    have haccepted' : (n.prevote P h r hash o).1.Accepted P h r hash :=
      haccepted.counted hcount rfl hq
    exact haccepted'.bound_deciding hfiled (Or.inl rfl)
  | @reactedNot h r o o' hp =>
    obtain ⟨hash, haccepted⟩ := hb.deciding h r (by rw [hp]; rfl)
    exact (haccepted.congr (by rfl) hgrows).bound_deciding hfiled (Or.inr rfl)
  | @reacted h r hash o o' hp hfirst hquorum =>
    have haccepted := hb.prevoted_quorum hp hquorum
    have hq := (haccepted.quorums .precommit).insertIfNew (hb.filed .precommit) (by rfl) trivial
      (show (buildSignedVote P .precommit h r (some hash) n.localKey).blockHash =
        some hash from rfl)
    have haccepted' : Accepted P { n with precommittedThisRound := true } h r hash :=
      haccepted.congr rfl List.prefix_rfl
    exact haccepted'.bound_countPrecommit hb.filed o' hq
  | @voted h r v o validator hp hheight hround =>
    obtain ⟨hash, haccepted⟩ := hb.deciding h r (by rw [hp]; rfl)
    simp only [Guarded, hp] at hok
    have hq := hok ⟨hheight, hround⟩
    rw [haccepted.proposed] at hq
    have haccepted' : (n.slashConflict v).1.Accepted P h r hash :=
      haccepted.congr (n.slashConflict_engine v) (by rw [slashConflict_ledger])
    have hfiled' : (n.slashConflict v).1.engine.VotesOk (fun _ => True) := by
      rw [slashConflict_engine]
      exact hb.filed
    rw [← n.slashConflict_engine v] at hq
    exact haccepted'.bound_countVote hfiled' o hq
  | finalized => exact bound_of_idle hfiled rfl (fun _ _ _ => nofun) rfl (fun _ _ _ => nofun)

/-- What a step votes for or records is in the ledger. -/
theorem Bound.refers {n : Node} (hb : n.Bound P) (ev : Event) :
    ∀ e ∈ (n.step P ev).2, e.RefersTo P (n.next P ev).ledger := by
  have hfired := step_fired (P := P) n ev
  unfold Node.next
  generalize n.step P ev = result at hfired
  intro e he
  cases hfired with
  | mined | served =>
    rw [List.mem_singleton.mp he]
    trivial
  | proposalRefused | proposeTimedOut | applyFailed =>
    rw [List.mem_singleton.mp he]
    exact fun x hx => by cases hx
  | @prevoted h r hash o hp =>
    rw [List.mem_singleton.mp he]
    intro x hx
    cases hx
    exact (hb.prevoting h r hash hp).stored
  | @reacted h r hash o o' hp hfirst hquorum =>
    have haccepted := hb.prevoted_quorum hp hquorum
    rcases List.mem_cons.mp he with rfl | he
    · intro x hx
      cases hx
      rw [countPrecommit_ledger]
      exact haccepted.stored
    · obtain ⟨hash, sigs, rfl⟩ := countPrecommit_effects he
      trivial
  | voted =>
    rcases List.mem_append.mp he with he | he
    · obtain ⟨evidence, rfl⟩ := slashConflict_effects he
      trivial
    · obtain ⟨hash, sigs, rfl⟩ := countVote_effects he
      trivial
  | @finalized h hash sigs hp =>
    have hstored := hb.finalizing h hash sigs hp
    have hgrows : n.ledger.headers <+: (n.finalize P h hash sigs).1.ledger.headers := by
      simp only [finalize, ChainLedger.setLastCommit_headers, List.prefix_rfl]
    rw [finalize_effects he]
    exact ChainLedger.hashAt_mono hgrows hstored
  | rebroadcasted =>
    obtain ⟨block, -, rfl⟩ := rebroadcast_effects he
    trivial
  | _ => cases he

theorem bound_start {ledger : ChainLedger} {staking : StakingKeeper} {localKey : Ed25519Keypair}
    {records : IterOrder StakingValidator} {n : Node}
    (hstart : start ledger staking localKey records = .ok n) : n.Bound P := by
  obtain ⟨valSet, -, rfl⟩ := start_ok hstart
  exact bound_of_idle (BftConsensusEngine.votesOk_of_empty _ (BftConsensusEngine.votesOf_new _ _))
    rfl (fun _ _ _ => nofun) rfl (fun _ _ _ => nofun)

/-- In a run that meets the three conditions, whatever the driver has voted for
or recorded at a height is the block its ledger holds there. -/
theorem votes_name_stored_block {ledger : ChainLedger} {staking : StakingKeeper}
    {localKey : Ed25519Keypair} {records : IterOrder StakingValidator} {n : Node}
    (hstart : start ledger staking localKey records = .ok n) (events : List Event)
    (hguarded : Runs.Along (fun s ev => s.1.Guarded P ev) (Runs.recorded (step P)) (n, []) events) :
    Runs.Throughout (fun s => ∀ e ∈ s.2, e.RefersTo P s.1.ledger) (Runs.recorded (step P)) (n, [])
      events := by
  refine hguarded.throughout
    (I := fun s => s.1.Bound P ∧ ∀ e ∈ s.2, e.RefersTo P s.1.ledger) ?_ (fun s hs => hs.2)
    ⟨bound_start hstart, fun e he => by cases he⟩
  rintro ⟨m, log⟩ ev hok ⟨hbound, hlog⟩
  refine ⟨hbound.next hok, fun e he => ?_⟩
  rcases List.mem_append.mp he with he | he
  · exact (hlog e he).mono (m.headers_next ev)
  · exact hbound.refers ev e he

section Scenario
open Devnet

/-- Two equal validators; the node is that of keypair 1. -/
def bindingNode : Node := okValue (startNode 1 [(1, 1000), (2, 1000)]) (by decide +kernel)

/-- The genesis block under the name of keypair 2. -/
def staleBlock : Block := { Devnet.ledger.latestBlock with
  header := { Devnet.ledger.latestHeader with proposer := addressOf 2 } }

/-- The proposal for height 1 and round 0 carries a block of height 0. -/
def staleRun : List Event :=
  [.attempt, .elect (.listed _), .proposal 1 0 staleBlock (.listed _), .apply (.listed _),
    .prevote (.listed _)]

/-- The driver takes the proposal and prevotes a hash at a height where its
ledger holds nothing. -/
theorem stale_proposal_voted :
    ∃ v ∈ castVotes (Runs.run (Runs.recorded (step primitives)) (bindingNode, []) staleRun).2,
      v.height = 1 ∧ v.blockHash = some (Hasher.blockHash primitives staleBlock.header) ∧
        (Runs.run (Runs.recorded (step primitives)) (bindingNode, []) staleRun).1.ledger.hashAt
          primitives 1 = none := by
  decide +kernel

/-- The block that keypair 2 proposes at height 1. -/
def goodBlock : Block := (Devnet.ledger.mineBlock primitives (addressOf 2)).2

def votesFor (x : Hash32) : List Event :=
  [.vote (buildSignedVote primitives .prevote 1 0 (some x) (keypair 2)) (.listed _),
    .react (.listed _) (.listed _),
    .vote (buildSignedVote primitives .precommit 1 0 (some x) (keypair 2)) (.listed _), .finalize]

/-- A round in which the proposal is a block of its height and the other
validator votes for it. -/
def goodRun : List Event :=
  [.attempt, .elect (.listed _), .proposal 1 0 goodBlock (.listed _), .apply (.listed _),
    .prevote (.listed _), .react (.listed _) (.listed _)] ++
    votesFor (Hasher.blockHash primitives goodBlock.header)

theorem votes_name_stored_block_devnet :
    (Runs.run (Runs.recorded (step primitives)) (bindingNode, []) goodRun).2.length = 4 ∧
      Runs.Throughout (fun s => ∀ e ∈ s.2, e.RefersTo primitives s.1.ledger)
        (Runs.recorded (step primitives)) (bindingNode, []) goodRun := by
  have hstart :=
      start_of_startNode (eq_okValue (startNode 1 [(1, 1000), (2, 1000)]) (by decide +kernel))
  exact ⟨by decide +kernel, votes_name_stored_block (P := primitives) hstart goodRun
    (by decide +kernel)⟩

end Scenario

end Node

end Sprax
