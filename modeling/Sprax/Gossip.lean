import Sprax.Chain
import Sprax.Devnet

/-!
# Blocks that enter through gossip

The reader of a connection sorts messages into channels; blocks come alone or
in answer to a range request and share one channel. The background processor
applies them as they come. Between the socket and the ledger stand the checks
of `apply_block` and no others: the header must extend the chain and the roots
must be those of its execution. The commit signatures a block carries are
stored with it and never looked at.
-/
namespace Sprax
open Std FiniteMap

namespace Network

abbrev PeerId := String

/-- What both handshake messages say about the other side. -/
structure Hello where
  peerId : PeerId
  chainId : String
  height : ℕ
  latestBlockHash : Hash32
  deriving DecidableEq

end Network

/-- Messages between peers. -/
inductive NetworkMessage
  | handshake (hello : Network.Hello) (listenAddr : Option String)
  | handshakeAck (hello : Network.Hello)
  | ping (nonce : ℕ)
  | pong (nonce : ℕ)
  | txGossip (tx : Transaction)
  | blockGossip (block : Block)
  | getBlocksRequest (fromHeight toHeight : ℕ)
  | getBlocksResponse (blocks : List Block)
  | peerDiscoveryRequest
  | peerDiscoveryResponse (peers : List String)
  | proposal (height round : ℕ) (block : Block)
  | vote (vote : Vote)
  | evidence (evidence : EquivocationEvidence)

/-- The blocks a message hands to the gossip processor. -/
def NetworkMessage.blocks : NetworkMessage → List Block
  | .blockGossip block => [block]
  | .getBlocksResponse blocks => blocks
  | _ => []

/-- The five unbounded channels between the reader and the tasks of the node. -/
structure Inbox where
  txs : List Transaction
  blocks : List Block
  votes : List Vote
  proposals : List (ℕ × ℕ × Block)
  evidence : List EquivocationEvidence

def Inbox.empty : Inbox := ⟨[], [], [], [], []⟩

/-- One message in the reader loop of a connection: the channels after it, and
the reply sent back. -/
def Inbox.read (L : ChainLedger) (knownPeers : List String) (inbox : Inbox) :
    NetworkMessage → Inbox × List NetworkMessage
  | .txGossip tx => ({ inbox with txs := inbox.txs ++ [tx] }, [])
  | .blockGossip block => ({ inbox with blocks := inbox.blocks ++ [block] }, [])
  | .ping nonce => (inbox, [.pong nonce])
  | .vote vote => ({ inbox with votes := inbox.votes ++ [vote] }, [])
  | .proposal height round block =>
    ({ inbox with proposals := inbox.proposals ++ [(height, round, block)] }, [])
  | .evidence evidence => ({ inbox with evidence := inbox.evidence ++ [evidence] }, [])
  | .getBlocksRequest fromHeight toHeight =>
    (inbox, [.getBlocksResponse (fetchBlocks L fromHeight toHeight)])
  | .getBlocksResponse blocks => ({ inbox with blocks := inbox.blocks ++ blocks }, [])
  | .peerDiscoveryRequest => (inbox, [.peerDiscoveryResponse knownPeers])
  | .peerDiscoveryResponse _ | .handshake _ _ | .handshakeAck _ | .pong _ => (inbox, [])

theorem Inbox.read_blocks (L : ChainLedger) (knownPeers : List String) (inbox : Inbox)
    (m : NetworkMessage) : (inbox.read L knownPeers m).1.blocks = inbox.blocks ++ m.blocks := by
  cases m <;> simp [read, NetworkMessage.blocks]

/-- A node behind its connections. `received` and `appended` are a record: all
blocks that peers sent, and every block the gossip processor appended with the
ledger it was appended to. -/
structure Gossiper where
  node : Node
  inbox : Inbox
  knownPeers : List String
  received : List Block
  appended : List (ChainLedger × Block)

/-- A message arrives, the processor takes a transaction or a block from its
channel, or another task of the node takes a step. -/
inductive GossipEvent
  | message (m : NetworkMessage)
  | takeTx
  | takeBlock
  | run (ev : Event)

namespace ChainLedger
variable {P : Primitives}

/-- All that `apply_block` asks of a block it appends. -/
structure Admits (P : Primitives) (L : ChainLedger) (block : Block) : Prop where
  extends_chain : L.Extends P block.header
  executes : ∃ b, L.applyBody P block = (b, .ok ()) ∧ RootsMatch P b block.header

/-- The checks read the header and the transactions only. -/
theorem Admits.congr {L : ChainLedger} {block block' : Block} (h : L.Admits P block)
    (hheader : block'.header = block.header) (hbody : block'.body = block.body) :
    L.Admits P block' := by
  obtain ⟨hext, b, hexec, hroots⟩ := h
  have hexec' : L.applyBody P block' = (b, .ok ()) := by
    rw [applyBody, hheader, hbody]
    exact hexec
  rw [← hheader] at hext hroots
  exact ⟨hext, b, hexec', hroots⟩

/-- A block is appended exactly if it is admitted. -/
theorem admits_iff {L : ChainLedger} {block : Block} :
    L.Admits P block ↔ (L.applyBlock P block).1.headers = L.headers ++ [block.header] := by
  constructor
  · rintro ⟨hext, b, hexec, hroots⟩
    rw [applyBlock_accepted hext hexec hroots]
    simp [headers, acceptBlock, commitBlock]
  · intro happend
    have houtcome := applyBlock_outcome (P := P) L block
    generalize L.applyBlock P block = result at houtcome happend
    cases houtcome with
    | ignored | refused | failed | mismatched =>
      -- the chain is unchanged in these cases
      have hlen := congrArg List.length happend
      simp [headers, withBatch] at hlen
    | accepted b hext hexec hroots => exact ⟨hext, b, hexec, hroots⟩

theorem admits_of_height_lt {L : ChainLedger} {block : Block}
    (h : L.height < (L.applyBlock P block).1.height) : L.Admits P block := by
  rcases applyBlock_headers (P := P) L block with hsame | ⟨-, happend⟩
  · exact absurd h <| Nat.not_lt.mpr <| height_le_of_headers_prefix (hsame ▸ List.prefix_rfl)
  · exact admits_iff.mpr happend

end ChainLedger

/-- Power of the members whose precommit signature for the block, at a given
round, is among its commit signatures. -/
def ValidatorSet.signedPower (P : Primitives) (s : ValidatorSet) (block : Block) (round : ℕ) : ℕ :=
  ((s.validators.filter (fun v => block.lastCommit.any (fun c =>
    c.validatorAddress = v.address ∧
      Ed25519Keypair.verify P v.publicKey
        (Vote.signBytes P ⟨.precommit, block.header.height, round,
          some (Hasher.blockHash P block.header), v.address, []⟩) c.signature = .ok ()))).map
    Validator.votingPower).sum

/-- The block carries a quorum of valid precommits for itself. -/
def ValidatorSet.Certifies (P : Primitives) (s : ValidatorSet) (block : Block) : Prop :=
  ∃ round, s.quorumThreshold ≤ s.signedPower P block round

/-- No set certifies a block without commit signatures. -/
theorem ValidatorSet.not_certifies {P : Primitives} (s : ValidatorSet) {block : Block}
    (h : block.lastCommit = []) : ¬ s.Certifies P block := by
  rintro ⟨round, hq⟩
  simp [signedPower, h, quorumThreshold] at hq

namespace Gossiper
variable (P : Primitives)

/-- The block is recorded if the ledger became longer by it. -/
def takeBlock (g : Gossiper) (block : Block) (rest : List Block) : Gossiper :=
  let node := g.node.next P (.gossipBlock block)
  { g with
    node := node
    inbox := { g.inbox with blocks := rest }
    appended := if g.node.ledger.height < node.ledger.height
      then g.appended ++ [(g.node.ledger, block)] else g.appended }

def step (g : Gossiper) : GossipEvent → Gossiper
  | .message m => { g with
      inbox := (g.inbox.read g.node.ledger g.knownPeers m).1
      received := g.received ++ m.blocks }
  | .takeTx => match g.inbox.txs with
    | [] => g
    | tx :: rest =>
      { g with node := g.node.next P (.gossipTx tx), inbox := { g.inbox with txs := rest } }
  | .takeBlock => match g.inbox.blocks with
    | [] => g
    | block :: rest => g.takeBlock P block rest
  | .run ev => { g with node := g.node.next P ev }

/-- A node that has received nothing. -/
def start (n : Node) (knownPeers : List String) : Gossiper := ⟨n, .empty, knownPeers, [], []⟩

variable {P}

/-- What the record of a node behind its connections says. -/
structure Recorded (P : Primitives) (g : Gossiper) : Prop where
  queued : ∀ block ∈ g.inbox.blocks, block ∈ g.received
  appended : ∀ entry ∈ g.appended, entry.2 ∈ g.received ∧ entry.1.Admits P entry.2

theorem recorded_start (n : Node) (knownPeers : List String) :
    (start n knownPeers).Recorded P where
  queued block hblock := by cases hblock
  appended entry hentry := by cases hentry

theorem Recorded.takeBlock {g : Gossiper} (h : g.Recorded P) {block : Block} {rest : List Block}
    (hqueue : g.inbox.blocks = block :: rest) : (g.takeBlock P block rest).Recorded P where
  queued b hb := h.queued b (by rw [hqueue]; exact List.mem_cons_of_mem block hb)
  appended entry hentry := by
    simp only [Gossiper.takeBlock] at hentry
    split at hentry
    · rename_i hgrown
      rcases List.mem_append.mp hentry with hentry | hentry
      · exact h.appended entry hentry
      · rw [List.mem_singleton.mp hentry]
        exact ⟨h.queued block (by rw [hqueue]; exact List.mem_cons_self),
          ChainLedger.admits_of_height_lt hgrown⟩
    · exact h.appended entry hentry

theorem Recorded.step {g : Gossiper} (h : g.Recorded P) (ev : GossipEvent) :
    (g.step P ev).Recorded P := by
  cases ev with
  | message m =>
    refine ⟨fun block hblock => ?_, fun entry hentry => ?_⟩
    · simp only [Gossiper.step, Inbox.read_blocks, List.mem_append] at hblock ⊢
      exact hblock.imp (h.queued block) id
    · obtain ⟨hreceived, hadmits⟩ := h.appended entry hentry
      exact ⟨List.mem_append_left _ hreceived, hadmits⟩
  | takeTx =>
    simp only [Gossiper.step]
    split
    · exact h
    · exact ⟨h.queued, h.appended⟩
  | takeBlock =>
    simp only [Gossiper.step]
    split
    · exact h
    · rename_i block rest hqueue
      exact h.takeBlock hqueue
  | run ev => exact ⟨h.queued, h.appended⟩

/-- Whatever peers send and however the tasks interleave: every block the gossip
processor appended was received, extends the chain it was appended to and
executes to its roots, and would have been appended with any other commit
signatures as well. -/
theorem gossiped_blocks_admitted (n : Node) (knownPeers : List String) (events : List GossipEvent) :
    ∀ entry ∈ (Runs.run (step P) (start n knownPeers) events).appended,
      entry.2 ∈ (Runs.run (step P) (start n knownPeers) events).received ∧
        entry.1.Admits P entry.2 ∧
        ∀ sigs, (entry.1.applyBlock P { entry.2 with lastCommit := sigs }).1.headers =
          entry.1.headers ++ [entry.2.header] := by
  have hrecorded : (Runs.run (step P) (start n knownPeers) events).Recorded P :=
    Runs.run_invariant (fun g ev hg => hg.step ev) _ _ (recorded_start n knownPeers)
  intro entry hentry
  obtain ⟨hreceived, hadmits⟩ := hrecorded.appended entry hentry
  refine ⟨hreceived, hadmits, fun sigs => ?_⟩
  have hadmits' : entry.1.Admits P { entry.2 with lastCommit := sigs } := hadmits.congr rfl rfl
  exact ChainLedger.admits_iff.mp hadmits'

section Scenario
open Devnet

/-- A block over genesis by someone who is no validator, without signatures. -/
def forgedBlock : Block := (ledger.mineBlock primitives (addressOf 9)).2

/-- The forged block is gossiped and appended; the active set does not certify it. -/
theorem forged_block_appended :
    ∃ valSet, pairNode.staking.getActiveValidatorSet (.listed _) = .ok valSet ∧
      valSet.find forgedBlock.header.proposer = none ∧
      ¬ valSet.Certifies primitives forgedBlock ∧
      (Runs.run (step primitives) (start pairNode [])
        [.message (.blockGossip forgedBlock), .takeBlock]).appended.map (·.2) = [forgedBlock] ∧
      (Runs.run (step primitives) (start pairNode [])
        [.message (.blockGossip forgedBlock), .takeBlock]).node.ledger.getBlockByHeight 1 =
          some forgedBlock := by
  refine ⟨okValue (pairNode.staking.getActiveValidatorSet (.listed _)) (by decide +kernel),
    eq_okValue _ _, by decide +kernel, ValidatorSet.not_certifies _ rfl, by decide +kernel,
    by decide +kernel⟩

/-- The forged block was received and extends the chain it was appended to. -/
theorem gossiped_blocks_admitted_devnet :
    ∃ L : ChainLedger, L.Admits primitives forgedBlock ∧
      forgedBlock ∈ (Runs.run (step primitives) (start pairNode [])
        [.message (.blockGossip forgedBlock), .takeBlock]).received := by
  have hmem : forgedBlock ∈ (Runs.run (step primitives) (start pairNode [])
      [.message (.blockGossip forgedBlock), .takeBlock]).appended.map (·.2) := by decide +kernel
  obtain ⟨entry, hentry, hblock⟩ := List.mem_map.mp hmem
  obtain ⟨hreceived, hadmits, -⟩ := gossiped_blocks_admitted pairNode [] _ entry hentry
  rw [hblock] at hreceived hadmits
  exact ⟨entry.1, hadmits, hreceived⟩

end Scenario

end Gossiper

end Sprax
