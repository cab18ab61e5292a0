import Sprax.World
import Sprax.Precommits
import Sprax.Binding
import Sprax.Devnet

/-!
# Forks among honest nodes

A proposer writes its block into its own ledger before anybody votes, and nothing
is ever taken back. Two honest proposers of one height, in different rounds,
therefore leave two different blocks behind if the second has not received the
first one's. If every block is mined on a ledger that no other ledger is ahead
of, all ledgers are prefixes of one chain: the blocks under way are blocks of
that chain, and a mined block extends all of it.
-/
namespace Sprax
open Std FiniteMap

/-- Blocks that leave a node. -/
def Effect.blocks : Effect → List Block
  | .sentProposal _ _ block => [block]
  | .sentBlocks blocks => blocks
  | _ => []

/-- Blocks that arrive at a node. -/
def Event.blocks : Event → List Block
  | .proposal _ _ block _ | .gossipBlock block => [block]
  | _ => []

/-- Headers that sit at their own heights. -/
structure HeaderChain where
  headers : List BlockHeader
  numbered : ∀ (h : ℕ) (header : BlockHeader), headers[h]? = some header → header.height = h

namespace HeaderChain

def push (G : HeaderChain) (header : BlockHeader) (hheight : header.height = G.headers.length) :
    HeaderChain where
  headers := G.headers ++ [header]
  numbered h header' hat := by
    by_cases hlt : h < G.headers.length
    · rw [List.getElem?_append_left hlt] at hat
      exact G.numbered h header' hat
    · rw [List.getElem?_append_right (by omega), List.getElem?_singleton] at hat
      split at hat
      · cases hat
        omega
      · cases hat

/-- The chain that consists of the genesis block. -/
def ofGenesis (P : Primitives) (genesis : GenesisConfig) : HeaderChain where
  headers := (ChainLedger.initFromGenesis P genesis).headers
  numbered h header hat := by
    cases h with
    | zero =>
      cases hat
      rfl
    | succ h => cases hat

theorem getElem?_of_mem {G : HeaderChain} {header : BlockHeader} (h : header ∈ G.headers) :
    G.headers[header.height]? = some header := by
  obtain ⟨k, hk⟩ := List.mem_iff_getElem?.mp h
  rwa [G.numbered k header hk]

variable {P : Primitives} {G : HeaderChain} {L : ChainLedger}

/-- A header of the chain that extends a ledger inside the chain is the next one. -/
theorem prefix_extended (hL : L.headers <+: G.headers) {header : BlockHeader}
    (hmem : header ∈ G.headers) (hext : L.Extends P header) :
      L.headers ++ [header] <+: G.headers := by
  obtain ⟨rest, hrest⟩ := hL
  have hat := getElem?_of_mem hmem
  rw [hext.height_eq, ← L.length_headers, ← hrest, List.getElem?_append_right le_rfl,
    Nat.sub_self] at hat
  cases rest with
  | nil => cases hat
  | cons next rest =>
    cases hat
    exact ⟨rest, by rw [← hrest]; simp⟩

theorem prefix_applyBlock (hL : L.headers <+: G.headers) {block : Block}
    (hmem : block.header ∈ G.headers) : (L.applyBlock P block).1.headers <+: G.headers := by
  rcases L.applyBlock_headers (P := P) block with hsame | ⟨hext, happend⟩
  · rw [hsame]
    exact hL
  · rw [happend]
    exact prefix_extended hL hmem hext

end HeaderChain

theorem Phase.After.ne_applying {h r : ℕ} {p : Phase} (hp : p.After h r) (h' r' : ℕ)
    (proposer : Address) (block : Block) : p ≠ .applying h' r' proposer block := by
  rintro rfl
  rcases hp with hd | ⟨hu, -⟩
  · cases hd
  · cases hu

namespace Node
variable {P : Primitives}

/-- A node sends blocks of its ledger and the block it mines. -/
theorem sent_step {n : Node} {ev : Event} {e : Effect} (he : e ∈ (n.step P ev).2) {block : Block}
    (hb : block ∈ e.blocks) : block ∈ n.ledger.blocks ∨ ∃ h r proposer,
      ev = .mine ∧ n.phase = .proposing h r proposer ∧
      block = (n.ledger.mineBlock P proposer).2 := by
  have hfired := step_fired (P := P) n ev
  generalize n.step P ev = result at hfired he
  cases hfired with
  | @mined h r proposer phase hp =>
    rw [List.mem_singleton.mp he] at hb
    exact Or.inr ⟨h, r, proposer, rfl, hp, List.mem_singleton.mp hb⟩
  | proposalRefused | proposeTimedOut | applyFailed | prevoted =>
    rw [List.mem_singleton.mp he] at hb
    cases hb
  | reacted =>
    rcases List.mem_cons.mp he with rfl | he
    · cases hb
    · obtain ⟨hash, sigs, rfl⟩ := countPrecommit_effects he
      cases hb
  | voted =>
    rcases List.mem_append.mp he with he | he
    · obtain ⟨evidence, rfl⟩ := slashConflict_effects he
      cases hb
    · obtain ⟨hash, sigs, rfl⟩ := countVote_effects he
      cases hb
  | finalized =>
    rw [finalize_effects he] at hb
    cases hb
  | rebroadcasted =>
    obtain ⟨stored, hstored, rfl⟩ := rebroadcast_effects he
    rw [List.mem_singleton.mp hb]
    exact Or.inl hstored
  | served lo hi =>
    rw [List.mem_singleton.mp he] at hb
    exact Or.inl (List.mem_of_mem_take (List.mem_of_mem_drop hb))
  | _ => cases he

/-- The block a driver is about to apply has arrived as a proposal. -/
theorem applying_step {n : Node} {ev : Event} {h r : ℕ} {proposer : Address} {block : Block}
    (hp' : (n.next P ev).phase = .applying h r proposer block) :
    n.phase = .applying h r proposer block ∨ block ∈ ev.blocks := by
  have hfired := step_fired (P := P) n ev
  unfold Node.next at hp'
  generalize n.step P ev = result at hfired hp'
  cases hfired with
  | stutter | gossipedBlock | gossipedTx | listened | served => exact Or.inl hp'
  | proposalTaken =>
    cases hp'
    exact Or.inr (List.mem_singleton_self _)
  | elected hp hset hphase => rcases hphase with ⟨-, rfl⟩ | ⟨-, rfl⟩ <;> cases hp'
  | mined hp hphase => rcases hphase with rfl | rfl <;> cases hp'
  | @reacted h' r' hash o o' hp =>
    exact absurd hp' ((countPrecommit_phase _ h' r' _ o').ne_applying h r proposer block)
  | @voted h' r' v o validator hp =>
    exact absurd hp' ((countVote_phase _ h' r' v o).ne_applying h r proposer block)
  | _ => cases hp'

/-- Without mining, a ledger inside the chain stays inside it. -/
theorem prefix_step {n : Node} {ev : Event} {G : HeaderChain} (hn : n.ledger.headers <+: G.headers)
    (hmine : ¬ ∃ h r proposer, ev = .mine ∧ n.phase = .proposing h r proposer)
    (happlying : ∀ h r proposer block, n.phase = .applying h r proposer block →
      block.header ∈ G.headers)
    (hev : ∀ block ∈ ev.blocks, block.header ∈ G.headers) :
    (n.next P ev).ledger.headers <+: G.headers := by
  have hmoved := n.ledger_moved (P := P) ev
  generalize (n.next P ev).ledger = L at hmoved
  cases hmoved with
  | same => exact hn
  | mined hp => exact absurd ⟨_, _, _, rfl, hp⟩ hmine
  | applied hp => exact HeaderChain.prefix_applyBlock hn (happlying _ _ _ _ hp)
  | gossiped block =>
    exact HeaderChain.prefix_applyBlock hn (hev block (List.mem_singleton_self block))
  | submitted => rwa [ChainLedger.submitTransaction_headers]
  | finalized => rwa [ChainLedger.setLastCommit_headers]

end Node

namespace World
variable (P : Primitives) {ι : Type*}

/-- Only blocks that some node has sent are delivered. -/
def Delivers (w : World ι) (e : ι × Event) : Prop :=
  ∀ block ∈ e.2.blocks, ∃ j, ∃ f ∈ (w j).2, block ∈ f.blocks

/-- When a node mines, no ledger is ahead of its own. -/
def MinesAhead (w : World ι) (e : ι × Event) : Prop :=
  match e.2, (w e.1).1.phase with
  | .mine, .proposing _ _ _ => ∀ j, (w j).1.ledger.height ≤ (w e.1).1.ledger.height
  | _, _ => True

instance [Fintype ι] (w : World ι) (e : ι × Event) : Decidable (w.Delivers e) :=
  inferInstanceAs (Decidable (∀ _ ∈ _, ∃ _, ∃ _ ∈ _, _ ∈ _))

instance [Fintype ι] (w : World ι) (e : ι × Event) : Decidable (w.MinesAhead e) := by
  unfold MinesAhead
  split <;> infer_instance

/-- Freshly started nodes over the ledger of one genesis. -/
structure FromGenesis (genesis : GenesisConfig) (w : World ι) : Prop where
  started : ∀ i, ∃ staking localKey records,
    Node.start (ChainLedger.initFromGenesis P genesis) staking localKey records = .ok (w i).1
  silent : ∀ i, (w i).2 = []

/-- No two ledgers hold blocks with different header hashes at one height. -/
def NoFork (w : World ι) : Prop :=
  ∀ i j h x y, (w i).1.ledger.hashAt P h = some x → (w j).1.ledger.hashAt P h = some y → x = y

/-- All ledgers lie inside one chain, some ledger holds all of it, and the blocks
under way belong to it. -/
structure OneChain (G : HeaderChain) (w : World ι) : Prop where
  ledgers : ∀ i, (w i).1.ledger.headers <+: G.headers
  tip : ∀ _ : ι, ∃ j, (w j).1.ledger.headers = G.headers
  sent : ∀ i, ∀ e ∈ (w i).2, ∀ block ∈ e.blocks, block.header ∈ G.headers
  applying : ∀ i h r proposer block, (w i).1.phase = .applying h r proposer block →
    block.header ∈ G.headers

variable {P}

theorem OneChain.noFork {G : HeaderChain} {w : World ι} (hw : OneChain G w) : w.NoFork P := by
  have hchain : ∀ i h x, (w i).1.ledger.hashAt P h = some x →
      G.headers[h]?.map (Hasher.blockHash P) = some x := by
    intro i h x hx
    rw [ChainLedger.hashAt_eq] at hx
    obtain ⟨header, hheader, rfl⟩ := Option.map_eq_some_iff.mp hx
    obtain ⟨hlt, rfl⟩ := List.getElem?_eq_some_iff.mp hheader
    rw [List.prefix_iff_getElem?.mp (hw.ledgers i) h hlt]
    rfl
  intro i j h x y hx hy
  exact Option.some.inj ((hchain i h x hx).symm.trans (hchain j h y hy))

theorem FromGenesis.oneChain {genesis : GenesisConfig} {w : World ι}
    (hw : w.FromGenesis P genesis) :
    OneChain (HeaderChain.ofGenesis P genesis) w := by
  have hnode : ∀ i, (w i).1.ledger = ChainLedger.initFromGenesis P genesis ∧
      (w i).1.phase = .idle := by
    intro i
    obtain ⟨staking, localKey, records, hstart⟩ := hw.started i
    obtain ⟨valSet, -, hn⟩ := Node.start_ok hstart
    rw [hn]
    exact ⟨rfl, rfl⟩
  have hledger : ∀ i, (w i).1.ledger.headers = (HeaderChain.ofGenesis P genesis).headers := by
    intro i
    rw [(hnode i).1]
    rfl
  refine ⟨fun i => by rw [hledger i], fun i => ⟨i, hledger i⟩, ?_, ?_⟩
  · intro i e he
    rw [hw.silent i] at he
    cases he
  · intro i h r proposer block hp
    rw [(hnode i).2] at hp
    cases hp

variable [DecidableEq ι]

/-- A step keeps everything inside a chain that its ledger and its mined block
belong to. -/
theorem OneChain.grow {G G' : HeaderChain} {w : World ι} (hw : OneChain G w) {e : ι × Event}
    (hdelivers : w.Delivers e) (hG : G.headers <+: G'.headers)
    (hledger : ((w e.1).1.next P e.2).ledger.headers <+: G'.headers)
    (hmined : ∀ h r proposer, e.2 = .mine → (w e.1).1.phase = .proposing h r proposer →
      ((w e.1).1.ledger.mineBlock P proposer).2.header ∈ G'.headers)
    (htip : ∃ j, (w.step P e j).1.ledger.headers = G'.headers) : OneChain G' (w.step P e) where
  ledgers := forall_step (Q := fun _ n _ => n.ledger.headers <+: G'.headers) hledger
    (fun j => (hw.ledgers j).trans hG)
  tip _ := htip
  sent := by
    have hold : ∀ j, ∀ f ∈ (w j).2, ∀ block ∈ f.blocks, block.header ∈ G'.headers :=
      fun j f hf block hb => hG.subset (hw.sent j f hf block hb)
    refine forall_step (Q := fun _ _ log => ∀ f ∈ log, ∀ block ∈ f.blocks,
      block.header ∈ G'.headers) ?_ hold
    intro f hf block hb
    rcases List.mem_append.mp hf with hf | hf
    · exact hold e.1 f hf block hb
    · rcases Node.sent_step hf hb with hstored | ⟨h, r, proposer, hev, hp, rfl⟩
      · exact hG.subset ((hw.ledgers e.1).subset (List.mem_map.mpr ⟨block, hstored, rfl⟩))
      · exact hmined h r proposer hev hp
  applying := by
    have hold : ∀ j h r proposer block, (w j).1.phase = .applying h r proposer block →
        block.header ∈ G'.headers :=
      fun j h r proposer block hp => hG.subset (hw.applying j h r proposer block hp)
    refine forall_step (Q := fun _ n _ => ∀ h r proposer block,
      n.phase = .applying h r proposer block → block.header ∈ G'.headers) ?_ hold
    intro h r proposer block hp'
    rcases Node.applying_step hp' with hp | hb
    · exact hold e.1 h r proposer block hp
    · obtain ⟨j, f, hf, hfb⟩ := hdelivers block hb
      exact hG.subset (hw.sent j f hf block hfb)

theorem headers_step (w : World ι) (e : ι × Event) (j : ι) :
    (w j).1.ledger.headers <+: (w.step P e j).1.ledger.headers :=
  forall_step (Q := fun j n _ => (w j).1.ledger.headers <+: n.ledger.headers)
    ((w e.1).1.headers_next e.2) (fun _ => List.prefix_rfl) j

/-- A step that mines nothing stays inside the chain. -/
theorem OneChain.step_within {G : HeaderChain} {w : World ι} (hw : OneChain G w) {e : ι × Event}
    (hdelivers : w.Delivers e)
    (hmine : ¬ ∃ h r proposer, e.2 = .mine ∧ (w e.1).1.phase = .proposing h r proposer) :
    OneChain G (w.step P e) := by
  have hledger : ((w e.1).1.next P e.2).ledger.headers <+: G.headers := by
    apply Node.prefix_step (hw.ledgers e.1) hmine (hw.applying e.1)
    intro block hb
    obtain ⟨j, f, hf, hfb⟩ := hdelivers block hb
    exact hw.sent j f hf block hfb
  have hledgers := forall_step (P := P) (Q := fun _ n _ => n.ledger.headers <+: G.headers) hledger
    hw.ledgers
  obtain ⟨j, hj⟩ := hw.tip e.1
  have hgrows := w.headers_step (P := P) e j
  rw [hj] at hgrows
  refine hw.grow hdelivers List.prefix_rfl hledger ?_
    ⟨j, (hledgers j).eq_of_length_le hgrows.length_le⟩
  intro h r proposer hev hp
  exact absurd ⟨h, r, proposer, hev, hp⟩ hmine

/-- A block mined where no ledger is ahead extends the whole chain. -/
theorem OneChain.step_mined {G : HeaderChain} {w : World ι} (hw : OneChain G w) {i : ι} {h r : ℕ}
    {proposer : Address} (hp : (w i).1.phase = .proposing h r proposer)
    (hahead : ∀ j, (w j).1.ledger.height ≤ (w i).1.ledger.height) :
    ∃ G', OneChain G' (w.step P (i, .mine)) := by
  obtain ⟨j, hj⟩ := hw.tip i
  have hwhole : (w i).1.ledger.headers = G.headers := by
    apply (hw.ledgers i).eq_of_length_le
    have hle := hahead j
    rw [← hj, ChainLedger.length_headers, ChainLedger.length_headers]
    omega
  have hnext : ((w i).1.next P .mine).ledger = ((w i).1.ledger.mineBlock P proposer).1 := by
    simp only [Node.next, Node.step, hp, Node.mine]
  have hheight : ((w i).1.ledger.mineBlock P proposer).2.header.height = G.headers.length := by
    rw [← hwhole, ChainLedger.length_headers]
    rfl
  have hheaders : ((w i).1.next P .mine).ledger.headers = (G.push _ hheight).headers := by
    rw [hnext, ChainLedger.mineBlock_headers, hwhole]
    rfl
  refine ⟨G.push _ hheight, hw.grow (by simp [Delivers, Event.blocks]) (List.prefix_append _ _)
    (by rw [hheaders]) ?_ ⟨i, by rw [step_self]; exact hheaders⟩⟩
  intro h' r' proposer' _ hp'
  obtain ⟨rfl, rfl, rfl⟩ := Phase.proposing.inj (hp.symm.trans hp')
  exact List.mem_append_right _ (List.mem_singleton_self _)

theorem OneChain.step {G : HeaderChain} {w : World ι} (hw : OneChain G w) {e : ι × Event}
    (hdelivers : w.Delivers e) (hahead : w.MinesAhead e) : ∃ G', OneChain G' (w.step P e) := by
  by_cases hmine : ∃ h r proposer, e.2 = .mine ∧ (w e.1).1.phase = .proposing h r proposer
  · obtain ⟨i, ev⟩ := e
    obtain ⟨h, r, proposer, rfl, hp⟩ := hmine
    simp only [MinesAhead, hp] at hahead
    exact hw.step_mined hp hahead
  · exact ⟨G, hw.step_within hdelivers hmine⟩

/-- Honest nodes that start from one genesis never fork, if blocks are only
delivered after they were sent and every block is mined where no other ledger is
ahead. -/
theorem no_fork {genesis : GenesisConfig} {w : World ι} (hw : w.FromGenesis P genesis)
    (events : List (ι × Event))
    (hrun : Runs.Along (fun w e => w.Delivers e ∧ w.MinesAhead e) (World.step P) w events) :
    Runs.Throughout (NoFork P) (World.step P) w events :=
  hrun.throughout (I := fun w => ∃ G, OneChain G w)
    (fun _ _ hok ⟨_, hG⟩ => hG.step hok.1 hok.2) (fun _ ⟨_, hG⟩ => hG.noFork)
    ⟨_, hw.oneChain⟩

section Scenario
open Devnet

theorem two_isOk (i : Bool) : (startNode (pairKey i) [(1, 1000), (2, 1000)]).isOk = true := by
  cases i <;> decide +kernel

/-- Two equal validators. -/
def twoWorld : World Bool := fun i => (okValue _ (two_isOk i), [])

theorem two_fromGenesis : twoWorld.FromGenesis primitives (devGenesis []) where
  started i := ⟨_, _, _, start_of_startNode (eq_okValue _ (two_isOk i))⟩
  silent _ := rfl

/-- Nothing is delivered: keypair 2 mines in round 0, keypair 1 waits in vain and
mines in round 1. -/
def lostRun : List (Bool × Event) :=
  [(true, .attempt), (true, .elect (.listed _)), (true, .mine),
    (false, .attempt), (false, .elect (.listed _)), (false, .proposeTimeout (.listed _)),
    (false, .attempt), (false, .elect (.listed _)), (false, .mine)]

theorem fork_of_lost_proposal :
    twoWorld.FromGenesis primitives (devGenesis []) ∧
      Runs.Along Delivers (World.step primitives) twoWorld lostRun ∧
      ¬ NoFork primitives (Runs.run (World.step primitives) twoWorld lostRun) := by
  refine ⟨two_fromGenesis, by decide +kernel, fun hno => ?_⟩
  have hblocks : ∃ x ∈ (Runs.run (World.step primitives) twoWorld lostRun false).1.ledger.hashAt
      primitives 1, ∃ y ∈ (Runs.run (World.step primitives) twoWorld lostRun true).1.ledger.hashAt
      primitives 1, x ≠ y := by
    decide +kernel
  obtain ⟨x, hx, y, hy, hne⟩ := hblocks
  exact hne (hno false true 1 x y hx hy)

/-- The proposal of keypair 2 is received; keypair 1 then mines at height 2. -/
def receivedRun : List (Bool × Event) :=
  [(true, .attempt), (true, .elect (.listed _)), (true, .mine),
    (false, .attempt), (false, .elect (.listed _)),
    (false, .proposal 1 0 Node.goodBlock (.listed _)),
    (false, .apply (.listed _)), (false, .prevote (.listed _)),
    (false, .react (.listed _) (.listed _)), (false, .voteTimeout),
    (false, .attempt), (false, .elect (.listed _)), (false, .mine)]

theorem no_fork_received :
    ((Runs.run (World.step primitives) twoWorld receivedRun) false).1.ledger.height = 2 ∧
      Runs.Throughout (NoFork primitives) (World.step primitives) twoWorld receivedRun :=
  ⟨by decide +kernel, no_fork two_fromGenesis receivedRun (by decide +kernel)⟩

end Scenario

end World

end Sprax
