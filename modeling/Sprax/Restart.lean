import Sprax.Rounds
import Sprax.Devnet

/-!
# Stopping and restarting a validator

A validator process owns a directory with its store, its genesis file, its
staking file and its key. `new_or_load` followed by `start` rebuilds the ledger
from the store; everything else begins afresh, the round counter included. A
process that votes, stops before the height is in its store and starts again
attempts the same height from round 0, with no memory of its votes.
-/
namespace Sprax
open Std FiniteMap

/-- A validator's directory, and its running node if there is one. -/
structure Process where
  genesis : GenesisConfig
  stakingFile : StakingKeeper
  localKey : Ed25519Keypair
  store : Store
  node : Option Node

/-- The process is started, killed, or its node takes a step. -/
inductive ProcessEvent
  | start (records : IterOrder StakingValidator)
  | stop
  | run (ev : Event)

def Event.isAttempt : Event → Bool
  | .attempt => true
  | _ => false

namespace Process
variable (P : Primitives)

/-- `new_or_load` followed by `start`; both can fail, and then nothing runs. -/
def launch (p : Process) (records : IterOrder StakingValidator) : Option Node :=
  match ChainLedger.openOrInit P p.store p.genesis with
  | .error _ => none
  | .ok ledger =>
    match Node.start ledger p.stakingFile p.localKey records with
    | .error _ => none
    | .ok n => some n

/-- The store is written through: what the node's ledger holds is on disk. -/
def withNode (p : Process) (n : Node) : Process :=
  { p with store := n.ledger.store, node := some n }

def step (p : Process) : ProcessEvent → Process × List Effect
  | .start records => match p.node with
    | some _ => (p, [])
    | none => match p.launch P records with
      | none => (p, [])
      | some n => (p.withNode n, [])
  | .stop => ({ p with node := none }, [])
  | .run ev => match p.node with
    | none => (p, [])
    | some n => (p.withNode (n.step P ev).1, (n.step P ev).2)

/-- A process together with everything it has shown so far. -/
def history (p : Process) (events : List ProcessEvent) : Process × List Effect :=
  Runs.run (Runs.recorded (step P)) (p, []) events

/-- A start finds all heights voted at in the store, and no height is attempted
more often than the round counter counts. -/
def Safe (s : Process × List Effect) : ProcessEvent → Prop
  | .start _ => s.1.node.isNone = true →
      ∀ v ∈ castVotes s.2, v.height ≤ s.1.store.getHeight.getD 0
  | .stop => True
  | .run ev => ev.isAttempt = true → ∀ n ∈ s.1.node, n.phase = .idle →
      n.ledger.height + 1 = n.lastAttemptedHeight → n.currentRound + 1 < 2 ^ 32

instance (s : Process × List Effect) : ∀ ev, Decidable (Safe s ev)
  | .start _ => inferInstanceAs (Decidable (_ → ∀ v ∈ castVotes s.2, _))
  | .stop => isTrue trivial
  | .run _ => inferInstanceAs (Decidable (_ → ∀ n ∈ s.1.node, _ → _ → _))

variable {P}

/-- What a process has cast is consistent, and its node, if it runs, keeps count. -/
structure Sound (s : Process × List Effect) : Prop where
  steady : ∀ n ∈ s.1.node, Steady n.position n.ledger.height (castVotes s.2)
  oneVote : OneVote (castVotes s.2)

/-- A node starts at the persisted height and remembers nothing. -/
theorem launch_some {p : Process} {records : IterOrder StakingValidator} {n : Node}
    (h : p.launch P records = some n) :
    n.position = ⟨.idle, 0, 0, false⟩ ∧ n.ledger.height = p.store.getHeight.getD 0 := by
  unfold launch at h
  split at h
  · cases h
  · rename_i ledger hopen
    split at h
    · cases h
    · rename_i m hstart
      cases h
      obtain ⟨valSet, -, rfl⟩ := Node.start_ok hstart
      exact ⟨rfl, ChainLedger.openOrInit_height P hopen⟩

theorem steady_launch {votes : List Vote} (hone : OneVote votes) {H : ℕ}
    (hold : ∀ v ∈ votes, v.height ≤ H) : Steady ⟨.idle, 0, 0, false⟩ H votes where
  spent v hv := Or.inl (hold v hv)
  reach := Nat.zero_le _
  unvoted := by simp [Phase.unvoted]
  deciding := by simp [Phase.deciding]
  oneVote := hone

theorem Sound.run {p : Process} {log : List Effect} (h : Sound (p, log)) {n : Node}
    (hn : p.node = some n) {ev : Event} (hsafe : Safe (p, log) (.run ev)) :
    Sound (p.withNode (n.next P ev), log ++ (n.step P ev).2) := by
  have hsteady := (h.steady n hn).next (P := P) ev (by
    rintro rfl hidle hretry
    exact hsafe rfl n hn hidle hretry)
  rw [← castVotes_append] at hsteady
  refine ⟨?_, hsteady.oneVote⟩
  intro m hm
  cases hm
  exact hsteady

theorem Sound.step {s : Process × List Effect} (h : Sound s) {ev : ProcessEvent}
    (hsafe : Safe s ev) :
    Sound (Runs.recorded (step P) s ev) := by
  obtain ⟨p, log⟩ := s
  simp only [Runs.recorded, Process.step]
  cases ev with
  | start records =>
    cases hn : p.node with
    | some n => simpa [hn] using h
    | none =>
      cases hlaunch : p.launch P records with
      | none => simpa [hn, hlaunch] using h
      | some n =>
        obtain ⟨hpos, hheight⟩ := launch_some hlaunch
        have hold := hsafe (by rw [hn]; rfl)
        simp only [hlaunch, List.append_nil]
        refine ⟨?_, h.oneVote⟩
        intro m hm
        cases hm
        rw [hpos, hheight]
        exact steady_launch h.oneVote hold
  | stop =>
    simp only [List.append_nil]
    exact ⟨fun n hn => absurd hn (by simp), h.oneVote⟩
  | run ev =>
    cases hn : p.node with
    | none => simpa [hn] using h
    | some n => exact h.run hn hsafe

/-- A process that is only started when its store has reached every height it
voted at never signs two conflicting votes, over any number of restarts. -/
theorem history_oneVote {p : Process} (hdown : p.node = none) (events : List ProcessEvent)
    (hsafe : Runs.Along Safe (Runs.recorded (step P)) (p, []) events) :
    OneVote (castVotes (p.history P events).2) ∧
      ∀ e : EquivocationEvidence, e.voteA ∈ castVotes (p.history P events).2 →
        e.voteB ∈ castVotes (p.history P events).2 → e.isValidEquivocation = false := by
  have hsound : Sound (p.history P events) := hsafe.invariant (I := Sound)
    (fun s ev hok hs => hs.step hok)
    ⟨fun n hn => absurd hn (by simp [hdown]), fun v hv => absurd hv (by simp [castVotes])⟩
  refine ⟨hsound.oneVote, fun e hA hB => ?_⟩
  have hsame := hsound.oneVote _ hA _ hB
  simp only [EquivocationEvidence.isValidEquivocation, decide_eq_false_iff_not]
  rintro ⟨-, hheight, hround, htype, hne⟩
  exact hne (hsame htype hheight hround)

section Scenario
open Devnet

/-- The directory of keypair 1 on a network of two equal validators. -/
def devProcess : Process where
  genesis := devGenesis []
  stakingFile := okValue ((StakingKeeper.empty stakingParams).registerGenesis
    [validator (1, 1000), validator (2, 1000)]) (by decide +kernel)
  localKey := keypair 1
  store := Store.empty
  node := none

/-- The first block of the other validator. -/
def otherBlock : Block := (ledger.mineBlock primitives (addressOf 2)).2

/-- A propose timeout and a nil prevote in round 0 of height 1. -/
def timeoutRun : List ProcessEvent :=
  [.start (.listed _), .run .attempt, .run (.elect (.listed _)), .run (.proposeTimeout (.listed _))]

/-- A received proposal and a prevote for it in the first round. -/
def proposalRun : List ProcessEvent :=
  [.start (.listed _), .run .attempt, .run (.elect (.listed _)),
    .run (.proposal 1 0 otherBlock (.listed _)), .run (.apply (.listed _)),
    .run (.prevote (.listed _))]

/-- Restarted between the two, the process prevotes nil and then a block, both at
height 1 and round 0. -/
theorem restart_equivocates :
    ∃ v ∈ castVotes (devProcess.history primitives (timeoutRun ++ [.stop] ++ proposalRun)).2,
      ∃ w ∈ castVotes (devProcess.history primitives (timeoutRun ++ [.stop] ++ proposalRun)).2,
        v.voteType = w.voteType ∧ v.height = w.height ∧ v.round = w.round ∧
          v.blockHash ≠ w.blockHash ∧
          (⟨v.validatorAddress, v.height, v.round, v, w⟩ :
            EquivocationEvidence).isValidEquivocation = true := by
  decide +kernel

/-- Stopped after its block is stored, the process votes at the next height. -/
theorem history_oneVote_devnet :
    OneVote (castVotes (devProcess.history primitives (proposalRun ++ [.stop] ++ timeoutRun)).2) ∧
      (castVotes (devProcess.history primitives
        (proposalRun ++ [.stop] ++ timeoutRun)).2).length = 2 :=
  ⟨(history_oneVote (P := primitives) (p := devProcess) rfl _ (by decide +kernel)).1,
    by decide +kernel⟩

end Scenario

end Process

end Sprax
