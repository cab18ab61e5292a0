import Sprax.Restart
import Sprax.Slashing

/-!
# The staking file across restarts

A home directory keeps the staking keeper in a file, which `new_or_load` writes once,
from the validators of the genesis file, and reads at every later start. The running
node slashes the keeper in memory and no path of it writes the file again. So a
penalty lasts as long as the process: after the first stop every start brings the
validator back as the file has it.
-/
namespace Sprax
open Std FiniteMap

/-- A home directory, and its running node if there is one. -/
structure Home where
  params : StakingParams
  genesis : GenesisConfig
  stakingFile : Option StakingKeeper
  localKey : Ed25519Keypair
  store : Store
  node : Option Node

namespace Home
variable (P : Primitives)

/-- The keeper of `new_or_load`: from the file if it exists, otherwise from the
genesis validators. -/
def loadStaking (h : Home) : Except ConsensusError StakingKeeper :=
  match h.stakingFile with
  | some keeper => .ok keeper
  | none => (StakingKeeper.empty h.params).registerGenesis h.genesis.validators

/-- `new_or_load` opens the ledger and then loads or creates the staking file; the
consensus driver is started on both. Each step can fail, and then nothing runs. -/
def start (h : Home) (records : IterOrder StakingValidator) : Home :=
  match ChainLedger.openOrInit P h.store h.genesis with
  | .error _ => h
  | .ok ledger =>
    match h.loadStaking with
    | .error _ => { h with store := ledger.store }
    | .ok keeper =>
      let h := { h with store := ledger.store, stakingFile := some keeper }
      match Node.start ledger keeper h.localKey records with
      | .error _ => h
      | .ok n => { h with node := some n }

/-- One event of the process. -/
def step (h : Home) : ProcessEvent → Home
  | .start records => match h.node with
    | some _ => h
    | none => h.start P records
  | .stop => { h with node := none }
  | .run ev => match h.node with
    | none => h
    | some n => { h with store := (n.next P ev).ledger.store, node := some (n.next P ev) }

end Home

namespace StakingKeeper

/-- Every record of the later keeper was in the earlier one, and a tombstone stays. -/
def Aged (k k' : StakingKeeper) : Prop :=
  ∀ (a : Address) (v' : StakingValidator), k'.validators[a]? = some v' →
    ∃ v, k.validators[a]? = some v ∧ (v.isTombstoned = true → v'.isTombstoned = true)

theorem Aged.refl (k : StakingKeeper) : k.Aged k := fun _ v hv => ⟨v, hv, id⟩

theorem Aged.slash {k k' : StakingKeeper} (h : k.Aged k') (e : EquivocationEvidence) :
    k.Aged (k'.slashEquivocation e).1 := by
  intro a v' hv'
  by_cases ha : e.validatorAddress = a
  · subst ha
    unfold slashEquivocation at hv'
    split at hv'
    · cases hv : k'.validators[e.validatorAddress]? with
      | none =>
        simp only [hv] at hv'
        cases hv'
      | some v =>
        simp only [hv] at hv'
        obtain ⟨w, hw, hstays⟩ := h _ v hv
        refine ⟨w, hw, fun htombstoned => ?_⟩
        have hlate := hstays htombstoned
        rw [if_pos hlate, hv] at hv'
        cases hv'
        exact hlate
    · exact h _ v' hv'
  · rw [k'.slashEquivocation_other e ha] at hv'
    exact h a v' hv'

end StakingKeeper

namespace Home
variable {P : Primitives}

/-- The keeper of the running node descends from the one in the file. -/
def Backed (h : Home) : Prop :=
  ∀ n ∈ h.node, ∃ keeper, h.stakingFile = some keeper ∧ keeper.Aged n.staking

/-- What a start can do: fail on the way, or run a node on the loaded keeper, which is
then in the file. -/
inductive Started (h : Home) (records : IterOrder StakingValidator) : Home → Prop
  | failed (store : Store) : Started h records { h with store := store }
  | loaded {keeper : StakingKeeper} (hload : h.loadStaking = .ok keeper) (store : Store) :
      Started h records { h with store := store, stakingFile := some keeper }
  | running {keeper : StakingKeeper} {ledger : ChainLedger} {n : Node}
      (hload : h.loadStaking = .ok keeper)
      (hstart : Node.start ledger keeper h.localKey records = .ok n) :
      Started h records { h with store := ledger.store, stakingFile := some keeper, node := some n }

theorem started_start (h : Home) (records : IterOrder StakingValidator) :
    h.Started records (h.start P records) := by
  unfold start
  split
  · exact .failed h.store
  · split
    · exact .failed _
    · rename_i keeper hload
      dsimp only
      split
      · exact .loaded hload _
      · rename_i n hstart
        exact .running hload hstart

/-- What a step can do: a start of a running node and an event of a stopped one are
without effect. -/
inductive Stepped (P : Primitives) (h : Home) : ProcessEvent → Home → Prop
  | running {records : IterOrder StakingValidator} {n : Node} (hnode : h.node = some n) :
      Stepped P h (.start records) h
  | started {records : IterOrder StakingValidator} {h' : Home} (hnode : h.node = none)
      (hstarted : h.Started records h') : Stepped P h (.start records) h'
  | stopped : Stepped P h .stop { h with node := none }
  | down {ev : Event} (hnode : h.node = none) : Stepped P h (.run ev) h
  | ran {ev : Event} {n : Node} (hnode : h.node = some n) :
      Stepped P h (.run ev)
        { h with store := (n.next P ev).ledger.store, node := some (n.next P ev) }

theorem stepped_step (h : Home) (ev : ProcessEvent) : h.Stepped P ev (h.step P ev) := by
  unfold step
  cases ev with
  | start records =>
    cases hnode : h.node with
    | some n => exact .running hnode
    | none => exact .started hnode (h.started_start records)
  | stop => exact .stopped
  | run ev =>
    cases hnode : h.node with
    | none => exact .down hnode
    | some n => exact .ran hnode

/-- A fresh node works with the keeper it was started on. -/
theorem staking_of_start {ledger : ChainLedger} {staking : StakingKeeper}
    {localKey : Ed25519Keypair} {records : IterOrder StakingValidator} {n : Node}
    (h : Node.start ledger staking localKey records = .ok n) : n.staking = staking := by
  obtain ⟨valSet, -, rfl⟩ := Node.start_ok h
  rfl

theorem Backed.step {h : Home} (hbacked : h.Backed) (ev : ProcessEvent) : (h.step P ev).Backed := by
  have hstep := h.stepped_step (P := P) ev
  generalize h.step P ev = h' at hstep ⊢
  cases hstep with
  | running | down => exact hbacked
  | started hnode hstarted =>
    intro m hm
    cases hstarted with
    | failed store | loaded hload store =>
      simp only [hnode] at hm
      cases hm
    | running hload hstart =>
      cases hm
      refine ⟨_, rfl, ?_⟩
      rw [staking_of_start hstart]
      exact .refl _
  | stopped =>
    intro m hm
    cases hm
  | @ran ev n hnode =>
    obtain ⟨keeper, hfile, haged⟩ := hbacked n hnode
    intro m hm
    cases hm
    refine ⟨keeper, hfile, ?_⟩
    rcases n.staking_step (P := P) ev with hsame | ⟨e, -, hslash⟩ | ⟨_, _, _, _, -, -, -, -, hslash⟩
    · rwa [hsame]
    · rw [hslash]
      exact haged.slash e
    · rw [hslash]
      exact haged.slash _

theorem backed_run {h : Home} (hdown : h.node = none) (events : List ProcessEvent) :
    (Runs.run (step P) h events).Backed := by
  refine Runs.run_invariant (I := Backed) (fun h ev hbacked => hbacked.step ev) h events ?_
  intro n hn
  rw [hdown] at hn
  cases hn

theorem loadStaking_of_file {h : Home} {keeper : StakingKeeper}
    (hfile : h.stakingFile = some keeper) :
    h.loadStaking = .ok keeper := by
  simp [loadStaking, hfile]

/-- On the keeper that is loaded, a start is the launch of a process. -/
theorem start_node {h : Home} {keeper : StakingKeeper} (hload : h.loadStaking = .ok keeper)
    (hdown : h.node = none) (records : IterOrder StakingValidator) :
    (h.start P records).node =
      (⟨h.genesis, keeper, h.localKey, h.store, none⟩ : Process).launch P records := by
  simp only [start, Process.launch, hload]
  cases ChainLedger.openOrInit P h.store h.genesis with
  | error e => exact hdown
  | ok ledger =>
    dsimp only
    cases Node.start ledger keeper h.localKey records with
    | error e => exact hdown
    | ok n => rfl

/-- Nothing rewrites a staking file that exists. -/
theorem stakingFile_step {h : Home} {keeper : StakingKeeper} (hfile : h.stakingFile = some keeper)
    (ev : ProcessEvent) : (h.step P ev).stakingFile = some keeper := by
  have hstep := h.stepped_step (P := P) ev
  generalize h.step P ev = h' at hstep ⊢
  cases hstep with
  | running | stopped | down | ran => exact hfile
  | started hnode hstarted =>
    cases hstarted with
    | failed store => exact hfile
    | loaded hload store | running hload hstart =>
      rw [loadStaking_of_file hfile] at hload
      cases hload
      rfl

end Home

/-- Starting and stopping, as opposed to a step of the node. -/
def ProcessEvent.isRestart : ProcessEvent → Bool
  | .run _ => false
  | _ => true

namespace Home
variable {P : Primitives}

theorem stakingFile_run {h : Home} {keeper : StakingKeeper} (hfile : h.stakingFile = some keeper)
    (events : List ProcessEvent) : (Runs.run (step P) h events).stakingFile = some keeper :=
  Runs.run_invariant (I := fun h : Home => h.stakingFile = some keeper)
    (fun _ ev hfile => stakingFile_step hfile ev) h events hfile

/-- Without a stop the node runs on. -/
theorem run_of_no_stop {h : Home} {n : Node} (hn : h.node = some n) {restarts : List ProcessEvent}
    (hrestarts : ∀ ev ∈ restarts, ev.isRestart = true) (hstop : ∀ ev ∈ restarts, ev ≠ .stop) :
    (Runs.run (step P) h restarts).node = some n := by
  induction restarts generalizing h with
  | nil => exact hn
  | cons ev rest ih =>
    refine ih ?_ (fun e he => hrestarts e (List.mem_cons_of_mem ev he))
      (fun e he => hstop e (List.mem_cons_of_mem ev he))
    cases ev with
    | start records => simp only [step, hn]
    | stop => exact absurd rfl (hstop .stop List.mem_cons_self)
    | run ev => exact absurd (hrestarts _ List.mem_cons_self) (by simp [ProcessEvent.isRestart])

/-- A node that is started works with the keeper of the file. -/
theorem staking_of_restarts {h : Home} {keeper : StakingKeeper}
    (hfile : h.stakingFile = some keeper) (hnode : ∀ n ∈ h.node, n.staking = keeper)
    {restarts : List ProcessEvent} (hrestarts : ∀ ev ∈ restarts, ev.isRestart = true) :
    ∀ n ∈ (Runs.run (step P) h restarts).node, n.staking = keeper := by
  induction restarts generalizing h with
  | nil => exact hnode
  | cons ev rest ih =>
    refine ih (stakingFile_step hfile ev) ?_ (fun e he => hrestarts e (List.mem_cons_of_mem ev he))
    have hrestart := hrestarts ev List.mem_cons_self
    have hstep := h.stepped_step (P := P) ev
    generalize h.step P ev = h' at hstep ⊢
    cases hstep with
    | running => exact hnode
    | started hdown hstarted =>
      cases hstarted with
      | failed store | loaded hload store => exact hnode
      | running hload hstart =>
        rw [loadStaking_of_file hfile] at hload
        cases hload
        intro m hm
        cases hm
        exact staking_of_start hstart
    | stopped =>
      intro m hm
      cases hm
    | down | ran => cases hrestart

/-- A node slashes a validator; starts and stops follow, at the end of which a node
runs. It still has the validator removed, with the tokens it was left, exactly if
there was no stop. -/
theorem slash_survives_iff {h : Home} (hdown : h.node = none) (events : List ProcessEvent)
    {n : Node} (hn : (Runs.run (step P) h events).node = some n) {ev : Event} {a : Address}
    {v w : StakingValidator} (hv : n.staking.validators[a]? = some v)
    (hlive : v.isTombstoned = false) (hw : (n.next P ev).staking.validators[a]? = some w)
    (hslashed : w.isTombstoned = true) {restarts : List ProcessEvent}
    (hrestarts : ∀ e ∈ restarts, e.isRestart = true) {m : Node}
    (hm : (Runs.run (step P) h (events ++ [.run ev] ++ restarts)).node = some m) :
    (∃ w', m.staking.validators[a]? = some w' ∧ w'.isTombstoned = true ∧ w'.tokens = w.tokens) ↔
      ∀ e ∈ restarts, e ≠ .stop := by
  obtain ⟨keeper, hfile, haged⟩ := backed_run (P := P) hdown events n hn
  rw [Runs.run_append, Runs.run_append] at hm
  generalize Runs.run (step P) h events = h' at hn hfile hm
  have hslash : (Runs.run (step P) h' [.run ev]).node = some (n.next P ev) := by
    simp only [Runs.run_cons, Runs.run_nil, step, hn]
  have hfile' := stakingFile_step (P := P) hfile (.run ev)
  constructor
  · rintro ⟨w', hw', htombstoned, -⟩ e he rfl
    obtain ⟨earlier, later, rfl⟩ := List.append_of_mem he
    rw [Runs.run_append, Runs.run_cons] at hm
    -- the file has not changed, and it is the older of the two keepers
    have hreloaded : m.staking = keeper := by
      refine staking_of_restarts (stakingFile_step (stakingFile_run hfile' earlier) .stop) ?_
        (fun e he => hrestarts e (List.mem_append_right _ (List.mem_cons_of_mem _ he))) m hm
      intro m' hm'
      cases hm'
    obtain ⟨v₀, hv₀, hstays⟩ := haged a v hv
    rw [hreloaded, hv₀] at hw'
    cases hw'
    rw [hstays htombstoned] at hlive
    cases hlive
  · intro hstop
    have hsame := run_of_no_stop (P := P) hslash hrestarts hstop
    rw [hsame] at hm
    cases hm
    exact ⟨w, hw, hslashed, rfl⟩

section Scenario
open Devnet

/-- A fresh directory of keypair 1, with two equal validators in its genesis file. -/
def devHome : Home where
  params := stakingParams
  genesis := devGenesis [validator (1, 1000), validator (2, 1000)]
  stakingFile := none
  localKey := keypair 1
  store := Store.empty
  node := none

/-- The record that a running node has of keypair 2. -/
def secondOf (h : Home) : Option StakingValidator :=
  h.node.bind (fun n => n.staking.validators[addressOf 2]?)

/-- The active set of a running node has keypair 2 as a member. -/
def activeSecond (h : Home) : Bool :=
  match h.node with
  | none => false
  | some n =>
    match n.staking.getActiveValidatorSet (.listed _) with
    | .error _ => false
    | .ok s => s.validators.any (fun v => v.address = addressOf 2)

/-- Slashed, keypair 2 leaves the active set of the node; after a restart it has its
stake back and is a member again. -/
theorem slash_forgotten :
    ((secondOf (Runs.run (step primitives) devHome
        [.start (.listed _), .run (.evidence Node.forgedEvidence)])).map
          (fun v => (v.isTombstoned, v.tokens)) = some (true, ⟨950 * attoSprxPerSprx, by decide⟩)) ∧
      activeSecond (Runs.run (step primitives) devHome
        [.start (.listed _), .run (.evidence Node.forgedEvidence)]) = false ∧
      ((secondOf (Runs.run (step primitives) devHome
        ([.start (.listed _), .run (.evidence Node.forgedEvidence)] ++
          [.stop, .start (.listed _)]))).map (fun v => (v.isTombstoned, v.tokens)) =
            some (false, ⟨1000 * attoSprxPerSprx, by decide⟩)) ∧
      activeSecond (Runs.run (step primitives) devHome
        ([.start (.listed _), .run (.evidence Node.forgedEvidence)] ++ [.stop, .start (.listed _)]))
          = true := by
  decide +kernel

/-- A start while the node is running does nothing, and the penalty stays. -/
theorem slash_survives_iff_devnet :
    ∃ m, (Runs.run (step primitives) devHome ([.start (.listed _)] ++
        [.run (.evidence Node.forgedEvidence)] ++ [.start (.listed _)])).node = some m ∧
      ∃ w, m.staking.validators[addressOf 2]? = some w ∧ w.isTombstoned = true := by
  obtain ⟨n, hn⟩ := Option.isSome_iff_exists.mp (by decide +kernel :
    (Runs.run (step primitives) devHome [.start (.listed _)]).node.isSome = true)
  obtain ⟨m, hm⟩ := Option.isSome_iff_exists.mp (by decide +kernel :
    (Runs.run (step primitives) devHome ([.start (.listed _)] ++
      [.run (.evidence Node.forgedEvidence)] ++ [.start (.listed _)])).node.isSome = true)
  have hbefore : (secondOf (Runs.run (step primitives) devHome [.start (.listed _)])).map
      (fun v => v.isTombstoned) = some false := by decide +kernel
  have hafter : (secondOf (Runs.run (step primitives) devHome ([.start (.listed _)] ++
      [.run (.evidence Node.forgedEvidence)]))).map (fun v => v.isTombstoned) = some true := by
    decide +kernel
  obtain ⟨v, hv, hlive⟩ := Option.map_eq_some_iff.mp hbefore
  obtain ⟨w, hw, hslashed⟩ := Option.map_eq_some_iff.mp hafter
  rw [secondOf, hn, Option.bind_some] at hv
  rw [Runs.run_append, Runs.run_cons, Runs.run_nil, secondOf, step, hn] at hw
  obtain ⟨w', hw', hstays, -⟩ :=
    (slash_survives_iff rfl [.start (.listed _)] hn hv hlive hw hslashed
    (by decide) hm).mpr (by simp)
  exact ⟨m, hm, w', hw', hstays⟩

end Scenario

end Home

end Sprax
