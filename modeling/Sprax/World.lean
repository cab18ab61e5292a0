import Sprax.Rounds

/-!
# A network of nodes

One node for every index, together with everything it has shown so far. An event
names the node that takes the step, so a run of the network is an interleaving
of node steps. Messages are not queued: a delivery is an event with arbitrary
content, and what may be delivered is said by the guards of a run, over the
records of all nodes.
-/
namespace Sprax
open Std FiniteMap

namespace Node
variable {P : Primitives}

/-- The key of a node never changes. -/
theorem localKey_next (n : Node) (ev : Event) : (n.next P ev).localKey = n.localKey := by
  have hfired := step_fired (P := P) n ev
  unfold Node.next
  generalize n.step P ev = result at hfired
  cases hfired with
  | reacted =>
    obtain ⟨phase, hframe⟩ := countPrecommit_frame _ _ _ _ _
    rw [hframe]
  | @voted h r v o validator hp =>
    obtain ⟨staking, hslash⟩ := n.slashConflict_frame v
    obtain ⟨engine, phase, hframe⟩ := countVote_frame (n.slashConflict v).1 h r v o
    rw [hframe, hslash]
  | _ => rfl

/-- A node votes in its own name only. -/
theorem castVotes_own {n : Node} {ev : Event} {v : Vote} (hv : v ∈ castVotes (n.step P ev).2) :
    v.validatorAddress = n.localAddr P := by
  have hmoved := n.driver_moved (P := P) ev
  generalize (n.next P ev).position = q at hmoved
  generalize castVotes (n.step P ev).2 = cast at hmoved hv
  cases hmoved with
  | rested | attempted | advanced | waited | ended => cases hv
  | refused | prevoted | precommitted =>
    rw [List.mem_singleton.mp hv]
    rfl

end Node

/-- The nodes of a network, each with its record. -/
abbrev World (ι : Type*) := ι → Node × List Effect

namespace World
variable {P : Primitives} {ι : Type*} [DecidableEq ι]

/-- One node takes a step. -/
def step (P : Primitives) (w : World ι) (e : ι × Event) : World ι :=
  Runs.interleaved (Runs.recorded (Node.step P)) w e

theorem step_self (w : World ι) (e : ι × Event) :
    w.step P e e.1 = ((w e.1).1.next P e.2, (w e.1).2 ++ ((w e.1).1.step P e.2).2) :=
  Function.update_self _ _ _

/-- What holds of every node and of the stepping node after its step holds of
every node after the step. -/
theorem forall_step {w : World ι} {e : ι × Event} {Q : ι → Node → List Effect → Prop}
    (hself : Q e.1 ((w e.1).1.next P e.2) ((w e.1).2 ++ ((w e.1).1.step P e.2).2))
    (hall : ∀ j, Q j (w j).1 (w j).2) (j : ι) : Q j (w.step P e j).1 (w.step P e j).2 :=
  Runs.interleaved_of (Q := fun j (s : Node × List Effect) => Q j s.1 s.2) hself
    (fun j _ => hall j) j

theorem localKey_step (w : World ι) (e : ι × Event) (j : ι) :
    (w.step P e j).1.localKey = (w j).1.localKey :=
  forall_step (Q := fun j n _ => n.localKey = (w j).1.localKey) ((w e.1).1.localKey_next e.2)
    (fun _ => rfl) j

/-- Records only grow. -/
theorem mem_step {w : World ι} {j : ι} {f : Effect} (hf : f ∈ (w j).2) (e : ι × Event) :
    f ∈ (w.step P e j).2 := by
  refine forall_step (Q := fun j _ log => f ∈ (w j).2 → f ∈ log) ?_ (fun _ => id) j hf
  intro hf
  exact List.mem_append_left _ hf

end World

end Sprax
