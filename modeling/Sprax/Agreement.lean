import Mathlib.Algebra.BigOperators.Group.Finset.Basic
import Mathlib.Algebra.Order.BigOperators.Group.Finset
import Mathlib.Tactic.Linarith

/-!
# Agreement from intersecting weighted quorums

Voters carry weights, and less than a third of the total weight is faulty. A
ballot box is the set of ballots that honest voters have cast; faulty voters are
not recorded, because nothing restricts them. A certificate is a set of voters
heavier than two thirds whose honest members all cast the certified ballot.
Whoever casts at most one value per height makes certificates unique.
-/
namespace Sprax.Agreement
open scoped BigOperators

variable {ν η ρ χ : Type*} [DecidableEq ν]

/-- Voters with weights, of which the faulty ones weigh less than a third. -/
structure Electorate (ν : Type*) [DecidableEq ν] where
  voters : Finset ν
  weight : ν → ℕ
  faulty : Finset ν
  faulty_subset : faulty ⊆ voters
  faulty_light : 3 * ∑ v ∈ faulty, weight v < ∑ v ∈ voters, weight v

/-- A set of voters heavier than two thirds of the electorate. -/
def Electorate.Quorum (E : Electorate ν) (A : Finset ν) : Prop :=
  A ⊆ E.voters ∧ 2 * ∑ v ∈ E.voters, E.weight v < 3 * ∑ v ∈ A, E.weight v

/-- Two quorums share a voter that is not faulty. -/
theorem Electorate.quorums_meet (E : Electorate ν) {A B : Finset ν}
    (hA : E.Quorum A) (hB : E.Quorum B) : ∃ v ∈ A, v ∈ B ∧ v ∉ E.faulty := by
  by_contra hnone
  push Not at hnone
  have hsub : A ∩ B ⊆ E.faulty := by
    intro v hv
    obtain ⟨ha, hb⟩ := Finset.mem_inter.mp hv
    exact hnone v ha hb
  have hinter : ∑ v ∈ A ∩ B, E.weight v ≤ ∑ v ∈ E.faulty, E.weight v :=
    Finset.sum_le_sum_of_subset hsub
  have hunion : ∑ v ∈ A ∪ B, E.weight v ≤ ∑ v ∈ E.voters, E.weight v :=
    Finset.sum_le_sum_of_subset (Finset.union_subset hA.1 hB.1)
  have hsplit : ∑ v ∈ A ∪ B, E.weight v + ∑ v ∈ A ∩ B, E.weight v =
      ∑ v ∈ A, E.weight v + ∑ v ∈ B, E.weight v := Finset.sum_union_inter
  have hq := hA.2
  have hq' := hB.2
  have hlight := E.faulty_light
  omega

/-- Ballots cast by honest voters: voter, height, round and value. -/
abbrev Box (ν η ρ χ : Type*) := Set (ν × η × ρ × χ)

/-- Every honest voter votes for at most one value at each height, over all rounds. -/
def Box.OneValue (b : Box ν η ρ χ) : Prop :=
  ∀ v h r r' x y, (v, h, r, x) ∈ b → (v, h, r', y) ∈ b → x = y

/-- A quorum whose honest members cast the ballot for `x` at this height and round. -/
def Electorate.Certified (E : Electorate ν) (b : Box ν η ρ χ) (h : η) (r : ρ) (x : χ) : Prop :=
  ∃ A, E.Quorum A ∧ ∀ v ∈ A, v ∉ E.faulty → (v, h, r, x) ∈ b

/-- Certificates outlive the ballots cast after them. -/
theorem Electorate.Certified.mono {E : Electorate ν} {b c : Box ν η ρ χ} {h : η} {r : ρ} {x : χ}
    (hbc : b ⊆ c) (hc : E.Certified b h r x) : E.Certified c h r x := by
  obtain ⟨A, hA, hcast⟩ := hc
  exact ⟨A, hA, fun v hv hf => hbc (hcast v hv hf)⟩

/-- Certificates at one height agree, whatever their rounds. -/
theorem Electorate.agreement (E : Electorate ν) {b : Box ν η ρ χ} (hone : b.OneValue)
    {h : η} {r r' : ρ} {x y : χ} (hx : E.Certified b h r x) (hy : E.Certified b h r' y) :
    x = y := by
  obtain ⟨A, hA, hcastA⟩ := hx
  obtain ⟨B, hB, hcastB⟩ := hy
  obtain ⟨v, hvA, hvB, hf⟩ := E.quorums_meet hA hB
  exact hone v h r r' x y (hcastA v hvA hf) (hcastB v hvB hf)

end Sprax.Agreement
