import Sprax.Fairness

/-!
# How long a member waits for its turn

A refresh carries the priorities of the members that stay as they are, whatever becomes
of the powers. Priorities of a time of larger powers, or of members that have left, are
not scaled down: they are worked off turn by turn, and a member may wait longer than any
multiple of the present total. It never waits longer than twice the total and twice what
the priorities amounted to when the set last changed.
-/
namespace Sprax

namespace ValidatorSet

/-- What the priorities amount to. -/
def spread (s : ValidatorSet) : ℕ := (s.validators.map (fun v => v.proposerPriority.natAbs)).sum

/-- A set as it is built from new validators with distinct addresses, of bounded power. -/
structure Admissible (bound : ℕ) (s : ValidatorSet) : Prop where
  built : ∃ validators, new validators = .ok s
  distinct : (s.validators.map Validator.address).Nodup
  fresh : s.Fresh
  power_le : (s.validators.map Validator.votingPower).sum ≤ bound

/-- What holds of the set of an engine after `calls` calls. -/
structure Within (bound calls : ℕ) (s : ValidatorSet) : Prop where
  exact : s.Exact
  total_le : s.totalVotingPower ≤ bound
  priority_le : ∀ v ∈ s.validators, |v.proposerPriority| ≤ calls * bound

section Step
variable {s : ValidatorSet} {bound calls : ℕ} {priority : Address → ℤ}

theorem withPriorities_priorityOf (hdistinct : (s.validators.map Validator.address).Nodup) :
    s.withPriorities s.priorityOf = s := by
  refine eq_of_validators ((List.map_congr_left (fun v hv => ?_)).trans (List.map_id _)) rfl
  rw [priorityOf_of_mem hdistinct hv, id_eq]

theorem sum_abs_priorityOf (hdistinct : (s.validators.map Validator.address).Nodup) :
    ∑ a ∈ s.members, |s.priorityOf a| = s.spread := by
  rw [sum_members hdistinct, spread, Nat.cast_list_sum, List.map_map]
  refine congrArg List.sum (List.map_congr_left (fun v hv => ?_))
  rw [priorityOf_of_mem hdistinct hv, Function.comp_apply, Int.natCast_natAbs]

/-- Small priorities are in range. -/
theorem inRange_of_le (hs : s.Exact) (htotal : s.totalVotingPower ≤ bound)
    (hle : ∀ a ∈ s.members, |priority a| ≤ calls * bound) (hroom : (calls + 1) * bound < 2 ^ 62) :
    s.InRange priority := by
  have hroom : (calls : ℤ) * bound + bound < 2 ^ 62 := by
    rw [add_mul, one_mul] at hroom
    exact_mod_cast hroom
  refine ⟨fun a ha => ?_, fun k hk => ?_⟩
  · have hpower := hs.powerOf_le ha
    have habs := abs_le.mp (hle a ha)
    constructor
    · omega
    · omega
  · have habs := abs_le.mp (hle k hk.1)
    omega

/-- A turn moves a priority by at most the total. -/
theorem settle_le (hs : s.Exact) (htotal : s.totalVotingPower ≤ bound)
    (hle : ∀ a ∈ s.members, |priority a| ≤ calls * bound) (k : Address) {a : Address}
    (ha : a ∈ s.members) :
    |RoundRobin.settle s.members s.powerOf priority k a| ≤ (calls + 1 : ℕ) * bound := by
  have hpower := hs.powerOf_le ha
  have habs := abs_le.mp (hle a ha)
  rw [Nat.cast_add, Nat.cast_one, add_mul, one_mul, RoundRobin.settle, hs.total, abs_le]
  split
  · constructor <;> omega
  · constructor <;> omega

theorem Admissible.exact (hs : s.Admissible bound) (hbound : bound < 2 ^ 62) : s.Exact := by
  obtain ⟨validators, hnew⟩ := hs.built
  have htotal := total_of_new hnew
  have hle := hs.power_le
  rw [Nat.mod_eq_of_lt (by omega)] at htotal
  exact ⟨hs.distinct, htotal, by omega⟩

theorem Admissible.within (hs : s.Admissible bound) (hbound : bound < 2 ^ 62) :
    s.Within bound 0 := by
  have hexact := hs.exact hbound
  refine ⟨hexact, hexact.total_eq ▸ hs.power_le, fun v hv => ?_⟩
  rw [hs.fresh v hv]
  simp

theorem Within.succ (hs : s.Within bound calls) : s.Within bound (calls + 1) := by
  refine ⟨hs.exact, hs.total_le, fun v hv => (hs.priority_le v hv).trans ?_⟩
  exact_mod_cast Nat.mul_le_mul_right bound (Nat.le_succ calls)

theorem Within.abs_priorityOf_le (hs : s.Within bound calls) {a : Address} (ha : a ∈ s.members) :
    |s.priorityOf a| ≤ calls * bound := by
  obtain ⟨v, hv, rfl⟩ := mem_members.mp ha
  rw [priorityOf_of_mem hs.exact.distinct hv]
  exact hs.priority_le v hv

theorem within_withPriorities (hs : s.Exact) (htotal : s.totalVotingPower ≤ bound)
    (hle : ∀ a ∈ s.members, |priority a| ≤ calls * bound) :
    (s.withPriorities priority).Within bound calls := by
  refine ⟨⟨?_, ?_, hs.total_lt⟩, htotal, fun x hx => ?_⟩
  · rw [addresses_withPriorities]
    exact hs.distinct
  · rw [withPriorities, List.map_map]
    exact hs.total_eq
  · obtain ⟨v, hv, rfl⟩ := List.mem_map.mp hx
    exact hle v.address (mem_members.mpr ⟨v, hv, rfl⟩)

theorem Within.selectProposer (hs : s.Within bound calls) (hroom : (calls + 1) * bound < 2 ^ 62) :
    s.selectProposer.1.Within bound (calls + 1) := by
  have hself := withPriorities_priorityOf hs.exact.distinct
  have hle := fun a (ha : a ∈ s.members) => hs.abs_priorityOf_le ha
  obtain ⟨k, -, hnext, -⟩ :=
    selectProposer_withPriorities hs.exact (inRange_of_le hs.exact hs.total_le hle hroom)
  rw [hself] at hnext
  rw [hnext]
  exact within_withPriorities hs.exact hs.total_le
    (fun a ha => settle_le hs.exact hs.total_le hle k ha)

theorem Within.carriedFrom {old : ValidatorSet} (hold : old.Within bound calls)
    (hs : s.Admissible bound) (hbound : bound < 2 ^ 62) :
    (s.carriedFrom old).Within bound calls := by
  have hfresh := hs.within hbound
  rw [carriedFrom_eq hs.fresh]
  refine within_withPriorities hfresh.exact hfresh.total_le (fun a _ => ?_)
  by_cases hmem : a ∈ old.members
  · exact hold.abs_priorityOf_le hmem
  · have hnone : old.find a = none := List.find?_eq_none.mpr (fun v hv hva =>
      hmem (mem_members.mpr ⟨v, hv, by simpa using hva⟩))
    rw [priorityOf, hnone, Option.elim_none, abs_zero]
    positivity

end Step

end ValidatorSet

namespace BftConsensusEngine

theorem proposers_append (E : BftConsensusEngine) (calls more : List SetCall) :
    E.proposers (calls ++ more) = E.proposers calls ++ (Runs.run setCall E calls).proposers
      more := by
  induction calls generalizing E with
  | nil => rfl
  | cons c rest ih => cases c <;> simp [proposers, ih, setCall]

/-- No history takes the priorities further than a total for every call. -/
theorem within_run {bound k : ℕ} {E : BftConsensusEngine} (hE : E.valSet.Within bound k)
    {calls : List SetCall} (hsets : ∀ s, .setValidatorSet s ∈ calls → s.Admissible bound)
    (hbound : bound < 2 ^ 62) (hroom : (k + calls.length) * bound < 2 ^ 62) :
    (Runs.run setCall E calls).valSet.Within bound (k + calls.length) := by
  induction calls generalizing E k with
  | nil => exact hE
  | cons c rest ih =>
    have hshift : k + (c :: rest).length = k + 1 + rest.length := by
      rw [List.length_cons]
      omega
    have hrest : ∀ s, SetCall.setValidatorSet s ∈ rest → s.Admissible bound := fun s hs =>
      hsets s (List.mem_cons_of_mem c hs)
    rw [hshift] at hroom ⊢
    refine ih ?_ hrest hroom
    cases c with
    | selectProposer =>
      have hnext : (k + 1) * bound ≤ (k + 1 + rest.length) * bound :=
        Nat.mul_le_mul_right bound (Nat.le_add_right _ _)
      exact hE.selectProposer (by omega)
    | setValidatorSet s => exact (hE.carriedFrom (hsets s List.mem_cons_self) hbound).succ

/-- As long as members and powers stay, the calls play turns of one schedule. -/
theorem turns_of_within {E : BftConsensusEngine} {bound k : ℕ} (hE : E.valSet.Within bound k)
    {calls : List SetCall} (hcalls : Refreshes E.valSet calls)
    (hroom : (k + calls.length) * bound < 2 ^ 62) :
    RoundRobin.Turns E.valSet.members E.valSet.powerOf E.valSet.priorityOf (E.proposers calls) := by
  -- after `j` calls less the priorities may be larger by `j` times the bound
  refine (turns_of_refreshes hE.exact (I := fun left p => ∃ j, (j + left) * bound < 2 ^ 62 ∧
    ∀ a ∈ E.valSet.members, |p a| ≤ j * bound) ?_ ?_ ?_
    (ValidatorSet.withPriorities_priorityOf hE.exact.distinct).symm
    ⟨k, hroom, fun a ha => hE.abs_priorityOf_le ha⟩ hcalls).1
  · rintro left p ⟨j, hroom, hle⟩
    refine ValidatorSet.inRange_of_le hE.exact hE.total_le hle (lt_of_le_of_lt ?_ hroom)
    exact Nat.mul_le_mul_right bound (by omega)
  · rintro left p ⟨j, hroom, hle⟩
    exact ⟨j, lt_of_le_of_lt (Nat.mul_le_mul_right bound (by omega)) hroom, hle⟩
  · rintro left p a ⟨j, hroom, hle⟩ -
    refine ⟨j + 1, by rwa [Nat.add_right_comm], fun b hb => ?_⟩
    exact ValidatorSet.settle_le hE.exact hE.total_le hle a hb

/-- A member with power gets its turn in every window that is long enough. -/
theorem mem_proposers_of_unchanged {E : BftConsensusEngine} {bound k : ℕ}
    (hE : E.valSet.Within bound k) {pre window : List SetCall}
    (hsame : Refreshes E.valSet (pre ++ window))
    (hroom : (k + (pre ++ window).length) * bound < 2 ^ 62)
    (hlong : 2 * E.valSet.totalVotingPower + 2 * E.valSet.spread ≤ window.count .selectProposer)
    {v : Validator} (hv : v ∈ E.valSet.validators) (hpower : 1 ≤ v.votingPower) :
    v.address ∈ (Runs.run setCall E pre).proposers window := by
  have hdistinct := hE.exact.distinct
  have hmem : v.address ∈ E.valSet.members := ValidatorSet.mem_members.mpr ⟨v, hv, rfl⟩
  have hturns := turns_of_within hE hsame hroom
  rw [proposers_append, RoundRobin.Turns.append] at hturns
  have hspread : RoundRobin.Spread E.valSet.members E.valSet.powerOf E.valSet.spread
      E.valSet.priorityOf := by
    rw [← ValidatorSet.sum_abs_priorityOf hdistinct]
    exact RoundRobin.spread_of_abs _
  have hlater := hspread.settled (Nat.cast_nonneg _) hturns.1
  refine hlater.mem_of_length (Nat.cast_nonneg _) hmem ?_ hturns.2 ?_
  · rw [ValidatorSet.powerOf_of_mem hdistinct hv]
    exact hpower
  · rw [proposers_length, hE.exact.total]
    exact_mod_cast hlong

/-- Whatever sets an engine has had: once members and powers stay as they are, with a
total `W` and priorities that amount to `D`, every member with power is selected in every
`2 W + 2 D` consecutive selections. -/
theorem proposers_recur {h : ℕ} {s₀ : ValidatorSet} {bound : ℕ} (hs₀ : s₀.Admissible bound)
    {before pre window : List SetCall}
    (hsets : ∀ s, .setValidatorSet s ∈ before ++ (pre ++ window) → s.Admissible bound)
    (hcalls : (before ++ (pre ++ window)).length * bound < 2 ^ 62)
    (hsame : ∀ s, .setValidatorSet s ∈ pre ++ window →
      s.roster = (Runs.run setCall (new h s₀) before).valSet.roster)
    (hlong : 2 * (Runs.run setCall (new h s₀) before).valSet.totalVotingPower +
      2 * (Runs.run setCall (new h s₀) before).valSet.spread ≤ window.count .selectProposer)
    {v : Validator} (hv : v ∈ (Runs.run setCall (new h s₀) before).valSet.validators)
    (hpower : 1 ≤ v.votingPower) :
    v.address ∈ (Runs.run setCall (new h s₀) (before ++ pre)).proposers window := by
  have hbound : bound < 2 ^ 62 := by
    by_contra hlarge
    -- a run without calls has no window, since the total of a set is not zero
    have hempty : before ++ (pre ++ window) = [] := by
      by_contra hne
      have hmul := Nat.mul_le_mul_right bound (List.length_pos_iff.mpr hne)
      omega
    obtain ⟨rfl, hrest⟩ := List.append_eq_nil_iff.mp hempty
    obtain ⟨rfl, rfl⟩ := List.append_eq_nil_iff.mp hrest
    obtain ⟨validators, hnew⟩ := hs₀.built
    have htotal : s₀.totalVotingPower ≠ 0 := (ValidatorSet.new_ok hnew).2.2
    simp only [Runs.run_nil, new, List.count_nil] at hlong
    omega
  rw [List.length_append, ← Nat.zero_add before.length] at hcalls
  have hstart : (Runs.run setCall (new h s₀) before).valSet.Within bound (0 + before.length) := by
    refine within_run (hs₀.within hbound)
      (fun s hs => hsets s (List.mem_append_left _ hs)) hbound ?_
    have hmul := Nat.mul_le_mul_right bound
      (Nat.le_add_right (0 + before.length) (pre ++ window).length)
    omega
  rw [Runs.run_append]
  refine mem_proposers_of_unchanged hstart (fun t ht => ?_) hcalls hlong hv hpower
  have hadmissible := hsets t (List.mem_append_right _ ht)
  refine ⟨hadmissible.fresh, hsame t ht, ?_⟩
  have hpowers := congrArg (List.map fun e => e.2.2) (hsame t ht)
  simp only [ValidatorSet.roster, List.map_map] at hpowers
  rw [(hadmissible.exact hbound).total_eq, hstart.exact.total_eq]
  exact congrArg List.sum hpowers

section Scenario
open Devnet

/-- Validators 1 and 2 with the same power. -/
def evenSet (power : ℕ) : ValidatorSet :=
  ⟨[⟨addressOf 1, [], power, 0⟩, ⟨addressOf 2, [], power, 0⟩], 2 * power, List.cons_ne_nil _ _⟩

/-- Validator 1 listed twice, with validator 2. -/
def doubledSet : ValidatorSet :=
  ⟨[⟨addressOf 1, [], 1, 0⟩, ⟨addressOf 1, [], 1, 0⟩, ⟨addressOf 2, [], 1, 0⟩], 3,
    List.cons_ne_nil _ _⟩

/-- A refresh before every selection. -/
def refreshedSelections (s : ValidatorSet) : ℕ → List SetCall
  | 0 => []
  | n + 1 => .setValidatorSet s :: .selectProposer :: refreshedSelections s n

theorem evenSet_admissible {power bound : ℕ}
    (hbuilt : ValidatorSet.new (evenSet power).validators = .ok (evenSet power))
    (hle : 2 * power ≤ bound) : (evenSet power).Admissible bound where
  built := ⟨_, hbuilt⟩
  distinct := show [addressOf 1, addressOf 2].Nodup by decide +kernel
  fresh := by simp [ValidatorSet.Fresh, evenSet]
  power_le := by simpa [evenSet, ← Nat.two_mul] using hle

theorem evenSets_admissible : (evenSet 10).Admissible 20 ∧ (evenSet 1).Admissible 20 :=
  ⟨evenSet_admissible (by decide +kernel) (by decide), evenSet_admissible (by decide +kernel)
    (by decide)⟩

/-- One selection among large powers, then a refresh by small ones. -/
def shrinking : List SetCall := [.selectProposer, .setValidatorSet (evenSet 1)]

/-- After one selection with powers of ten and a refresh by powers of one, six selections,
three times the total, pass validator 2 over. A set that lists an address twice is
accepted too: with a refresh before every selection validator 2 is passed over in nine
selections, again three times the total. -/
theorem proposers_starved :
    ((evenSet 10).Admissible 20 ∧ (evenSet 1).Admissible 20) ∧
      (Runs.run setCall (new 1 (evenSet 10)) shrinking).valSet.totalVotingPower = 2 ∧
      addressOf 2 ∈ (Runs.run setCall (new 1 (evenSet 10)) shrinking).valSet.members ∧
      addressOf 2 ∉ (Runs.run setCall (new 1 (evenSet 10)) shrinking).proposers
        (List.replicate 6 .selectProposer) ∧
      ValidatorSet.new doubledSet.validators = .ok doubledSet ∧
      addressOf 2 ∈ doubledSet.members ∧
      addressOf 2 ∉ (Runs.run setCall (new 1 doubledSet)
        (refreshedSelections doubledSet 1)).proposers (refreshedSelections doubledSet 9) :=
  ⟨evenSets_admissible, by decide +kernel⟩

/-- The same shrinking powers: within 44 selections validator 2 has its turn. -/
theorem proposers_recur_devnet :
    addressOf 2 ∈ (Runs.run setCall (new 1 (evenSet 10)) (shrinking ++ [])).proposers
      (List.replicate 44 .selectProposer) := by
  obtain ⟨hlarge, hsmall⟩ := evenSets_admissible
  have hmem : (⟨addressOf 2, [], 1, -10⟩ : Validator) ∈
      (Runs.run setCall (new 1 (evenSet 10)) shrinking).valSet.validators := by decide +kernel
  refine proposers_recur hlarge (fun s hs => ?_) (by decide) (fun s hs => ?_) (by decide +kernel)
    hmem (by decide)
  · have hcase : s = evenSet 1 := by simpa [shrinking, List.mem_replicate] using hs
    rw [hcase]
    exact hsmall
  · simp at hs

end Scenario

end BftConsensusEngine

end Sprax
