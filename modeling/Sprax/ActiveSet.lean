import Sprax.Ranking
import Sprax.Devnet

/-!
# The active set as a function of the records

The active records are ranked by their tokens and cut after `max_validators` places, in
whatever order the table is enumerated. Powers are whole SPRX, narrowed to 64 bits, and
their sum and its double are 64-bit as well. Two questions are answered by equivalences:
when all this arithmetic is exact, and when the enumeration order makes no difference.
-/
namespace Sprax
open Std FiniteMap

instance totalTokensGE : Std.Total StakingKeeper.tokensGE := ⟨fun _ _ => Nat.le_total _ _⟩

instance transTokensGE : IsTrans StakingValidator StakingKeeper.tokensGE :=
  ⟨fun _ _ _ hab hbc => Nat.le_trans hbc hab⟩

namespace StakingKeeper
variable (k : StakingKeeper)

/-- A record that may be a member of the set. -/
def Eligible (v : StakingValidator) : Prop := v.status = .active ∧ ¬ v.tokens.isZero

instance : DecidablePred Eligible := fun _ => inferInstanceAs (Decidable (_ ∧ _))

/-- The eligible records, in the order of the table. -/
def eligible : List StakingValidator := (k.validators.toList.map (·.2)).filter (fun v => Eligible v)

/-- The records that make up the set, for a given enumeration order. -/
def top (o : IterOrder StakingValidator) : List StakingValidator :=
  (((o.arrange (k.validators.toList.map (·.2))).filter (fun v => Eligible v)).insertionSort
    tokensGE).take k.params.maxValidators

/-- One unit for each whole SPRX, at least one. -/
def wholePower (atto : ℕ) : ℕ := max (atto / attoSprxPerSprx) 1

/-- The largest stakes, as many as the set has places. -/
def topStakes : List ℕ :=
  ((k.eligible.map (fun v => v.tokens.atto)).insertionSort (· ≥ ·)).take k.params.maxValidators

/-- The power the set is to have. -/
def topPower : ℕ := (k.topStakes.map wholePower).sum

variable {k} {o : IterOrder StakingValidator}

theorem getActiveValidatorSet_eq (o : IterOrder StakingValidator) :
    k.getActiveValidatorSet o = ValidatorSet.new ((k.top o).map toValidator) := rfl

theorem eligible_perm (o : IterOrder StakingValidator) :
    ((o.arrange (k.validators.toList.map (·.2))).filter (fun v => Eligible v)).Perm k.eligible :=
  (o.perm _).filter _

/-- Ranking the records is ranking their stakes. -/
theorem map_insertionSort_tokens (l : List StakingValidator) :
    (l.insertionSort tokensGE).map (fun v => v.tokens.atto) =
      (l.map (fun v => v.tokens.atto)).insertionSort (· ≥ ·) :=
  List.map_insertionSort tokensGE (· ≥ ·) _ l (fun _ _ _ _ => Iff.rfl)

/-- The stakes of the set are the largest ones, in any order of enumeration. -/
theorem top_stakes (o : IterOrder StakingValidator) :
    (k.top o).map (fun v => v.tokens.atto) = k.topStakes := by
  rw [top, topStakes, List.map_take, map_insertionSort_tokens]
  have hperm := (eligible_perm (k := k) o).map (fun v => v.tokens.atto)
  have hsorted : (k.eligible.map (fun v => v.tokens.atto)).insertionSort (· ≥ ·) =
      (((o.arrange (k.validators.toList.map (·.2))).filter (fun v => Eligible v)).map
        (fun v => v.tokens.atto)).insertionSort (· ≥ ·) :=
    (((List.perm_insertionSort _ _).trans hperm.symm).trans
      (List.perm_insertionSort _ _).symm).eq_of_pairwise' (List.pairwise_insertionSort _ _)
      (List.pairwise_insertionSort _ _)
  rw [hsorted]

/-- Members of the set stand for their own records. -/
theorem mem_top {v : StakingValidator} (hv : v ∈ k.top o) :
    k.validators[v.operatorAddress]? = some v ∧ v ∈ k.eligible := by
  have hmem : v ∈ k.eligible :=
    (eligible_perm o).mem_iff.mp ((List.mem_insertionSort _).mp (List.mem_of_mem_take hv))
  obtain ⟨⟨a, w⟩, hentry, rfl⟩ := List.mem_map.mp (List.mem_filter.mp hmem).1
  have hget := ExtTreeMap.mem_toList_iff_getElem?_eq_some.mp hentry
  rw [k.filed a w hget]
  exact ⟨hget, hmem⟩

/-- Every power is that of its stake, the total is their sum, and a quorum is more than
two thirds of it. -/
structure PowersExact (k : StakingKeeper) (s : ValidatorSet) : Prop where
  power : ∀ v ∈ s.validators, ∃ record, k.validators[v.address]? = some record ∧
    v.votingPower = max (record.tokens.atto / attoSprxPerSprx) 1
  total : s.totalVotingPower = (s.validators.map Validator.votingPower).sum
  quorum : ∀ p < 2 ^ 64, s.hasQuorum p = true ↔ 2 * s.totalVotingPower < 3 * p

/-- The powers of the set are those of the largest stakes, narrowed. -/
theorem powers_of_top (o : IterOrder StakingValidator) :
    ((k.top o).map toValidator).map Validator.votingPower =
      k.topStakes.map (fun atto => wholePower atto % 2 ^ 64) := by
  rw [← top_stakes o, List.map_map, List.map_map]
  rfl

theorem sum_powers {s : ValidatorSet} (h : k.getActiveValidatorSet o = .ok s) :
    (s.validators.map Validator.votingPower).sum =
      (k.topStakes.map (fun atto => wholePower atto % 2 ^ 64)).sum := by
  rw [← powers_of_top o]
  exact ((ValidatorSet.perm_of_new h).map _).sum_eq

/-- Quorums are exact exactly if doubling the total does not wrap. -/
theorem hasQuorum_exact_iff {s : ValidatorSet} (hlt : s.totalVotingPower < 2 ^ 64) :
    (∀ p < 2 ^ 64, s.hasQuorum p = true ↔ 2 * s.totalVotingPower < 3 * p) ↔
      s.totalVotingPower < 2 ^ 63 := by
  simp only [ValidatorSet.hasQuorum_iff]
  constructor
  · intro hquorum
    have hthreshold := hquorum s.quorumThreshold
    rw [ValidatorSet.quorumThreshold] at hthreshold
    omega
  · intro hsmall p _
    rw [ValidatorSet.quorumThreshold]
    omega

/-- The powers, their sum and the quorums of the returned set are exact exactly if the
largest stakes, as many as the set has places, hold less than `2 ^ 63` whole SPRX. -/
theorem active_set_exact_iff {s : ValidatorSet} (h : k.getActiveValidatorSet o = .ok s) :
    k.PowersExact s ↔ k.topPower < 2 ^ 63 := by
  have htotal := ValidatorSet.total_of_new h
  have hsum := sum_powers h
  constructor
  · intro hexact
    have hpowers : k.topStakes.map (fun atto => wholePower atto % 2 ^ 64) =
        k.topStakes.map wholePower := by
      rw [← top_stakes o, List.map_map, List.map_map]
      refine List.map_congr_left (fun v hv => ?_)
      have hmem : toValidator v ∈ s.validators :=
        (ValidatorSet.perm_of_new h).mem_iff.mpr (List.mem_map_of_mem hv)
      obtain ⟨record, hrecord, hpower⟩ := hexact.power _ hmem
      cases hrecord.symm.trans (mem_top hv).1
      exact hpower
    rw [hpowers] at hsum
    have hlt : s.totalVotingPower < 2 ^ 64 := by
      rw [htotal]
      exact Nat.mod_lt _ (by decide)
    have hsmall := (hasQuorum_exact_iff hlt).mp hexact.quorum
    rwa [hexact.total, hsum] at hsmall
  · intro hsmall
    have hle : ∀ atto ∈ k.topStakes, wholePower atto ≤ k.topPower := fun atto hatto =>
      List.single_le_sum (fun _ _ => Nat.zero_le _) _ (List.mem_map_of_mem hatto)
    have hpowers : k.topStakes.map (fun atto => wholePower atto % 2 ^ 64) =
        k.topStakes.map wholePower :=
      List.map_congr_left (fun atto hatto => Nat.mod_eq_of_lt (by have := hle atto hatto; omega))
    rw [hpowers] at hsum
    have hexact : s.totalVotingPower = (s.validators.map Validator.votingPower).sum := by
      rw [htotal, hsum]
      exact Nat.mod_eq_of_lt (by rw [topPower] at hsmall; omega)
    refine ⟨fun v hv => ?_, hexact, ?_⟩
    · obtain ⟨record, hrecord, hv'⟩ := List.mem_map.mp (ValidatorSet.mem_of_new h hv)
      subst hv'
      refine ⟨record, (mem_top hrecord).1, Nat.mod_eq_of_lt ?_⟩
      have hmem : record.tokens.atto ∈ k.topStakes := by
        rw [← top_stakes o]
        exact List.mem_map_of_mem hrecord
      have hpower := hle _ hmem
      rw [wholePower] at hpower
      omega
    · have hvalue : s.totalVotingPower = k.topPower := hexact.trans hsum
      exact (hasQuorum_exact_iff (by omega)).mpr (by omega)

section Scenario
open Devnet

/-- A keeper on which keypair 1 has registered with the given amount of whole SPRX. -/
def soleKeeper (n : Fin (2 ^ 65)) : StakingKeeper :=
  ((empty stakingParams).registerValidator (addressOf 1) []
    ⟨n * attoSprxPerSprx, Nat.lt_trans (Nat.mul_lt_mul_of_pos_right n.isLt (by decide))
      (by decide)⟩).1

/-- What the active set of a keeper reports: powers, total, and whether one unit of
power is a quorum. -/
def reported (k : StakingKeeper) : Option (List ℕ × ℕ × Bool) :=
  (k.getActiveValidatorSet (.listed _)).toOption.map (fun s =>
    (s.validators.map Validator.votingPower, s.totalVotingPower, s.hasQuorum 1))

/-- A stake of `2 ^ 64 + 5` SPRX counts as a power of 5. With a stake of `2 ^ 63` SPRX the
power is right and the doubled total wraps to zero: one unit of power is a quorum. -/
theorem active_set_truncated :
    reported (soleKeeper ⟨2 ^ 64 + 5, by decide⟩) = some ([5], 5, false) ∧
      reported (soleKeeper ⟨2 ^ 63, by decide⟩) = some ([2 ^ 63], 2 ^ 63, true) := by
  decide +kernel

theorem registerGenesis_trio_isOk : ((empty stakingParams).registerGenesis
    ([(1, 1000), (2, 2500), (3, 4000)].map validator)).isOk = true := by decide +kernel

/-- Three validators of unequal stake. -/
def trioKeeper : StakingKeeper := okValue _ registerGenesis_trio_isOk

theorem trioKeeper_isOk : (trioKeeper.getActiveValidatorSet (.listed _)).isOk = true := by
  decide +kernel

/-- Their stakes are counted as they are. -/
theorem active_set_exact_devnet :
    ∃ s, trioKeeper.getActiveValidatorSet (.listed _) = .ok s ∧ s.totalVotingPower = 7500 ∧
      trioKeeper.PowersExact s :=
  ⟨_, eq_okValue _ trioKeeper_isOk, by decide +kernel,
    (active_set_exact_iff (eq_okValue _ trioKeeper_isOk)).mpr (by decide +kernel)⟩

end Scenario

theorem nodup_eligible (k : StakingKeeper) :
    (k.eligible.map StakingValidator.operatorAddress).Nodup := by
  have hkeys := ExtTreeMap.distinct_keys_toList (t := k.validators)
  refine List.Nodup.sublist (List.filter_sublist.map _) ?_
  rw [List.map_map]
  refine List.pairwise_map.mpr (hkeys.imp_of_mem (fun {e e'} he he' hne haddr => ?_))
  have hget := k.filed e.1 e.2 (ExtTreeMap.mem_toList_iff_getElem?_eq_some.mp he)
  have hget' := k.filed e'.1 e'.2 (ExtTreeMap.mem_toList_iff_getElem?_eq_some.mp he')
  have hsame : e.1 = e'.1 := hget.symm.trans (haddr.trans hget')
  exact hne (by rw [hsame]; exact ReflCmp.compare_self)

/-- A set is a function of its members, in whatever order they are given. -/
theorem new_eq_of_perm {vs ws : List Validator} (hperm : vs.Perm ws)
    (hdistinct : (vs.map Validator.address).Nodup) : ValidatorSet.new vs = ValidatorSet.new ws := by
  have hsort : vs.insertionSort addressLE = ws.insertionSort addressLE :=
    Ranking.sort_eq_of_perm (fun _ _ => Iff.rfl) hperm hdistinct
  have hsum := (hperm.map Validator.votingPower).sum_eq
  have hempty : vs = [] ↔ ws = [] := ⟨fun h => (h ▸ hperm).nil_eq.symm, fun h => (h ▸ hperm).eq_nil⟩
  simp only [ValidatorSet.new, hempty, hsum, hsort]

/-- Without power no set is built. -/
theorem new_eq_of_zero {vs ws : List Validator}
    (hpowers : vs.map Validator.votingPower = ws.map Validator.votingPower)
    (hzero : (vs.map Validator.votingPower).sum % 2 ^ 64 = 0) :
    ValidatorSet.new vs = ValidatorSet.new ws := by
  have hzero' := hpowers ▸ hzero
  have hempty : vs = [] ↔ ws = [] := by
    rw [← List.map_eq_nil_iff (f := Validator.votingPower), hpowers, List.map_eq_nil_iff]
  simp only [ValidatorSet.new, hzero, hzero', hempty, if_true]

theorem exists_new {vs : List Validator} (hne : vs ≠ [])
    (htotal : (vs.map Validator.votingPower).sum % 2 ^ 64 ≠ 0) :
      ∃ s, ValidatorSet.new vs = .ok s := by
  simp only [ValidatorSet.new, dif_neg hne, if_neg htotal]
  exact ⟨_, rfl⟩

/-- Listing the eligible records in another order is enumerating the table in another. -/
theorem exists_top {l : List StakingValidator} (hl : l.Perm k.eligible) :
    ∃ o, k.top o = (l.insertionSort tokensGE).take k.params.maxValidators := by
  have hsplit : (l ++ (k.validators.toList.map (·.2)).filter (fun v => ¬ Eligible v)).Perm
      (k.validators.toList.map (·.2)) := by
    refine (hl.append_right _).trans ?_
    simpa [eligible] using List.filter_append_perm (fun v => decide (Eligible v)) _
  obtain ⟨o, ho⟩ := IterOrder.exists_arrange hsplit
  have hall : l.filter (fun v => Eligible v) = l :=
    List.filter_eq_self.mpr (fun v hv => (List.mem_filter.mp (hl.mem_iff.mp hv)).2)
  refine ⟨o, ?_⟩
  rw [top, ho, List.filter_append, hall, List.filter_filter]
  simp

theorem nodup_top (o : IterOrder StakingValidator) :
    (((k.top o).map toValidator).map Validator.address).Nodup := by
  rw [List.map_map]
  have hsorted := (List.perm_insertionSort tokensGE _).trans (eligible_perm (k := k) o)
  have hnodup := (hsorted.map StakingValidator.operatorAddress).nodup_iff.mpr k.nodup_eligible
  exact List.Nodup.sublist ((List.take_sublist _ _).map _) hnodup

/-- A tie across the cut lets two orders of enumeration end in different sets. -/
theorem exists_different {v : StakingValidator}
    (hv : Ranking.Straddled tokensGE k.params.maxValidators k.eligible v)
    (htotal : (k.topStakes.map (fun atto => wholePower atto % 2 ^ 64)).sum % 2 ^ 64 ≠ 0) :
    ∃ o o', k.getActiveValidatorSet o ≠ k.getActiveValidatorSet o' := by
  obtain ⟨above, a, b, below, hperm, htake, htake'⟩ := Ranking.exists_exchanged hv
  obtain ⟨o, ho⟩ := exists_top (List.Perm.refl k.eligible)
  obtain ⟨o', ho'⟩ := exists_top (((List.Perm.swap a b below).append_left above).trans hperm)
  rw [htake] at ho
  rw [htake'] at ho'
  refine ⟨o, o', fun hsame => ?_⟩
  rw [getActiveValidatorSet_eq, getActiveValidatorSet_eq] at hsame
  have hne : (k.top o).map toValidator ≠ [] := by simp [ho]
  obtain ⟨s, hs⟩ := exists_new hne (by rw [powers_of_top]; exact htotal)
  have hmembers := ValidatorSet.perm_of_new hs
  have hmembers' := ValidatorSet.perm_of_new (hsame.symm.trans hs)
  -- the record that lost its place has a member of its address all the same
  have hmem : toValidator a ∈ (k.top o').map toValidator :=
    hmembers'.mem_iff.mp (hmembers.mem_iff.mpr (List.mem_map_of_mem (by simp [ho])))
  obtain ⟨c, hc, hca⟩ := List.mem_map.mp hmem
  have haddr : c.operatorAddress = a.operatorAddress := congrArg Validator.address hca
  have hnodup := (hperm.map StakingValidator.operatorAddress).nodup_iff.mpr k.nodup_eligible
  rw [ho'] at hc
  simp only [List.map_append, List.map_cons, List.nodup_append, List.nodup_cons, List.mem_append,
    List.mem_cons, List.mem_map] at hnodup hc
  grind

/-- Nodes that enumerate their records in different orders derive the same set exactly if
no tie in the stakes straddles the cut, or no set is derived at all because the narrowed
powers sum to zero. -/
theorem active_set_determined_iff (k : StakingKeeper) :
    (∀ o o', k.getActiveValidatorSet o = k.getActiveValidatorSet o') ↔
      (∀ v ∈ k.eligible, ¬ Ranking.Straddled tokensGE k.params.maxValidators k.eligible v) ∨
        (k.topStakes.map (fun atto => wholePower atto % 2 ^ 64)).sum % 2 ^ 64 = 0 := by
  constructor
  · intro hsame
    by_contra hneither
    obtain ⟨htied, htotal⟩ := not_or.mp hneither
    push Not at htied
    obtain ⟨v, -, hv⟩ := htied
    obtain ⟨o, o', hdifferent⟩ := exists_different hv htotal
    exact hdifferent (hsame o o')
  · rintro (hno | hzero) o o'
    · have hperm : (k.top o).Perm (k.top o') :=
        (Ranking.perm_take (eligible_perm o).symm hno).symm.trans
          (Ranking.perm_take (eligible_perm o').symm hno)
      rw [getActiveValidatorSet_eq, getActiveValidatorSet_eq]
      exact new_eq_of_perm (hperm.map toValidator) (nodup_top o)
    · rw [getActiveValidatorSet_eq, getActiveValidatorSet_eq]
      refine new_eq_of_zero ?_ ?_
      · rw [powers_of_top, powers_of_top]
      · rw [powers_of_top]
        exact hzero

section Scenario
open Devnet

/-- Keypairs 1 and 2 with 1000 SPRX each, and one place in the set. -/
def tiedKeeper : StakingKeeper :=
  okValue ((empty { stakingParams with maxValidators := 1 }).registerGenesis
    [validator (1, 1000), validator (2, 1000)]) (by decide +kernel)

/-- Enumeration from the last entry to the first. -/
def reversed : IterOrder StakingValidator := ⟨List.reverse, List.reverse_perm⟩

/-- Whoever is enumerated first gets the place. -/
theorem tied_sets_differ :
    tiedKeeper.getActiveValidatorSet (.listed _) ≠ tiedKeeper.getActiveValidatorSet reversed := by
  intro hsame
  have hrosters := congrArg (fun result => result.toOption.map ValidatorSet.roster) hsame
  revert hrosters
  decide +kernel

end Scenario

end StakingKeeper

end Sprax
