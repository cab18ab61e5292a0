import Sprax.Tally

/-!
# Who stands behind a choice

With distinct addresses and an exact total the tables of powers that the engine builds for
a query are sums over the members whose stored vote is for a choice. Two choices share no
supporter, so at most one of them has a quorum, and the hash that a query returns does not
depend on the order in which it goes through its table.
-/
namespace Sprax
open Std FiniteMap

/-- The members whose stored vote of a height and round is for the choice. -/
def supporters (s : ValidatorSet) (votes : VoteMap) (h r : ℕ) (choice : Option Hash32) :
    Finset Address :=
  s.members.filter (fun a => (votes[(h, r, a)]?).map Vote.blockHash = some choice)

/-- Their power. -/
def support (s : ValidatorSet) (votes : VoteMap) (h r : ℕ) (choice : Option Hash32) : ℕ :=
  ∑ a ∈ supporters s votes h r choice, s.powerOf a

section Static
variable {s : ValidatorSet} {votes : VoteMap} {h r : ℕ} {choice other : Option Hash32}

theorem mem_supporters {a : Address} : a ∈ supporters s votes h r choice ↔
    a ∈ s.members ∧ ∃ vote, votes[(h, r, a)]? = some vote ∧ vote.blockHash = choice := by
  simp [supporters, Option.map_eq_some_iff]

theorem support_add_le (hs : s.Exact) (hne : choice ≠ other) :
    support s votes h r choice + support s votes h r other ≤ s.totalVotingPower := by
  have hdisjoint : Disjoint (supporters s votes h r choice) (supporters s votes h r other) := by
    refine Finset.disjoint_filter.mpr (fun a _ hchoice hother => hne ?_)
    exact Option.some.inj (hchoice.symm.trans hother)
  rw [support, support, ← Finset.sum_union hdisjoint, hs.total_eq,
    ← ValidatorSet.sum_powerOf hs.distinct]
  exact Finset.sum_le_sum_of_subset
    (Finset.union_subset (Finset.filter_subset _ _) (Finset.filter_subset _ _))

theorem support_le (hs : s.Exact) : support s votes h r choice ≤ s.totalVotingPower := by
  rw [hs.total_eq, ← ValidatorSet.sum_powerOf hs.distinct]
  exact Finset.sum_le_sum_of_subset (Finset.filter_subset _ _)

/-- A quorum is more than two thirds. -/
theorem ValidatorSet.Exact.quorumThreshold_le_iff (hs : s.Exact) {power : ℕ} :
    s.quorumThreshold ≤ power ↔ 2 * s.totalVotingPower < 3 * power := by
  have hlt := hs.total_lt
  rw [quorumThreshold]
  omega

/-- At most one choice has a quorum. -/
theorem quorum_unique (hs : s.Exact) (hchoice : s.quorumThreshold ≤ support s votes h r choice)
    (hother : s.quorumThreshold ≤ support s votes h r other) : choice = other := by
  by_contra hne
  have hsum : support s votes h r choice + support s votes h r other ≤ s.totalVotingPower :=
    support_add_le hs hne
  rw [hs.quorumThreshold_le_iff] at hchoice hother
  omega

/-- The power the engine finds behind a choice is that of its supporters. -/
theorem powerFor_eq_support (hs : s.Exact)
    (hslot : ∀ (a : Address) (v : Vote), votes[(h, r, a)]? = some v → v.validatorAddress = a)
    (choice : Option Hash32) :
    powerFor (tallied s votes h r) choice = support s votes h r choice := by
  have hnodup : (((tallied s votes h r).filter (fun b => b.1.blockHash = choice)).map
      (·.1.validatorAddress)).Nodup :=
    List.Nodup.sublist (List.filter_sublist.map _) (nodup_tallied hslot)
  have hpowers : ((tallied s votes h r).filter (fun b => b.1.blockHash = choice)).map (·.2) =
      (((tallied s votes h r).filter (fun b => b.1.blockHash = choice)).map
        (·.1.validatorAddress)).map s.powerOf := by
    rw [List.map_map]
    refine List.map_congr_left (fun b hb => ?_)
    obtain ⟨a, validator, hget, hfind, hpower⟩ := mem_tallied.mp (List.mem_of_mem_filter hb)
    rw [Function.comp_apply, hslot a b.1 hget, ValidatorSet.powerOf, hfind, Option.elim_some,
      hpower]
  have hmembers : (((tallied s votes h r).filter (fun b => b.1.blockHash = choice)).map
      (·.1.validatorAddress)).toFinset = supporters s votes h r choice := by
    ext a
    rw [List.mem_toFinset, List.mem_map, mem_supporters, ValidatorSet.mem_members_iff_find,
      Option.isSome_iff_exists]
    constructor
    · rintro ⟨⟨vote, power⟩, hb, rfl⟩
      obtain ⟨htallied, hchoice⟩ := List.mem_filter.mp hb
      obtain ⟨b, validator, hget, hfind, -⟩ := mem_tallied.mp htallied
      rw [hslot b vote hget]
      exact ⟨⟨validator, hfind⟩, vote, hget, by simpa using hchoice⟩
    · rintro ⟨⟨validator, hfind⟩, vote, hget, hchoice⟩
      refine ⟨(vote, validator.votingPower), List.mem_filter.mpr ⟨?_, by simpa using hchoice⟩,
        hslot a vote hget⟩
      exact mem_tallied.mpr ⟨a, validator, hget, hfind, rfl⟩
  have hsum : ((((tallied s votes h r).filter (fun b => b.1.blockHash = choice)).map
      (·.1.validatorAddress)).map s.powerOf).sum = support s votes h r choice := by
    rw [← List.sum_toFinset _ hnodup, hmembers]
    rfl
  have hle : support s votes h r choice ≤ s.totalVotingPower := support_le hs
  have hlt := hs.total_lt
  rw [powerFor, hpowers, hsum]
  exact Nat.mod_eq_of_lt (by omega)

end Static

section Queries
variable {s : ValidatorSet} {votes : VoteMap} {h r : ℕ}

/-- The query returns the block that has a quorum, in whatever order it looks. -/
theorem blockWithQuorum_eq_some_iff (hs : s.Exact)
    (hslot : ∀ (a : Address) (v : Vote), votes[(h, r, a)]? = some v → v.validatorAddress = a)
    {o : IterOrder Hash32} {x : Hash32} :
    blockWithQuorum o s votes h r = some x ↔ s.quorumThreshold ≤ support s votes h r (some x) := by
  have hpower := powerFor_eq_support hs hslot
  constructor
  · intro hx
    rw [← hpower, ← ValidatorSet.hasQuorum_iff]
    exact blockWithQuorum_some hx
  · intro hx
    have hq : s.hasQuorum (powerFor (tallied s votes h r) (some x)) = true := by
      rw [ValidatorSet.hasQuorum_iff, hpower]
      exact hx
    obtain ⟨b, hb, hbx⟩ := exists_tallied_of_quorum hq
    have hlisted : x ∈ o.arrange ((tallied s votes h r).filterMap (·.1.blockHash)).dedup := by
      rw [IterOrder.mem_arrange, List.mem_dedup]
      exact List.mem_filterMap.mpr ⟨b, hb, hbx⟩
    have hsome : (blockWithQuorum o s votes h r).isSome = true :=
      List.find?_isSome.mpr ⟨x, hlisted, hq⟩
    obtain ⟨y, hfound⟩ := Option.isSome_iff_exists.mp hsome
    have hyq := blockWithQuorum_some hfound
    rw [ValidatorSet.hasQuorum_iff, hpower] at hyq
    rw [hfound, quorum_unique hs hyq hx]

theorem blockWithQuorum_order (hs : s.Exact)
    (hslot : ∀ (a : Address) (v : Vote), votes[(h, r, a)]? = some v → v.validatorAddress = a)
    (o o' : IterOrder Hash32) : blockWithQuorum o s votes h r = blockWithQuorum o' s votes h r := by
  ext x
  rw [blockWithQuorum_eq_some_iff hs hslot, blockWithQuorum_eq_some_iff hs hslot]

/-- Whether any choice has a prevote quorum. -/
theorem BftConsensusEngine.hasPrevoteQuorum_iff {E : BftConsensusEngine} (hs : E.valSet.Exact)
    (hslot : ∀ (a : Address) (v : Vote), E.prevotes[(h, r, a)]? = some v → v.validatorAddress = a) :
    E.hasPrevoteQuorum h r = true ↔
      ∃ choice, E.valSet.quorumThreshold ≤ support E.valSet E.prevotes h r choice := by
  have hpower := powerFor_eq_support hs hslot
  simp only [hasPrevoteQuorum, List.any_eq_true]
  constructor
  · rintro ⟨b, -, hq⟩
    rw [ValidatorSet.hasQuorum_iff, hpower] at hq
    exact ⟨_, hq⟩
  · rintro ⟨choice, hq⟩
    rw [← hpower, ← ValidatorSet.hasQuorum_iff] at hq
    obtain ⟨b, hb, rfl⟩ := exists_tallied_of_quorum hq
    exact ⟨b, hb, hq⟩

end Queries

end Sprax
