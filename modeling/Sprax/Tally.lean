import Sprax.Votes
import Sprax.Agreement

/-!
# What a quorum stands for

The engine adds up powers in a table it builds for the query. Over a table whose
votes are filed under their own keys that sum is a weight: each stored vote for
the block counts the power of its validator, once. A hash is therefore returned
only if validators of more than two thirds of the power stand behind it, as long
as doubling the total does not wrap.
-/
namespace Sprax
open Std FiniteMap

/-- The vote is for this block at this height and round. -/
def Vote.Backs (v : Vote) (h r : ℕ) (x : Hash32) : Prop :=
  v.height = h ∧ v.round = r ∧ v.blockHash = some x

instance (v : Vote) (h r : ℕ) (x : Hash32) : Decidable (v.Backs h r x) :=
  inferInstanceAs (Decidable (_ ∧ _ ∧ _))

/-- The power of an address, none if it is not a member. -/
def ValidatorSet.powerOf (s : ValidatorSet) (a : Address) : ℕ :=
  (s.find a).elim 0 Validator.votingPower

/-- What a stored vote adds to the power behind a block. -/
def backing (s : ValidatorSet) (h r : ℕ) (x : Hash32) (v : Vote) : ℕ :=
  if v.Backs h r x then s.powerOf v.validatorAddress else 0

/-- Summing the ballots for a block is summing what each entry adds. -/
theorem sum_ballots (s : ValidatorSet) (h r : ℕ) (x : Hash32)
    (entries : List ((ℕ × ℕ × Address) × Vote)) (hfiled : ∀ e ∈ entries, e.2.key = e.1) :
    (((entries.filterMap (fun e => if e.1.1 = h ∧ e.1.2.1 = r then
        (s.find e.1.2.2).map (fun v => (e.2, v.votingPower)) else none)).filter
      (fun b => b.1.blockHash = some x)).map (·.2)).sum =
      (entries.map (fun e => backing s h r x e.2)).sum := by
  induction entries with
  | nil => rfl
  | cons e rest ih =>
    have hrest := ih (fun e' he' => hfiled e' (List.mem_cons_of_mem e he'))
    have hkey := hfiled e List.mem_cons_self
    obtain ⟨key, vote⟩ := e
    dsimp only at hkey
    subst hkey
    rw [List.map_cons, List.sum_cons, ← hrest, List.filterMap_cons]
    simp only [Vote.key, backing, Vote.Backs, ValidatorSet.powerOf]
    by_cases hat : vote.height = h ∧ vote.round = r
    · cases hfind : s.find vote.validatorAddress with
      | none => simp [hat]
      | some v =>
        by_cases hx : vote.blockHash = some x
        · simp [hat, hx]
        · simp [hat, hx]
    · have hnot : ¬ (vote.height = h ∧ vote.round = r ∧ vote.blockHash = some x) :=
        fun hall => hat ⟨hall.1, hall.2.1⟩
      simp [hat, hnot]

/-- The power the engine finds behind a block. -/
theorem powerFor_tallied (s : ValidatorSet) {votes : VoteMap} {voteType : VoteType}
    {ok : Vote → Prop} (hvotes : VoteMap.Holds votes voteType ok) (h r : ℕ) (x : Hash32) :
    powerFor (tallied s votes h r) (some x) = weight (backing s h r x) votes % 2 ^ 64 := by
  unfold powerFor tallied weight
  rw [sum_ballots]
  intro e he
  exact (hvotes e.1 e.2 (ExtTreeMap.mem_toList_iff_getElem?_eq_some.mp he)).1

/-- The votes of a round that count are the stored ones of its members. -/
theorem mem_tallied {s : ValidatorSet} {votes : VoteMap} {h r : ℕ} {vote : Vote} {power : ℕ} :
    (vote, power) ∈ tallied s votes h r ↔
      ∃ a validator, votes[(h, r, a)]? = some vote ∧ s.find a = some validator ∧
        power = validator.votingPower := by
  simp only [tallied, List.mem_filterMap]
  constructor
  · rintro ⟨⟨⟨h', r', a⟩, stored⟩, hmem, hentry⟩
    have hget := ExtTreeMap.mem_toList_iff_getElem?_eq_some.mp hmem
    split at hentry
    · rename_i hslot
      obtain ⟨rfl, rfl⟩ := hslot
      obtain ⟨validator, hfind, hpair⟩ := Option.map_eq_some_iff.mp hentry
      cases hpair
      exact ⟨a, validator, hget, hfind, rfl⟩
    · cases hentry
  · rintro ⟨a, validator, hget, hfind, rfl⟩
    refine ⟨((h, r, a), vote), ExtTreeMap.mem_toList_iff_getElem?_eq_some.mpr hget, ?_⟩
    simp [hfind]

/-- No validator is counted twice, where votes are filed under their validators. -/
theorem nodup_tallied {s : ValidatorSet} {votes : VoteMap} {h r : ℕ}
    (hslot : ∀ (a : Address) (v : Vote), votes[(h, r, a)]? = some v → v.validatorAddress = a) :
    ((tallied s votes h r).map (·.1.validatorAddress)).Nodup := by
  -- two entries of the table differ in their keys, those of one round in the validator
  have hkeys := ExtTreeMap.distinct_keys_toList (t := votes)
  refine List.pairwise_map.mpr (List.pairwise_filterMap.mpr (hkeys.imp_of_mem ?_))
  rintro ⟨⟨h₁, r₁, a₁⟩, v₁⟩ ⟨⟨h₂, r₂, a₂⟩, v₂⟩ hmem₁ hmem₂ hne b₁ hb₁ b₂ hb₂ haddr
  split at hb₁
  · rename_i hslot₁
    split at hb₂
    · rename_i hslot₂
      obtain ⟨rfl, rfl⟩ := hslot₁
      obtain ⟨rfl, rfl⟩ := hslot₂
      obtain ⟨_, -, rfl⟩ := Option.map_eq_some_iff.mp hb₁
      obtain ⟨_, -, rfl⟩ := Option.map_eq_some_iff.mp hb₂
      dsimp only at haddr hne
      rw [hslot a₁ v₁ (ExtTreeMap.mem_toList_iff_getElem?_eq_some.mp hmem₁),
        hslot a₂ v₂ (ExtTreeMap.mem_toList_iff_getElem?_eq_some.mp hmem₂)] at haddr
      subst haddr
      exact hne ReflCmp.compare_self
    · cases hb₂
  · cases hb₁

/-- A block is returned only with a quorum behind it. -/
theorem blockWithQuorum_some {o : IterOrder Hash32} {s : ValidatorSet} {votes : VoteMap} {h r : ℕ}
    {x : Hash32} (hx : blockWithQuorum o s votes h r = some x) :
    s.hasQuorum (powerFor (tallied s votes h r) (some x)) = true := by
  have hfound := List.find?_some hx
  exact hfound

/-- A commit is a quorum of stored precommits, the one just received included. -/
theorem BftConsensusEngine.receivePrecommit_commit {o : IterOrder Hash32} {E : BftConsensusEngine}
    {vote : Vote} {hash : Hash32} {sigs : List CommitSignature}
    (h : (E.receivePrecommit o vote).2 = .ok (some (hash, sigs))) :
    vote.voteType = .precommit ∧
      (E.receivePrecommit o vote).1.precommits = E.precommits.insertIfNew vote.key vote ∧
      E.valSet.hasQuorum (powerFor (tallied E.valSet (E.precommits.insertIfNew vote.key vote)
        E.state.height E.state.round) (some hash)) = true := by
  unfold receivePrecommit at h ⊢
  split at h
  · cases h
  · rename_i hcheck
    dsimp only at h
    split at h
    · cases h
    · rename_i hash' hquorum
      cases h
      dsimp only
      rw [hquorum]
      exact ⟨(checkVote_ok hcheck).1, rfl, blockWithQuorum_some hquorum⟩

/-- A choice with a quorum is the choice of a vote that counts. -/
theorem exists_tallied_of_quorum {s : ValidatorSet} {votes : VoteMap} {h r : ℕ}
    {choice : Option Hash32} (hq : s.hasQuorum (powerFor (tallied s votes h r) choice) = true) :
    ∃ b ∈ tallied s votes h r, b.1.blockHash = choice := by
  by_contra hnone
  push Not at hnone
  have hfilter : (tallied s votes h r).filter (fun b => b.1.blockHash = choice) = [] :=
    List.filter_eq_nil_iff.mpr (fun b hb => by simpa using hnone b hb)
  rw [powerFor, hfilter] at hq
  simp [ValidatorSet.hasQuorum, ValidatorSet.quorumThreshold] at hq

/-- No hash but the accepted one has a quorum among these votes. -/
def QuorumOnly (s : ValidatorSet) (votes : VoteMap) (h r : ℕ) (accepted : Option Hash32) : Prop :=
  ∀ x, s.hasQuorum (powerFor (tallied s votes h r) (some x)) = true → accepted = some x

/-- Only hashes that were voted for need to be looked at. -/
theorem quorumOnly_iff {s : ValidatorSet} {votes : VoteMap} {h r : ℕ} {accepted : Option Hash32} :
    QuorumOnly s votes h r accepted ↔ ∀ b ∈ tallied s votes h r, ∀ x ∈ b.1.blockHash,
      s.hasQuorum (powerFor (tallied s votes h r) (some x)) = true → accepted = some x := by
  constructor
  · intro hq b _ x _
    exact hq x
  · intro hq x hx
    obtain ⟨b, hb, hbx⟩ := exists_tallied_of_quorum hx
    exact hq b hb x hbx hx

instance (s : ValidatorSet) (votes : VoteMap) (h r : ℕ) (accepted : Option Hash32) :
    Decidable (QuorumOnly s votes h r accepted) := decidable_of_iff _ quorumOnly_iff.symm

theorem quorumOnly_empty (s : ValidatorSet) (h r : ℕ) (accepted : Option Hash32) :
    QuorumOnly s ∅ h r accepted := by
  intro x hx
  have hpower := powerFor_tallied s (VoteMap.holds_empty .prevote (fun _ => True)) h r x
  rw [weight_empty] at hpower
  rw [hpower] at hx
  simp [ValidatorSet.hasQuorum, ValidatorSet.quorumThreshold] at hx

/-- A vote for the accepted hash gives no other hash a quorum. -/
theorem QuorumOnly.insertIfNew {s : ValidatorSet} {votes : VoteMap} {h r : ℕ} {y : Hash32}
    {voteType : VoteType} {ok : Vote → Prop} (hvotes : VoteMap.Holds votes voteType ok)
    (hq : QuorumOnly s votes h r (some y)) {vote : Vote} (htype : vote.voteType = voteType)
    (hok : ok vote) (hy : vote.blockHash = some y) :
    QuorumOnly s (votes.insertIfNew vote.key vote) h r (some y) := by
  intro x hx
  by_cases hxy : y = x
  · rw [hxy]
  · have hnone : backing s h r x vote = 0 := by
      rw [backing, if_neg]
      rintro ⟨-, -, hback⟩
      rw [hy] at hback
      exact hxy (Option.some.inj hback)
    rw [powerFor_tallied s (hvotes.insertIfNew htype hok), weight_insertIfNew_of_zero _ _ _ hnone,
      ← powerFor_tallied s hvotes] at hx
    exact hq x hx

namespace ValidatorSet

theorem powerOf_congr {s t : ValidatorSet} (h : s.roster = t.roster) : s.powerOf = t.powerOf := by
  funext a
  have hfind := (s.find_eq_roster a).trans ((congrArg _ h).trans (t.find_eq_roster a).symm)
  unfold powerOf
  cases hs : s.find a <;> cases ht : t.find a <;> simp_all

theorem powerOf_of_not_mem {s : ValidatorSet} {a : Address}
    (h : a ∉ s.validators.map Validator.address) : s.powerOf a = 0 := by
  have hnone : s.find a = none := by
    apply List.find?_eq_none.mpr
    intro v hv hva
    exact h (List.mem_map.mpr ⟨v, hv, by simpa using hva⟩)
  rw [powerOf, hnone, Option.elim_none]

/-- With distinct addresses every member is found under its own. -/
theorem find_of_mem {s : ValidatorSet} (hnodup : (s.validators.map Validator.address).Nodup)
    {v : Validator} (hv : v ∈ s.validators) : s.find v.address = some v := by
  unfold find
  cases hfind : s.validators.find? (fun w => w.address = v.address) with
  | none => simpa using List.find?_eq_none.mp hfind v hv
  | some w =>
    have haddr : w.address = v.address := by simpa using List.find?_some hfind
    rw [List.inj_on_of_nodup_map hnodup (List.mem_of_find?_eq_some hfind) hv haddr]

theorem powerOf_of_mem {s : ValidatorSet} (hdistinct : (s.validators.map Validator.address).Nodup)
    {v : Validator} (hv : v ∈ s.validators) : s.powerOf v.address = v.votingPower := by
  rw [powerOf, find_of_mem hdistinct hv, Option.elim_some]

def members (s : ValidatorSet) : Finset Address := (s.validators.map Validator.address).toFinset

theorem mem_members {s : ValidatorSet} {a : Address} :
    a ∈ s.members ↔ ∃ v ∈ s.validators, v.address = a := by
  simp [members]

theorem mem_members_iff_find {s : ValidatorSet} {a : Address} :
    a ∈ s.members ↔ (s.find a).isSome = true := by
  simp [mem_members, find]

/-- Sums over the members are sums over the list. -/
theorem sum_members {s : ValidatorSet} (hnodup : (s.validators.map Validator.address).Nodup)
    {M : Type*} [AddCommMonoid M] (f : Address → M) :
    ∑ a ∈ s.members, f a = (s.validators.map (fun v => f v.address)).sum := by
  rw [members, List.sum_toFinset f hnodup, List.map_map]
  rfl

theorem sum_powerOf {s : ValidatorSet} (hdistinct : (s.validators.map Validator.address).Nodup) :
    ∑ a ∈ s.members, s.powerOf a = (s.validators.map Validator.votingPower).sum := by
  rw [sum_members hdistinct]
  exact congrArg List.sum (List.map_congr_left (fun v hv => powerOf_of_mem hdistinct hv))

/-- A set whose members have distinct addresses and whose total is their exact power,
small enough to be doubled. -/
structure Exact (s : ValidatorSet) : Prop where
  distinct : (s.validators.map Validator.address).Nodup
  total_eq : s.totalVotingPower = (s.validators.map Validator.votingPower).sum
  total_lt : s.totalVotingPower < 2 ^ 63

end ValidatorSet

/-- A validator set with distinct addresses and an exact total, of which less
than a third of the power is Byzantine. -/
structure Committee where
  valSet : ValidatorSet
  byzantine : Finset Address
  distinct : (valSet.validators.map Validator.address).Nodup
  exact_total : valSet.totalVotingPower = (valSet.validators.map Validator.votingPower).sum
  light : 3 * ∑ a ∈ byzantine, valSet.powerOf a < valSet.totalVotingPower

namespace Committee

theorem sum_powerOf (C : Committee) :
    ∑ a ∈ C.valSet.members, C.valSet.powerOf a = C.valSet.totalVotingPower := by
  rw [C.exact_total]
  exact ValidatorSet.sum_powerOf C.distinct

/-- The committee as an electorate of the agreement argument. -/
def electorate (C : Committee) : Agreement.Electorate Address where
  voters := C.valSet.members
  weight := C.valSet.powerOf
  faulty := C.valSet.members ∩ C.byzantine
  faulty_subset := Finset.inter_subset_left
  faulty_light := by
    rw [C.sum_powerOf]
    have hle : ∑ a ∈ C.valSet.members ∩ C.byzantine, C.valSet.powerOf a ≤
        ∑ a ∈ C.byzantine, C.valSet.powerOf a :=
      Finset.sum_le_sum_of_subset Finset.inter_subset_right
    have hlight := C.light
    omega

/-- The validators with a stored vote for a block. -/
def backers (votes : VoteMap) (h r : ℕ) (x : Hash32) : List Address :=
  (votes.toList.filter (fun e => e.2.Backs h r x)).map (fun e => e.2.validatorAddress)

theorem mem_backers {votes : VoteMap} {voteType : VoteType} {ok : Vote → Prop}
    (hvotes : VoteMap.Holds votes voteType ok) {h r : ℕ} {x : Hash32} {a : Address}
    (ha : a ∈ backers votes h r x) :
    ∃ v, v.voteType = voteType ∧ v.Backs h r x ∧ v.validatorAddress = a ∧ ok v := by
  obtain ⟨e, he, rfl⟩ := List.mem_map.mp ha
  obtain ⟨hmem, hbacks⟩ := List.mem_filter.mp he
  obtain ⟨-, htype, hok⟩ := hvotes e.1 e.2 (ExtTreeMap.mem_toList_iff_getElem?_eq_some.mp hmem)
  exact ⟨e.2, htype, by simpa using hbacks, rfl, hok⟩

/-- A validator backs a block at most once: its slot is fixed by height and round. -/
theorem nodup_backers {votes : VoteMap} {voteType : VoteType} {ok : Vote → Prop}
    (hvotes : VoteMap.Holds votes voteType ok) (h r : ℕ) (x : Hash32) :
    (backers votes h r x).Nodup := by
  have hkeys := ExtTreeMap.distinct_keys_toList (t := votes)
  refine List.pairwise_map.mpr ((hkeys.filter _).imp_of_mem ?_)
  intro e e' he he' hne haddr
  obtain ⟨hmem, hbacks⟩ := List.mem_filter.mp he
  obtain ⟨hmem', hbacks'⟩ := List.mem_filter.mp he'
  have hkey := (hvotes e.1 e.2 (ExtTreeMap.mem_toList_iff_getElem?_eq_some.mp hmem)).1
  have hkey' := (hvotes e'.1 e'.2 (ExtTreeMap.mem_toList_iff_getElem?_eq_some.mp hmem')).1
  have hb : e.2.Backs h r x := by simpa using hbacks
  have hb' : e'.2.Backs h r x := by simpa using hbacks'
  have hsame : e.1 = e'.1 := by
    rw [← hkey, ← hkey', Vote.key, Vote.key, hb.1, hb'.1, hb.2.1, hb'.2.1, haddr]
  exact hne (by rw [hsame]; exact ReflCmp.compare_self)

/-- A quorum of stored votes is a quorum of the committee, all of whose members
have a stored vote for the block. -/
theorem quorum_backers (C : Committee) (hsmall : 2 * C.valSet.totalVotingPower < 2 ^ 64)
    {s : ValidatorSet} (hroster : s.roster = C.valSet.roster)
    (htotal : s.totalVotingPower = C.valSet.totalVotingPower) {votes : VoteMap}
    {voteType : VoteType} {ok : Vote → Prop} (hvotes : VoteMap.Holds votes voteType ok) {h r : ℕ}
    {x : Hash32} (hq : s.hasQuorum (powerFor (tallied s votes h r) (some x)) = true) :
    C.electorate.Quorum ((backers votes h r x).toFinset.filter (· ∈ C.valSet.members)) := by
  have hweight : weight (backing s h r x) votes =
      ∑ a ∈ (backers votes h r x).toFinset, C.valSet.powerOf a := by
    rw [List.sum_toFinset _ (nodup_backers hvotes h r x), backers, List.map_map]
    simp only [weight, backing, List.sum_map_ite, ValidatorSet.powerOf_congr hroster]
    simp [Function.comp_def]
  have hmembers : ∑ a ∈ (backers votes h r x).toFinset.filter (· ∈ C.valSet.members),
      C.valSet.powerOf a = ∑ a ∈ (backers votes h r x).toFinset, C.valSet.powerOf a := by
    apply Finset.sum_filter_of_ne
    intro a _ hne
    by_contra hnot
    exact hne (ValidatorSet.powerOf_of_not_mem (by simpa [ValidatorSet.mem_members] using hnot))
  constructor
  · exact fun a ha => (Finset.mem_filter.mp ha).2
  · show 2 * ∑ a ∈ C.valSet.members, C.valSet.powerOf a < 3 * ∑ a ∈ _, C.valSet.powerOf a
    rw [C.sum_powerOf, hmembers, ← hweight]
    rw [powerFor_tallied s hvotes] at hq
    simp only [ValidatorSet.hasQuorum, ValidatorSet.quorumThreshold, htotal,
      decide_eq_true_eq] at hq
    have hmod : weight (backing s h r x) votes % 2 ^ 64 ≤ weight (backing s h r x) votes :=
      Nat.mod_le _ _
    omega

end Committee

end Sprax
