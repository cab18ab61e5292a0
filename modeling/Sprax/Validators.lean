import Sprax.Ledger
import Mathlib.Data.List.Sort

/-!
# Validator sets, staking and evidence

The validator set keeps its members sorted by address and selects proposers by
weighted round robin. Powers are 64-bit: sums and the doubled total wrap, and
priorities saturate as signed integers. The staking keeper derives the active
set from its records and removes an equivocating validator on evidence. The
slashed share is a floating-point product in the source; it enters as a function
of the staked tokens.
-/
namespace Sprax
open Std FiniteMap

/-- Errors of `sprax-consensus` that the modelled functions raise. -/
inductive ConsensusError
  | invalidVote (reason : String)
  | invalidValidatorSet (reason : String)
  | invalidProposer (reason : String)
  deriving DecidableEq

/-- `n as i64` for a 64-bit `n`. -/
def toI64 (n : ℕ) : ℤ := if n % 2 ^ 64 < 2 ^ 63 then (n % 2 ^ 64 : ℕ) else (n % 2 ^ 64 : ℕ) - 2 ^ 64

/-- Saturation of signed 64-bit arithmetic. -/
def saturateI64 (z : ℤ) : ℤ := max (-2 ^ 63) (min (2 ^ 63 - 1) z)

structure Validator where
  address : Address
  publicKey : Bytes
  votingPower : ℕ
  proposerPriority : ℤ
  deriving DecidableEq

/-- A validator set is never empty: it is only built by `ValidatorSet.new`. -/
structure ValidatorSet where
  validators : List Validator
  totalVotingPower : ℕ
  validators_ne : validators ≠ []
  deriving DecidableEq

/-- Order of `sort_by_key` on addresses. -/
def addressLE (a b : Validator) : Prop := compare a.address b.address ≠ .gt

instance : DecidableRel addressLE := fun _ _ => inferInstanceAs (Decidable (compare _ _ ≠ _))

namespace ValidatorSet

def new (validators : List Validator) : Except ConsensusError ValidatorSet :=
  if hne : validators = [] then .error (.invalidValidatorSet "validator set cannot be empty")
  else
    let total := (validators.map Validator.votingPower).sum % 2 ^ 64
    if total = 0 then .error (.invalidValidatorSet "total voting power cannot be zero")
    else .ok ⟨validators.insertionSort addressLE, total, fun h => hne (by
      have hp := List.perm_insertionSort addressLE validators
      rw [h] at hp
      exact hp.symm.eq_nil)⟩

/-- A set is the sorted list with the wrapped sum of its powers, which is not zero. -/
theorem new_ok {validators : List Validator} {s : ValidatorSet} (h : new validators = .ok s) :
    s.validators = validators.insertionSort addressLE ∧
      s.totalVotingPower = (validators.map Validator.votingPower).sum % 2 ^ 64 ∧
      s.totalVotingPower ≠ 0 := by
  unfold new at h
  split at h
  · cases h
  · dsimp only at h
    split at h
    · cases h
    · rename_i hne
      cases h
      exact ⟨rfl, rfl, hne⟩

theorem perm_of_new {validators : List Validator} {s : ValidatorSet} (h : new validators = .ok s) :
    s.validators.Perm validators := by
  rw [(new_ok h).1]
  exact List.perm_insertionSort addressLE validators

theorem mem_of_new {validators : List Validator} {s : ValidatorSet} (h : new validators = .ok s)
    {v : Validator} (hv : v ∈ s.validators) : v ∈ validators := (perm_of_new h).mem_iff.mp hv

/-- The total of a set is the wrapped sum of the powers of its members. -/
theorem total_of_new {validators : List Validator} {s : ValidatorSet} (h : new validators = .ok s) :
    s.totalVotingPower = (s.validators.map Validator.votingPower).sum % 2 ^ 64 := by
  rw [(new_ok h).2.1, ((perm_of_new h).map Validator.votingPower).sum_eq]

/-- The member with a given address. -/
def find (s : ValidatorSet) (addr : Address) : Option Validator :=
  s.validators.find? (fun v => v.address = addr)

/-- Q = floor(2W / 3) + 1, where doubling wraps at 64 bits. -/
def quorumThreshold (s : ValidatorSet) : ℕ := s.totalVotingPower * 2 % 2 ^ 64 / 3 + 1

def hasQuorum (s : ValidatorSet) (power : ℕ) : Bool := s.quorumThreshold ≤ power

theorem hasQuorum_iff {s : ValidatorSet} {power : ℕ} :
    s.hasQuorum power = true ↔ s.quorumThreshold ≤ power := decide_eq_true_iff

/-- Index of the last validator of maximal priority. -/
def maxIdxFrom (i best : ℕ) (bestPriority : ℤ) : List Validator → ℕ
  | [] => best
  | v :: rest =>
    if bestPriority ≤ v.proposerPriority then maxIdxFrom (i + 1) i v.proposerPriority rest
    else maxIdxFrom (i + 1) best bestPriority rest

def bumped (s : ValidatorSet) : List Validator :=
  s.validators.map (fun v =>
    { v with proposerPriority := saturateI64 (v.proposerPriority + toI64 v.votingPower) })

theorem bumped_ne (s : ValidatorSet) : s.bumped ≠ [] := by
  simpa [bumped] using s.validators_ne

def maxIdx (vs : List Validator) : ℕ :=
  match vs with
  | [] => 0
  | v :: rest => maxIdxFrom 1 0 v.proposerPriority rest

theorem maxIdxFrom_le (i best : ℕ) (p : ℤ) (vs : List Validator) (h : best ≤ i) :
    maxIdxFrom i best p vs ≤ max best (i + vs.length - 1) := by
  induction vs generalizing i best p with
  | nil => simp [maxIdxFrom]
  | cons v rest ih =>
    rw [maxIdxFrom]
    split
    · have hrec := ih (i + 1) i v.proposerPriority (by omega)
      simp only [List.length_cons]
      omega
    · have hrec := ih (i + 1) best p (by omega)
      simp only [List.length_cons]
      omega

theorem maxIdx_lt {vs : List Validator} (h : vs ≠ []) : maxIdx vs < vs.length := by
  cases vs with
  | nil => exact absurd rfl h
  | cons v rest =>
    have hle := maxIdxFrom_le 1 0 v.proposerPriority rest (by omega)
    simp only [maxIdx, List.length_cons]
    omega

def lower (total : ℕ) (v : Validator) : Validator :=
  { v with proposerPriority := saturateI64 (v.proposerPriority - toI64 total) }

/-- Deterministic weighted round robin: raise every priority by the voting power,
pick the highest, lower it by the total. -/
def selectProposer (s : ValidatorSet) : ValidatorSet × Validator :=
  let vs := s.bumped
  let idx := maxIdx vs
  let vs' := vs.modify idx (lower s.totalVotingPower)
  have hidx : idx < vs'.length := by
    simpa [vs'] using maxIdx_lt (s.bumped_ne)
  (⟨vs', s.totalVotingPower, List.length_pos_iff.mp (by omega)⟩, vs'.get ⟨idx, hidx⟩)

/-- What voting reads of the members: address, key and power, in order. -/
def roster (s : ValidatorSet) : List (Address × Bytes × ℕ) :=
  s.validators.map (fun v => (v.address, v.publicKey, v.votingPower))

/-- Selection rearranges priorities and nothing else. -/
@[simp] theorem selectProposer_roster (s : ValidatorSet) :
    s.selectProposer.1.roster = s.roster := by
  apply List.ext_getElem
  · simp [selectProposer, roster, bumped]
  · intro i h₁ h₂
    simp only [selectProposer, roster, bumped, List.getElem_map, List.getElem_modify]
    split <;> rfl

theorem find_mem_roster {s : ValidatorSet} {a : Address} {v : Validator} (h : s.find a = some v) :
    (a, v.publicKey, v.votingPower) ∈ s.roster := by
  have haddr : v.address = a := by simpa using List.find?_some h
  rw [← haddr]
  exact List.mem_map.mpr ⟨v, List.mem_of_find?_eq_some h, rfl⟩

/-- A lookup reads the roster, as long as priorities do not matter. -/
theorem find_eq_roster (s : ValidatorSet) (a : Address) :
    (s.find a).map (fun v => (v.address, v.publicKey, v.votingPower)) =
      s.roster.find? (fun e => e.1 = a) := by
  rw [find, roster, List.find?_map]
  rfl

/-- The proposer is a member of the set. -/
theorem selectProposer_mem (s : ValidatorSet) :
    s.selectProposer.2 ∈ s.selectProposer.1.validators := List.get_mem _ _

end ValidatorSet

/-- Slashing evidence: two votes of one validator. -/
structure EquivocationEvidence where
  validatorAddress : Address
  height : ℕ
  round : ℕ
  voteA : Vote
  voteB : Vote
  deriving DecidableEq

/-- The structural check. Neither the signatures nor the address, height and
round of the evidence itself are looked at. -/
def EquivocationEvidence.isValidEquivocation (e : EquivocationEvidence) : Bool :=
  e.voteA.validatorAddress = e.voteB.validatorAddress ∧ e.voteA.height = e.voteB.height ∧
    e.voteA.round = e.voteB.round ∧ e.voteA.voteType = e.voteB.voteType ∧
    e.voteA.blockHash ≠ e.voteB.blockHash

inductive ValidatorStatus
  | active
  | jailed
  | unbonding
  | unbonded
  deriving DecidableEq

/-- The part of a staking record that registration, slashing and the derivation
of the active set read or write. -/
structure StakingValidator where
  operatorAddress : Address
  consensusPubkey : Bytes
  status : ValidatorStatus
  tokens : Amount
  isTombstoned : Bool
  deriving DecidableEq

/-- `doubleSignSlash tokens` stands for `(tokens as f64 * fraction) as u128`. -/
structure StakingParams where
  maxValidators : ℕ
  minSelfStake : Amount
  doubleSignSlash : Amount → Amount

/-- Every record is kept under its operator address. -/
structure StakingKeeper where
  params : StakingParams
  validators : ExtTreeMap Address StakingValidator compare
  filed : ∀ (a : Address) (v : StakingValidator), validators[a]? = some v → v.operatorAddress = a

namespace StakingKeeper

def empty (params : StakingParams) : StakingKeeper := ⟨params, ∅, by simp⟩

/-- Write a record under its own address. -/
def put (k : StakingKeeper) (v : StakingValidator) : StakingKeeper :=
  { k with
    validators := k.validators.insert v.operatorAddress v
    filed := by
      intro a w hw
      rw [ExtTreeMap.getElem?_insert] at hw
      split at hw
      · rename_i haddr
        cases hw
        exact LawfulEqCmp.eq_of_compare haddr
      · exact k.filed a w hw }

theorem put_self (k : StakingKeeper) (v : StakingValidator) :
    (k.put v).validators[v.operatorAddress]? = some v := by simp [put]

theorem put_other (k : StakingKeeper) {v : StakingValidator} {a : Address}
    (h : v.operatorAddress ≠ a) : (k.put v).validators[a]? = k.validators[a]? :=
  getElem?_insert_ne _ _ h

def registerValidator (k : StakingKeeper) (operatorAddress : Address) (consensusPubkey : Bytes)
    (selfStake : Amount) : StakingKeeper × Except ConsensusError Unit :=
  if operatorAddress ∈ k.validators then
    (k, .error (.invalidValidatorSet "validator already registered"))
  else if selfStake.atto < k.params.minSelfStake.atto then
    let found := selfStake.toSprxString
    let required := k.params.minSelfStake.toSprxString
    (k, .error (.invalidValidatorSet
      s!"self stake {found} is less than minimum required {required}"))
  else
    (k.put ⟨operatorAddress, consensusPubkey, .active, selfStake, false⟩, .ok ())

/-- The keeper `new_or_load` builds from the validators of the genesis file. -/
def registerGenesis (k : StakingKeeper) : List GenesisValidator →
    Except ConsensusError StakingKeeper
  | [] => .ok k
  | v :: rest =>
    match k.registerValidator v.operatorAddress v.consensusPubkey v.selfStake with
    | (_, .error e) => .error e
    | (k', .ok ()) => registerGenesis k' rest

/-- The record after the double-sign penalty. -/
def slashed (k : StakingKeeper) (v : StakingValidator) : StakingValidator :=
  { v with
    tokens := match v.tokens.checkedSub (k.params.doubleSignSlash v.tokens) with
      | .ok left => left
      | .error _ => Amount.zero
    status := .jailed
    isTombstoned := true }

def slashEquivocation (k : StakingKeeper) (evidence : EquivocationEvidence) :
    StakingKeeper × Except ConsensusError Amount :=
  if evidence.isValidEquivocation then
    match k.validators[evidence.validatorAddress]? with
    | none => (k, .error (.invalidValidatorSet "validator not found"))
    | some v =>
      if v.isTombstoned then (k, .ok Amount.zero)
      else
        (k.put (k.slashed v), .ok (k.params.doubleSignSlash v.tokens))
  else (k, .error (.invalidValidatorSet "invalid equivocation evidence"))

/-- Descending order by tokens. -/
def tokensGE (a b : StakingValidator) : Prop := b.tokens.atto ≤ a.tokens.atto

instance : DecidableRel tokensGE := fun _ _ => inferInstanceAs (Decidable (_ ≤ _))

/-- One unit of power for each whole SPRX, at least one, cut to 64 bits. -/
def toValidator (v : StakingValidator) : Validator :=
  ⟨v.operatorAddress, v.consensusPubkey, max (v.tokens.atto / attoSprxPerSprx) 1 % 2 ^ 64, 0⟩

/-- The active set, for a given enumeration order of the record table. -/
def getActiveValidatorSet (k : StakingKeeper) (o : IterOrder StakingValidator) :
    Except ConsensusError ValidatorSet :=
  let records := o.arrange (k.validators.toList.map (·.2))
  let active := records.filter (fun v => v.status = .active ∧ ¬ v.tokens.isZero)
  let top := (active.insertionSort tokensGE).take k.params.maxValidators
  ValidatorSet.new (top.map toValidator)

/-- Members of the active set have active records. -/
theorem exists_active_of_mem {k : StakingKeeper} {o : IterOrder StakingValidator} {s : ValidatorSet}
    (h : k.getActiveValidatorSet o = .ok s) {v : Validator} (hv : v ∈ s.validators) :
    ∃ record, k.validators[v.address]? = some record ∧ record.status = .active ∧
      v = toValidator record := by
  obtain ⟨record, hrecord, rfl⟩ := List.mem_map.mp (ValidatorSet.mem_of_new h hv)
  have hactive := (List.mem_insertionSort _).mp (List.mem_of_mem_take hrecord)
  obtain ⟨hlisted, hstatus⟩ := List.mem_filter.mp hactive
  obtain ⟨⟨b, record'⟩, hentry, rfl⟩ := List.mem_map.mp ((o.mem_arrange _ _).mp hlisted)
  have hget := ExtTreeMap.mem_toList_iff_getElem?_eq_some.mp hentry
  have haddr : (toValidator record').address = b := k.filed b record' hget
  refine ⟨record', ?_, (of_decide_eq_true hstatus).1, rfl⟩
  rw [haddr]
  exact hget

/-- Members of the active set are registered validators under their own keys. -/
theorem exists_record_of_mem_roster {k : StakingKeeper} {o : IterOrder StakingValidator}
    {s : ValidatorSet} (h : k.getActiveValidatorSet o = .ok s) {a : Address} {key : Bytes}
    {power : ℕ} (hmem : (a, key, power) ∈ s.roster) :
    ∃ record, k.validators[a]? = some record ∧ record.consensusPubkey = key := by
  obtain ⟨v, hv, hentry⟩ := List.mem_map.mp hmem
  obtain ⟨record, hrecord, -, rfl⟩ := exists_active_of_mem h hv
  simp only [Prod.mk.injEq] at hentry
  rw [hentry.1] at hrecord
  exact ⟨record, hrecord, hentry.2.1⟩

/-- Slashing touches at most the record of the validator the evidence names. -/
theorem slashEquivocation_other (k : StakingKeeper) (e : EquivocationEvidence) {a : Address}
    (h : e.validatorAddress ≠ a) : (k.slashEquivocation e).1.validators[a]? = k.validators[a]? := by
  unfold slashEquivocation
  split
  · split
    · rfl
    · rename_i v hv
      split
      · rfl
      · exact k.put_other (by rwa [slashed, k.filed _ v hv])
  · rfl

/-- Evidence that passes the structural check removes a registered validator that
was not removed before. -/
theorem slashEquivocation_self {k : StakingKeeper} {e : EquivocationEvidence} {v : StakingValidator}
    (hvalid : e.isValidEquivocation = true) (hv : k.validators[e.validatorAddress]? = some v)
    (hlive : v.isTombstoned = false) :
    (k.slashEquivocation e).1.validators[e.validatorAddress]? = some (k.slashed v) := by
  have hkey : (k.slashed v).operatorAddress = e.validatorAddress := k.filed _ v hv
  simp only [slashEquivocation, hvalid, hv, hlive, if_true, Bool.false_eq_true, if_false]
  rw [← hkey]
  exact k.put_self _

theorem slashEquivocation_invalid {k : StakingKeeper} {e : EquivocationEvidence}
    (hinvalid : e.isValidEquivocation = false) : (k.slashEquivocation e).1 = k := by
  simp [slashEquivocation, hinvalid]

end StakingKeeper

end Sprax
