import Sprax.Validators
import Sprax.Runs

/-!
# The staking keeper

Validators, delegations and the unbonding queue as one mutable record. A method
takes `&mut self` and leaves by `?`, so a call that fails keeps what it has written
up to that point: every operation returns the keeper together with its result.
Heights are 64-bit and wrap. The consensus node reads the validators only, without
their shares and jail terms; `Keeper.view` is that part, and registration and the
double-sign penalty commute with it.
-/
namespace Sprax.Staking
open Std FiniteMap

/-- Add to two amounts one after the other. The first keeps its sum when the second
overflows. -/
def addBoth (x y amount : Amount) : (Amount × Amount) × Except ConsensusError Unit :=
  match x.checkedAdd amount with
  | .error e => ((x, y), .error (.invalidValidatorSet e.display))
  | .ok x' =>
    match y.checkedAdd amount with
    | .error e => ((x', y), .error (.invalidValidatorSet e.display))
    | .ok y' => ((x', y'), .ok ())

/-- Subtract from two amounts one after the other. -/
def subBoth (x y amount : Amount) : (Amount × Amount) × Except ConsensusError Unit :=
  match x.checkedSub amount with
  | .error e => ((x, y), .error (.invalidValidatorSet e.display))
  | .ok x' =>
    match y.checkedSub amount with
    | .error e => ((x', y), .error (.invalidValidatorSet e.display))
    | .ok y' => ((x', y'), .ok ())

theorem addBoth_ok {x y amount : Amount} (h : (addBoth x y amount).2 = .ok ()) :
    (addBoth x y amount).1.1.atto = x.atto + amount.atto ∧
      (addBoth x y amount).1.2.atto = y.atto + amount.atto := by
  unfold addBoth at h ⊢
  split at h
  · cases h
  · rename_i hx
    split at h
    · cases h
    · rename_i hy
      exact ⟨Amount.checkedAdd_ok.mp hx, Amount.checkedAdd_ok.mp hy⟩

theorem subBoth_ok {x y amount : Amount} (h : (subBoth x y amount).2 = .ok ()) :
    (subBoth x y amount).1.1.atto + amount.atto = x.atto ∧
      (subBoth x y amount).1.2.atto + amount.atto = y.atto := by
  unfold subBoth at h ⊢
  split at h
  · cases h
  · rename_i hx
    split at h
    · cases h
    · rename_i hy
      exact ⟨Amount.checkedSub_ok.mp hx, Amount.checkedSub_ok.mp hy⟩

theorem subBoth_le (x y amount : Amount) : (subBoth x y amount).1.1.atto ≤ x.atto := by
  unfold subBoth
  split
  · exact Nat.le_refl _
  · rename_i hx
    have hle := Amount.checkedSub_ok.mp hx
    split <;> (dsimp only; omega)

/-- A failed addition leaves the second amount alone. -/
theorem addBoth_error_snd {x y amount : Amount} {e : ConsensusError}
    (h : (addBoth x y amount).2 = .error e) : (addBoth x y amount).1.2 = y := by
  unfold addBoth at h ⊢
  split at h
  · rfl
  · split at h
    · simp_all
    · cases h

theorem addBoth_of_fits {x y amount : Amount} (hx : x.atto + amount.atto < 2 ^ 128)
    (hy : y.atto + amount.atto < 2 ^ 128) : (addBoth x y amount).2 = .ok () := by
  simp only [addBoth, Amount.checkedAdd_of_lt hx, Amount.checkedAdd_of_lt hy]

theorem subBoth_of_le {x y amount : Amount} (hx : amount.atto ≤ x.atto)
    (hy : amount.atto ≤ y.atto) :
    (subBoth x y amount).2 = .ok () := by
  simp only [subBoth, Amount.checkedSub, if_pos hx, if_pos hy]

/-- A staking record with its shares and its downtime account. -/
structure Record extends StakingValidator where
  delegatorShares : Amount
  jailedUntil : Option ℕ
  missedBlocksCount : ℕ
  deriving DecidableEq

structure Delegation where
  delegatorAddress : Address
  validatorAddress : Address
  shares : Amount
  balance : Amount
  deriving DecidableEq

structure UnbondingEntry where
  delegatorAddress : Address
  validatorAddress : Address
  creationHeight : ℕ
  completionHeight : ℕ
  amount : Amount
  deriving DecidableEq

/-- `downtimeSlash tokens` stands for `(tokens as f64 * fraction) as u128`. -/
structure Params extends StakingParams where
  unbondingPeriodBlocks : ℕ
  downtimeSlash : Amount → Amount
  downtimeJailBlocks : ℕ
  missedBlocksThreshold : ℕ

/-- Every record is kept under the addresses it names. -/
structure Keeper where
  params : Params
  validators : ExtTreeMap Address Record compare
  delegations : ExtTreeMap (Address × Address) Delegation compare
  unbondingQueue : List UnbondingEntry
  filed : ∀ (a : Address) (v : Record), validators[a]? = some v → v.operatorAddress = a
  entered : ∀ (key : Address × Address) (d : Delegation), delegations[key]? = some d →
    (d.delegatorAddress, d.validatorAddress) = key

/-- The record a validator starts with. -/
def Record.candidate (operatorAddress : Address) (consensusPubkey : Bytes) (selfStake : Amount) :
    Record where
  operatorAddress := operatorAddress
  consensusPubkey := consensusPubkey
  status := .active
  tokens := selfStake
  isTombstoned := false
  delegatorShares := selfStake
  jailedUntil := none
  missedBlocksCount := 0

/-- `val.tokens` and `val.delegator_shares` in `delegate`. -/
def Record.bond (v : Record) (amount : Amount) : Record × Except ConsensusError Unit :=
  let r := addBoth v.tokens v.delegatorShares amount
  ({ v with tokens := r.1.1, delegatorShares := r.1.2 }, r.2)

/-- A failed addition leaves the record alone, unless the tokens fit and the shares do not. -/
theorem Record.bond_error {v : Record} {amount : Amount} {e : ConsensusError}
    (herr : (v.bond amount).2 = .error e) : (v.bond amount).1 = v ∨
      v.tokens.atto + amount.atto < 2 ^ 128 ∧ 2 ^ 128 ≤ v.delegatorShares.atto + amount.atto ∧
        (v.bond amount).1.tokens.atto = v.tokens.atto + amount.atto := by
  unfold Record.bond addBoth at herr ⊢
  cases hx : v.tokens.checkedAdd amount with
  | error ex => exact Or.inl rfl
  | ok tokens =>
    have htokens := Amount.checkedAdd_ok.mp hx
    cases hy : v.delegatorShares.checkedAdd amount with
    | error ey => exact Or.inr ⟨htokens ▸ tokens.lt, Amount.checkedAdd_error hy, htokens⟩
    | ok shares =>
      simp only [hx, hy] at herr
      cases herr

/-- `val.tokens` and `val.delegator_shares` in `undelegate`. -/
def Record.unbond (v : Record) (amount : Amount) : Record × Except ConsensusError Unit :=
  let r := subBoth v.tokens v.delegatorShares amount
  ({ v with tokens := r.1.1, delegatorShares := r.1.2 }, r.2)

/-- With enough shares a withdrawal fails at the tokens, before anything is taken. -/
theorem Record.unbond_error {v : Record} {amount : Amount} {e : ConsensusError}
    (hshares : amount.atto ≤ v.delegatorShares.atto) (herr : (v.unbond amount).2 = .error e) :
    v.tokens.atto < amount.atto ∧ (v.unbond amount).1 = v := by
  have hshort : ¬ amount.atto ≤ v.tokens.atto := by
    intro hle
    have hok : (v.unbond amount).2 = .ok () := subBoth_of_le hle hshares
    rw [hok] at herr
    cases herr
  refine ⟨Nat.lt_of_not_le hshort, ?_⟩
  simp only [Record.unbond, subBoth, Amount.checkedSub, if_neg hshort]

/-- `entry.shares` and `entry.balance` in `delegate`. -/
def Delegation.bond (d : Delegation) (amount : Amount) : Delegation × Except ConsensusError Unit :=
  let r := addBoth d.shares d.balance amount
  ({ d with shares := r.1.1, balance := r.1.2 }, r.2)

/-- `entry.balance` and `entry.shares` in `undelegate`. -/
def Delegation.unbond (d : Delegation) (amount : Amount) :
    Delegation × Except ConsensusError Unit :=
  let r := subBoth d.balance d.shares amount
  ({ d with balance := r.1.1, shares := r.1.2 }, r.2)

namespace Keeper

def new (params : Params) : Keeper := ⟨params, ∅, ∅, [], by simp, by simp⟩

def putValidator (k : Keeper) (v : Record) : Keeper :=
  { k with
    validators := k.validators.insert v.operatorAddress v
    filed := by
      intro a w hw
      by_cases ha : v.operatorAddress = a
      · subst ha
        simp only [ExtTreeMap.getElem?_insert_self, Option.some.injEq] at hw
        rw [hw]
      · rw [getElem?_insert_ne _ _ ha] at hw
        exact k.filed a w hw }

def putDelegation (k : Keeper) (d : Delegation) : Keeper :=
  { k with
    delegations := k.delegations.insert (d.delegatorAddress, d.validatorAddress) d
    entered := by
      intro key e he
      by_cases hkey : (d.delegatorAddress, d.validatorAddress) = key
      · subst hkey
        simp only [ExtTreeMap.getElem?_insert_self, Option.some.injEq] at he
        rw [he]
      · rw [getElem?_insert_ne _ _ hkey] at he
        exact k.entered key e he }

def registerValidator (k : Keeper) (operatorAddress : Address) (consensusPubkey : Bytes)
    (selfStake : Amount) : Keeper × Except ConsensusError Unit :=
  if operatorAddress ∈ k.validators then
    (k, .error (.invalidValidatorSet "validator already registered"))
  else if selfStake.atto < k.params.minSelfStake.atto then
    let found := selfStake.toSprxString
    let required := k.params.minSelfStake.toSprxString
    (k, .error (.invalidValidatorSet
      s!"self stake {found} is less than minimum required {required}"))
  else
    ((k.putValidator (.candidate operatorAddress consensusPubkey selfStake)).putDelegation
      ⟨operatorAddress, operatorAddress, selfStake, selfStake⟩, .ok ())

/-- The entry of a delegator, created empty if there is none. -/
def delegationOrEmpty (k : Keeper) (delegator validatorAddr : Address) : Delegation :=
  (k.delegations[(delegator, validatorAddr)]?).getD
    ⟨delegator, validatorAddr, Amount.zero, Amount.zero⟩

def delegate (k : Keeper) (delegator validatorAddr : Address) (amount : Amount) :
    Keeper × Except ConsensusError Unit :=
  match k.validators[validatorAddr]? with
  | none => (k, .error (.invalidValidatorSet "target validator not found"))
  | some val =>
    if val.isTombstoned ∨ val.status = .unbonded then
      (k, .error (.invalidValidatorSet "cannot delegate to tombstoned or unbonded validator"))
    else
      match val.bond amount with
      | (val, .error e) => (k.putValidator val, .error e)
      | (val, .ok ()) =>
        let k := k.putValidator val
        let entry := (k.delegationOrEmpty delegator validatorAddr).bond amount
        (k.putDelegation entry.1, entry.2)

/-- The entry that `undelegate` appends to the queue. -/
def unbonding (k : Keeper) (delegator validatorAddr : Address) (amount : Amount)
    (currentHeight : ℕ) : UnbondingEntry :=
  ⟨delegator, validatorAddr, currentHeight,
    (currentHeight + k.params.unbondingPeriodBlocks) % 2 ^ 64, amount⟩

def enqueue (k : Keeper) (entry : UnbondingEntry) : Keeper :=
  { k with unbondingQueue := k.unbondingQueue ++ [entry] }

def undelegate (k : Keeper) (delegator validatorAddr : Address) (amount : Amount)
    (currentHeight : ℕ) : Keeper × Except ConsensusError UnbondingEntry :=
  match k.delegations[(delegator, validatorAddr)]? with
  | none => (k, .error (.invalidValidatorSet "delegation not found"))
  | some entry =>
    if entry.balance.atto < amount.atto then
      (k, .error (.invalidValidatorSet "undelegation amount exceeds delegated balance"))
    else
      match entry.unbond amount with
      | (entry, .error e) => (k.putDelegation entry, .error e)
      | (entry, .ok ()) =>
        let k := k.putDelegation entry
        let unbonding := k.unbonding delegator validatorAddr amount currentHeight
        match k.validators[validatorAddr]? with
        | none => (k.enqueue unbonding, .ok unbonding)
        | some val =>
          match val.unbond amount with
          | (val, .error e) => (k.putValidator val, .error e)
          | (val, .ok ()) => ((k.putValidator val).enqueue unbonding, .ok unbonding)

/-- `tokens.checked_sub(slashed).unwrap_or(ZERO)`. -/
def burn (tokens slashed : Amount) : Amount :=
  match tokens.checkedSub slashed with
  | .ok left => left
  | .error _ => Amount.zero

theorem burn_atto (tokens slashed : Amount) :
    (burn tokens slashed).atto + min tokens.atto slashed.atto = tokens.atto := by
  unfold burn Amount.checkedSub
  by_cases hle : slashed.atto ≤ tokens.atto
  · simp only [if_pos hle]
    omega
  · simp only [if_neg hle, Amount.zero]
    omega

def slashEquivocation (k : Keeper) (evidence : EquivocationEvidence) :
    Keeper × Except ConsensusError Amount :=
  if evidence.isValidEquivocation then
    match k.validators[evidence.validatorAddress]? with
    | none => (k, .error (.invalidValidatorSet "validator not found"))
    | some val =>
      if val.isTombstoned then (k, .ok Amount.zero)
      else
        let slashed := k.params.doubleSignSlash val.tokens
        (k.putValidator
          { val with tokens := burn val.tokens slashed, status := .jailed, isTombstoned := true },
          .ok slashed)
  else (k, .error (.invalidValidatorSet "invalid equivocation evidence"))

def slashDowntime (k : Keeper) (validatorAddr : Address) (currentHeight : ℕ) :
    Keeper × Except ConsensusError Amount :=
  match k.validators[validatorAddr]? with
  | none => (k, .error (.invalidValidatorSet "validator not found"))
  | some val =>
    if val.status = .jailed ∨ val.isTombstoned then (k, .ok Amount.zero)
    else
      let missed := (val.missedBlocksCount + 1) % 2 ^ 64
      if k.params.missedBlocksThreshold ≤ missed then
        let slashed := k.params.downtimeSlash val.tokens
        (k.putValidator
          { val with
            tokens := burn val.tokens slashed
            status := .jailed
            jailedUntil := some ((currentHeight + k.params.downtimeJailBlocks) % 2 ^ 64)
            missedBlocksCount := 0 },
          .ok slashed)
      else (k.putValidator { val with missedBlocksCount := missed }, .ok Amount.zero)

def unjail (k : Keeper) (validatorAddr : Address) (currentHeight : ℕ) :
    Keeper × Except ConsensusError Unit :=
  match k.validators[validatorAddr]? with
  | none => (k, .error (.invalidValidatorSet "validator not found"))
  | some val =>
    if val.isTombstoned then
      (k, .error (.invalidValidatorSet "tombstoned validator cannot be unjailed"))
    else
      let released := k.putValidator
        { val with status := .active, jailedUntil := none, missedBlocksCount := 0 }
      match val.jailedUntil with
      | none => (released, .ok ())
      | some jailEnd =>
        if currentHeight < jailEnd then
          (k, .error (.invalidValidatorSet
            s!"jail duration active until block #{jailEnd} (current: #{currentHeight})"))
        else (released, .ok ())

@[simp] theorem putValidator_self (k : Keeper) (v : Record) :
    (k.putValidator v).validators[v.operatorAddress]? = some v := by simp [putValidator]

theorem putValidator_other (k : Keeper) {v : Record} {a : Address} (h : v.operatorAddress ≠ a) :
    (k.putValidator v).validators[a]? = k.validators[a]? := getElem?_insert_ne _ _ h

/-- A record is found under its own address. -/
theorem getElem?_operatorAddress {k : Keeper} {a : Address} {v : Record}
    (hv : k.validators[a]? = some v) : k.validators[v.operatorAddress]? = some v := by
  rwa [k.filed a v hv]

/-- Writing back a stored record changes nothing. -/
theorem putValidator_stored {k : Keeper} {v : Record}
    (hv : k.validators[v.operatorAddress]? = some v) :
    k.putValidator v = k := by
  simp only [putValidator, insert_getElem? _ hv]

theorem mem_putValidator {k : Keeper} {v : Record} {a : Address} (h : a ∈ k.validators) :
    a ∈ (k.putValidator v).validators := by
  simp only [putValidator, ExtTreeMap.mem_insert]
  exact Or.inr h

@[simp] theorem putDelegation_self (k : Keeper) (d : Delegation) :
    (k.putDelegation d).delegations[(d.delegatorAddress, d.validatorAddress)]? = some d := by
  simp [putDelegation]

theorem putDelegation_other (k : Keeper) {d : Delegation} {key : Address × Address}
    (h : (d.delegatorAddress, d.validatorAddress) ≠ key) :
    (k.putDelegation d).delegations[key]? = k.delegations[key]? := getElem?_insert_ne _ _ h

/-- A delegation names the validator it is entered for. -/
theorem validatorAddress_eq {k : Keeper} {delegator a : Address} {d : Delegation}
    (hd : k.delegations[(delegator, a)]? = some d) : d.validatorAddress = a :=
  congrArg Prod.snd (k.entered _ d hd)

theorem delegationOrEmpty_of_some {k : Keeper} {delegator a : Address} {d : Delegation}
    (h : k.delegations[(delegator, a)]? = some d) : k.delegationOrEmpty delegator a = d := by
  simp [delegationOrEmpty, h]

theorem delegationOrEmpty_addresses (k : Keeper) (delegator a : Address) :
    (k.delegationOrEmpty delegator a).delegatorAddress = delegator ∧
      (k.delegationOrEmpty delegator a).validatorAddress = a := by
  unfold delegationOrEmpty
  cases hd : k.delegations[(delegator, a)]? with
  | none => simp
  | some d => simpa using k.entered _ d hd

/-- The entry is found under its own addresses. -/
theorem delegationOrEmpty_self (k : Keeper) (delegator a : Address) :
    k.delegationOrEmpty (k.delegationOrEmpty delegator a).delegatorAddress
      (k.delegationOrEmpty delegator a).validatorAddress = k.delegationOrEmpty delegator a := by
  obtain ⟨hdelegator, hvalidator⟩ := k.delegationOrEmpty_addresses delegator a
  rw [hdelegator, hvalidator]

/-- A registration is refused, or enters the validator and its own delegation. -/
inductive Registered (k : Keeper) (a : Address) (key : Bytes) (stake : Amount) :
    Keeper × Except ConsensusError Unit → Prop
  | refused (e : ConsensusError) : Registered k a key stake (k, .error e)
  | entered (hnew : a ∉ k.validators) :
      Registered k a key stake
        ((k.putValidator (.candidate a key stake)).putDelegation ⟨a, a, stake, stake⟩, .ok ())

theorem registered_registerValidator (k : Keeper) (a : Address) (key : Bytes) (stake : Amount) :
    k.Registered a key stake (k.registerValidator a key stake) := by
  unfold registerValidator
  split
  · exact .refused _
  · rename_i hnew
    dsimp only
    split
    · exact .refused _
    · exact .entered hnew

/-- A delegation is refused, or stops at the validator's amounts, or comes to the
delegator's, where it may still stop. -/
inductive Delegated (k : Keeper) (delegator a : Address) (amount : Amount) :
    Keeper × Except ConsensusError Unit → Prop
  | refused (e : ConsensusError) : Delegated k delegator a amount (k, .error e)
  | stopped {val : Record} {e : ConsensusError} (hval : k.validators[a]? = some val)
      (hlive : val.isTombstoned = false) (hbond : (val.bond amount).2 = .error e) :
      Delegated k delegator a amount (k.putValidator (val.bond amount).1, .error e)
  | entered {val : Record} (hval : k.validators[a]? = some val) (hlive : val.isTombstoned = false)
      (hbond : (val.bond amount).2 = .ok ()) :
      Delegated k delegator a amount
        ((k.putValidator (val.bond amount).1).putDelegation
          ((k.delegationOrEmpty delegator a).bond amount).1,
          ((k.delegationOrEmpty delegator a).bond amount).2)

theorem delegated_delegate (k : Keeper) (delegator a : Address) (amount : Amount) :
    k.Delegated delegator a amount (k.delegate delegator a amount) := by
  unfold delegate
  cases hval : k.validators[a]? with
  | none => exact .refused _
  | some val =>
    dsimp only
    by_cases hclosed : val.isTombstoned ∨ val.status = .unbonded
    · rw [if_pos hclosed]
      exact .refused _
    · have hlive : val.isTombstoned = false := by simpa using (not_or.mp hclosed).1
      rw [if_neg hclosed, ← Prod.mk.eta (p := val.bond amount)]
      cases hbond : (val.bond amount).2 with
      | error e => exact .stopped hval hlive hbond
      | ok u => exact .entered hval hlive hbond

/-- An undelegation is refused, or stops at the delegator's amounts or at the
validator's, or goes through. Without a validator nothing is taken from one. -/
inductive Undelegated (k : Keeper) (delegator a : Address) (amount : Amount)
    (entry : UnbondingEntry) :
    Keeper × Except ConsensusError UnbondingEntry → Prop
  | refused (e : ConsensusError) (hshort : ∀ d, k.delegations[(delegator, a)]? = some d →
      d.balance.atto < amount.atto) : Undelegated k delegator a amount entry (k, .error e)
  | stopped {d : Delegation} {e : ConsensusError} (hd : k.delegations[(delegator, a)]? = some d)
      (hle : amount.atto ≤ d.balance.atto) (hunbond : (d.unbond amount).2 = .error e) :
      Undelegated k delegator a amount entry (k.putDelegation (d.unbond amount).1, .error e)
  | orphaned {d : Delegation} (hd : k.delegations[(delegator, a)]? = some d)
      (hval : k.validators[a]? = none) :
      Undelegated k delegator a amount entry
        ((k.putDelegation (d.unbond amount).1).enqueue entry, .ok entry)
  | halfway {d : Delegation} {val : Record} {e : ConsensusError}
      (hd : k.delegations[(delegator, a)]? = some d) (hle : amount.atto ≤ d.balance.atto)
      (hval : k.validators[a]? = some val) (hleave : (val.unbond amount).2 = .error e) :
      Undelegated k delegator a amount entry
        ((k.putDelegation (d.unbond amount).1).putValidator (val.unbond amount).1, .error e)
  | moved {d : Delegation} {val : Record} (hd : k.delegations[(delegator, a)]? = some d)
      (hunbond : (d.unbond amount).2 = .ok ()) (hval : k.validators[a]? = some val)
      (hleave : (val.unbond amount).2 = .ok ()) :
      Undelegated k delegator a amount entry
        (((k.putDelegation (d.unbond amount).1).putValidator (val.unbond amount).1).enqueue entry,
          .ok entry)

theorem undelegated_undelegate (k : Keeper) (delegator a : Address) (amount : Amount) (height : ℕ) :
    k.Undelegated delegator a amount (k.unbonding delegator a amount height)
      (k.undelegate delegator a amount height) := by
  unfold undelegate
  cases hd : k.delegations[(delegator, a)]? with
  | none => exact .refused _ (by simp [hd])
  | some d =>
    dsimp only
    by_cases hexceeds : d.balance.atto < amount.atto
    · rw [if_pos hexceeds]
      refine .refused _ (fun d' hd' => ?_)
      rw [hd] at hd'
      cases hd'
      exact hexceeds
    · have hle := Nat.le_of_not_lt hexceeds
      rw [if_neg hexceeds, ← Prod.mk.eta (p := d.unbond amount)]
      cases hunbond : (d.unbond amount).2 with
      | error e => exact .stopped hd hle hunbond
      | ok u =>
        dsimp only
        cases hval : (k.putDelegation (d.unbond amount).1).validators[a]? with
        | none => exact .orphaned hd hval
        | some val =>
          dsimp only
          rw [← Prod.mk.eta (p := val.unbond amount)]
          cases hleave : (val.unbond amount).2 with
          | error e => exact .halfway hd hle hval hleave
          | ok u => exact .moved hd hunbond hval hleave

/-- Evidence is refused, or comes too late, or costs the validator its stake and its place. -/
inductive Penalized (k : Keeper) (evidence : EquivocationEvidence) :
    Keeper × Except ConsensusError Amount → Prop
  | refused (e : ConsensusError) (hnone : evidence.isValidEquivocation = true →
      k.validators[evidence.validatorAddress]? = none) : Penalized k evidence (k, .error e)
  | settled {val : Record} (hvalid : evidence.isValidEquivocation = true)
      (hval : k.validators[evidence.validatorAddress]? = some val)
      (htombstoned : val.isTombstoned = true) :
      Penalized k evidence (k, .ok Amount.zero)
  | slashed {val : Record} (hvalid : evidence.isValidEquivocation = true)
      (hval : k.validators[evidence.validatorAddress]? = some val)
      (hlive : val.isTombstoned = false) :
      Penalized k evidence
        (k.putValidator
          { val with
            tokens := burn val.tokens (k.params.doubleSignSlash val.tokens)
            status := .jailed
            isTombstoned := true },
          .ok (k.params.doubleSignSlash val.tokens))

theorem penalized_slashEquivocation (k : Keeper) (evidence : EquivocationEvidence) :
    k.Penalized evidence (k.slashEquivocation evidence) := by
  unfold slashEquivocation
  by_cases hvalid : evidence.isValidEquivocation = true
  · rw [if_pos hvalid]
    cases hval : k.validators[evidence.validatorAddress]? with
    | none => exact .refused _ (fun _ => hval)
    | some val =>
      dsimp only
      by_cases htombstoned : val.isTombstoned = true
      · rw [if_pos htombstoned]
        exact .settled hvalid hval htombstoned
      · rw [if_neg htombstoned]
        exact .slashed hvalid hval (by simpa using htombstoned)
  · rw [if_neg hvalid]
    exact .refused _ (fun h => absurd h hvalid)

/-- A report of a missed block is refused, or about a validator that is out already, or
counted, or the last one before the jail. -/
inductive Reported (k : Keeper) (a : Address) (height : ℕ) :
    Keeper × Except ConsensusError Amount → Prop
  | refused (e : ConsensusError) (hnone : k.validators[a]? = none) : Reported k a height
      (k, .error e)
  | out {val : Record} (hval : k.validators[a]? = some val)
      (hout : val.status = .jailed ∨ val.isTombstoned = true) : Reported k a height
      (k, .ok Amount.zero)
  | counted {val : Record} (hval : k.validators[a]? = some val)
      (hfree : val.status ≠ .jailed) (hlive : val.isTombstoned = false)
      (hbelow : ¬ k.params.missedBlocksThreshold ≤ (val.missedBlocksCount + 1) % 2 ^ 64) :
      Reported k a height
        (k.putValidator { val with missedBlocksCount := (val.missedBlocksCount + 1) % 2 ^ 64 },
          .ok Amount.zero)
  | jailed {val : Record} (hval : k.validators[a]? = some val)
      (hfree : val.status ≠ .jailed) (hlive : val.isTombstoned = false)
      (hlimit : k.params.missedBlocksThreshold ≤ (val.missedBlocksCount + 1) % 2 ^ 64) :
      Reported k a height
        (k.putValidator
          { val with
            tokens := burn val.tokens (k.params.downtimeSlash val.tokens)
            status := .jailed
            jailedUntil := some ((height + k.params.downtimeJailBlocks) % 2 ^ 64)
            missedBlocksCount := 0 },
          .ok (k.params.downtimeSlash val.tokens))

theorem reported_slashDowntime (k : Keeper) (a : Address) (height : ℕ) :
    k.Reported a height (k.slashDowntime a height) := by
  unfold slashDowntime
  cases hval : k.validators[a]? with
  | none => exact .refused _ hval
  | some val =>
    dsimp only
    by_cases hout : val.status = .jailed ∨ val.isTombstoned = true
    · rw [if_pos hout]
      exact .out hval hout
    · obtain ⟨hfree, hlive⟩ := not_or.mp hout
      rw [if_neg hout]
      split
      · rename_i hlimit
        exact .jailed hval hfree (by simpa using hlive) hlimit
      · rename_i hbelow
        exact .counted hval hfree (by simpa using hlive) hbelow

/-- An unjailing is refused, or makes the validator active with a clean record. -/
inductive Unjailed (k : Keeper) (a : Address) (height : ℕ) :
    Keeper × Except ConsensusError Unit → Prop
  | refused (e : ConsensusError) : Unjailed k a height (k, .error e)
  | released {val : Record} (hval : k.validators[a]? = some val) (hlive : val.isTombstoned = false)
      (hover : ∀ jailEnd ∈ val.jailedUntil, jailEnd ≤ height) :
      Unjailed k a height
        (k.putValidator
          { val with status := .active, jailedUntil := none, missedBlocksCount := 0 }, .ok ())

theorem unjailed_unjail (k : Keeper) (a : Address) (height : ℕ) :
    k.Unjailed a height (k.unjail a height) := by
  unfold unjail
  cases hval : k.validators[a]? with
  | none => exact .refused _
  | some val =>
    dsimp only
    by_cases htombstoned : val.isTombstoned = true
    · rw [if_pos htombstoned]
      exact .refused _
    · have hlive : val.isTombstoned = false := by simpa using htombstoned
      rw [if_neg htombstoned]
      cases hterm : val.jailedUntil with
      | none => exact .released hval hlive (by simp [hterm])
      | some jailEnd =>
        dsimp only
        split
        · exact .refused _
        · rename_i hover
          exact .released hval hlive (by simpa [hterm] using hover)

/-- The validators without their shares and jail terms. -/
def view (k : Keeper) : StakingKeeper where
  params := k.params.toStakingParams
  validators := k.validators.map (fun _ v => v.toStakingValidator)
  filed := by
    intro a w hw
    rw [ExtTreeMap.getElem?_map] at hw
    obtain ⟨v, hv, rfl⟩ := Option.map_eq_some_iff.mp hw
    exact k.filed a v hv

/-- The active set, for a given enumeration order of the record table. -/
def getActiveValidatorSet (k : Keeper) (o : IterOrder StakingValidator) :
    Except ConsensusError ValidatorSet := k.view.getActiveValidatorSet o

@[simp] theorem view_getElem? (k : Keeper) (a : Address) :
    k.view.validators[a]? = (k.validators[a]?).map Record.toStakingValidator :=
  ExtTreeMap.getElem?_map

@[simp] theorem mem_view (k : Keeper) (a : Address) : a ∈ k.view.validators ↔ a ∈ k.validators :=
  ExtTreeMap.mem_map

@[simp] theorem view_putDelegation (k : Keeper) (d : Delegation) :
    (k.putDelegation d).view = k.view := rfl

theorem view_putValidator (k : Keeper) (v : Record) :
    (k.putValidator v).view = k.view.put v.toStakingValidator := by
  have hvalidators : (k.putValidator v).view.validators =
      (k.view.put v.toStakingValidator).validators := by
    apply ExtTreeMap.ext_getElem?
    intro a
    by_cases ha : v.operatorAddress = a
    · subst ha
      rw [view_getElem?, k.view.put_self]
      simp [putValidator]
    · rw [view_getElem?, k.view.put_other ha, view_getElem?, putValidator]
      simp only [getElem?_insert_ne _ _ ha]
  simpa only [view, putValidator, StakingKeeper.put, StakingKeeper.mk.injEq, true_and]
    using hvalidators

theorem view_registerValidator (k : Keeper) (a : Address) (key : Bytes) (stake : Amount) :
    Prod.map view id (k.registerValidator a key stake) = k.view.registerValidator a key stake := by
  have hparams : k.view.params.minSelfStake = k.params.minSelfStake := rfl
  simp only [registerValidator, StakingKeeper.registerValidator, mem_view, hparams]
  split
  · rfl
  · split
    · rfl
    · simp only [Prod.map_apply, view_putDelegation, view_putValidator, id_eq]
      rfl

theorem view_slashEquivocation (k : Keeper) (e : EquivocationEvidence) :
    Prod.map view id (k.slashEquivocation e) = k.view.slashEquivocation e := by
  simp only [slashEquivocation, StakingKeeper.slashEquivocation, view_getElem?]
  split
  · cases k.validators[e.validatorAddress]? with
    | none => rfl
    | some val =>
      simp only [Option.map_some]
      split
      · rfl
      · simp only [Prod.map_apply, view_putValidator, id_eq]
        rfl
  · rfl

end Keeper

/-- The calls that change a keeper. -/
inductive Call
  | registerValidator (operatorAddress : Address) (consensusPubkey : Bytes) (selfStake : Amount)
  | delegate (delegator validatorAddr : Address) (amount : Amount)
  | undelegate (delegator validatorAddr : Address) (amount : Amount) (currentHeight : ℕ)
  | slashEquivocation (evidence : EquivocationEvidence)
  | slashDowntime (validatorAddr : Address) (currentHeight : ℕ)
  | unjail (validatorAddr : Address) (currentHeight : ℕ)
  deriving DecidableEq

/-- What a call returns when it goes through. -/
inductive Reply
  | done
  | unbonding (entry : UnbondingEntry)
  | slashed (amount : Amount)
  deriving DecidableEq

namespace Keeper

def call (k : Keeper) : Call → Keeper × Except ConsensusError Reply
  | .registerValidator a key stake =>
    Prod.map id (Except.map fun _ => .done) (k.registerValidator a key stake)
  | .delegate d a amount => Prod.map id (Except.map fun _ => .done) (k.delegate d a amount)
  | .undelegate d a amount height =>
    Prod.map id (Except.map .unbonding) (k.undelegate d a amount height)
  | .slashEquivocation e => Prod.map id (Except.map .slashed) (k.slashEquivocation e)
  | .slashDowntime a height => Prod.map id (Except.map .slashed) (k.slashDowntime a height)
  | .unjail a height => Prod.map id (Except.map fun _ => .done) (k.unjail a height)

def next (k : Keeper) (c : Call) : Keeper := (k.call c).1

/-- The keeper after a run of calls, whatever they return. -/
def reached (params : Params) (calls : List Call) : Keeper := Runs.run next (new params) calls

end Keeper

end Sprax.Staking
