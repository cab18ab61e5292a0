import Sprax.Books

/-!
# Calls that fail halfway

A method of the keeper writes as it goes and leaves by `?`, so what it has written before
an error stays. In every reachable state the delegations are covered by the shares of
their validators, whatever calls have failed before. That leaves two ways to fail with
something written: a delegation that fits the tokens of a validator and not its shares,
and an undelegation of more than is left of the tokens. Both need a penalty first.
-/
namespace Sprax.Staking
open Std FiniteMap

namespace Keeper

/-- The delegations to a validator are no more than its shares. -/
structure Covered (k : Keeper) : Prop extends Consistent k where
  shares_le : ∀ (a : Address) (v : Record), k.validators[a]? = some v →
    k.towards Delegation.shares a ≤ v.delegatorShares.atto

theorem covered_new (params : Params) : (new params).Covered where
  registered := by simp [new]
  shares_eq := by simp [new]
  shares_le := by
    intro a v hv
    simp [new] at hv

theorem Covered.adjust {k : Keeper} (h : k.Covered) {v v' : Record}
    (hv : k.validators[v'.operatorAddress]? = some v)
    (hshares : v'.delegatorShares = v.delegatorShares) : (k.putValidator v').Covered where
  toConsistent := h.toConsistent.adjust v'
  shares_le := accounts_adjust h.shares_le hv (congrArg Amount.atto hshares)

/-- A validator and a delegation that are written together stay covered if the shares
grow by what the delegation grows, or shrink by no more than it shrinks. -/
theorem Covered.put {k : Keeper} (h : k.Covered) {v v' : Record} {d' : Delegation}
    (hv : k.validators[v'.operatorAddress]? = some v)
    (htarget : d'.validatorAddress = v'.operatorAddress) (hworth : d'.shares = d'.balance)
    (hmoved : d'.shares.atto + v.delegatorShares.atto ≤ v'.delegatorShares.atto +
      (k.delegationOrEmpty d'.delegatorAddress d'.validatorAddress).shares.atto) :
    ((k.putValidator v').putDelegation d').Covered where
  toConsistent := h.toConsistent.put htarget hworth
  shares_le := by
    refine accounts_put h.shares_le (fun _ _ => rfl) htarget (fun n hn => ?_)
    have hle := h.shares_le _ v hv
    rw [← htarget] at hle
    omega

/-- A single delegation is no more than the account it belongs to. -/
theorem orEmpty_le_towards (k : Keeper) (amountOf : Delegation → Amount)
    (hzero : ∀ d a, (amountOf ⟨d, a, Amount.zero, Amount.zero⟩).atto = 0) (delegator a : Address) :
    (amountOf (k.delegationOrEmpty delegator a)).atto ≤ k.towards amountOf a := by
  have hle := weightAt_le_weight (Delegation.towards amountOf a) k.delegations (delegator, a)
  unfold weightAt at hle
  unfold delegationOrEmpty
  cases hd : k.delegations[(delegator, a)]? with
  | none => simp [hzero]
  | some d =>
    have haddr := validatorAddress_eq hd
    simpa [hd, Delegation.towards, haddr, Keeper.towards] using hle

/-- A delegation is no more than the shares of its validator. -/
theorem Covered.shares_le_of_get {k : Keeper} (h : k.Covered) (delegator : Address) {a : Address}
    {val : Record} (hval : k.validators[a]? = some val) :
    (k.delegationOrEmpty delegator a).shares.atto ≤ val.delegatorShares.atto :=
  Nat.le_trans (k.orEmpty_le_towards Delegation.shares (fun _ _ => rfl) delegator a)
    (h.shares_le a val hval)

/-- A call that goes through leaves the delegations covered. -/
theorem Books.covered {k k' : Keeper} {brought burnt : ℕ} (hbooks : Books k brought burnt k')
    (h : k.Covered) : k'.Covered := by
  cases hbooks with
  | idle => exact h
  | @registered v hnew hshares =>
    refine ⟨h.toConsistent.put rfl rfl, accounts_put h.shares_le (fun _ _ => rfl) rfl
      (fun n hn => ?_)⟩
    obtain ⟨hnone, hempty⟩ := h.toConsistent.unregistered hnew Delegation.shares v.operatorAddress
    rw [hnone, hempty] at hn
    rw [hshares]
    simpa [Amount.zero] using hn.le
  | @bonded v v' d' n hv htarget htokens hshares hentry hbalance =>
    have heq := congrArg Amount.atto
      (h.toConsistent.orEmpty_eq d'.delegatorAddress d'.validatorAddress)
    exact h.put hv htarget (Amount.ext_atto (by omega)) (by omega)
  | @unbonded v v' d d' entry hv htarget hd htokens hshares hentry hbalance =>
    have heq := congrArg Amount.atto (h.shares_eq _ d hd)
    have hput := h.put hv htarget (Amount.ext_atto (by omega)) (by
      rw [delegationOrEmpty_of_some hd]
      omega)
    exact ⟨⟨hput.registered, hput.shares_eq⟩, hput.shares_le⟩
  | @adjusted v v' burnt hv hshares htokens => exact h.adjust hv hshares

/-- The call gets halfway: a delegation that fits the tokens of an open validator but not
its shares, or an undelegation that the balance covers but not the validator's tokens. -/
def StopsHalfway (k : Keeper) : Call → Prop
  | .delegate _ a amount => ∃ val, k.validators[a]? = some val ∧
      ¬ (val.isTombstoned ∨ val.status = .unbonded) ∧
      val.tokens.atto + amount.atto < 2 ^ 128 ∧ 2 ^ 128 ≤ val.delegatorShares.atto + amount.atto
  | .undelegate delegator a amount _ => ∃ d val, k.delegations[(delegator, a)]? = some d ∧
      k.validators[a]? = some val ∧ amount.atto ≤ d.balance.atto ∧ val.tokens.atto < amount.atto
  | _ => False

/-- A call that fails leaves the keeper as it was, or has got halfway and leaves the
validator with the tokens, or the delegation without them. -/
inductive Failed (k : Keeper) (c : Call) : Keeper → Prop
  | unchanged : Failed k c k
  | credited {a : Address} {val val' : Record} (hhalfway : k.StopsHalfway c)
      (hval : k.validators[a]? = some val) (haddr : val'.operatorAddress = a)
      (hshares : val'.delegatorShares = val.delegatorShares)
      (htokens : val.tokens.atto < val'.tokens.atto) : Failed k c (k.putValidator val')
  | debited {key : Address × Address} {d d' : Delegation} (hhalfway : k.StopsHalfway c)
      (hd : k.delegations[key]? = some d) (hkey : (d'.delegatorAddress, d'.validatorAddress) = key)
      (hworth : d'.shares = d'.balance) (hbalance : d'.balance.atto < d.balance.atto) :
      Failed k c (k.putDelegation d')

theorem Failed.unchanged_of_not {k k' : Keeper} {c : Call} (h : k.Failed c k')
    (hc : ¬ k.StopsHalfway c) : k' = k := by
  cases h with
  | unchanged => rfl
  | credited hhalfway | debited hhalfway => exact absurd hhalfway hc

theorem registerValidator_error {k : Keeper} {a : Address} {key : Bytes} {stake : Amount}
    {e : ConsensusError} (herr : (k.registerValidator a key stake).2 = .error e) :
    (k.registerValidator a key stake).1 = k := by
  have hcall := k.registered_registerValidator a key stake
  generalize k.registerValidator a key stake = result at hcall herr ⊢
  cases hcall with
  | refused e => rfl
  | entered hnew => cases herr

/-- What a validator takes on, its delegation can take on. -/
theorem Covered.bond_entry {k : Keeper} (h : k.Covered) (delegator : Address) {a : Address}
    {val : Record} {amount : Amount} (hval : k.validators[a]? = some val)
    (hbond : (val.bond amount).2 = .ok ()) :
    ((k.delegationOrEmpty delegator a).bond amount).2 = .ok () := by
  have hle := h.shares_le_of_get delegator hval
  have hworth := congrArg Amount.atto (h.toConsistent.orEmpty_eq delegator a)
  have hfits := (val.bond amount).1.delegatorShares.lt
  have hshares := (addBoth_ok hbond).2
  simp only [Record.bond] at hfits
  exact addBoth_of_fits (by omega) (by omega)

theorem failed_delegate {k : Keeper} (h : k.Covered) {delegator a : Address} {amount : Amount}
    {e : ConsensusError} (herr : (k.delegate delegator a amount).2 = .error e) :
    k.Failed (.delegate delegator a amount) (k.delegate delegator a amount).1 := by
  unfold delegate at herr ⊢
  cases hval : k.validators[a]? with
  | none => exact .unchanged
  | some val =>
    rw [hval] at herr
    dsimp only at herr ⊢
    by_cases hclosed : val.isTombstoned ∨ val.status = .unbonded
    · rw [if_pos hclosed]
      exact .unchanged
    · rw [if_neg hclosed, ← Prod.mk.eta (p := val.bond amount)] at herr ⊢
      cases hbond : (val.bond amount).2 with
      | error e =>
        dsimp only
        rcases Record.bond_error hbond with hsame | ⟨hfits, hover, htokens⟩
        · rw [hsame, putValidator_stored (getElem?_operatorAddress hval)]
          exact .unchanged
        · refine .credited ⟨val, hval, hclosed, hfits, hover⟩ hval (k.filed a val hval)
            (addBoth_error_snd hbond) ?_
          have hlt := val.delegatorShares.lt
          omega
      | ok u =>
        rw [hbond] at herr
        have hok := h.bond_entry delegator hval hbond
        exact absurd (hok.symm.trans herr) (by simp)

theorem failed_undelegate {k : Keeper} (h : k.Covered) {delegator a : Address} {amount : Amount}
    {height : ℕ} {e : ConsensusError} (herr : (k.undelegate delegator a amount height).2 =
      .error e) :
    k.Failed (.undelegate delegator a amount height)
      (k.undelegate delegator a amount height).1 := by
  have hcall := k.undelegated_undelegate delegator a amount height
  generalize k.undelegate delegator a amount height = result at hcall herr ⊢
  cases hcall with
  | refused => exact .unchanged
  | orphaned | moved => cases herr
  | @stopped d e hd hle hunbond =>
    have hworth := congrArg Amount.atto (h.shares_eq _ d hd)
    have hok : (d.unbond amount).2 = .ok () := subBoth_of_le hle (by omega)
    exact absurd (hok.symm.trans hunbond) (by simp)
  | @halfway d val e hd hle hval hleave =>
    have hworth := congrArg Amount.atto (h.shares_eq _ d hd)
    have hcovered := h.shares_le_of_get delegator hval
    rw [delegationOrEmpty_of_some hd] at hcovered
    obtain ⟨hshort, hsame⟩ := Record.unbond_error (by omega) hleave
    have hunbond : (d.unbond amount).2 = .ok () := subBoth_of_le hle (by omega)
    obtain ⟨hbalance, hshares⟩ := subBoth_ok hunbond
    have hstored : (k.putDelegation (d.unbond amount).1).validators[val.operatorAddress]? =
        some val :=
      getElem?_operatorAddress (k := k) hval
    rw [hsame, putValidator_stored hstored]
    refine .debited ⟨d, val, hd, hval, hle, hshort⟩ hd (k.entered _ d hd) ?_ ?_
    · refine Amount.ext_atto (Nat.add_right_cancel (m := amount.atto) ?_)
      exact hshares.trans (hworth.trans hbalance.symm)
    · exact Nat.lt_of_lt_of_eq (Nat.lt_add_of_pos_right (by omega)) hbalance

theorem error_of_map {α β : Type} {f : α → β} {x : Except ConsensusError α} {e : ConsensusError}
    (h : x.map f = .error e) : x = .error e := by
  cases x with
  | error e' => exact congrArg _ (Except.error.inj h)
  | ok y => cases h

theorem failed_of_error {k : Keeper} (h : k.Covered) {c : Call} {e : ConsensusError}
    (herr : (k.call c).2 = .error e) : k.Failed c (k.next c) := by
  cases c with
  | registerValidator a key stake =>
    have hsame : k.next (.registerValidator a key stake) = k :=
      registerValidator_error (error_of_map herr)
    rw [hsame]
    exact .unchanged
  | delegate delegator a amount => exact failed_delegate h (error_of_map herr)
  | undelegate delegator a amount height => exact failed_undelegate h (error_of_map herr)
  | slashEquivocation evidence =>
    have hcall := k.penalized_slashEquivocation evidence
    simp only [next, call] at herr ⊢
    generalize k.slashEquivocation evidence = result at hcall herr ⊢
    cases hcall with
    | refused => exact .unchanged
    | settled | slashed => cases herr
  | slashDowntime a height =>
    have hcall := k.reported_slashDowntime a height
    simp only [next, call] at herr ⊢
    generalize k.slashDowntime a height = result at hcall herr ⊢
    cases hcall with
    | refused => exact .unchanged
    | out | counted | jailed => cases herr
  | unjail a height =>
    have hcall := k.unjailed_unjail a height
    simp only [next, call] at herr ⊢
    generalize k.unjail a height = result at hcall herr ⊢
    cases hcall with
    | refused => exact .unchanged
    | released => cases herr

theorem Booked.covered {k : Keeper} (h : k.Booked) : k.Covered where
  toConsistent := h.toConsistent
  shares_le a v hv := (h.shares_sum a v hv).le

/-- Whatever a call returns, the delegations stay covered. -/
theorem Covered.next {k : Keeper} (h : k.Covered) (c : Call) : (k.next c).Covered := by
  cases hreply : (k.call c).2 with
  | ok r => exact (call_books h.toConsistent hreply).covered h
  | error e =>
    have hfailed := failed_of_error h hreply
    generalize k.next c = k' at hfailed ⊢
    cases hfailed with
    | unchanged => exact h
    | credited hhalfway hval haddr hshares => exact h.adjust (haddr ▸ hval) hshares
    | @debited key d d' hhalfway hd hkey hworth hbalance =>
      subst hkey
      obtain ⟨val, hval⟩ := h.toConsistent.exists_validator hd
      have hstored := getElem?_operatorAddress hval
      have hput : ((k.putValidator val).putDelegation d').Covered := by
        refine h.put hstored (k.filed _ val hval).symm hworth ?_
        have hold := congrArg Amount.atto (h.shares_eq _ d hd)
        rw [delegationOrEmpty_of_some hd, hworth]
        omega
      rwa [putValidator_stored hstored] at hput

theorem covered_reached (params : Params) (calls : List Call) : (reached params calls).Covered :=
  Runs.run_invariant (I := Covered) (fun _ c h => h.next c) _ calls (covered_new params)

theorem delegate_stopsHalfway {k : Keeper} {delegator a : Address} {amount : Amount}
    (hc : k.StopsHalfway (.delegate delegator a amount)) :
    ∃ e, (k.delegate delegator a amount).2 = .error e ∧
      (k.delegate delegator a amount).1.validators ≠ k.validators := by
  obtain ⟨val, hval, hopen, hfits, hover⟩ := hc
  have hbond : val.bond amount = ({ val with tokens := ⟨val.tokens.atto + amount.atto, hfits⟩ },
      .error (.invalidValidatorSet (TypeError.amountOverflow "addition overflow").display)) := by
    simp only [Record.bond, addBoth, Amount.checkedAdd, dif_pos hfits,
      dif_neg (Nat.not_lt.mpr hover)]
  have hcall : k.delegate delegator a amount =
      (k.putValidator { val with tokens := ⟨val.tokens.atto + amount.atto, hfits⟩ },
        .error (.invalidValidatorSet (TypeError.amountOverflow "addition overflow").display)) := by
    simp only [delegate, hval, if_neg hopen, hbond]
  rw [hcall]
  refine ⟨_, rfl, fun hsame => ?_⟩
  have hself := k.putValidator_self { val with tokens := ⟨val.tokens.atto + amount.atto, hfits⟩ }
  rw [hsame, getElem?_operatorAddress hval] at hself
  have htokens : val.tokens.atto = val.tokens.atto + amount.atto :=
    congrArg (fun v => v.tokens.atto) (Option.some.inj hself)
  have hlt := val.delegatorShares.lt
  omega

theorem undelegate_stopsHalfway {k : Keeper} (h : k.Covered) {delegator a : Address}
    {amount : Amount} {height : ℕ} (hc : k.StopsHalfway (.undelegate delegator a amount height)) :
    ∃ e, (k.undelegate delegator a amount height).2 = .error e ∧
      (k.undelegate delegator a amount height).1.delegations ≠ k.delegations := by
  obtain ⟨d, val, hd, hval, hle, hshort⟩ := hc
  have hworth := congrArg Amount.atto (h.shares_eq _ d hd)
  have hunbond : (d.unbond amount).2 = .ok () := subBoth_of_le hle (by omega)
  have hcall := k.undelegated_undelegate delegator a amount height
  generalize k.undelegate delegator a amount height = result at hcall ⊢
  cases hcall with
  | refused e hnone => exact absurd (hnone d hd) (Nat.not_lt.mpr hle)
  | stopped hd' _ hstop =>
    cases hd.symm.trans hd'
    exact absurd (hunbond.symm.trans hstop) (by simp)
  | orphaned _ hnone => exact absurd (hval.symm.trans hnone) (by simp)
  | moved _ _ hval' hleave =>
    cases hval.symm.trans hval'
    have htokens := (subBoth_ok hleave).1
    omega
  | halfway hd' _ _ hleave =>
    cases hd.symm.trans hd'
    refine ⟨_, rfl, fun hsame => ?_⟩
    have hself := k.putDelegation_self (d.unbond amount).1
    have hkey : ((d.unbond amount).1.delegatorAddress, (d.unbond amount).1.validatorAddress) =
        (delegator, a) := k.entered _ d hd
    rw [hkey, show (k.putDelegation (d.unbond amount).1).delegations = k.delegations from hsame,
      hd] at hself
    have hbalance := (subBoth_ok hunbond).1
    have hkept : d.balance.atto = (d.unbond amount).1.balance.atto :=
      congrArg (fun d => d.balance.atto) (Option.some.inj hself)
    simp only [Delegation.unbond] at hkept
    omega

/-- In a reachable state a call that returns `Err` leaves validators, delegations and queue
as they were, exactly if it does not stop halfway. -/
theorem atomic_iff (params : Params) (calls : List Call) (c : Call) :
    (∀ e, ((reached params calls).call c).2 = .error e →
      ((reached params calls).next c).validators = (reached params calls).validators ∧
      ((reached params calls).next c).delegations = (reached params calls).delegations ∧
      ((reached params calls).next c).unbondingQueue = (reached params calls).unbondingQueue) ↔
      ¬ (reached params calls).StopsHalfway c := by
  have hcovered := covered_reached params calls
  generalize reached params calls = k at hcovered ⊢
  constructor
  · intro hatomic hhalfway
    cases c with
    | delegate delegator a amount =>
      obtain ⟨e, herr, hchanged⟩ := delegate_stopsHalfway hhalfway
      exact hchanged (hatomic e (congrArg (Except.map fun _ => Reply.done) herr)).1
    | undelegate delegator a amount height =>
      obtain ⟨e, herr, hchanged⟩ := undelegate_stopsHalfway hcovered hhalfway
      exact hchanged (hatomic e (congrArg (Except.map Reply.unbonding) herr)).2.1
    | registerValidator | slashEquivocation | slashDowntime | unjail => exact hhalfway
  · intro hc e herr
    rw [(failed_of_error hcovered herr).unchanged_of_not hc]
    exact ⟨rfl, rfl, rfl⟩

open Devnet in
/-- After a penalty of 75 SPRX the validator takes out its own 1000. -/
def lateWithdrawal : List Call :=
  pooledCalls ++ [.slashEquivocation doubleVote,
    .undelegate (addressOf 1) (addressOf 1) (sprx 1000) 9]

open Devnet in
/-- A stake of all that fits, after a penalty for downtime. -/
def fullStake : List Call :=
  [.registerValidator (addressOf 1) [] ⟨2 ^ 128 - 1, by decide⟩, .slashDowntime (addressOf 1) 3]

open Devnet in
/-- Two failing calls that leave something. The delegator asks for 500 of the 425 SPRX that
are left and is without a balance; one unit more than the shares can hold stays with the
validator, although nobody has delegated it. -/
theorem failed_calls_write :
    ((reached devParams lateWithdrawal).call
        (.undelegate (addressOf 2) (addressOf 1) (sprx 500) 10)).2.isOk = false ∧
      ((reached devParams lateWithdrawal).delegations[(addressOf 2, addressOf 1)]?).map
        Delegation.balance = some (sprx 500) ∧
      (((reached devParams lateWithdrawal).next
        (.undelegate (addressOf 2) (addressOf 1) (sprx 500) 10)).delegations[
          (addressOf 2, addressOf 1)]?).map Delegation.balance = some (sprx 0) ∧
      ((reached strictParams fullStake).call
        (.delegate (addressOf 2) (addressOf 1) ⟨1, by decide⟩)).2.isOk = false ∧
      (((reached strictParams fullStake).next
        (.delegate (addressOf 2) (addressOf 1) ⟨1, by decide⟩)).validators[addressOf 1]?).map
          (fun v => v.tokens.atto) =
        ((reached strictParams fullStake).validators[addressOf 1]?).map
          (fun v => v.tokens.atto + 1) := by
  decide +kernel

end Keeper

end Sprax.Staking
