import Sprax.Failures

/-!
# Solvency of the staking keeper

As long as no penalty takes anything, the tokens of a validator are the balances of
its delegators, who can then leave in any order. Failing calls do not disturb this,
although they may stop halfway: in solvent books tokens and shares of a validator
are one amount, and two equal amounts overflow together. A penalty is entered on the
validator only, so the first one that takes something breaks the equality.
-/
namespace Sprax.Staking
open Std FiniteMap

namespace Keeper

/-- Delegators' balances add up to the tokens of their validator. -/
def Solvent (k : Keeper) : Prop :=
  ∀ (a : Address) (v : Record), k.validators[a]? = some v →
    k.towards Delegation.balance a = v.tokens.atto

theorem solvent_new (params : Params) : (new params).Solvent := by
  intro a v hv
  simp [new] at hv

/-- Without a penalty the balances stay matched by the tokens. -/
theorem Books.solvent {k k' : Keeper} {brought : ℕ} (hbooks : Books k brought 0 k') (h : k.Booked)
    (hsolvent : k.Solvent) : k'.Solvent := by
  have hmatched : k.Matched Delegation.balance (fun v => v.tokens) := hsolvent
  generalize hburnt : 0 = burnt at hbooks
  cases hbooks with
  | idle => exact hsolvent
  | @registered v hnew hshares =>
    refine hmatched.transact (fun _ _ => rfl) rfl ?_
    obtain ⟨hnone, hempty⟩ := h.toConsistent.unregistered hnew Delegation.balance v.operatorAddress
    simp only [hnone, hempty]
    simp [Amount.zero]
  | @bonded v v' d' n hv htarget htokens hshares hentry hbalance =>
    refine hmatched.transact (fun _ _ => rfl) htarget ?_
    have hsum := hsolvent _ v hv
    rw [← htarget] at hsum
    omega
  | @unbonded v v' d d' entry hv htarget hd htokens hshares hentry hbalance =>
    have hmoved := hmatched.transact (fun _ _ => rfl) htarget (by
      have hsum := hsolvent _ v hv
      rw [← htarget] at hsum
      rw [delegationOrEmpty_of_some hd]
      omega)
    exact hmoved
  | @adjusted v v' burnt hv hshares htokens =>
    exact hmatched.adjust hv (by omega)

/-- A penalty that takes something is not taken from anybody's balance. -/
theorem Books.insolvent {k k' : Keeper} {brought burnt : ℕ} (hbooks : Books k brought burnt k')
    (hburnt : 0 < burnt) (hsolvent : k.Solvent) : ¬ k'.Solvent := by
  intro hsolvent'
  cases hbooks with
  | idle | registered | bonded | unbonded => exact absurd hburnt (Nat.lt_irrefl 0)
  | @adjusted v v' burnt hv hshares htokens =>
    have hbefore := hsolvent _ v hv
    have hafter : k.towards Delegation.balance v'.operatorAddress = v'.tokens.atto :=
      hsolvent' _ v' (putValidator_self k v')
    omega

/-- In solvent books tokens and shares of a validator are the same amount. -/
theorem Booked.tokens_eq {k : Keeper} (h : k.Booked) (hsolvent : k.Solvent) {a : Address}
    {v : Record} (hv : k.validators[a]? = some v) : v.tokens = v.delegatorShares := by
  have hsame : k.towards Delegation.shares a = k.towards Delegation.balance a := by
    refine congrArg List.sum (List.map_congr_left (fun e he => ?_))
    have hd := ExtTreeMap.mem_toList_iff_getElem?_eq_some.mp he
    simp only [Delegation.towards, h.shares_eq _ _ hd]
  have hshares := h.shares_sum a v hv
  have htokens := hsolvent a v hv
  exact Amount.ext_atto (by omega)

/-- In solvent books neither the delegation nor its validator stops a withdrawal that
the balance covers. -/
theorem unbond_of_le {k : Keeper} (h : k.Booked) (hsolvent : k.Solvent) {delegator a : Address}
    {d : Delegation} (hd : k.delegations[(delegator, a)]? = some d) {amount : Amount}
    (hle : amount.atto ≤ d.balance.atto) {val : Record} (hval : k.validators[a]? = some val) :
    (d.unbond amount).2 = .ok () ∧ (val.unbond amount).2 = .ok () := by
  have hworth := congrArg Amount.atto (h.shares_eq _ d hd)
  have htokens := congrArg Amount.atto (h.tokens_eq hsolvent hval)
  have hsum : k.towards Delegation.shares a = val.delegatorShares.atto := h.shares_sum a val hval
  have hpart := k.orEmpty_le_towards Delegation.shares (fun _ _ => rfl) delegator a
  rw [delegationOrEmpty_of_some hd] at hpart
  exact ⟨subBoth_of_le hle (by omega), subBoth_of_le (by omega) (by omega)⟩

/-- In solvent books a delegator gets out what the delegation is worth. -/
theorem undelegate_of_le {k : Keeper} (h : k.Booked) (hsolvent : k.Solvent) {delegator a : Address}
    {d : Delegation} (hd : k.delegations[(delegator, a)]? = some d) {amount : Amount}
    (hle : amount.atto ≤ d.balance.atto) (height : ℕ) :
    ∃ entry, (k.undelegate delegator a amount height).2 = .ok entry := by
  obtain ⟨val, hval⟩ := h.toConsistent.exists_validator hd
  have hok := unbond_of_le h hsolvent hd hle hval
  have hcall := k.undelegated_undelegate delegator a amount height
  generalize k.undelegate delegator a amount height = result at hcall ⊢
  cases hcall with
  | refused e hshort => exact absurd (hshort d hd) (Nat.not_lt.mpr hle)
  | stopped hd' _ hunbond =>
    cases hd.symm.trans hd'
    exact absurd (hok.1.symm.trans hunbond) (by simp)
  | halfway _ _ hval' hleave =>
    cases hval.symm.trans hval'
    exact absurd (hok.2.symm.trans hleave) (by simp)
  | orphaned | moved => exact ⟨_, rfl⟩

/-- In solvent books no call gets halfway: tokens and shares of a validator overflow
together, and the tokens cover every delegation. -/
theorem not_stopsHalfway {k : Keeper} (h : k.Booked) (hsolvent : k.Solvent) (c : Call) :
    ¬ k.StopsHalfway c := by
  intro hhalfway
  cases c with
  | delegate delegator a amount =>
    obtain ⟨val, hval, -, hfits, hover⟩ := hhalfway
    rw [h.tokens_eq hsolvent hval] at hfits
    omega
  | undelegate delegator a amount height =>
    obtain ⟨d, val, hd, hval, hle, hshort⟩ := hhalfway
    have htokens := (subBoth_ok (unbond_of_le h hsolvent hd hle hval).2).1
    omega
  | registerValidator | slashEquivocation | slashDowntime | unjail => exact hhalfway

/-- In solvent books a call that fails enters nothing. -/
theorem next_books {k : Keeper} (h : k.Booked) (hsolvent : k.Solvent) (c : Call) :
    ∃ brought, Books k brought (k.burnt c) (k.next c) := by
  cases hreply : (k.call c).2 with
  | ok r => exact ⟨c.brought, call_books h.toConsistent hreply⟩
  | error e =>
    have hsame : k.next c = k :=
      (failed_of_error h.covered hreply).unchanged_of_not (not_stopsHalfway h hsolvent c)
    refine ⟨0, ?_⟩
    cases c with
    | registerValidator | delegate | undelegate =>
      rw [hsame]
      exact .idle
    | slashEquivocation e => exact k.slashEquivocation_books e
    | slashDowntime a height => exact k.slashDowntime_books a height
    | unjail a height => exact k.unjail_books a height

theorem Books.mem_delegations {k k' : Keeper} {brought burnt : ℕ}
    (hbooks : Books k brought burnt k') {key : Address × Address} (hkey : key ∈ k.delegations) :
      key ∈ k'.delegations := by
  cases hbooks with
  | idle | adjusted => exact hkey
  | registered | bonded | unbonded => exact ExtTreeMap.mem_insert.mpr (Or.inr hkey)

end Keeper

/-- A delegator leaving a validator. -/
structure Exit where
  delegator : Address
  validatorAddr : Address
  currentHeight : ℕ

namespace Keeper

/-- Undelegate everything that the delegation is worth. -/
def leave (k : Keeper) (x : Exit) : Keeper × Except ConsensusError UnbondingEntry :=
  k.undelegate x.delegator x.validatorAddr
    (k.delegationOrEmpty x.delegator x.validatorAddr).balance x.currentHeight

/-- What the delegators get who leave one after the other. -/
def leaveAll (k : Keeper) : List Exit → List (Except ConsensusError UnbondingEntry)
  | [] => []
  | x :: rest => (k.leave x).2 :: (k.leave x).1.leaveAll rest

theorem leaveAll_ok {k : Keeper} (h : k.Booked) (hsolvent : k.Solvent) {exits : List Exit}
    (hexits : ∀ x ∈ exits, (x.delegator, x.validatorAddr) ∈ k.delegations) :
    ∀ result ∈ k.leaveAll exits, result.isOk = true := by
  induction exits generalizing k with
  | nil => simp [leaveAll]
  | cons x rest ih =>
    obtain ⟨d, hd⟩ := Option.isSome_iff_exists.mp
      (ExtTreeMap.mem_iff_isSome_getElem?.mp (hexits x List.mem_cons_self))
    obtain ⟨entry, hok⟩ :=
      undelegate_of_le h hsolvent hd (Nat.le_refl d.balance.atto) x.currentHeight
    rw [← delegationOrEmpty_of_some hd] at hok
    have hbooks := undelegate_books h.toConsistent hok
    have hrest := ih (hbooks.booked h) (hbooks.solvent h hsolvent) (fun y hy =>
      hbooks.mem_delegations (hexits y (List.mem_cons_of_mem x hy)))
    intro result hresult
    rcases List.mem_cons.mp hresult with rfl | hlater
    · rw [leave, hok]
      rfl
    · exact hrest result hlater

/-- In every run of calls, failing ones included, of which none takes anything from a
validator, balances and tokens agree and delegators can leave in any order. The next
call keeps it so exactly if it takes nothing either. -/
theorem solvent_of_unburnt (params : Params) {calls : List Call}
    (hrun : Runs.Along (fun k c => k.burnt c = 0) next (new params) calls) :
    (reached params calls).Solvent ∧
      (∀ exits : List Exit,
        (∀ x ∈ exits, (x.delegator, x.validatorAddr) ∈ (reached params calls).delegations) →
          ∀ result ∈ (reached params calls).leaveAll exits, result.isOk = true) ∧
      ∀ c, ((reached params calls).next c).Solvent ↔ (reached params calls).burnt c = 0 := by
  have hinv : (reached params calls).Booked ∧ (reached params calls).Solvent := by
    refine hrun.invariant (I := fun k => k.Booked ∧ k.Solvent) ?_
      ⟨booked_new params, solvent_new params⟩
    rintro k c hburnt ⟨h, hsolvent⟩
    obtain ⟨brought, hbooks⟩ := next_books h hsolvent c
    rw [hburnt] at hbooks
    exact ⟨hbooks.booked h, hbooks.solvent h hsolvent⟩
  obtain ⟨h, hsolvent⟩ := hinv
  refine ⟨hsolvent, fun exits hexits => leaveAll_ok h hsolvent hexits, fun c => ?_⟩
  obtain ⟨brought, hbooks⟩ := next_books h hsolvent c
  constructor
  · intro hafter
    by_contra hburnt
    exact hbooks.insolvent (Nat.pos_of_ne_zero hburnt) hsolvent hafter
  · intro hburnt
    rw [hburnt] at hbooks
    exact hbooks.solvent h hsolvent

open Devnet in
/-- The validator and its delegator leave, the validator first. -/
def bothLeave : List Exit := [⟨addressOf 1, addressOf 1, 10⟩, ⟨addressOf 2, addressOf 1, 11⟩]

open Devnet in
/-- After the penalty of 75 SPRX the delegations are still worth 1500 SPRX together,
and who leaves last gets an error. -/
theorem slashed_pool_insolvent :
    ¬ (reached devParams (pooledCalls ++ [.slashEquivocation doubleVote])).Solvent ∧
      ((reached devParams (pooledCalls ++ [.slashEquivocation doubleVote])).leaveAll bothLeave).map
        Except.isOk = [true, false] := by
  refine ⟨fun hsolvent => ?_, by decide +kernel⟩
  have hrecord : ((reached devParams (pooledCalls ++ [.slashEquivocation doubleVote])).validators[
      addressOf 1]?).map (fun v => v.tokens) = some (sprx 1425) := by decide +kernel
  have hbalances : (reached devParams (pooledCalls ++ [.slashEquivocation doubleVote])).towards
      Delegation.balance (addressOf 1) = (sprx 1500).atto := by decide +kernel
  obtain ⟨v, hv, htokens⟩ := Option.map_eq_some_iff.mp hrecord
  have hsum := hsolvent (addressOf 1) v hv
  rw [hbalances, htokens] at hsum
  exact absurd hsum (by decide +kernel)

open Devnet in
theorem solvent_of_unburnt_devnet :
    (reached devParams (pooledCalls ++ [.slashDowntime (addressOf 1) 3])).Solvent ∧
      ∀ result ∈ (reached devParams (pooledCalls ++ [.slashDowntime (addressOf 1) 3])).leaveAll
        bothLeave, result.isOk = true := by
  have hrun : Runs.Along (fun k c => k.burnt c = 0) next (new devParams)
      (pooledCalls ++ [.slashDowntime (addressOf 1) 3]) := by decide +kernel
  obtain ⟨hsolvent, hleave, -⟩ := solvent_of_unburnt devParams hrun
  exact ⟨hsolvent, hleave bothLeave (by decide +kernel)⟩

end Keeper

end Sprax.Staking
