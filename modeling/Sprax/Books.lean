import Sprax.Staking
import Sprax.Devnet

/-!
# The books of the staking keeper

Stake is entered in four places: on the validator, in the delegation, in the
unbonding queue and as burnt by a penalty. `Books` says what one call enters if it
goes through, and how much it brings in and burns. In runs without failing calls
nothing is lost: what was staked is bonded, unbonding or burnt, and a validator's
shares are those of its delegations.
-/
namespace Sprax.Staking
open Std FiniteMap

/-- What a delegation contributes to the account of a validator. -/
def Delegation.towards (amountOf : Delegation → Amount) (a : Address) (d : Delegation) : ℕ :=
  if d.validatorAddress = a then (amountOf d).atto else 0

namespace Keeper

/-- Sum over all delegations to a validator. -/
def towards (k : Keeper) (amountOf : Delegation → Amount) (a : Address) : ℕ :=
  weight (Delegation.towards amountOf a) k.delegations

/-- Sum of all validators' tokens. -/
def bonded (k : Keeper) : ℕ := weight (fun v => v.tokens.atto) k.validators

/-- Sum of all amounts in the unbonding queue. -/
def queued (k : Keeper) : ℕ := (k.unbondingQueue.map (fun entry => entry.amount.atto)).sum

/-- What a call that goes through enters: `Books k brought burnt k'`. -/
inductive Books (k : Keeper) : ℕ → ℕ → Keeper → Prop
  | idle : Books k 0 0 k
  | registered {v : Record} (hnew : v.operatorAddress ∉ k.validators)
      (hshares : v.delegatorShares = v.tokens) :
      Books k v.tokens.atto 0 ((k.putValidator v).putDelegation
        ⟨v.operatorAddress, v.operatorAddress, v.tokens, v.tokens⟩)
  | bonded {v v' : Record} {d' : Delegation} {n : ℕ}
      (hv : k.validators[v'.operatorAddress]? = some v)
      (htarget : d'.validatorAddress = v'.operatorAddress)
      (htokens : v'.tokens.atto = v.tokens.atto + n)
      (hshares : v'.delegatorShares.atto = v.delegatorShares.atto + n)
      (hentry : d'.shares.atto =
        (k.delegationOrEmpty d'.delegatorAddress d'.validatorAddress).shares.atto + n)
      (hbalance : d'.balance.atto =
        (k.delegationOrEmpty d'.delegatorAddress d'.validatorAddress).balance.atto + n) :
      Books k n 0 ((k.putValidator v').putDelegation d')
  | unbonded {v v' : Record} {d d' : Delegation} {entry : UnbondingEntry}
      (hv : k.validators[v'.operatorAddress]? = some v)
      (htarget : d'.validatorAddress = v'.operatorAddress)
      (hd : k.delegations[(d'.delegatorAddress, d'.validatorAddress)]? = some d)
      (htokens : v'.tokens.atto + entry.amount.atto = v.tokens.atto)
      (hshares : v'.delegatorShares.atto + entry.amount.atto = v.delegatorShares.atto)
      (hentry : d'.shares.atto + entry.amount.atto = d.shares.atto)
      (hbalance : d'.balance.atto + entry.amount.atto = d.balance.atto) :
      Books k 0 0 (((k.putValidator v').putDelegation d').enqueue entry)
  | adjusted {v v' : Record} {burnt : ℕ} (hv : k.validators[v'.operatorAddress]? = some v)
      (hshares : v'.delegatorShares = v.delegatorShares)
      (htokens : v'.tokens.atto + burnt = v.tokens.atto) :
      Books k 0 burnt (k.putValidator v')

/-- The sum of an amount over the delegations of each validator is an amount of its record. -/
def Matched (k : Keeper) (amountOf : Delegation → Amount) (recordOf : Record → Amount) : Prop :=
  ∀ (a : Address) (v : Record), k.validators[a]? = some v → k.towards amountOf a = (recordOf v).atto

section Accounts
variable {amountOf : Delegation → Amount} {recordOf : Record → Amount}

/-- The account of the validator a delegation names changes by the new entry against
the old one. -/
theorem towards_putDelegation (hzero : ∀ d a, (amountOf ⟨d, a, Amount.zero, Amount.zero⟩).atto = 0)
    (k : Keeper) (d : Delegation) :
    (k.putDelegation d).towards amountOf d.validatorAddress +
        (amountOf (k.delegationOrEmpty d.delegatorAddress d.validatorAddress)).atto =
      k.towards amountOf d.validatorAddress + (amountOf d).atto := by
  have hweight := weight_insert (Delegation.towards amountOf d.validatorAddress) k.delegations
    (d.delegatorAddress, d.validatorAddress) d
  have hold : weightAt (Delegation.towards amountOf d.validatorAddress) k.delegations
      (d.delegatorAddress, d.validatorAddress) =
        (amountOf (k.delegationOrEmpty d.delegatorAddress d.validatorAddress)).atto := by
    unfold weightAt delegationOrEmpty
    cases hd : k.delegations[(d.delegatorAddress, d.validatorAddress)]? with
    | none => simp [hzero]
    | some e =>
      have haddr := validatorAddress_eq hd
      simp [Delegation.towards, haddr]
  have hnew : Delegation.towards amountOf d.validatorAddress d = (amountOf d).atto := if_pos rfl
  rw [hold, hnew] at hweight
  exact hweight

/-- The accounts of the other validators do not change. -/
theorem towards_putDelegation_other (k : Keeper) {d : Delegation} {a : Address}
    (h : d.validatorAddress ≠ a) : (k.putDelegation d).towards amountOf a =
      k.towards amountOf a := by
  have hweight := weight_insert (Delegation.towards amountOf a) k.delegations
    (d.delegatorAddress, d.validatorAddress) d
  have hold : weightAt (Delegation.towards amountOf a) k.delegations
      (d.delegatorAddress, d.validatorAddress) = 0 := by
    unfold weightAt
    cases hd : k.delegations[(d.delegatorAddress, d.validatorAddress)]? with
    | none => rfl
    | some e =>
      have haddr := validatorAddress_eq hd
      simp only [Option.elim_some, Delegation.towards, haddr, if_neg h]
  have hnew : Delegation.towards amountOf a d = 0 := if_neg h
  rw [hold, hnew] at hweight
  exact hweight

/-- What the accounts say about every record stays true when a validator and a delegation
to it are written together, if it is true of the new account. -/
theorem accounts_put {R : ℕ → ℕ → Prop} {k : Keeper}
    (h : ∀ (a : Address) (w : Record), k.validators[a]? = some w →
      R (k.towards amountOf a) (recordOf w).atto)
    (hzero : ∀ d a, (amountOf ⟨d, a, Amount.zero, Amount.zero⟩).atto = 0)
    {v : Record} {d : Delegation} (htarget : d.validatorAddress = v.operatorAddress)
    (hmoved : ∀ n, n + (amountOf (k.delegationOrEmpty d.delegatorAddress d.validatorAddress)).atto =
      k.towards amountOf d.validatorAddress + (amountOf d).atto → R n (recordOf v).atto)
    (a : Address) (w : Record)
    (hw : ((k.putValidator v).putDelegation d).validators[a]? = some w) :
    R (((k.putValidator v).putDelegation d).towards amountOf a) (recordOf w).atto := by
  by_cases ha : d.validatorAddress = a
  · subst ha
    have hrecord : (k.putValidator v).validators[d.validatorAddress]? = some w := hw
    rw [htarget, putValidator_self] at hrecord
    cases hrecord
    exact hmoved _ (towards_putDelegation hzero (k.putValidator v) d)
  · rw [towards_putDelegation_other _ ha]
    have hrecord : (k.putValidator v).validators[a]? = some w := hw
    rw [putValidator_other _ (by rwa [← htarget])] at hrecord
    exact h a w hrecord

/-- So it does when a record is rewritten without touching the amount. -/
theorem accounts_adjust {R : ℕ → ℕ → Prop} {k : Keeper}
    (h : ∀ (a : Address) (w : Record), k.validators[a]? = some w →
      R (k.towards amountOf a) (recordOf w).atto) {v v' : Record}
    (hv : k.validators[v'.operatorAddress]? = some v)
    (hsame : (recordOf v').atto = (recordOf v).atto) (a : Address) (w : Record)
    (hw : (k.putValidator v').validators[a]? = some w) :
    R ((k.putValidator v').towards amountOf a) (recordOf w).atto := by
  by_cases ha : v'.operatorAddress = a
  · subst ha
    rw [putValidator_self] at hw
    cases hw
    rw [hsame]
    exact h _ v hv
  · rw [putValidator_other _ ha] at hw
    exact h a w hw

/-- A validator and a delegation to it that are written together keep the accounts,
if the record moves by what the delegation moves. -/
theorem Matched.transact {k : Keeper} (h : k.Matched amountOf recordOf)
    (hzero : ∀ d a, (amountOf ⟨d, a, Amount.zero, Amount.zero⟩).atto = 0)
    {v : Record} {d : Delegation} (htarget : d.validatorAddress = v.operatorAddress)
    (hmoved : k.towards amountOf d.validatorAddress + (amountOf d).atto = (recordOf v).atto +
      (amountOf (k.delegationOrEmpty d.delegatorAddress d.validatorAddress)).atto) :
    ((k.putValidator v).putDelegation d).Matched amountOf recordOf :=
  accounts_put h hzero htarget (fun _ hn => Nat.add_right_cancel (hn.trans hmoved))

/-- Rewriting a record without touching the amount keeps the accounts. -/
theorem Matched.adjust {k : Keeper} (h : k.Matched amountOf recordOf) {v v' : Record}
    (hv : k.validators[v'.operatorAddress]? = some v)
    (hsame : (recordOf v').atto = (recordOf v).atto) :
    (k.putValidator v').Matched amountOf recordOf :=
  accounts_adjust h hv hsame

end Accounts

/-- Delegations name registered validators and are worth what they are entered at. -/
structure Consistent (k : Keeper) : Prop where
  registered : ∀ (key : Address × Address) (d : Delegation), k.delegations[key]? = some d →
    d.validatorAddress ∈ k.validators
  shares_eq : ∀ (key : Address × Address) (d : Delegation), k.delegations[key]? = some d →
    d.shares = d.balance

/-- Nothing is delegated to an address that is not registered. -/
theorem Consistent.unregistered {k : Keeper} (h : k.Consistent) {a : Address}
    (ha : a ∉ k.validators) (amountOf : Delegation → Amount) (delegator : Address) :
    k.towards amountOf a = 0 ∧
      k.delegationOrEmpty delegator a = ⟨delegator, a, Amount.zero, Amount.zero⟩ := by
  constructor
  · refine weight_eq_zero (fun key d hd => if_neg (fun haddr => ha ?_))
    rw [← haddr]
    exact h.registered key d hd
  · unfold delegationOrEmpty
    cases hd : k.delegations[(delegator, a)]? with
    | none => rfl
    | some d =>
      have haddr := validatorAddress_eq hd
      exact absurd (haddr ▸ h.registered _ d hd) ha

/-- A delegation has its validator. -/
theorem Consistent.exists_validator {k : Keeper} (h : k.Consistent) {delegator a : Address}
    {d : Delegation} (hd : k.delegations[(delegator, a)]? = some d) :
      ∃ val, k.validators[a]? = some val := by
  have hvalidator := validatorAddress_eq hd
  have hmem := h.registered _ d hd
  rw [hvalidator] at hmem
  exact Option.isSome_iff_exists.mp (ExtTreeMap.mem_iff_isSome_getElem?.mp hmem)

theorem Consistent.orEmpty_eq {k : Keeper} (h : k.Consistent) (delegator a : Address) :
    (k.delegationOrEmpty delegator a).shares = (k.delegationOrEmpty delegator a).balance := by
  unfold delegationOrEmpty
  cases hd : k.delegations[(delegator, a)]? with
  | none => rfl
  | some d => exact h.shares_eq _ d hd

/-- An entry of the table after a write is the one written or was there before. -/
theorem forall_putDelegation {k : Keeper} {d : Delegation} {Q : Address × Address → Delegation →
    Prop} (hnew : Q (d.delegatorAddress, d.validatorAddress) d)
    (hold : ∀ key e, k.delegations[key]? = some e → Q key e) {key : Address × Address}
    {e : Delegation} (he : (k.putDelegation d).delegations[key]? = some e) : Q key e := by
  by_cases hkey : (d.delegatorAddress, d.validatorAddress) = key
  · subst hkey
    rw [putDelegation_self] at he
    cases he
    exact hnew
  · rw [putDelegation_other _ hkey] at he
    exact hold key e he

/-- A written delegation keeps the facts about single entries. -/
theorem Consistent.put {k : Keeper} (h : k.Consistent) {v : Record} {d : Delegation}
    (htarget : d.validatorAddress = v.operatorAddress) (hworth : d.shares = d.balance) :
    ((k.putValidator v).putDelegation d).Consistent where
  registered := by
    intro key e he
    refine forall_putDelegation (Q := fun _ e => e.validatorAddress ∈ (k.putValidator v).validators)
      ?_ (fun key e he => mem_putValidator (h.registered key e he)) he
    rw [htarget]
    exact ExtTreeMap.mem_insert_self
  shares_eq := by
    intro key e he
    exact forall_putDelegation (Q := fun _ e => e.shares = e.balance) hworth h.shares_eq he

theorem Consistent.adjust {k : Keeper} (h : k.Consistent) (v : Record) :
    (k.putValidator v).Consistent :=
  ⟨fun key d hd => mem_putValidator (h.registered key d hd), h.shares_eq⟩

/-- Delegations name registered validators, are worth what they are entered at, and
add up to the validators' shares. -/
structure Booked (k : Keeper) : Prop extends Consistent k where
  shares_sum : k.Matched Delegation.shares Record.delegatorShares

theorem booked_new (params : Params) : (new params).Booked where
  registered := by simp [new]
  shares_eq := by simp [new]
  shares_sum := by
    intro a v hv
    simp [new] at hv

theorem Books.booked {k k' : Keeper} {brought burnt : ℕ} (hbooks : Books k brought burnt k')
    (h : k.Booked) : k'.Booked := by
  have hconsistent := h.toConsistent
  cases hbooks with
  | idle => exact h
  | @registered v hnew hshares =>
    refine ⟨hconsistent.put rfl rfl, h.shares_sum.transact (fun _ _ => rfl) rfl ?_⟩
    obtain ⟨hnone, hempty⟩ := hconsistent.unregistered hnew Delegation.shares v.operatorAddress
    simp only [hnone, hempty, hshares]
    simp [Amount.zero]
  | @bonded v v' d' n hv htarget htokens hshares hentry hbalance =>
    have heq := congrArg Amount.atto
      (hconsistent.orEmpty_eq d'.delegatorAddress d'.validatorAddress)
    refine ⟨hconsistent.put htarget (Amount.ext_atto (by omega)),
      h.shares_sum.transact (fun _ _ => rfl) htarget ?_⟩
    have hsum := h.shares_sum _ v hv
    rw [← htarget] at hsum
    omega
  | @unbonded v v' d d' entry hv htarget hd htokens hshares hentry hbalance =>
    have heq := congrArg Amount.atto (h.shares_eq _ d hd)
    have hput := hconsistent.put htarget (Amount.ext_atto (by omega))
    have hmoved := h.shares_sum.transact (fun _ _ => rfl) htarget (by
      have hsum := h.shares_sum _ v hv
      rw [← htarget] at hsum
      rw [delegationOrEmpty_of_some hd]
      omega)
    exact ⟨⟨hput.registered, hput.shares_eq⟩, hmoved⟩
  | @adjusted v v' burnt hv hshares htokens =>
    exact ⟨hconsistent.adjust v', h.shares_sum.adjust hv (congrArg Amount.atto hshares)⟩

theorem bonded_putValidator (k : Keeper) {v v' : Record}
    (hv : k.validators[v'.operatorAddress]? = some v) :
    (k.putValidator v').bonded + v.tokens.atto = k.bonded + v'.tokens.atto := by
  have hweight := weight_insert (fun w : Record => w.tokens.atto) k.validators v'.operatorAddress v'
  rwa [weightAt, hv, Option.elim_some] at hweight

theorem bonded_putValidator_new (k : Keeper) {v : Record}
    (hnew : v.operatorAddress ∉ k.validators) :
    (k.putValidator v).bonded = k.bonded + v.tokens.atto := by
  have hweight := weight_insert (fun w : Record => w.tokens.atto) k.validators v.operatorAddress v
  rwa [weightAt, ExtTreeMap.getElem?_eq_none hnew, Option.elim_none, Nat.add_zero] at hweight

@[simp] theorem bonded_putDelegation (k : Keeper) (d : Delegation) :
    (k.putDelegation d).bonded = k.bonded := rfl

@[simp] theorem bonded_enqueue (k : Keeper) (entry : UnbondingEntry) :
    (k.enqueue entry).bonded = k.bonded := rfl

@[simp] theorem queued_putValidator (k : Keeper) (v : Record) :
    (k.putValidator v).queued = k.queued := rfl

@[simp] theorem queued_putDelegation (k : Keeper) (d : Delegation) :
    (k.putDelegation d).queued = k.queued := rfl

@[simp] theorem queued_enqueue (k : Keeper) (entry : UnbondingEntry) :
    (k.enqueue entry).queued = k.queued + entry.amount.atto := by
  simp [queued, enqueue]

/-- What is bonded, queued or burnt was there before or is brought in. -/
theorem Books.conserved {k k' : Keeper} {brought burnt : ℕ} (hbooks : Books k brought burnt k') :
    k'.bonded + k'.queued + burnt = k.bonded + k.queued + brought := by
  cases hbooks with
  | idle => rfl
  | registered hnew hshares =>
    simp only [bonded_putDelegation, queued_putDelegation, bonded_putValidator_new k hnew,
      queued_putValidator]
    omega
  | bonded hv htarget htokens hshares hentry hbalance =>
    have hbonded := k.bonded_putValidator hv
    simp only [bonded_putDelegation, queued_putDelegation, queued_putValidator]
    omega
  | unbonded hv htarget hd htokens hshares hentry hbalance =>
    have hbonded := k.bonded_putValidator hv
    simp only [bonded_enqueue, queued_enqueue, bonded_putDelegation, queued_putDelegation,
      queued_putValidator]
    omega
  | adjusted hv hshares htokens =>
    have hbonded := k.bonded_putValidator hv
    simp only [queued_putValidator]
    omega

theorem Books.params {k k' : Keeper} {brought burnt : ℕ} (hbooks : Books k brought burnt k') :
    k'.params = k.params := by
  cases hbooks <;> rfl

theorem registerValidator_books {k : Keeper} {a : Address} {key : Bytes} {stake : Amount}
    (hok : (k.registerValidator a key stake).2 = .ok ()) :
    Books k stake.atto 0 (k.registerValidator a key stake).1 := by
  have hcall := k.registered_registerValidator a key stake
  generalize k.registerValidator a key stake = result at hcall hok ⊢
  cases hcall with
  | refused e => cases hok
  | entered hnew => exact .registered (v := .candidate a key stake) hnew rfl

theorem delegate_books {k : Keeper} {delegator a : Address} {amount : Amount}
    (hok : (k.delegate delegator a amount).2 = .ok ()) :
    Books k amount.atto 0 (k.delegate delegator a amount).1 := by
  have hcall := k.delegated_delegate delegator a amount
  generalize k.delegate delegator a amount = result at hcall hok ⊢
  cases hcall with
  | refused e | stopped hval hlive hbond => cases hok
  | @entered val hval hlive hbond =>
    have haddr := k.filed a val hval
    have hsums := addBoth_ok hbond
    have hentry := addBoth_ok hok
    have htarget := (k.delegationOrEmpty_addresses delegator a).2.trans haddr.symm
    have hself := k.delegationOrEmpty_self delegator a
    refine .bonded (v := val) (haddr ▸ hval) htarget hsums.1 hsums.2 ?_ ?_
    · exact hentry.1.trans (congrArg (fun d => d.shares.atto + amount.atto) hself.symm)
    · exact hentry.2.trans (congrArg (fun d => d.balance.atto + amount.atto) hself.symm)

/-- An undelegation that goes through moves the amount to the queue. -/
theorem undelegate_books {k : Keeper} (h : k.Consistent) {delegator a : Address} {amount : Amount}
    {height : ℕ} {entry : UnbondingEntry} (hok : (k.undelegate delegator a amount height).2 =
      .ok entry) :
    Books k 0 0 (k.undelegate delegator a amount height).1 := by
  have hcall := k.undelegated_undelegate delegator a amount height
  generalize k.undelegate delegator a amount height = result at hcall hok ⊢
  cases hcall with
  | refused | stopped | halfway => cases hok
  | orphaned hd hval =>
    obtain ⟨val, hsome⟩ := h.exists_validator hd
    rw [hsome] at hval
    cases hval
  | @moved d val hd hunbond hval hleave =>
    have hkey := k.entered _ d hd
    have haddr := k.filed a val hval
    have hentry := subBoth_ok hunbond
    have hsums := subBoth_ok hleave
    refine .unbonded (k := k) (v := val) (d := d) (haddr ▸ hval) ?_ ?_ hsums.1 hsums.2
      hentry.2 hentry.1
    · exact (validatorAddress_eq hd).trans haddr.symm
    · rw [← hd, ← hkey]
      rfl

/-- What a call is about to take from the tokens of a validator. -/
def burnt (k : Keeper) : Call → ℕ
  | .slashEquivocation e =>
    if e.isValidEquivocation then
      match k.validators[e.validatorAddress]? with
      | none => 0
      | some val =>
        if val.isTombstoned then 0
        else min val.tokens.atto (k.params.doubleSignSlash val.tokens).atto
    else 0
  | .slashDowntime a _ =>
    match k.validators[a]? with
    | none => 0
    | some val =>
      if val.status = .jailed ∨ val.isTombstoned then 0
      else if k.params.missedBlocksThreshold ≤ (val.missedBlocksCount + 1) % 2 ^ 64 then
        min val.tokens.atto (k.params.downtimeSlash val.tokens).atto
      else 0
  | _ => 0

theorem slashEquivocation_books (k : Keeper) (e : EquivocationEvidence) :
    Books k 0 (k.burnt (.slashEquivocation e)) (k.slashEquivocation e).1 := by
  have hcall := k.penalized_slashEquivocation e
  simp only [burnt]
  generalize k.slashEquivocation e = result at hcall ⊢
  cases hcall with
  | refused _ hnone =>
    split
    · rename_i hvalid
      rw [hnone hvalid]
      exact .idle
    · exact .idle
  | settled hvalid hval htombstoned =>
    simp only [if_pos hvalid, hval, if_pos htombstoned]
    exact .idle
  | @slashed val hvalid hval hlive =>
    simp only [if_pos hvalid, hval, hlive, Bool.false_eq_true, if_false]
    exact .adjusted (v := val) (getElem?_operatorAddress hval) rfl (burn_atto _ _)

theorem slashDowntime_books (k : Keeper) (a : Address) (height : ℕ) :
    Books k 0 (k.burnt (.slashDowntime a height)) (k.slashDowntime a height).1 := by
  have hcall := k.reported_slashDowntime a height
  simp only [burnt]
  generalize k.slashDowntime a height = result at hcall ⊢
  cases hcall with
  | refused _ hnone =>
    rw [hnone]
    exact .idle
  | out hval hout =>
    simp only [hval, if_pos hout]
    exact .idle
  | @counted val hval hfree hlive hbelow =>
    simp only [hval, hfree, hlive, hbelow, Bool.false_eq_true, or_self, if_false]
    exact .adjusted (v := val) (getElem?_operatorAddress hval) rfl rfl
  | @jailed val hval hfree hlive hlimit =>
    simp only [hval, hfree, hlive, hlimit, Bool.false_eq_true, or_self, if_false, if_true]
    exact .adjusted (v := val) (getElem?_operatorAddress hval) rfl (burn_atto _ _)

theorem unjail_books (k : Keeper) (a : Address) (height : ℕ) :
    Books k 0 0 (k.unjail a height).1 := by
  have hcall := k.unjailed_unjail a height
  generalize k.unjail a height = result at hcall ⊢
  cases hcall with
  | refused => exact .idle
  | @released val hval hlive hover =>
    exact .adjusted (v := val) (getElem?_operatorAddress hval) rfl rfl

theorem exists_ok_of_map {α β : Type} {f : α → β} {x : Except ConsensusError α} {r : β}
    (h : x.map f = .ok r) : ∃ y, x = .ok y ∧ f y = r := by
  cases x with
  | error e => cases h
  | ok y => exact ⟨y, rfl, Except.ok.inj h⟩

end Keeper

/-- The stake a call brings in. -/
def Call.brought : Call → ℕ
  | .registerValidator _ _ selfStake => selfStake.atto
  | .delegate _ _ amount => amount.atto
  | _ => 0

namespace Keeper

theorem call_books {k : Keeper} (h : k.Consistent) {c : Call} {r : Reply}
    (hok : (k.call c).2 = .ok r) :
    Books k c.brought (k.burnt c) (k.next c) := by
  cases c with
  | registerValidator a key stake =>
    obtain ⟨u, hu, -⟩ := exists_ok_of_map hok
    exact registerValidator_books hu
  | delegate delegator a amount =>
    obtain ⟨u, hu, -⟩ := exists_ok_of_map hok
    exact delegate_books hu
  | undelegate delegator a amount height =>
    obtain ⟨entry, hentry, -⟩ := exists_ok_of_map hok
    exact undelegate_books h hentry
  | slashEquivocation e => exact k.slashEquivocation_books e
  | slashDowntime a height => exact k.slashDowntime_books a height
  | unjail a height => exact k.unjail_books a height

end Keeper

/-- Penalties take no more than there is. -/
structure Params.Bounded (params : Params) : Prop where
  doubleSign : ∀ tokens, (params.doubleSignSlash tokens).atto ≤ tokens.atto
  downtime : ∀ tokens, (params.downtimeSlash tokens).atto ≤ tokens.atto

/-- The amount that a slash call returned. -/
def slashedAmount : Except ConsensusError Reply → ℕ
  | .ok (.slashed amount) => amount.atto
  | _ => 0

namespace Keeper

/-- The results of a run of calls. -/
def replies (k : Keeper) : List Call → List (Except ConsensusError Reply)
  | [] => []
  | c :: rest => (k.call c).2 :: (k.next c).replies rest

/-- The other calls return no such amount. -/
theorem slashedAmount_map {α : Type} {f : α → Reply} (hf : ∀ y, slashedAmount (.ok (f y)) = 0)
    (x : Except ConsensusError α) : slashedAmount (x.map f) = 0 := by
  cases x with
  | error e => rfl
  | ok y => exact hf y

/-- Slash calls return what they take. -/
theorem slashedAmount_call {k : Keeper} (hbounded : k.params.Bounded) (c : Call) :
    slashedAmount (k.call c).2 = k.burnt c := by
  cases c with
  | registerValidator | delegate | undelegate | unjail => exact slashedAmount_map (fun _ => rfl) _
  | slashEquivocation e =>
    have hle := hbounded.doubleSign
    simp only [call, burnt, slashEquivocation]
    split
    · cases k.validators[e.validatorAddress]? with
      | none => rfl
      | some val =>
        dsimp only
        split
        · rfl
        · exact (Nat.min_eq_right (hle val.tokens)).symm
    · rfl
  | slashDowntime a height =>
    have hle := hbounded.downtime
    simp only [call, burnt, slashDowntime]
    cases k.validators[a]? with
    | none => rfl
    | some val =>
      dsimp only
      split
      · rfl
      · split
        · exact (Nat.min_eq_right (hle val.tokens)).symm
        · rfl

theorem conserved_run {k : Keeper} (h : k.Booked) (hbounded : k.params.Bounded) {calls : List Call}
    (hok : Runs.Along (fun k c => (k.call c).2.isOk = true) next k calls) :
    (Runs.run next k calls).Booked ∧
      (Runs.run next k calls).bonded + (Runs.run next k calls).queued +
          ((k.replies calls).map slashedAmount).sum =
        k.bonded + k.queued + (calls.map Call.brought).sum := by
  induction calls generalizing k with
  | nil => exact ⟨h, rfl⟩
  | cons c rest ih =>
    obtain ⟨hc, hok⟩ := hok
    cases hr : (k.call c).2 with
    | error e =>
      rw [hr] at hc
      cases hc
    | ok r =>
      have hbooks := call_books h.toConsistent hr
      obtain ⟨hbooked, hrest⟩ := ih (hbooks.booked h) (hbooks.params ▸ hbounded) hok
      have hstep := hbooks.conserved
      have hreturned := slashedAmount_call hbounded c
      refine ⟨hbooked, ?_⟩
      simp only [Runs.run_cons, replies, List.map_cons, List.sum_cons]
      omega

/-- Stake is conserved in every run of calls that all return `Ok`: what was registered
and delegated is bonded, unbonding or was returned by a slash call. The shares of a
validator are those of its delegations, and a share is worth what it was entered at. -/
theorem stake_conserved {params : Params} (hbounded : params.Bounded) {calls : List Call}
    (hok : Runs.Along (fun k c => (k.call c).2.isOk = true) next (new params) calls) :
    (reached params calls).bonded + (reached params calls).queued +
        (((new params).replies calls).map slashedAmount).sum = (calls.map Call.brought).sum ∧
      (∀ (a : Address) (v : Record), (reached params calls).validators[a]? = some v →
        v.delegatorShares.atto = (reached params calls).towards Delegation.shares a) ∧
      ∀ (key : Address × Address) (d : Delegation),
        (reached params calls).delegations[key]? = some d → d.shares = d.balance := by
  obtain ⟨hbooked, hsum⟩ := conserved_run (booked_new params) hbounded hok
  have hempty : (new params).bonded = 0 := weight_empty _
  refine ⟨?_, fun a v hv => (hbooked.shares_sum a v hv).symm, hbooked.shares_eq⟩
  have hnone : (new params).queued = 0 := rfl
  rw [hempty, hnone] at hsum
  rw [reached]
  omega

/-- Five percent for a double signature, a hundredth of a percent for downtime. -/
def devParams : Params where
  toStakingParams := Devnet.stakingParams
  unbondingPeriodBlocks := 10
  downtimeSlash tokens := ⟨tokens.atto / 10000, Nat.lt_of_le_of_lt (Nat.div_le_self _ _) tokens.lt⟩
  downtimeJailBlocks := 600
  missedBlocksThreshold := 50

/-- Parameters under which one missed block is enough. -/
def strictParams : Params := { devParams with missedBlocksThreshold := 1 }

/-- An amount of whole SPRX. -/
def sprx (n : Fin (2 ^ 64)) : Amount := (Devnet.validator (0, n)).selfStake

open Devnet in
/-- Keypair 1 validates with 1000 SPRX of its own and 500 of keypair 2. -/
def pooledCalls : List Call :=
  [.registerValidator (addressOf 1) [] (sprx 1000), .delegate (addressOf 2) (addressOf 1)
    (sprx 500)]

open Devnet in
/-- Two votes of keypair 1 for different blocks. -/
def doubleVote : EquivocationEvidence :=
  ⟨addressOf 1, 5, 0, ⟨.prevote, 5, 0, none, addressOf 1, []⟩,
    ⟨.prevote, 5, 0, some Hash32.zero, addressOf 1, []⟩⟩

open Devnet in
theorem stake_conserved_devnet :
    (reached devParams (pooledCalls ++ [.slashEquivocation doubleVote,
        .undelegate (addressOf 2) (addressOf 1) (sprx 500) 9])).bonded = (sprx 925).atto := by
  have hbounded : devParams.Bounded := ⟨fun _ => Nat.div_le_self _ _, fun _ => Nat.div_le_self _ _⟩
  have hok : Runs.Along (fun k c => (k.call c).2.isOk = true) next (new devParams)
      (pooledCalls ++ [.slashEquivocation doubleVote,
        .undelegate (addressOf 2) (addressOf 1) (sprx 500) 9]) := by decide +kernel
  have hsum := (stake_conserved hbounded hok).1
  have hqueued : (reached devParams (pooledCalls ++ [.slashEquivocation doubleVote,
      .undelegate (addressOf 2) (addressOf 1) (sprx 500) 9])).queued = (sprx 500).atto := by
    decide +kernel
  have hburnt : (((new devParams).replies (pooledCalls ++ [.slashEquivocation doubleVote,
      .undelegate (addressOf 2) (addressOf 1) (sprx 500) 9])).map slashedAmount).sum =
        (sprx 75).atto := by decide +kernel
  rw [hqueued, hburnt] at hsum
  exact Nat.add_right_cancel (Nat.add_right_cancel (hsum.trans (by decide +kernel)))

end Keeper

end Sprax.Staking
