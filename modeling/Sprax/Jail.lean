import Sprax.Books

/-!
# Jail and tombstone

Status, tombstone and jail term are three fields that four operations write. What a
call can do to the record of one validator is said once, as `Touched`. Two facts
follow for every run of calls. A tombstoned validator stays jailed and tombstoned
with tokens that only shrink, and a validator jailed for downtime stays jailed until
a call of `unjail` at the end of its term or later has succeeded. Neither is a
member of an active set meanwhile.
-/
namespace Sprax.Staking
open Std FiniteMap

/-- The fields that decide whether a validator may take part. -/
def Record.standing (v : Record) : ValidatorStatus × Bool × Option ℕ :=
  (v.status, v.isTombstoned, v.jailedUntil)

/-- What a call, given its reply, can do to the record under one address. -/
inductive Touched (params : Params) (c : Call) (reply : Except ConsensusError Reply) (a : Address) :
    Option Record → Option Record → Prop
  | same (record : Option Record) : Touched params c reply a record record
  | registered (key : Bytes) (stake : Amount) :
      Touched params c reply a none (some (.candidate a key stake))
  | bonded {v v' : Record} (hstanding : v'.standing = v.standing) (hlive : v.isTombstoned = false) :
      Touched params c reply a (some v) (some v')
  | reduced {v v' : Record} (hstanding : v'.standing = v.standing)
      (htokens : v'.tokens.atto ≤ v.tokens.atto) : Touched params c reply a (some v) (some v')
  | tombstoned {v v' : Record} (hlive : v.isTombstoned = false) (hstatus : v'.status = .jailed)
      (htombstoned : v'.isTombstoned = true) : Touched params c reply a (some v) (some v')
  | jailed {v v' : Record} {height : ℕ} (hcall : c = .slashDowntime a height)
      (hfree : v.status ≠ .jailed) (hlive : v.isTombstoned = false) (hstatus : v'.status = .jailed)
      (hstays : v'.isTombstoned = false)
      (hterm : v'.jailedUntil = some ((height + params.downtimeJailBlocks) % 2 ^ 64)) :
      Touched params c reply a (some v) (some v')
  | released {v v' : Record} {height : ℕ} (hcall : c = .unjail a height)
      (hreply : reply.isOk = true) (hlive : v.isTombstoned = false)
      (hover : ∀ jailEnd ∈ v.jailedUntil, jailEnd ≤ height) (hstays : v'.isTombstoned = false) :
        Touched params c reply a (some v) (some v')

namespace Keeper

/-- Writing one record touches the others not at all. -/
theorem touched_put {k : Keeper} {c : Call} {reply : Except ConsensusError Reply} {v v' : Record}
    (hv : k.validators[v'.operatorAddress]? = some v)
    (h : Touched k.params c reply v'.operatorAddress (some v) (some v')) (a : Address) :
    Touched k.params c reply a k.validators[a]? (k.putValidator v').validators[a]? := by
  by_cases ha : v'.operatorAddress = a
  · subst ha
    rw [putValidator_self, hv]
    exact h
  · rw [putValidator_other _ ha]
    exact .same _

theorem registerValidator_touched (k : Keeper) (operator : Address) (key : Bytes) (stake : Amount)
    (c : Call) (reply : Except ConsensusError Reply) (a : Address) :
    Touched k.params c reply a k.validators[a]?
      (k.registerValidator operator key stake).1.validators[a]? := by
  have hcall := k.registered_registerValidator operator key stake
  generalize k.registerValidator operator key stake = result at hcall ⊢
  cases hcall with
  | refused e => exact .same _
  | entered hnew =>
    show Touched _ _ _ _ _ (k.putValidator (.candidate operator key stake)).validators[a]?
    by_cases ha : operator = a
    · subst ha
      have hself := k.putValidator_self (.candidate operator key stake)
      rw [show (Record.candidate operator key stake).operatorAddress = operator from rfl] at hself
      rw [ExtTreeMap.getElem?_eq_none hnew, hself]
      exact .registered key stake
    · have hother : (Record.candidate operator key stake).operatorAddress ≠ a := ha
      rw [putValidator_other _ hother]
      exact .same _

theorem delegate_touched (k : Keeper) (delegator validatorAddr : Address) (amount : Amount)
    (c : Call) (reply : Except ConsensusError Reply) (a : Address) :
    Touched k.params c reply a k.validators[a]?
      (k.delegate delegator validatorAddr amount).1.validators[a]? := by
  have hcall := k.delegated_delegate delegator validatorAddr amount
  generalize k.delegate delegator validatorAddr amount = result at hcall ⊢
  cases hcall with
  | refused e => exact .same _
  | @stopped val e hval hlive hbond | @entered val hval hlive hbond =>
    have hstored : k.validators[(val.bond amount).1.operatorAddress]? = some val :=
      getElem?_operatorAddress hval
    exact touched_put hstored (.bonded rfl hlive) a

theorem undelegate_touched (k : Keeper) (delegator validatorAddr : Address) (amount : Amount)
    (height : ℕ) (c : Call) (reply : Except ConsensusError Reply) (a : Address) :
    Touched k.params c reply a k.validators[a]?
      (k.undelegate delegator validatorAddr amount height).1.validators[a]? := by
  have hcall := k.undelegated_undelegate delegator validatorAddr amount height
  generalize k.undelegate delegator validatorAddr amount height = result at hcall ⊢
  cases hcall with
  | refused | stopped | orphaned => exact .same _
  | @halfway d val e hd hle hval hleave | @moved d val hd hunbond hval hleave =>
    have hstored : k.validators[(val.unbond amount).1.operatorAddress]? = some val :=
      getElem?_operatorAddress hval
    exact touched_put hstored (.reduced rfl (subBoth_le _ _ _)) a

theorem slashEquivocation_touched (k : Keeper) (e : EquivocationEvidence) (c : Call)
    (reply : Except ConsensusError Reply) (a : Address) :
    Touched k.params c reply a k.validators[a]? (k.slashEquivocation e).1.validators[a]? := by
  have hcall := k.penalized_slashEquivocation e
  generalize k.slashEquivocation e = result at hcall ⊢
  cases hcall with
  | refused | settled => exact .same _
  | @slashed val hvalid hval hlive =>
    refine touched_put (v := val) ?_ ?_ a
    · exact getElem?_operatorAddress hval
    · exact .tombstoned hlive rfl rfl

theorem slashDowntime_touched (k : Keeper) (validatorAddr : Address) (height : ℕ)
    (reply : Except ConsensusError Reply) (a : Address) :
    Touched k.params (.slashDowntime validatorAddr height) reply a k.validators[a]?
      (k.slashDowntime validatorAddr height).1.validators[a]? := by
  have hcall := k.reported_slashDowntime validatorAddr height
  generalize k.slashDowntime validatorAddr height = result at hcall ⊢
  cases hcall with
  | refused | out => exact .same _
  | @counted val hval hfree hlive hbelow =>
    refine touched_put (v := val) ?_ ?_ a
    · exact getElem?_operatorAddress hval
    · exact .reduced rfl (Nat.le_refl _)
  | @jailed val hval hfree hlive hlimit =>
    have haddr := k.filed _ val hval
    refine touched_put (v := val) ?_ ?_ a
    · exact getElem?_operatorAddress hval
    · exact .jailed (by rw [haddr]) hfree hlive rfl hlive rfl

theorem unjail_touched (k : Keeper) (validatorAddr : Address) (height : ℕ) (a : Address) :
    Touched k.params (.unjail validatorAddr height) (k.call (.unjail validatorAddr height)).2 a
      k.validators[a]? (k.unjail validatorAddr height).1.validators[a]? := by
  have hcall := k.unjailed_unjail validatorAddr height
  simp only [call]
  generalize k.unjail validatorAddr height = result at hcall ⊢
  cases hcall with
  | refused => exact .same _
  | @released val hval hlive hover =>
    have haddr := k.filed _ val hval
    refine touched_put (v := val) ?_ ?_ a
    · exact getElem?_operatorAddress hval
    · exact .released (by rw [haddr]) rfl hlive hover hlive

theorem next_touched (k : Keeper) (c : Call) (a : Address) :
    Touched k.params c (k.call c).2 a k.validators[a]? (k.next c).validators[a]? := by
  cases c with
  | registerValidator operator key stake =>
    exact k.registerValidator_touched operator key stake _ _ a
  | delegate delegator b amount => exact k.delegate_touched delegator b amount _ _ a
  | undelegate delegator b amount height =>
    exact k.undelegate_touched delegator b amount height _ _ a
  | slashEquivocation e => exact k.slashEquivocation_touched e _ _ a
  | slashDowntime b height => exact k.slashDowntime_touched b height _ a
  | unjail b height => exact k.unjail_touched b height a

/-- A tombstoned validator is jailed. -/
def Buried (k : Keeper) : Prop :=
  ∀ (a : Address) (v : Record), k.validators[a]? = some v → v.isTombstoned = true →
    v.status = .jailed

theorem Buried.next {k : Keeper} (h : k.Buried) (c : Call) : (k.next c).Buried := by
  intro a v' hv' htombstoned
  have htouched := k.next_touched c a
  rw [hv'] at htouched
  generalize hbefore : k.validators[a]? = before at htouched
  cases htouched with
  | same => exact h a v' hbefore htombstoned
  | registered => cases htombstoned
  | @bonded v v' hstanding hlive =>
    have hsame := congrArg (fun s => s.2.1) hstanding
    exact absurd (hsame.symm.trans htombstoned) (by simpa [Record.standing] using hlive)
  | @reduced v v' hstanding htokens =>
    have hstatus := congrArg (fun s => s.1) hstanding
    have hsame := congrArg (fun s => s.2.1) hstanding
    exact hstatus.trans (h a v hbefore (hsame.symm.trans htombstoned))
  | tombstoned hlive hstatus => exact hstatus
  | jailed hcall hfree hlive hstatus => exact hstatus
  | released hcall hreply hlive hover hstays =>
    rw [hstays] at htombstoned
    cases htombstoned

theorem buried_reached (params : Params) (calls : List Call) : (reached params calls).Buried := by
  refine Runs.run_invariant (fun k c h => h.next c) _ calls ?_
  intro a v hv
  simp [new] at hv

/-- One call leaves a tombstoned record tombstoned, with no more tokens than before. -/
theorem tombstoned_next {k : Keeper} {a : Address} {v : Record} (hv : k.validators[a]? = some v)
    (htombstoned : v.isTombstoned = true) (c : Call) :
    ∃ v', (k.next c).validators[a]? = some v' ∧ v'.isTombstoned = true ∧
      v'.tokens.atto ≤ v.tokens.atto := by
  have htouched := k.next_touched c a
  rw [hv] at htouched
  generalize hafter : (k.next c).validators[a]? = after at htouched
  cases htouched with
  | same => exact ⟨v, rfl, htombstoned, Nat.le_refl _⟩
  | @reduced v v' hstanding htokens =>
    have hsame := congrArg (fun s => s.2.1) hstanding
    exact ⟨v', rfl, hsame.trans htombstoned, htokens⟩
  | bonded _ hlive | tombstoned hlive | jailed _ _ hlive | released _ _ hlive =>
    rw [hlive] at htombstoned
    cases htombstoned

theorem tombstoned_run {k : Keeper} {a : Address} {v : Record} (hv : k.validators[a]? = some v)
    (htombstoned : v.isTombstoned = true) (later : List Call) :
    ∃ v', (Runs.run next k later).validators[a]? = some v' ∧ v'.isTombstoned = true ∧
      v'.tokens.atto ≤ v.tokens.atto := by
  induction later generalizing k v with
  | nil => exact ⟨v, hv, htombstoned, Nat.le_refl _⟩
  | cons c rest ih =>
    obtain ⟨w, hw, hstays, hle⟩ := tombstoned_next hv htombstoned c
    obtain ⟨v', hv', hstays', hle'⟩ := ih hw hstays
    exact ⟨v', hv', hstays', Nat.le_trans hle' hle⟩

/-- Out until the end of the term, or for good. -/
def Confined (k : Keeper) (a : Address) (jailEnd : ℕ) : Prop :=
  ∃ v, k.validators[a]? = some v ∧ v.status = .jailed ∧
    (v.isTombstoned = true ∨ v.jailedUntil = some jailEnd)

/-- A call of `unjail` that succeeds at the end of the term or later. -/
def Releases (k : Keeper) (a : Address) (jailEnd : ℕ) : Call → Prop
  | .unjail b height => b = a ∧ jailEnd ≤ height ∧ (k.call (.unjail b height)).2.isOk = true
  | _ => False

instance (k : Keeper) (a : Address) (jailEnd : ℕ) : (c : Call) → Decidable (k.Releases a jailEnd c)
  | .unjail _ _ => inferInstanceAs (Decidable (_ ∧ _ ∧ _))
  | .registerValidator .. | .delegate .. | .undelegate .. | .slashEquivocation _
  | .slashDowntime .. => isFalse id

theorem Confined.next {k : Keeper} {a : Address} {jailEnd : ℕ} (h : k.Confined a jailEnd) {c : Call}
    (hc : ¬ k.Releases a jailEnd c) : (k.next c).Confined a jailEnd := by
  obtain ⟨v, hv, hstatus, hterm⟩ := h
  have htouched := k.next_touched c a
  rw [hv] at htouched
  unfold Confined
  generalize hafter : (k.next c).validators[a]? = after at htouched
  cases htouched with
  | same => exact ⟨v, rfl, hstatus, hterm⟩
  | @bonded v v' hstanding hlive | @reduced v v' hstanding htokens =>
    simp only [Record.standing, Prod.mk.injEq] at hstanding
    obtain ⟨hstatus', htombstoned', hterm'⟩ := hstanding
    exact ⟨v', rfl, hstatus'.trans hstatus, by rwa [htombstoned', hterm']⟩
  | @tombstoned v v' hlive hstatus' htombstoned' => exact ⟨v', rfl, hstatus', Or.inl htombstoned'⟩
  | jailed hcall hfree => exact absurd hstatus hfree
  | @released v v' height hcall hreply hlive hover hstays =>
    rcases hterm with htombstoned | hterm
    · rw [hlive] at htombstoned
      cases htombstoned
    · subst hcall
      exact absurd ⟨rfl, hover jailEnd hterm, hreply⟩ hc

/-- No active set of the keeper has the validator as a member. -/
def Excluded (k : Keeper) (a : Address) : Prop :=
  ∀ (o : IterOrder StakingValidator) (s : ValidatorSet), k.getActiveValidatorSet o = .ok s →
    ∀ v ∈ s.validators, v.address ≠ a

theorem excluded_of_jailed {k : Keeper} {a : Address} {v : Record} (hv : k.validators[a]? = some v)
    (hstatus : v.status = .jailed) : k.Excluded a := by
  rintro o s hset w hw rfl
  obtain ⟨record, hrecord, hactive, -⟩ := StakingKeeper.exists_active_of_mem hset hw
  rw [view_getElem?, hv, Option.map_some] at hrecord
  cases hrecord
  rw [hstatus] at hactive
  cases hactive

theorem reached_append (params : Params) (calls later : List Call) :
    reached params (calls ++ later) = Runs.run next (reached params calls) later :=
  Runs.run_append next (new params) calls later

theorem next_params (k : Keeper) (c : Call) : (k.next c).params = k.params := by
  cases c with
  | registerValidator a key stake =>
    have hcall := k.registered_registerValidator a key stake
    simp only [next, call, Prod.map_fst, id_eq]
    generalize k.registerValidator a key stake = result at hcall ⊢
    cases hcall <;> rfl
  | delegate delegator a amount =>
    have hcall := k.delegated_delegate delegator a amount
    simp only [next, call, Prod.map_fst, id_eq]
    generalize k.delegate delegator a amount = result at hcall ⊢
    cases hcall <;> rfl
  | undelegate delegator a amount height =>
    have hcall := k.undelegated_undelegate delegator a amount height
    simp only [next, call, Prod.map_fst, id_eq]
    generalize k.undelegate delegator a amount height = result at hcall ⊢
    cases hcall <;> rfl
  | slashEquivocation e => exact (k.slashEquivocation_books e).params
  | slashDowntime a height => exact (k.slashDowntime_books a height).params
  | unjail a height => exact (k.unjail_books a height).params

theorem reached_params (params : Params) (calls : List Call) :
    (reached params calls).params = params :=
  Runs.run_invariant (I := fun k : Keeper => k.params = params)
    (fun k c h => (k.next_params c).trans h) _ calls rfl

/-- A validator that downtime has jailed is confined until the end of its term. -/
theorem confined_of_downtime {k : Keeper} {a : Address} {height : ℕ} {v v' : Record}
    (hv : k.validators[a]? = some v) (hfree : v.status ≠ .jailed)
    (hv' : (k.next (.slashDowntime a height)).validators[a]? = some v')
    (hjailed : v'.status = .jailed) (hfits : height + k.params.downtimeJailBlocks < 2 ^ 64) :
    (k.next (.slashDowntime a height)).Confined a (height + k.params.downtimeJailBlocks) := by
  refine ⟨v', hv', hjailed, ?_⟩
  have htouched := k.next_touched (.slashDowntime a height) a
  rw [hv, hv'] at htouched
  cases htouched with
  | same => exact absurd hjailed hfree
  | bonded hstanding | reduced hstanding =>
    have hstatus : v'.status = v.status := congrArg (fun s => s.1) hstanding
    exact absurd (hstatus.symm.trans hjailed) hfree
  | tombstoned hlive hstatus htombstoned => exact Or.inl htombstoned
  | jailed hcall hfree hlive hstatus hstays hterm =>
    cases hcall
    rw [Nat.mod_eq_of_lt hfits] at hterm
    exact Or.inr hterm
  | released hcall => cases hcall

/-- Once tombstoned, a validator is jailed and tombstoned for good, its tokens never
grow, and no active set has it as a member. Jailed for downtime, it is in no active
set until a call of `unjail` at the end of its term or later has succeeded. -/
theorem jail_discipline (params : Params) (calls : List Call) (a : Address) :
    (∀ (later : List Call) (v : Record), (reached params calls).validators[a]? = some v →
      v.isTombstoned = true →
        (∃ v', (reached params (calls ++ later)).validators[a]? = some v' ∧
          v'.isTombstoned = true ∧ v'.status = .jailed ∧ v'.tokens.atto ≤ v.tokens.atto) ∧
        (reached params (calls ++ later)).Excluded a) ∧
      ∀ (height : ℕ) (v v' : Record) (later : List Call),
        (reached params calls).validators[a]? = some v → v.status ≠ .jailed →
        (reached params (calls ++ [.slashDowntime a height])).validators[a]? = some v' →
        v'.status = .jailed → height + params.downtimeJailBlocks < 2 ^ 64 →
        Runs.Along (fun k c => ¬ k.Releases a (height + params.downtimeJailBlocks) c) next
          (reached params (calls ++ [.slashDowntime a height])) later →
          (reached params (calls ++ [.slashDowntime a height] ++ later)).Excluded a := by
  constructor
  · intro later v hv htombstoned
    obtain ⟨v', hv', hstays, hle⟩ := tombstoned_run hv htombstoned later
    rw [← reached_append] at hv'
    have hstatus := buried_reached params (calls ++ later) a v' hv' hstays
    exact ⟨⟨v', hv', hstays, hstatus, hle⟩, excluded_of_jailed hv' hstatus⟩
  · intro height v v' later hv hfree hv' hjailed hfits hlater
    rw [reached_append] at hv' hlater ⊢
    rw [reached_append]
    have hconfined := confined_of_downtime hv hfree hv' hjailed (by rwa [reached_params])
    rw [reached_params] at hconfined
    obtain ⟨w, hw, hstatus, -⟩ := hlater.invariant
      (I := fun k => k.Confined a (height + params.downtimeJailBlocks))
      (fun k c hc h => Confined.next h hc) hconfined
    exact excluded_of_jailed hw hstatus

open Devnet in
/-- A tombstoned validator after an attempt to leave the jail, and one jailed at
height 3 after an attempt one block before the end of its term. -/
theorem jail_discipline_devnet :
    (reached strictParams (pooledCalls ++ [.slashEquivocation doubleVote] ++
        [.unjail (addressOf 1) 1000])).Excluded (addressOf 1) ∧
      (reached strictParams (pooledCalls ++ [.slashDowntime (addressOf 1) 3] ++
        [.unjail (addressOf 1) 602])).Excluded (addressOf 1) := by
  have hburied :
      ((reached strictParams (pooledCalls ++ [.slashEquivocation doubleVote])).validators[
      addressOf 1]?).map (fun v => v.isTombstoned) = some true := by decide +kernel
  have hfree : ((reached strictParams pooledCalls).validators[addressOf 1]?).map
      (fun v => v.status) = some .active := by decide +kernel
  have hjailed :
      ((reached strictParams (pooledCalls ++ [.slashDowntime (addressOf 1) 3])).validators[
      addressOf 1]?).map (fun v => v.status) = some .jailed := by decide +kernel
  obtain ⟨v, hv, htombstoned⟩ := Option.map_eq_some_iff.mp hburied
  obtain ⟨w, hw, hactive⟩ := Option.map_eq_some_iff.mp hfree
  obtain ⟨w', hw', hstatus⟩ := Option.map_eq_some_iff.mp hjailed
  refine ⟨((jail_discipline strictParams _ (addressOf 1)).1 _ v hv htombstoned).2, ?_⟩
  refine (jail_discipline strictParams pooledCalls (addressOf 1)).2 3 w w' _ hw ?_ hw' hstatus
    (by decide) (by decide +kernel)
  rw [hactive]
  decide

end Keeper

end Sprax.Staking
