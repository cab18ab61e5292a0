import Sprax.Failures

/-!
# Evidence in any order

Evidence reaches a node from its own driver and from its peers, in different orders and
more than once. What one item does to a keeper is to charge a validator that is not
tombstoned yet, with a penalty that depends on the record of that validator alone, and to
tombstone it. Two items therefore commute, and an item that comes twice does nothing the
second time, so a keeper is decided by the set of items it has seen.
-/
namespace Sprax.Staking
open Std FiniteMap

namespace Keeper

/-- A keeper and the total slashed so far, after one more item of evidence. -/
def receiveEvidence (p : Keeper × ℕ) (evidence : EquivocationEvidence) : Keeper × ℕ :=
  ((p.1.slashEquivocation evidence).1,
    p.2 + slashedAmount ((p.1.slashEquivocation evidence).2.map .slashed))

/-- The record that evidence leaves, and the penalty, if it has an effect. -/
def charge (k : Keeper) (evidence : EquivocationEvidence) : Option (Record × Amount) :=
  if evidence.isValidEquivocation then
    match k.validators[evidence.validatorAddress]? with
    | none => none
    | some val =>
      if val.isTombstoned then none
      else
        some ({ val with
            tokens := burn val.tokens (k.params.doubleSignSlash val.tokens)
            status := .jailed
            isTombstoned := true }, k.params.doubleSignSlash val.tokens)
  else none

/-- Enter a charge. -/
def enter (p : Keeper × ℕ) : Option (Record × Amount) → Keeper × ℕ
  | none => p
  | some (v, amount) => (p.1.putValidator v, p.2 + amount.atto)

@[simp] theorem enter_none (p : Keeper × ℕ) : enter p none = p := rfl

theorem receiveEvidence_eq (p : Keeper × ℕ) (evidence : EquivocationEvidence) :
    receiveEvidence p evidence = enter p (p.1.charge evidence) := by
  have hcall := p.1.penalized_slashEquivocation evidence
  simp only [receiveEvidence, charge]
  generalize p.1.slashEquivocation evidence = result at hcall ⊢
  cases hcall with
  | refused _ hnone =>
    split
    · rename_i hvalid
      rw [hnone hvalid]
      rfl
    · rfl
  | settled hvalid hval htombstoned =>
    simp only [if_pos hvalid, hval, if_pos htombstoned]
    rfl
  | slashed hvalid hval hlive =>
    simp only [if_pos hvalid, hval, hlive, Bool.false_eq_true, if_false]
    rfl

theorem charge_some {k : Keeper} {evidence : EquivocationEvidence} {v : Record} {amount : Amount}
    (h : k.charge evidence = some (v, amount)) :
    v.operatorAddress = evidence.validatorAddress ∧ v.isTombstoned = true := by
  unfold charge at h
  split at h
  · cases hval : k.validators[evidence.validatorAddress]? with
    | none =>
      rw [hval] at h
      cases h
    | some val =>
      rw [hval] at h
      dsimp only at h
      split at h
      · cases h
      · cases h
        exact ⟨k.filed _ val hval, rfl⟩
  · cases h

/-- A charge depends on the record of the validator alone. -/
theorem charge_put_other (k : Keeper) {v : Record} {evidence : EquivocationEvidence}
    (h : v.operatorAddress ≠ evidence.validatorAddress) :
    (k.putValidator v).charge evidence = k.charge evidence := by
  simp only [charge, putValidator_other k h]
  rfl

/-- Nothing more is charged to a tombstoned validator. -/
theorem charge_put_self (k : Keeper) {v : Record} {evidence : EquivocationEvidence}
    (h : v.operatorAddress = evidence.validatorAddress) (htombstoned : v.isTombstoned = true) :
    (k.putValidator v).charge evidence = none := by
  unfold charge
  rw [← h, putValidator_self]
  simp [htombstoned]

/-- Two items against one validator charge the same. -/
theorem charge_unique {k : Keeper} {e f : EquivocationEvidence} {c c' : Record × Amount}
    (he : k.charge e = some c) (hf : k.charge f = some c')
    (h : e.validatorAddress = f.validatorAddress) :
    c = c' := by
  unfold charge at he hf
  split at he
  · split at hf
    · rw [h, hf] at he
      exact (Option.some.inj he).symm
    · cases hf
  · cases he

theorem putValidator_comm (k : Keeper) {v w : Record} (h : v.operatorAddress ≠ w.operatorAddress) :
    (k.putValidator v).putValidator w = (k.putValidator w).putValidator v := by
  have hvalidators : ((k.putValidator v).putValidator w).validators =
      ((k.putValidator w).putValidator v).validators := by
    refine ExtTreeMap.ext_getElem? (fun a => ?_)
    by_cases hw : w.operatorAddress = a
    · subst hw
      rw [putValidator_self, putValidator_other _ h, putValidator_self]
    · by_cases hv : v.operatorAddress = a
      · subst hv
        rw [putValidator_self, putValidator_other _ hw, putValidator_self]
      · rw [putValidator_other _ hw, putValidator_other _ hv, putValidator_other _ hv,
          putValidator_other _ hw]
  simpa only [putValidator, Keeper.mk.injEq, true_and, and_true] using hvalidators

/-- A charge that is entered leaves no charge of an item that had none. -/
theorem charge_none_enter {p : Keeper × ℕ} {e f : EquivocationEvidence} (he : p.1.charge e = none) :
    (enter p (p.1.charge f)).1.charge e = none := by
  cases hf : p.1.charge f with
  | none => exact he
  | some c =>
    obtain ⟨haddr, htombstoned⟩ := charge_some hf
    by_cases hsame : c.1.operatorAddress = e.validatorAddress
    · exact charge_put_self p.1 hsame htombstoned
    · exact (charge_put_other p.1 hsame).trans he

theorem receiveEvidence_twice (p : Keeper × ℕ) (e : EquivocationEvidence) :
    receiveEvidence (receiveEvidence p e) e = receiveEvidence p e := by
  rw [receiveEvidence_eq (receiveEvidence p e), receiveEvidence_eq p]
  cases he : p.1.charge e with
  | none => rw [enter_none, he, enter_none]
  | some c =>
    obtain ⟨haddr, htombstoned⟩ := charge_some he
    have hnone : (enter p (some c)).1.charge e = none := charge_put_self p.1 haddr htombstoned
    rw [hnone, enter_none]

theorem receiveEvidence_comm (p : Keeper × ℕ) (e f : EquivocationEvidence) :
    receiveEvidence (receiveEvidence p e) f = receiveEvidence (receiveEvidence p f) e := by
  simp only [receiveEvidence_eq]
  cases he : p.1.charge e with
  | none => rw [charge_none_enter he, enter_none, enter_none]
  | some c =>
    cases hf : p.1.charge f with
    | none =>
      have hnone := charge_none_enter (f := e) hf
      rw [he] at hnone
      rw [hnone, enter_none, enter_none, he]
    | some c' =>
      obtain ⟨haddr, htombstoned⟩ := charge_some he
      obtain ⟨haddr', htombstoned'⟩ := charge_some hf
      by_cases hsame : e.validatorAddress = f.validatorAddress
      · have hcharge := charge_unique he hf hsame
        subst hcharge
        have hnone : (enter p (some c)).1.charge f = none :=
          charge_put_self p.1 (haddr.trans hsame) htombstoned
        have hnone' : (enter p (some c)).1.charge e = none := charge_put_self p.1 haddr htombstoned
        rw [hnone, hnone']
      · have hkept : (enter p (some c)).1.charge f = some c' :=
          (charge_put_other p.1 (by rwa [haddr])).trans hf
        have hkept' : (enter p (some c')).1.charge e = some c :=
          (charge_put_other p.1 (by rw [haddr']; exact Ne.symm hsame)).trans he
        rw [hkept, hkept']
        refine Prod.ext (putValidator_comm p.1 ?_) (Nat.add_right_comm _ _ _)
        rwa [haddr, haddr']

/-- Two lists with the same items of evidence, in whatever order and however often, leave
the same keeper and the same total. -/
theorem evidence_set_decides (k : Keeper) {items items' : List EquivocationEvidence}
    (h : ∀ e, e ∈ items ↔ e ∈ items') :
    Runs.run receiveEvidence (k, 0) items = Runs.run receiveEvidence (k, 0) items' :=
  Runs.run_eq_of_mem_iff receiveEvidence_comm receiveEvidence_twice h (k, 0)

open Devnet in
/-- Evidence against a validator and against nobody, and the same again the other way round. -/
theorem evidence_set_decides_devnet :
    Runs.run receiveEvidence (reached devParams pooledCalls, 0)
        [doubleVote, { doubleVote with validatorAddress := addressOf 9 }] =
      Runs.run receiveEvidence (reached devParams pooledCalls, 0)
        [{ doubleVote with validatorAddress := addressOf 9 }, doubleVote, doubleVote] ∧
    (Runs.run receiveEvidence (reached devParams pooledCalls, 0) [doubleVote]).2 =
    (sprx 75).atto := by
  refine ⟨evidence_set_decides _ (fun e => ?_), by decide +kernel⟩
  simp only [List.mem_cons, List.not_mem_nil, or_false, or_self]
  exact or_comm

end Keeper

end Sprax.Staking
