import Sprax.Jail

/-!
# Counting missed blocks

A report of downtime raises the count of a validator by one and jails it at the threshold.
The count is cleared when the validator is jailed and when it is released, and also by an
unjailing that has nothing to release: that call asks for no jail. Without such calls a
validator that stays out of jail has been reported less often than the threshold, however
long the stretch.
-/
namespace Sprax.Staking
open Std FiniteMap

/-- A report of downtime about the validator. -/
def Call.Reports (a : Address) : Call → Prop
  | .slashDowntime b _ => b = a
  | _ => False

instance (a : Address) : DecidablePred (Call.Reports a)
  | .slashDowntime b _ => inferInstanceAs (Decidable (b = a))
  | .registerValidator .. | .delegate .. | .undelegate .. | .slashEquivocation _ | .unjail .. =>
    isFalse id

/-- What a call can do to status and count of a registered validator. -/
inductive Attended (params : Params) (c : Call) (a : Address) (v : Record) : Record → Prop
  | kept {v' : Record} (hother : c.Reports a → v.status = .jailed ∨ v.isTombstoned = true)
      (hstatus : v'.status = v.status) (hmissed : v'.missedBlocksCount = v.missedBlocksCount) :
      Attended params c a v v'
  | jailed {v' : Record} (hstatus : v'.status = .jailed)
      (hmissed : v'.missedBlocksCount ≤ v.missedBlocksCount) : Attended params c a v v'
  | counted {v' : Record} (hreport : c.Reports a) (hstatus : v'.status = v.status)
      (hmissed : v'.missedBlocksCount = (v.missedBlocksCount + 1) % 2 ^ 64)
      (hbelow : ¬ params.missedBlocksThreshold ≤ (v.missedBlocksCount + 1) % 2 ^ 64) :
      Attended params c a v v'
  | cleared {v' : Record} {height : ℕ} (hcall : c = .unjail a height)
      (hmissed : v'.missedBlocksCount = 0) : Attended params c a v v'

namespace Keeper

/-- Writing a record concerns the validator it belongs to. -/
theorem attended_put {k : Keeper} {c : Call} {a : Address} {v : Record}
    (hv : k.validators[a]? = some v) {b : Address} {val val' : Record}
    (hval : k.validators[b]? = some val) (haddr : val'.operatorAddress = val.operatorAddress)
    (hreports : c.Reports a → b = a) (h : b = a → Attended k.params c a val val') :
    ∃ v', (k.putValidator val').validators[a]? = some v' ∧ Attended k.params c a v v' := by
  have hb : val'.operatorAddress = b := haddr.trans (k.filed b val hval)
  by_cases hab : b = a
  · subst hab
    cases hv.symm.trans hval
    have hself := k.putValidator_self val'
    rw [hb] at hself
    exact ⟨val', hself, h rfl⟩
  · refine ⟨v, ?_, .kept (fun hreport => absurd (hreports hreport) hab) rfl rfl⟩
    rw [putValidator_other _ (by rwa [hb])]
    exact hv

theorem registerValidator_attended {k : Keeper} {a : Address} {v : Record}
    (hv : k.validators[a]? = some v) (b : Address) (key : Bytes) (stake : Amount) :
    (k.registerValidator b key stake).1.validators[a]? = some v := by
  have hcall := k.registered_registerValidator b key stake
  generalize k.registerValidator b key stake = result at hcall ⊢
  cases hcall with
  | refused => exact hv
  | entered hnew =>
    have hne : b ≠ a := by
      rintro rfl
      exact hnew (ExtTreeMap.mem_iff_isSome_getElem?.mpr (by rw [hv]; rfl))
    have hsame := k.putValidator_other (v := .candidate b key stake) hne
    exact hsame.trans hv

theorem slashDowntime_attended {k : Keeper} {a : Address} {v : Record}
    (hv : k.validators[a]? = some v) (b : Address) (height : ℕ) :
      ∃ v', (k.slashDowntime b height).1.validators[a]? = some v' ∧
      Attended k.params (.slashDowntime b height) a v v' := by
  have hcall := k.reported_slashDowntime b height
  generalize k.slashDowntime b height = result at hcall ⊢
  cases hcall with
  | refused _ hnone =>
    refine ⟨v, hv, .kept (fun hreport => ?_) rfl rfl⟩
    rw [show b = a from hreport, hv] at hnone
    cases hnone
  | out hval hout =>
    refine ⟨v, hv, .kept (fun hreport => ?_) rfl rfl⟩
    rw [show b = a from hreport, hv] at hval
    cases hval
    exact hout
  | counted hval _ _ hbelow =>
    exact attended_put hv hval rfl id (fun hb => .counted hb rfl rfl hbelow)
  | jailed hval => exact attended_put hv hval rfl id (fun _ => .jailed rfl (Nat.zero_le _))

theorem next_attended {k : Keeper} {a : Address} {v : Record} (hv : k.validators[a]? = some v)
    (c : Call) :
    ∃ v', (k.next c).validators[a]? = some v' ∧ Attended k.params c a v v' := by
  cases c with
  | registerValidator b key stake =>
    exact ⟨v, registerValidator_attended hv b key stake, .kept False.elim rfl rfl⟩
  | delegate delegator b amount =>
    have hcall := k.delegated_delegate delegator b amount
    simp only [next, call, Prod.map_fst, id_eq]
    generalize k.delegate delegator b amount = result at hcall ⊢
    cases hcall with
    | refused => exact ⟨v, hv, .kept False.elim rfl rfl⟩
    | stopped hval | entered hval =>
      exact attended_put hv hval rfl False.elim (fun _ => .kept False.elim rfl rfl)
  | undelegate delegator b amount height =>
    have hcall := k.undelegated_undelegate delegator b amount height
    simp only [next, call, Prod.map_fst, id_eq]
    generalize k.undelegate delegator b amount height = result at hcall ⊢
    cases hcall with
    | refused | stopped | orphaned => exact ⟨v, hv, .kept False.elim rfl rfl⟩
    | halfway _ _ hval | moved _ _ hval =>
      exact attended_put hv hval rfl False.elim (fun _ => .kept False.elim rfl rfl)
  | slashEquivocation evidence =>
    have hcall := k.penalized_slashEquivocation evidence
    simp only [next, call, Prod.map_fst, id_eq]
    generalize k.slashEquivocation evidence = result at hcall ⊢
    cases hcall with
    | refused | settled => exact ⟨v, hv, .kept False.elim rfl rfl⟩
    | slashed _ hval =>
      exact attended_put hv hval rfl False.elim (fun _ => .jailed rfl (Nat.le_refl _))
  | slashDowntime b height => exact slashDowntime_attended hv b height
  | unjail b height =>
    have hcall := k.unjailed_unjail b height
    simp only [next, call, Prod.map_fst, id_eq]
    generalize k.unjail b height = result at hcall ⊢
    cases hcall with
    | refused => exact ⟨v, hv, .kept False.elim rfl rfl⟩
    | released hval =>
      exact attended_put hv hval rfl False.elim (fun hb => .cleared (by rw [hb]) rfl)

/-- Every count is below the threshold. -/
def BelowThreshold (k : Keeper) : Prop :=
  ∀ (a : Address) (v : Record), k.validators[a]? = some v →
    v.missedBlocksCount < k.params.missedBlocksThreshold

theorem BelowThreshold.next {k : Keeper} (h : k.BelowThreshold)
    (hpos : 1 ≤ k.params.missedBlocksThreshold) (c : Call) : (k.next c).BelowThreshold := by
  intro a v' hv'
  rw [next_params]
  cases hv : k.validators[a]? with
  | none =>
    have htouched := k.next_touched c a
    rw [hv, hv'] at htouched
    cases htouched with
    | registered => exact hpos
  | some v =>
    have hbelow := h a v hv
    obtain ⟨w, hw, hattended⟩ := next_attended hv c
    cases hv'.symm.trans hw
    cases hattended with
    | kept _ _ hmissed => rwa [hmissed]
    | jailed _ hmissed => exact Nat.lt_of_le_of_lt hmissed hbelow
    | counted _ _ hmissed hlimit =>
      rw [hmissed]
      exact Nat.lt_of_not_le hlimit
    | cleared _ hmissed =>
      rw [hmissed]
      exact hpos

theorem belowThreshold_reached {params : Params} (hpos : 1 ≤ params.missedBlocksThreshold)
    (calls : List Call) : (reached params calls).BelowThreshold := by
  have hinv : (reached params calls).BelowThreshold ∧ (reached params calls).params = params := by
    refine Runs.run_invariant (I := fun k : Keeper => k.BelowThreshold ∧ k.params = params) ?_ _
      calls ⟨?_, rfl⟩
    · rintro k c ⟨h, rfl⟩
      exact ⟨h.next hpos c, k.next_params c⟩
    · intro a v hv
      simp [new] at hv
  exact hinv.1

/-- The validator is not jailed. -/
def Free (k : Keeper) (a : Address) : Prop :=
  (k.validators[a]?).map (fun v => v.status) ≠ some .jailed

instance (k : Keeper) (a : Address) : Decidable (k.Free a) := inferInstanceAs (Decidable (_ ≠ _))

theorem Free.status_ne {k : Keeper} {a : Address} (h : k.Free a) {v : Record}
    (hv : k.validators[a]? = some v) : v.status ≠ .jailed := by
  intro hjailed
  exact h (by rw [hv, Option.map_some, hjailed])

/-- An unjailing of a validator that is not jailed. -/
def ClearsFree (k : Keeper) (a : Address) : Call → Prop
  | .unjail b _ => b = a ∧ k.Free a
  | _ => False

instance (k : Keeper) (a : Address) : DecidablePred (k.ClearsFree a)
  | .unjail .. => inferInstanceAs (Decidable (_ ∧ _))
  | .registerValidator .. | .delegate .. | .undelegate .. | .slashEquivocation _
  | .slashDowntime .. => isFalse id

/-- Out of jail, the count grows by one with every report. -/
theorem missed_next {k : Keeper} (hburied : k.Buried) (hbelow : k.BelowThreshold)
    (hfits : k.params.missedBlocksThreshold < 2 ^ 64) {a : Address} {v : Record}
    (hv : k.validators[a]? = some v) {c : Call} (hfree : k.Free a) (hfree' : (k.next c).Free a)
    (hc : ¬ k.ClearsFree a c) :
    ∃ v', (k.next c).validators[a]? = some v' ∧
      v'.missedBlocksCount = v.missedBlocksCount + if c.Reports a then 1 else 0 := by
  obtain ⟨v', hv', hattended⟩ := next_attended hv c
  refine ⟨v', hv', ?_⟩
  cases hattended with
  | kept hother _ hmissed =>
    have hnone : ¬ c.Reports a := by
      intro hreport
      rcases hother hreport with hjailed | htombstoned
      · exact hfree.status_ne hv hjailed
      · exact hfree.status_ne hv (hburied a v hv htombstoned)
    rw [if_neg hnone, hmissed]
    rfl
  | jailed hstatus => exact absurd hstatus (hfree'.status_ne hv')
  | counted hreport _ hmissed =>
    have hlt := hbelow a v hv
    rw [if_pos hreport, hmissed, Nat.mod_eq_of_lt (by omega)]
  | cleared hcall =>
    subst hcall
    exact absurd ⟨rfl, hfree⟩ hc

theorem reports_run {k : Keeper} (hburied : k.Buried) (hbelow : k.BelowThreshold)
    (hpos : 1 ≤ k.params.missedBlocksThreshold) (hfits : k.params.missedBlocksThreshold < 2 ^ 64)
    {a : Address} {v : Record} (hv : k.validators[a]? = some v) {stretch : List Call}
    (hfree : Runs.Throughout (fun k => k.Free a) next k stretch)
    (hrun : Runs.Along (fun k c => ¬ k.ClearsFree a c) next k stretch) :
    v.missedBlocksCount + stretch.countP (fun c => c.Reports a) <
      k.params.missedBlocksThreshold := by
  induction stretch generalizing k v with
  | nil => exact hbelow a v hv
  | cons c rest ih =>
    obtain ⟨hc, hrun⟩ := hrun
    obtain ⟨hnow, hfree⟩ := hfree
    have hnext : (k.next c).Free a := by
      cases rest with
      | nil => exact hfree
      | cons => exact hfree.1
    obtain ⟨v', hv', hmissed⟩ := missed_next hburied hbelow hfits hv hnow hnext hc
    have hparams := k.next_params c
    have hrest := ih (hburied.next c) (hbelow.next hpos c) (hparams ▸ hpos) (hparams ▸ hfits) hv'
      hfree hrun
    rw [hparams] at hrest
    rw [List.countP_cons]
    simp only [decide_eq_true_eq]
    omega

/-- A validator that stays out of jail for a stretch of a run, and is not unjailed in it, has
been reported less often than the threshold. The stretch may begin with the registration,
with a release, or anywhere after. -/
theorem reports_below_threshold {params : Params} (hpos : 1 ≤ params.missedBlocksThreshold)
    (hfits : params.missedBlocksThreshold < 2 ^ 64) {calls stretch : List Call} {a : Address}
    (hregistered : a ∈ (reached params calls).validators)
    (hfree : Runs.Throughout (fun k => k.Free a) next (reached params calls) stretch)
    (hrun : Runs.Along (fun k c => ¬ k.ClearsFree a c) next (reached params calls) stretch) :
    stretch.countP (fun c => c.Reports a) < params.missedBlocksThreshold := by
  obtain ⟨v, hv⟩ := Option.isSome_iff_exists.mp (ExtTreeMap.mem_iff_isSome_getElem?.mp hregistered)
  have hparams := reached_params params calls
  have hreports := reports_run (buried_reached params calls) (belowThreshold_reached hpos calls)
    (by rwa [hparams]) (by rwa [hparams]) hv hfree hrun
  rw [hparams] at hreports
  omega

/-- Two missed blocks are enough for the jail. -/
def twoStrikes : Params := { devParams with missedBlocksThreshold := 2 }

open Devnet in
/-- Unjailed between two reports, the validator is never jailed. -/
theorem downtime_laundered :
    Runs.Throughout (fun k => k.Free (addressOf 1)) next (reached twoStrikes pooledCalls)
        [.slashDowntime (addressOf 1) 3, .unjail (addressOf 1) 4, .slashDowntime (addressOf 1) 5] ∧
      List.countP (fun c => Call.Reports (addressOf 1) c)
        [.slashDowntime (addressOf 1) 3, .unjail (addressOf 1) 4, .slashDowntime (addressOf 1) 5] =
        twoStrikes.missedBlocksThreshold := by
  simp only [Runs.Throughout]
  decide +kernel

open Devnet in
/-- With one report, and an attempt to unjail another address, it stays below two. -/
theorem one_report_devnet :
    List.countP (fun c => Call.Reports (addressOf 1) c)
        [.slashDowntime (addressOf 1) 3, .unjail (addressOf 2) 4] <
          twoStrikes.missedBlocksThreshold := by
  have hregistered : addressOf 1 ∈ (reached twoStrikes pooledCalls).validators := by decide +kernel
  refine reports_below_threshold (by decide) (by decide) hregistered ?_ (by decide +kernel)
  simp only [Runs.Throughout]
  decide +kernel

end Keeper

end Sprax.Staking
