import Sprax.IndexStore
import Sprax.Books
import Sprax.ActiveSet

/-!
# Synchronizing the validators of the index

A synchronization visits the members of the current active set and writes their
records. It never removes one, so the index shows every validator that was in the active
set at some synchronization, as it was when it last was. The index agrees with the keeper
exactly as long as no validator that was synchronized has left the active set.
-/
namespace Sprax
open Std FiniteMap Filing Runs

def ValidatorStatus.label : ValidatorStatus → String
  | .active => "Active"
  | .jailed => "Jailed"
  | .unbonding => "Unbonding"
  | .unbonded => "Unbonded"

/-- What a validator was registered with besides its stake; no keeper call reads or changes it. -/
structure Profile where
  moniker : String
  commissionRate : Float

namespace IndexerEngine

variable (profile : Address → Profile)

def indexedValidator (totalPower : ℕ) (val : Validator) (record : Staking.Record) :
    IndexedValidator where
  operatorAddress := record.operatorAddress
  moniker := (profile record.operatorAddress).moniker
  votingPower := val.votingPower
  votingPowerPercentage :=
    if 0 < totalPower then Float.ofNat val.votingPower / Float.ofNat totalPower * 100.0 else 0.0
  tokens := record.tokens
  commissionRate := (profile record.operatorAddress).commissionRate
  status := record.status.label
  isTombstoned := record.isTombstoned
  missedBlocksCount := record.missedBlocksCount
  uptimePercentage := 99.95
  blocksProposedCount := 0

/-- The order in which the keeper enumerates its table is an input. -/
def syncValidators (s : IndexStore) (keeper : Staking.Keeper) (o : IterOrder StakingValidator) :
    IndexStore :=
  match keeper.getActiveValidatorSet o with
  | .error _ => s
  | .ok activeSet =>
    activeSet.validators.foldl (fun s val =>
      match keeper.validators[val.address]? with
      | some record =>
        s.upsertValidator (indexedValidator profile activeSet.totalVotingPower val record)
      | none => s) s

/-- A keeper and the index that is synchronized with it. -/
structure Mirror where
  keeper : Staking.Keeper
  store : IndexStore

inductive MirrorEvent
  | call (c : Staking.Call)
  | sync (o : IterOrder StakingValidator)

def mirror (m : Mirror) : MirrorEvent → Mirror
  | .call c => { m with keeper := m.keeper.next c }
  | .sync o => { m with store := syncValidators profile m.store m.keeper o }

def mirrored (params : Staking.Params) (chainId : String) (es : List MirrorEvent) : Mirror :=
  run (mirror profile) ⟨Staking.Keeper.new params, IndexStore.new chainId⟩ es

end IndexerEngine

namespace Staking.Keeper

/-- The records of the active set, if there is one. -/
def activeRecords (k : Keeper) (o : IterOrder StakingValidator) : List Record :=
  match k.getActiveValidatorSet o with
  | .error _ => []
  | .ok activeSet =>
    (activeSet.validators.filterMap (fun val => k.validators[val.address]?)).filter
      (fun record => record.status = .active)

/-- The addresses of the active set, if there is one. -/
def members (k : Keeper) (o : IterOrder StakingValidator) : List Address :=
  match k.getActiveValidatorSet o with
  | .error _ => []
  | .ok activeSet => activeSet.validators.map Validator.address

variable {k : Keeper} {o : IterOrder StakingValidator}

/-- Members of the active set have active records. -/
theorem exists_record {activeSet : ValidatorSet} (h : k.getActiveValidatorSet o = .ok activeSet)
    {val : Validator} (hval : val ∈ activeSet.validators) :
    ∃ record, k.validators[val.address]? = some record ∧ record.status = .active := by
  obtain ⟨viewed, hviewed, hactive, -⟩ := StakingKeeper.exists_active_of_mem h hval
  rw [view_getElem?] at hviewed
  obtain ⟨record, hrecord, rfl⟩ := Option.map_eq_some_iff.mp hviewed
  exact ⟨record, hrecord, hactive⟩

theorem exists_record_of_members {a : Address} (h : a ∈ k.members o) :
    ∃ record, k.validators[a]? = some record ∧ record.status = .active := by
  unfold members at h
  cases hset : k.getActiveValidatorSet o with
  | error e => simp [hset] at h
  | ok activeSet =>
    rw [hset] at h
    obtain ⟨val, hval, rfl⟩ := List.mem_map.mp h
    exact exists_record hset hval

theorem nodup_members (k : Keeper) (o : IterOrder StakingValidator) : (k.members o).Nodup := by
  unfold members
  cases hset : k.getActiveValidatorSet o with
  | error e => exact List.nodup_nil
  | ok activeSet =>
    exact ((ValidatorSet.perm_of_new hset).map Validator.address).nodup_iff.mpr
      (StakingKeeper.nodup_top o)

/-- The record of a member is looked up and passes the filter. -/
theorem filter_filterMap_records {vals : List Validator}
    (h : ∀ val ∈ vals, ∃ record, k.validators[val.address]? = some record ∧
      record.status = .active) :
    ((vals.filterMap (fun val => k.validators[val.address]?)).filter
      (fun record => record.status = .active)).map (fun record => record.operatorAddress) =
      vals.map Validator.address := by
  induction vals with
  | nil => rfl
  | cons val vals ih =>
    obtain ⟨⟨record, hrecord, hactive⟩, hrest⟩ := List.forall_mem_cons.mp h
    have haddress := k.filed val.address record hrecord
    simp [hrecord, hactive, haddress, ih hrest]

theorem activeRecords_addresses (k : Keeper) (o : IterOrder StakingValidator) :
    (k.activeRecords o).map (fun record => record.operatorAddress) = k.members o := by
  unfold activeRecords members
  cases hset : k.getActiveValidatorSet o with
  | error e => rfl
  | ok activeSet => exact filter_filterMap_records (fun val hval => exists_record hset hval)

/-- Active records are stored under their addresses. -/
theorem getElem?_of_activeRecords {record : Record} (h : record ∈ k.activeRecords o) :
    k.validators[record.operatorAddress]? = some record := by
  unfold activeRecords at h
  cases hset : k.getActiveValidatorSet o with
  | error e => simp [hset] at h
  | ok activeSet =>
    rw [hset] at h
    obtain ⟨val, -, hget⟩ := List.mem_filterMap.mp (List.mem_filter.mp h).1
    rwa [k.filed val.address record hget]

end Staking.Keeper

namespace IndexerEngine

variable {profile : Address → Profile} {k : Staking.Keeper} {o : IterOrder StakingValidator}
  {s : IndexStore} {a : Address}

/-- The index shows a validator as the keeper has it. -/
def Shows (v : IndexedValidator) (record : Staking.Record) : Prop :=
  v.status = record.status.label ∧ v.tokens = record.tokens ∧ v.isTombstoned = record.isTombstoned

/-- The records a synchronization writes. -/
def written (profile : Address → Profile) (k : Staking.Keeper) (activeSet : ValidatorSet) :
    List IndexedValidator :=
  activeSet.validators.filterMap (fun val =>
    (k.validators[val.address]?).map (indexedValidator profile activeSet.totalVotingPower val))

@[simp] theorem validatorsByAddress_upsert (s : IndexStore) (v : IndexedValidator) :
    (s.upsertValidator v).validatorsByAddress =
      overwrite (·.operatorAddress) id s.validatorsByAddress v :=
  rfl

theorem foldl_upsert (s : IndexStore) (totalPower : ℕ) (vals : List Validator) :
    (vals.foldl (fun s val =>
      match k.validators[val.address]? with
      | some record => s.upsertValidator (indexedValidator profile totalPower val record)
      | none => s) s).validatorsByAddress =
    (vals.filterMap (fun val =>
      (k.validators[val.address]?).map (indexedValidator profile totalPower val))).foldl
      (overwrite (·.operatorAddress) id) s.validatorsByAddress := by
  induction vals generalizing s with
  | nil => rfl
  | cons val vals ih =>
    cases hrecord : k.validators[val.address]? with
    | none => simp [hrecord, ih]
    | some record => simp [hrecord, ih]

theorem getValidator_sync {activeSet : ValidatorSet}
    (h : k.getActiveValidatorSet o = .ok activeSet) :
    (syncValidators profile s k o).getValidator a =
      (latest (·.operatorAddress) (written profile k activeSet) a).or (s.getValidator a) := by
  simp only [syncValidators, h, IndexStore.getValidator, foldl_upsert, getElem?_overwrites,
    Option.map_id_fun, id_eq]
  rfl

/-- What is written under an address shows the record the keeper has there. -/
theorem shows_of_latest {activeSet : ValidatorSet} {v : IndexedValidator}
    (h : latest (·.operatorAddress) (written profile k activeSet) a = some v) :
    a ∈ activeSet.validators.map Validator.address ∧
      ∃ record, k.validators[a]? = some record ∧ Shows v record := by
  obtain ⟨hmem, hkey⟩ := mem_of_latest h
  obtain ⟨val, hval, hv⟩ := List.mem_filterMap.mp hmem
  obtain ⟨record, hrecord, rfl⟩ := Option.map_eq_some_iff.mp hv
  have haddress : val.address = a := (k.filed val.address record hrecord).symm.trans hkey
  exact ⟨List.mem_map.mpr ⟨val, hval, haddress⟩, record, haddress ▸ hrecord, rfl, rfl, rfl⟩

theorem getValidator_sync_of_mem (profile : Address → Profile) (s : IndexStore)
    (ha : a ∈ k.members o) :
    ∃ v record, (syncValidators profile s k o).getValidator a = some v ∧
      k.validators[a]? = some record ∧ Shows v record := by
  unfold Staking.Keeper.members at ha
  cases hset : k.getActiveValidatorSet o with
  | error e => simp [hset] at ha
  | ok activeSet =>
    rw [hset] at ha
    obtain ⟨val, hval, rfl⟩ := List.mem_map.mp ha
    obtain ⟨record, hrecord, -⟩ := Staking.Keeper.exists_record hset hval
    have hwritten : indexedValidator profile activeSet.totalVotingPower val record ∈
        written profile k activeSet :=
      List.mem_filterMap.mpr ⟨val, hval, by rw [hrecord, Option.map_some]⟩
    obtain ⟨v, hv⟩ : ∃ v, latest (·.operatorAddress) (written profile k activeSet)
        val.address = some v :=
      k.filed val.address record hrecord ▸ exists_latest hwritten
    obtain ⟨-, record', hrecord', hshows⟩ := shows_of_latest hv
    exact ⟨v, record', by rw [getValidator_sync hset, hv, Option.some_or], hrecord', hshows⟩

theorem getValidator_sync_of_not_mem (s : IndexStore) (ha : a ∉ k.members o) :
    (syncValidators profile s k o).getValidator a = s.getValidator a := by
  unfold Staking.Keeper.members at ha
  cases hset : k.getActiveValidatorSet o with
  | error e => simp only [syncValidators, hset]
  | ok activeSet =>
    rw [hset] at ha
    rw [getValidator_sync hset]
    cases hlatest : latest (·.operatorAddress) (written profile k activeSet) a with
    | none => rw [Option.none_or]
    | some v => exact absurd (shows_of_latest hlatest).1 ha

variable {params : Staking.Params} {chainId : String} {es : List MirrorEvent}

/-- An earlier synchronization found the address in the active set. -/
def Seen (profile : Address → Profile) (params : Staking.Params) (chainId : String)
    (es : List MirrorEvent) (a : Address) : Prop :=
  ∃ before o after, es = before ++ .sync o :: after ∧
    a ∈ (mirrored profile params chainId before).keeper.members o

theorem mirrored_snoc (es : List MirrorEvent) (e : MirrorEvent) :
    mirrored profile params chainId (es ++ [e]) =
      mirror profile (mirrored profile params chainId es) e := by
  simp [mirrored]

theorem seen_snoc (es : List MirrorEvent) (e : MirrorEvent) :
    Seen profile params chainId (es ++ [e]) a ↔ Seen profile params chainId es a ∨
      ∃ o, e = .sync o ∧ a ∈ (mirrored profile params chainId es).keeper.members o := by
  constructor
  · rintro ⟨before, o, after, hsplit, ha⟩
    rcases List.eq_nil_or_concat after with rfl | ⟨rest, last, rfl⟩
    · obtain ⟨rfl, hlast⟩ := List.append_inj' hsplit rfl
      exact Or.inr ⟨o, List.singleton_inj.mp hlast, ha⟩
    · have hsplit' : es ++ [e] = (before ++ .sync o :: rest) ++ [last] := by simpa using hsplit
      exact Or.inl ⟨before, o, rest, (List.append_inj' hsplit' rfl).1, ha⟩
  · rintro (⟨before, o, after, rfl, ha⟩ | ⟨o, rfl, ha⟩)
    · exact ⟨before, o, after ++ [e], by simp, ha⟩
    · exact ⟨es, o, [], rfl, ha⟩

/-- The index holds the validators that were seen, and shows every one of them as active. -/
theorem held_iff (profile : Address → Profile) (params : Staking.Params) (chainId : String)
    (es : List MirrorEvent) (a : Address) :
    (Seen profile params chainId es a →
      ∃ v, (mirrored profile params chainId es).store.getValidator a = some v ∧
        v.status = "Active") ∧
    (¬ Seen profile params chainId es a →
      (mirrored profile params chainId es).store.getValidator a = none) := by
  induction es using List.reverseRecOn with
  | nil =>
    refine ⟨fun ⟨before, o, after, hsplit, _⟩ => by simp at hsplit, fun _ => ?_⟩
    simp [mirrored, IndexStore.getValidator, IndexStore.new]
  | append_singleton es e ih =>
    rw [seen_snoc, mirrored_snoc]
    cases e with
    | call c => simpa [mirror] using ih
    | sync o =>
      by_cases ha : a ∈ (mirrored profile params chainId es).keeper.members o
      · obtain ⟨v, record, hv, hrecord, hshows⟩ :=
          getValidator_sync_of_mem profile (mirrored profile params chainId es).store ha
        obtain ⟨record', hrecord', hactive⟩ := Staking.Keeper.exists_record_of_members ha
        obtain rfl := Option.some.inj (hrecord.symm.trans hrecord')
        refine ⟨fun _ => ⟨v, hv, by rw [hshows.1, hactive]; rfl⟩, fun hseen => ?_⟩
        exact absurd (Or.inr ⟨o, rfl, ha⟩) hseen
      · simpa [mirror, getValidator_sync_of_not_mem _ ha, ha] using ih

/-- The index agrees with the keeper: every validator it holds is shown as the keeper has it, and
the statistics count the active set and its stake. -/
def Reflects (k : Staking.Keeper) (o : IterOrder StakingValidator) (s : IndexStore) : Prop :=
  (∀ a v, s.getValidator a = some v → ∃ record, k.validators[a]? = some record ∧ Shows v record) ∧
  s.getNetworkStats.activeValidatorsCount = (k.activeRecords o).length ∧
  s.getNetworkStats.totalBondedTokens.atto = ((k.activeRecords o).map (fun r => r.tokens.atto)).sum

section Statistics

/-- What the keeper has staked under an address. -/
def stake (k : Staking.Keeper) (a : Address) : ℕ :=
  (k.validators[a]?).elim 0 (fun r => r.tokens.atto)

theorem activeRecords_stake (k : Staking.Keeper) (o : IterOrder StakingValidator) :
    (k.activeRecords o).map (fun r => r.tokens.atto) = (k.members o).map (stake k) := by
  rw [← Staking.Keeper.activeRecords_addresses, List.map_map]
  refine List.map_congr_left (fun record hrecord => ?_)
  simp [stake, Staking.Keeper.getElem?_of_activeRecords hrecord]

/-- Where all validators are shown as active, the count is that of the table. -/
theorem activeValidatorsCount_eq (hactive : ∀ a v, s.getValidator a = some v →
    v.status = "Active") :
    s.getNetworkStats.activeValidatorsCount = s.validatorsByAddress.keys.length := by
  have hall : (s.validatorsByAddress.toList.map (·.2)).filter (fun v => v.status = "Active") =
      s.validatorsByAddress.toList.map (·.2) := by
    refine List.filter_eq_self.mpr (fun v hv => ?_)
    obtain ⟨e, he, rfl⟩ := List.mem_map.mp hv
    simpa using hactive e.1 e.2 (ExtTreeMap.mem_toList_iff_getElem?_eq_some.mp he)
  simp only [IndexStore.getNetworkStats, hall, List.length_map, ExtTreeMap.length_toList,
    ExtTreeMap.length_keys]

/-- Where the members are shown as they are, the total is their stake. -/
theorem totalBondedTokens_eq (hshown : ∀ a v, s.getValidator a = some v →
      ∃ record, k.validators[a]? = some record ∧ Shows v record) :
    s.getNetworkStats.totalBondedTokens.atto =
      (s.validatorsByAddress.keys.map (stake k)).sum % 2 ^ 128 := by
  have hstakes : (s.validatorsByAddress.toList.map (·.2)).map (fun v => v.tokens.atto) =
      s.validatorsByAddress.keys.map (stake k) := by
    rw [← ExtTreeMap.map_fst_toList_eq_keys, List.map_map, List.map_map]
    refine List.map_congr_left (fun e he => ?_)
    obtain ⟨record, hrecord, -, htokens, -⟩ :=
      hshown e.1 e.2 (ExtTreeMap.mem_toList_iff_getElem?_eq_some.mp he)
    simp [stake, hrecord, htokens]
  simp only [IndexStore.getNetworkStats, hstakes]

/-- A store that shows everyone as active, and the members of the active set as they are, agrees
with the keeper exactly if it holds nobody else and the stakes add up within 128 bits. -/
theorem reflects_iff (hactive : ∀ a v, s.getValidator a = some v → v.status = "Active")
    (hmembers : ∀ a ∈ k.members o, ∃ v record, s.getValidator a = some v ∧
      k.validators[a]? = some record ∧ Shows v record) :
    Reflects k o s ↔ (∀ a v, s.getValidator a = some v → a ∈ k.members o) ∧
      ((k.activeRecords o).map (fun r => r.tokens.atto)).sum < 2 ^ 128 := by
  have hheld (a : Address) : a ∈ s.validatorsByAddress.keys ↔ ∃ v, s.getValidator a = some v := by
    rw [ExtTreeMap.mem_keys, ExtTreeMap.mem_iff_isSome_getElem?, Option.isSome_iff_exists]
    rfl
  have hlength : (k.activeRecords o).length = (k.members o).length := by
    rw [← Staking.Keeper.activeRecords_addresses, List.length_map]
  have hsubperm : List.Subperm (k.members o) s.validatorsByAddress.keys := by
    refine (Staking.Keeper.nodup_members k o).subperm (fun a ha => (hheld a).mpr ?_)
    obtain ⟨v, record, hv, -⟩ := hmembers a ha
    exact ⟨v, hv⟩
  rw [Reflects, activeValidatorsCount_eq hactive, hlength]
  constructor
  · rintro ⟨-, hcount, htotal⟩
    have hperm := hsubperm.perm_of_length_le (Nat.le_of_eq hcount)
    refine ⟨fun a v hv => hperm.mem_iff.mpr ((hheld a).mpr ⟨v, hv⟩), ?_⟩
    rw [← htotal]
    exact Amount.lt _
  · rintro ⟨hnobody, hfits⟩
    have hshown (a : Address) (v : IndexedValidator) (hv : s.getValidator a = some v) :
        ∃ record, k.validators[a]? = some record ∧ Shows v record := by
      obtain ⟨v', record, hv', hrecord, hshows⟩ := hmembers a (hnobody a v hv)
      obtain rfl := Option.some.inj (hv.symm.trans hv')
      exact ⟨record, hrecord, hshows⟩
    have hperm : (k.members o).Perm s.validatorsByAddress.keys := by
      refine hsubperm.perm_of_length_le ?_
      have hkeys : s.validatorsByAddress.keys.Nodup := ExtTreeMap.nodup_keys
      refine (hkeys.subperm (fun a ha => ?_)).length_le
      obtain ⟨v, hv⟩ := (hheld a).mp ha
      exact hnobody a v hv
    refine ⟨hshown, hperm.length_eq.symm, ?_⟩
    rw [activeRecords_stake] at hfits ⊢
    rw [totalBondedTokens_eq hshown, ← (hperm.map (stake k)).sum_eq, Nat.mod_eq_of_lt hfits]

end Statistics

/-- Right after a synchronization the index agrees with the keeper exactly if every validator that
an earlier one found in the active set is in it now, and the stakes of the set add up within
128 bits. -/
theorem sync_reflects_iff (profile : Address → Profile) (params : Staking.Params) (chainId : String)
    (es : List MirrorEvent) (o : IterOrder StakingValidator) :
    let m := mirrored profile params chainId (es ++ [.sync o])
    Reflects m.keeper o m.store ↔
      (∀ a, Seen profile params chainId es a → a ∈ m.keeper.members o) ∧
        ((m.keeper.activeRecords o).map (fun r => r.tokens.atto)).sum < 2 ^ 128 := by
  intro m
  have hm : m = mirror profile (mirrored profile params chainId es) (.sync o) := mirrored_snoc es _
  have hheld := held_iff profile params chainId (es ++ [.sync o])
  have hactive : ∀ a v, m.store.getValidator a = some v → v.status = "Active" := by
    intro a v hv
    by_cases hseen : Seen profile params chainId (es ++ [.sync o]) a
    · obtain ⟨v', hv', hstatus⟩ := (hheld a).1 hseen
      rwa [Option.some.inj (hv.symm.trans hv')]
    · rw [(hheld a).2 hseen] at hv
      cases hv
  have hmembers : ∀ a ∈ m.keeper.members o, ∃ v record, m.store.getValidator a = some v ∧
      m.keeper.validators[a]? = some record ∧ Shows v record := by
    rw [hm]
    exact fun a ha => getValidator_sync_of_mem profile _ ha
  rw [reflects_iff hactive hmembers]
  refine and_congr_left (fun _ => ⟨fun h a hseen => ?_, fun h a v hv => ?_⟩)
  · obtain ⟨v, hv, -⟩ := (hheld a).1 ((seen_snoc es _).mpr (Or.inl hseen))
    exact h a v hv
  · by_contra hout
    have hseen : ¬ Seen profile params chainId (es ++ [.sync o]) a := by
      rw [seen_snoc]
      rintro (hbefore | ⟨o', ho, hnow⟩)
      · exact hout (h a hbefore)
      · cases ho
        rw [hm] at hout
        exact hout hnow
    rw [(hheld a).2 hseen] at hv
    cases hv

section Scenario
open Devnet Staking.Keeper

def unnamed (_ : Address) : Profile := ⟨"", 0.0⟩

/-- Two validators register and are synchronized; a missed block jails the first. -/
def jailingRun : List MirrorEvent :=
  [.call (.registerValidator (addressOf 1) [1] (sprx 1000)),
   .call (.registerValidator (addressOf 2) [2] (sprx 1000)),
   .sync (.listed _),
   .call (.slashDowntime (addressOf 1) 10)]

theorem sync_reflects_iff_first :
    let m := mirrored unnamed strictParams "sprax-devnet-1"
      (jailingRun.take 2 ++ [.sync (.listed _)])
    Reflects m.keeper (.listed _) m.store := by
  refine (sync_reflects_iff unnamed strictParams "sprax-devnet-1" (jailingRun.take 2)
    (.listed _)).mpr ⟨fun a hseen => ?_, by decide +kernel⟩
  obtain ⟨before, o, after, hsplit, -⟩ := hseen
  have hmem : MirrorEvent.sync o ∈ jailingRun.take 2 := by
    rw [hsplit]
    simp
  simp [jailingRun] at hmem

/-- The jailed validator is still shown, as active and with its former stake. -/
theorem jailed_still_active :
    let m := mirrored unnamed strictParams "sprax-devnet-1" (jailingRun ++ [.sync (.listed _)])
    (m.store.getValidator (addressOf 1)).map (·.status) = some "Active" ∧
    (m.keeper.validators[addressOf 1]?).map (fun r => r.status) = some .jailed ∧
    (m.store.getValidator (addressOf 1)).map (·.tokens) ≠
      (m.keeper.validators[addressOf 1]?).map (fun r => r.tokens) ∧
    m.store.getNetworkStats.activeValidatorsCount = 2 ∧
    (m.keeper.activeRecords (.listed _)).length = 1 ∧
    m.store.getNetworkStats.totalBondedTokens.atto ≠
      ((m.keeper.activeRecords (.listed _)).map (fun r => r.tokens.atto)).sum := by
  decide +kernel

end Scenario

end IndexerEngine

end Sprax
