import Sprax.Ballots
import Mathlib.Data.List.Permutation

/-!
# Votes and tallies of one block

A vote is accepted up to the last height of the period and a tally from that
height on, so in the last block both are. Each proposal with its markers is a
small machine of its own, which votes and tallies move; the contract runs these
machines side by side. Two acts on one machine commute, unless one is a vote that
counts and the other a tally that closes.
-/
namespace Sprax.Wasm.GovernanceContract
open Std FiniteMap Effects Runs ContractStorage

/-- A vote or a tally, without the proposal it names. -/
inductive Act
  | vote (voter : Address) (option : VoteOption) (weight : UInt64)
  | tally

/-- What the calls on one proposal see of the storage. -/
structure Slot where
  proposal : Option Proposal
  marked : Address → Bool

namespace Slot

/-- The checks of a vote: they pass up to the last height of the period. -/
def Counts (height : UInt64) (p : Proposal) (marked : Address → Bool) (voter : Address)
    (weight : UInt64) : Prop :=
  weight ≠ 0 ∧ p.status = .voting ∧ height ≤ p.endHeight ∧ marked voter = false

instance decidableCounts (height : UInt64) (p : Proposal) (marked : Address → Bool)
    (voter : Address) (weight : UInt64) : Decidable (Counts height p marked voter weight) :=
  inferInstanceAs (Decidable (_ ∧ _))

/-- The checks of a tally: they pass from the last height of the period on. -/
def Closes (height : UInt64) (p : Proposal) : Prop := p.endHeight ≤ height ∧ p.status = .voting

instance decidableCloses (height : UInt64) (p : Proposal) : Decidable (Closes height p) :=
  inferInstanceAs (Decidable (_ ∧ _))

def step (config : Option GovConfig) (height : UInt64) (x : Slot) : Act → Slot
  | .vote voter option weight =>
    match x.proposal with
    | none => x
    | some p =>
      if Counts height p x.marked voter weight then
        ⟨some (addVote p weight option), Function.update x.marked voter true⟩
      else x
  | .tally =>
    match config, x.proposal with
    | some config, some p =>
      if Closes height p then
        ⟨some { p with status := tallyStatus config p }, x.marked⟩
      else x
    | _, _ => x

/-- A vote would be counted, and a tally would close the poll. -/
def Contested (config : Option GovConfig) (height : UInt64) (x : Slot) (voter : Address)
    (weight : UInt64) :
    Prop :=
  config.isSome ∧ ∃ p, x.proposal = some p ∧ Counts height p x.marked voter weight ∧ Closes height p

end Slot

@[simp] theorem status_addVote (p : Proposal) (weight : UInt64) (option : VoteOption) :
    (addVote p weight option).status = p.status := by
  cases option <;> rfl

@[simp] theorem endHeight_addVote (p : Proposal) (weight : UInt64) (option : VoteOption) :
    (addVote p weight option).endHeight = p.endHeight := by
  cases option <;> rfl

theorem addVote_comm (p : Proposal) (v w : UInt64) (o q : VoteOption) :
    addVote (addVote p v o) w q = addVote (addVote p w q) v o := by
  cases o <;> cases q <;> simp only [addVote] <;>
    rw [UInt64.add_assoc, UInt64.add_comm v, ← UInt64.add_assoc]

theorem tallyStatus_ne_voting (config : GovConfig) (p : Proposal) :
    tallyStatus config p ≠ .voting := by
  unfold tallyStatus
  split
  · decide
  · split <;> decide

namespace Slot
variable {config : Option GovConfig} {height : UInt64} {x : Slot}

theorem counts_addVote {p : Proposal} {marked : Address → Bool} {v w : Address} (hvw : w ≠ v)
    (m n : UInt64) (o : VoteOption) :
    Counts height (addVote p m o) (Function.update marked v true) w n ↔
      Counts height p marked w n := by
  simp [Counts, Function.update_of_ne hvw]

theorem closes_addVote (p : Proposal) (m : UInt64) (o : VoteOption) :
    Closes height (addVote p m o) ↔ Closes height p := by
  simp [Closes]

theorem not_closes_tallied (p : Proposal) (conf : GovConfig) :
    ¬ Closes height { p with status := tallyStatus conf p } :=
  fun h => tallyStatus_ne_voting conf p h.2

theorem not_counts_tallied (p : Proposal) (conf : GovConfig) (marked : Address → Bool)
    (voter : Address) (weight : UInt64) :
      ¬ Counts height { p with status := tallyStatus conf p } marked voter weight :=
  fun h => tallyStatus_ne_voting conf p h.2.1

/-- The two things a step can do besides nothing. -/
theorem step_cases (config : Option GovConfig) (height : UInt64) (x : Slot) (a : Act) :
    x.step config height a = x ∨
      (∃ p voter option weight, a = .vote voter option weight ∧ x.proposal = some p ∧
        Counts height p x.marked voter weight ∧
        x.step config height a =
          ⟨some (addVote p weight option), Function.update x.marked voter true⟩) ∨
      ∃ p conf, a = .tally ∧ config = some conf ∧ x.proposal = some p ∧ Closes height p ∧
        x.step config height a = ⟨some { p with status := tallyStatus conf p }, x.marked⟩ := by
  obtain ⟨proposal, marked⟩ := x
  cases a with
  | vote voter option weight =>
    cases proposal with
    | none => exact .inl rfl
    | some p =>
      by_cases hcounts : Counts height p marked voter weight
      · exact .inr (.inl ⟨p, voter, option, weight, rfl, rfl, hcounts, if_pos hcounts⟩)
      · exact .inl (if_neg hcounts)
  | tally =>
    cases proposal with
    | none => exact .inl (by cases config <;> rfl)
    | some p =>
      cases config with
      | none => exact .inl rfl
      | some conf =>
        by_cases hcloses : Closes height p
        · exact .inr (.inr ⟨p, conf, rfl, rfl, rfl, hcloses, if_pos hcloses⟩)
        · exact .inl (if_neg hcloses)

/-- No step opens a contest. -/
theorem Contested.of_step {a : Act} {voter : Address} {weight : UInt64}
    (h : (x.step config height a).Contested config height voter weight) :
    x.Contested config height voter weight := by
  rcases step_cases config height x a with heq | ⟨p, v, o, w, -, hp, -, heq⟩ |
    ⟨p, conf, -, -, -, -, heq⟩
  · rwa [heq] at h
  · rw [heq] at h
    obtain ⟨hconf, q, hq, hcounts, hcloses⟩ := h
    cases hq
    by_cases hv : voter = v
    · subst hv
      have hmarked : Function.update x.marked voter true voter = false := hcounts.2.2.2
      rw [Function.update_self] at hmarked
      cases hmarked
    · exact ⟨hconf, p, hp, (counts_addVote hv w weight o).mp hcounts,
        (closes_addVote p w o).mp hcloses⟩
  · rw [heq] at h
    obtain ⟨-, q, hq, -, hcloses⟩ := h
    cases hq
    exact absurd hcloses (not_closes_tallied p conf)

/-- A closed poll stays as it is. -/
theorem step_of_closed {p : Proposal} (hp : x.proposal = some p) (hclosed : p.status ≠ .voting)
    (a : Act) :
    x.step config height a = x := by
  rcases step_cases config height x a with heq | ⟨q, v, o, w, -, hq, hcounts, -⟩ |
    ⟨q, conf, -, -, hq, hcloses, -⟩
  · exact heq
  · cases hp.symm.trans hq
    exact absurd hcounts.2.1 hclosed
  · cases hp.symm.trans hq
    exact absurd hcloses.2 hclosed

theorem step_counted {p : Proposal} {voter : Address} {weight : UInt64} (hp : x.proposal = some p)
    (h : Counts height p x.marked voter weight) (option : VoteOption) :
    x.step config height (.vote voter option weight) =
      ⟨some (addVote p weight option), Function.update x.marked voter true⟩ := by
  simp only [step, hp, if_pos h]

theorem step_uncounted {voter : Address} {weight : UInt64}
    (h : ∀ p, x.proposal = some p → ¬ Counts height p x.marked voter weight) (option : VoteOption) :
    x.step config height (.vote voter option weight) = x := by
  cases hp : x.proposal with
  | none => simp only [step, hp]
  | some p => simp only [step, hp, if_neg (h p hp)]

theorem step_closing {p : Proposal} {conf : GovConfig} (hp : x.proposal = some p)
    (h : Closes height p) :
    x.step (some conf) height .tally =
      ⟨some { p with status := tallyStatus conf p }, x.marked⟩ := by
  simp only [step, hp, if_pos h]

theorem step_unclosed (h : ∀ conf p, config = some conf → x.proposal = some p → ¬ Closes height p) :
    x.step config height .tally = x := by
  cases hp : x.proposal with
  | none => cases config <;> simp only [step, hp]
  | some p =>
    cases config with
    | none => rfl
    | some conf => simp only [step, hp, if_neg (h conf p rfl hp)]

theorem step_vote_comm (x : Slot) {v w : Address} (hvw : v ≠ w) (o q : VoteOption) (m n : UInt64) :
    (x.step config height (.vote v o m)).step config height (.vote w q n) =
      (x.step config height (.vote w q n)).step config height (.vote v o m) := by
  obtain ⟨proposal, marked⟩ := x
  cases proposal with
  | none => rfl
  | some p =>
    by_cases hv : Counts height p marked v m <;> by_cases hw : Counts height p marked w n <;>
      simp only [step, if_pos, if_neg, hv, hw, counts_addVote hvw, counts_addVote hvw.symm,
        not_false_eq_true]
    rw [addVote_comm, Function.update_comm hvw]

/-- A vote and a tally that are not in contest commute. -/
theorem step_tally_comm {v : Address} {m : UInt64} (h : ¬ x.Contested config height v m)
    (o : VoteOption) :
    (x.step config height (.vote v o m)).step config height .tally =
      (x.step config height .tally).step config height (.vote v o m) := by
  obtain ⟨proposal, marked⟩ := x
  cases proposal with
  | none => cases config <;> rfl
  | some p =>
    cases config with
    | none =>
      by_cases hv : Counts height p marked v m <;>
      simp only [step, if_pos, if_neg, hv, not_false_eq_true]
    | some conf =>
      by_cases hv : Counts height p marked v m <;> by_cases ht : Closes height p
      · exact absurd ⟨rfl, p, rfl, hv, ht⟩ h
      all_goals
        simp only [step, if_pos, if_neg, hv, ht, closes_addVote, not_counts_tallied,
          not_false_eq_true]

end Slot

section Calls
variable (P : Primitives) (J : GovJson)

def slots (s : ContractStorage) (contract : Address) (id : UInt64) : Slot :=
  ⟨storedProposal J s contract id, fun voter => (s.getRaw contract (voterKey id voter)).isSome⟩

/-- The proposal a call is about and what it does there; a submission has none. -/
def act (c : Invocation GovExecuteMsg) : Option (UInt64 × Act) :=
  match c.msg with
  | .castVote id option weight => some (id, .vote c.info.sender option weight)
  | .tallyAndExecute id => some (id, .tally)
  | .submitProposal _ _ => none

/-- The gas of the call suffices. -/
def Funded (s : ContractStorage) (c : Invocation GovExecuteMsg) : Prop :=
  match (invoke (execute P J) s c).2 with
  | .ok _ => True
  | .error e => e.isOutOfGas = false

instance decidableFunded (s : ContractStorage) (c : Invocation GovExecuteMsg) :
    Decidable (Funded P J s c) :=
  match h : (invoke (execute P J) s c).2 with
  | .ok _ => isTrue (by rw [Funded, h]; trivial)
  | .error e => decidable_of_iff (e.isOutOfGas = false) (by rw [Funded, h])

variable {P J} {s t : ContractStorage} {g : GasMeter} {env : Env} {info : MessageInfo}

/-- A call with enough gas returns, or fails for another reason. -/
theorem Funded.ends {c : Invocation GovExecuteMsg} (h : Funded P J s c) :
    Returns (execute P J c.env c.info c.msg) ⟨s, c.gas⟩
      (fun _ w => w.storage = (invoke (execute P J) s c).1) ∨
    Raises (execute P J c.env c.info c.msg) ⟨s, c.gas⟩
      (fun e w => e.isOutOfGas = false ∧ w.storage = (invoke (execute P J) s c).1) := by
  rcases invoke_cases (execute P J) s c with ⟨r, -, hret⟩ | ⟨e, he, hraise⟩
  · exact Or.inl (hret.mono (fun _ _ hq => hq.2))
  · rw [Funded, he] at h
    exact Or.inr (hraise.mono (fun _ _ hq => ⟨hq.1 ▸ h, hq.2⟩))

/-- A vote that fails for another reason than gas has not passed its checks. -/
theorem not_voteOpen_of_raises {id weight : UInt64} {option : VoteOption}
    (h : Raises (execute P J env info (.castVote id option weight)) ⟨s, g⟩
      (fun e w => e.isOutOfGas = false ∧ w.storage = t)) :
    t = s ∧ ∀ p, ¬ VoteOpen J s env info id weight p := by
  simp only [execute, raises_bind, raises_get, returns_get, raises_okOr, returns_okOr,
    raises_unwrap, returns_unwrap, raises_set, returns_set, raises_pure, raises_ite, raises_fail,
    Abort.isOutOfGas, Bool.true_eq_false, false_and, and_false, false_or, or_false, true_and,
    not_not, Bool.not_eq_true, Option.isSome_eq_false_iff, Option.isNone_iff_eq_none, UInt64.not_lt]
    at h
  rcases h with ⟨hw, hs⟩ |
    ⟨-, -, ⟨hnone, -, hs⟩ | ⟨bytes, hbytes, ⟨hjson, hs⟩ | ⟨q, hq, ⟨hclosed, hs⟩ |
    ⟨-, ⟨hlate, hs⟩ | ⟨-, -, hmarked, hs⟩⟩⟩⟩⟩ <;>
    refine ⟨hs.symm, fun p hopen => ?_⟩
  · exact hopen.weight_ne hw
  · have hstored := hopen.stored
    rw [storedProposal, hnone] at hstored
    cases hstored
  · have hstored := hopen.stored
    rw [storedProposal, hbytes, Option.bind_some, hjson] at hstored
    cases hstored
  all_goals
    have hstored := hopen.stored
    rw [storedProposal, hbytes, Option.bind_some, hq] at hstored
    cases hstored
  · exact hclosed hopen.voting
  · exact absurd hopen.height_le (UInt64.not_le.mpr hlate)
  · rw [hopen.unmarked] at hmarked
    cases hmarked

/-- A tally that fails for another reason than gas has not passed its checks. -/
theorem not_closes_of_raises {id : UInt64}
    (h : Raises (execute P J env info (.tallyAndExecute id)) ⟨s, g⟩
      (fun e w => e.isOutOfGas = false ∧ w.storage = t)) :
    t = s ∧ ∀ config p, storedConfig J s env.contractAddress = some config →
      storedProposal J s env.contractAddress id = some p → ¬ Slot.Closes env.blockHeight p := by
  simp only [execute, raises_bind, raises_get, returns_get, raises_okOr, returns_okOr,
    raises_unwrap, returns_unwrap, raises_set, returns_set, raises_pure, raises_ite, raises_fail,
    Abort.isOutOfGas, Bool.true_eq_false, false_and, and_false, false_or, or_false, true_and,
    not_not, UInt64.not_lt] at h
  rcases h with ⟨-, ⟨hnone, hs⟩ | ⟨conf, hconf, ⟨hjson, hs⟩ | ⟨config, hconfig, -, ⟨hnone, -, hs⟩ |
    ⟨bytes, hbytes, ⟨hjson, hs⟩ | ⟨q, hq, ⟨hearly, hs⟩ | ⟨-, hclosed, hs⟩⟩⟩⟩⟩⟩ <;>
    refine ⟨hs.symm, fun config' p hconfig' hp hcloses => ?_⟩
  · rw [storedConfig, hnone] at hconfig'
    cases hconfig'
  · rw [storedConfig, hconf, Option.bind_some, hjson] at hconfig'
    cases hconfig'
  · rw [storedProposal, hnone] at hp
    cases hp
  · rw [storedProposal, hbytes, Option.bind_some, hjson] at hp
    cases hp
  all_goals
    rw [storedProposal, hbytes, Option.bind_some, hq] at hp
    cases hp
  · exact absurd hcloses.1 (UInt64.not_le.mpr hearly)
  · exact hclosed hcloses.2

variable {contract : Address}

theorem slots_tallied (id : UInt64) (p : Proposal) :
    slots J (tallied J s contract id p) contract =
      Function.update (slots J s contract) id ⟨some p, (slots J s contract id).marked⟩ := by
  funext j
  by_cases hj : j = id
  · subst hj
    simp [slots, storedProposal_tallied]
  · have hid : id ≠ j := Ne.symm hj
    simp [slots, storedProposal_tallied, hid, Function.update_of_ne hj]

theorem slots_marked (id : UInt64) (voter : Address) (value : Bytes) :
    slots J (s.setRaw contract (voterKey id voter) value) contract =
      Function.update (slots J s contract) id
        ⟨(slots J s contract id).proposal, Function.update (slots J s contract id).marked voter
          true⟩ := by
  funext j
  have hprop : storedProposal J (s.setRaw contract (voterKey id voter) value) contract j =
      storedProposal J s contract j :=
        storedProposal_setOther (proposalKey_ne_voterKey j id voter).symm
  by_cases hj : j = id
  · subst hj
    simp only [slots, hprop, Function.update_self, Slot.mk.injEq, true_and]
    funext w
    by_cases hw : w = voter
    · subst hw
      simp [getRaw_setRaw_self]
    · rw [Function.update_of_ne hw,
        getRaw_setRaw_ne _ _ (fun hk => hw (voterKey_inj.mp hk.2).2.symm)]
  · simp only [slots, hprop, Function.update_of_ne hj, Slot.mk.injEq, true_and]
    funext w
    rw [getRaw_setRaw_ne _ _ (fun hk => hj (voterKey_inj.mp hk.2).1.symm)]

theorem storedConfig_setOther {key value : Bytes} (hkey : key ≠ keyConfig) :
    storedConfig J (s.setRaw contract key value) contract = storedConfig J s contract := by
  unfold storedConfig
  rw [getRaw_setRaw_ne _ _ (fun h => hkey h.2)]

/-- The checks of a vote, read off the slot. -/
theorem voteOpen_iff {id weight : UInt64} {p : Proposal} :
    VoteOpen J s env info id weight p ↔ storedProposal J s env.contractAddress id = some p ∧
      Slot.Counts env.blockHeight p (slots J s env.contractAddress id).marked info.sender
        weight := by
  simp only [slots, Slot.Counts, Option.isSome_eq_false_iff, Option.isNone_iff_eq_none]
  constructor
  · rintro ⟨hw, hp, hv, hh, hm⟩
    exact ⟨hp, hw, hv, hh, hm⟩
  · rintro ⟨hp, hw, hv, hh, hm⟩
    exact ⟨hw, hp, hv, hh, hm⟩

theorem slots_vote {c : Invocation GovExecuteMsg} {id weight : UInt64} {option : VoteOption}
    (hmsg : c.msg = .castVote id option weight) (hfunded : Funded P J s c) :
    slots J (invoke (execute P J) s c).1 c.env.contractAddress =
        interleaved (Slot.step (storedConfig J s c.env.contractAddress) c.env.blockHeight)
          (slots J s c.env.contractAddress) (id, .vote c.info.sender option weight) ∧
      storedConfig J (invoke (execute P J) s c).1 c.env.contractAddress =
        storedConfig J s c.env.contractAddress := by
  have hends := hfunded.ends
  rw [hmsg] at hends
  generalize (invoke (execute P J) s c).1 = t at hends
  rcases hends with hret | hraise
  · obtain ⟨p, hopen, -, rfl⟩ := (returns_vote (R := fun u => u = t)).mp hret
    obtain ⟨hp, hcounts⟩ := voteOpen_iff.mp hopen
    constructor
    · rw [slots_marked, slots_tallied, interleaved, Slot.step_counted hp hcounts]
      simp only [Function.update_self, Function.update_idem]
    · rw [storedConfig_setOther (keyConfig_ne_voterKey _ _).symm, tallied,
        storedConfig_setOther (keyConfig_ne_proposalKey _).symm]
  · obtain ⟨rfl, hno⟩ := not_voteOpen_of_raises hraise
    rw [interleaved, Slot.step_uncounted
      (fun p hp hcounts => hno p (voteOpen_iff.mpr ⟨hp, hcounts⟩)), Function.update_eq_self]
    exact ⟨rfl, rfl⟩

theorem slots_tally {c : Invocation GovExecuteMsg} {id : UInt64}
    (hmsg : c.msg = .tallyAndExecute id) (hfunded : Funded P J s c) :
    slots J (invoke (execute P J) s c).1 c.env.contractAddress =
        interleaved (Slot.step (storedConfig J s c.env.contractAddress) c.env.blockHeight)
          (slots J s c.env.contractAddress) (id, .tally) ∧
      storedConfig J (invoke (execute P J) s c).1 c.env.contractAddress =
        storedConfig J s c.env.contractAddress := by
  have hends := hfunded.ends
  rw [hmsg] at hends
  generalize (invoke (execute P J) s c).1 = t at hends
  rcases hends with hret | hraise
  · obtain ⟨config, p, hconfig, hp, hcloses, rfl⟩ := returns_tally (R := fun u => u = t) hret
    constructor
    · rw [slots_tallied, interleaved, hconfig, Slot.step_closing hp hcloses]
    · rw [tallied, storedConfig_setOther (keyConfig_ne_proposalKey _).symm]
  · obtain ⟨rfl, hno⟩ := not_closes_of_raises hraise
    rw [interleaved, Slot.step_unclosed hno, Function.update_eq_self]
    exact ⟨rfl, rfl⟩

/-- A call with enough gas is one step of the slot it names. -/
theorem slots_invoke {c : Invocation GovExecuteMsg} {e : UInt64 × Act} (hact : act c = some e)
    (hfunded : Funded P J s c) :
    slots J (invoke (execute P J) s c).1 c.env.contractAddress =
        interleaved (Slot.step (storedConfig J s c.env.contractAddress) c.env.blockHeight)
          (slots J s c.env.contractAddress) e ∧
      storedConfig J (invoke (execute P J) s c).1 c.env.contractAddress =
        storedConfig J s c.env.contractAddress := by
  cases hmsg : c.msg with
  | submitProposal title description =>
    rw [act, hmsg] at hact
    cases hact
  | castVote id option weight =>
    rw [act, hmsg] at hact
    cases hact
    exact slots_vote hmsg hfunded
  | tallyAndExecute id =>
    rw [act, hmsg] at hact
    cases hact
    exact slots_tally hmsg hfunded

end Calls

section Orders
variable (P : Primitives) (J : GovJson)

/-- The storage after calls in this order. -/
def settle (s : ContractStorage) (calls : List (Invocation GovExecuteMsg)) : ContractStorage :=
  run (fun s c => (invoke (execute P J) s c).1) s calls

/-- No call of the order runs out of gas. -/
def AllFunded (s : ContractStorage) (calls : List (Invocation GovExecuteMsg)) : Prop :=
  Along (Funded P J) (fun s c => (invoke (execute P J) s c).1) s calls

/-- A voter has one ballot at most for a proposal. -/
def OneBallot (c d : Invocation GovExecuteMsg) : Prop :=
  ∀ id option weight option' weight', c.msg = .castVote id option weight →
    d.msg = .castVote id option' weight' → c.info.sender ≠ d.info.sender

/-- Every order of the calls leaves the same proposals. -/
def OrderFree (s : ContractStorage) (contract : Address) (calls : List (Invocation GovExecuteMsg)) :
    Prop :=
  ∀ order order', order.Perm calls → order'.Perm calls → AllFunded P J s order →
    AllFunded P J s order' →
    ∀ id, storedProposal J (settle P J s order) contract id =
      storedProposal J (settle P J s order') contract id

/-- Among the calls are a tally and a vote on one proposal, in the last block of
its period, that both pass their checks. -/
def Contested (s : ContractStorage) (env : Env) (calls : List (Invocation GovExecuteMsg)) : Prop :=
  (storedConfig J s env.contractAddress).isSome ∧ ∃ v ∈ calls, ∃ t ∈ calls, ∃ id option weight p,
    v.msg = .castVote id option weight ∧ t.msg = .tallyAndExecute id ∧
      VoteOpen J s env v.info id weight p ∧ p.endHeight = env.blockHeight

variable {P J} {s : ContractStorage} {env : Env} {calls : List (Invocation GovExecuteMsg)}

theorem slots_settle (hcalls : ∀ c ∈ calls, c.env = env ∧ (act c).isSome)
    (hfunded : AllFunded P J s calls) :
    slots J (settle P J s calls) env.contractAddress =
      run (interleaved (Slot.step (storedConfig J s env.contractAddress) env.blockHeight))
        (slots J s env.contractAddress) (calls.filterMap act) := by
  induction calls generalizing s with
  | nil => rfl
  | cons c rest ih =>
    obtain ⟨⟨henv, hsome⟩, hrest⟩ := List.forall_mem_cons.mp hcalls
    obtain ⟨e, he⟩ := Option.isSome_iff_exists.mp hsome
    obtain ⟨hslots, hconfig⟩ := slots_invoke he hfunded.1
    subst henv
    rw [List.filterMap_cons_some he, run_cons, ← hslots, ← hconfig]
    exact ih hrest hfunded.2

/-- Two acts on one proposal are not votes of one voter. -/
def Distinct (e f : UInt64 × Act) : Prop :=
  ∀ voter option weight option' weight', e.1 = f.1 → e.2 = .vote voter option weight →
    f.2 ≠ .vote voter option' weight'

theorem distinct_symm (e f : UInt64 × Act) (h : Distinct e f) : Distinct f e :=
  fun voter option weight option' weight' hid hf he =>
    h voter option' weight' option weight hid.symm he hf

theorem act_eq_vote {c : Invocation GovExecuteMsg} {id weight : UInt64} {voter : Address}
    {option : VoteOption} :
    act c = some (id, .vote voter option weight) ↔
      c.msg = .castVote id option weight ∧ c.info.sender = voter := by
  unfold act
  split <;> rename_i hmsg <;> simp [hmsg]
  tauto

theorem act_eq_tally {c : Invocation GovExecuteMsg} {id : UInt64} :
    act c = some (id, .tally) ↔ c.msg = .tallyAndExecute id := by
  unfold act
  split <;> rename_i hmsg <;> simp [hmsg]

theorem distinct_acts (h : calls.Pairwise OneBallot) : (calls.filterMap act).Pairwise Distinct := by
  refine h.filterMap act
    (fun c d hcd e he f hf voter option weight option' weight' hid hev hfv => ?_)
  obtain ⟨i, a⟩ := e
  obtain ⟨j, b⟩ := f
  dsimp only at hid hev hfv
  subst hid hev hfv
  obtain ⟨hc, hsender⟩ := act_eq_vote.mp he
  obtain ⟨hd, hsender'⟩ := act_eq_vote.mp hf
  exact hcd _ _ _ _ _ hc hd (hsender.trans hsender'.symm)

/-- Acts on one slot commute unless a vote and a tally are in contest. -/
theorem Slot.step_comm {config : Option GovConfig} {height : UInt64} {x : Slot} {a b : Act}
    (hvotes : ∀ voter option weight option' weight', a = .vote voter option weight →
      b ≠ .vote voter option' weight')
    (hcontest : ∀ voter option weight, (a = .vote voter option weight ∧ b = .tally ∨
      a = .tally ∧ b = .vote voter option weight) → ¬ x.Contested config height voter weight) :
    (x.step config height a).step config height b =
    (x.step config height b).step config height a := by
  cases a with
  | vote v o m =>
    cases b with
    | vote w q n =>
      refine Slot.step_vote_comm x (fun hvw => ?_) o q m n
      subst hvw
      exact hvotes _ _ _ _ _ rfl rfl
    | tally => exact Slot.step_tally_comm (hcontest v o m (.inl ⟨rfl, rfl⟩)) o
  | tally =>
    cases b with
    | vote w q n => exact (Slot.step_tally_comm (hcontest w q n (.inr ⟨rfl, rfl⟩)) q).symm
    | tally => rfl

/-- No vote and tally of the block are in contest. -/
def Calm (config : Option GovConfig) (height : UInt64) (acts : List (UInt64 × Act)) (w : UInt64 →
    Slot) : Prop :=
  ∀ id voter option weight, (id, Act.vote voter option weight) ∈ acts → (id, Act.tally) ∈ acts →
    ¬ (w id).Contested config height voter weight

theorem Calm.interleaved {config : Option GovConfig} {height : UInt64} {acts : List (UInt64 × Act)}
    {w : UInt64 → Slot} (h : Calm config height acts w) (e : UInt64 × Act) :
    Calm config height acts (interleaved (Slot.step config height) w e) := by
  intro id voter option weight hv ht
  refine interleaved_of (Q := fun (id : UInt64) (x : Slot) =>
    (id, Act.vote voter option weight) ∈ acts →
    (id, Act.tally) ∈ acts → ¬ x.Contested config height voter weight) ?_ ?_ id hv ht
  · exact fun hv ht hcontest => h _ _ _ _ hv ht hcontest.of_step
  · exact fun j _ hv ht => h _ _ _ _ hv ht

theorem run_acts_perm {config : Option GovConfig} {height : UInt64}
    {acts acts' : List (UInt64 × Act)} {w : UInt64 → Slot} (hperm : acts.Perm acts')
    (hdistinct : acts.Pairwise Distinct) (hcalm : Calm config height acts w) :
    run (Runs.interleaved (Slot.step config height)) w acts =
      run (Runs.interleaved (Slot.step config height)) w acts' := by
  refine run_perm_of_invariant (I := Calm config height acts) (Q := fun e => e ∈ acts) distinct_symm
    (fun w e _ h => h.interleaved e) ?_ hperm (fun e he => he) hdistinct hcalm
  intro w e f he hf hef hcalm
  refine interleaved_comm (fun hid => Slot.step_comm ?_ ?_)
  · exact fun voter option weight option' weight' => hef voter option weight option' weight' hid
  · obtain ⟨i, a⟩ := e
    obtain ⟨j, b⟩ := f
    dsimp only at hid ⊢
    subst hid
    rintro voter option weight (⟨rfl, rfl⟩ | ⟨rfl, rfl⟩)
    · exact hcalm _ _ _ _ he hf
    · exact hcalm _ _ _ _ hf he

theorem calm_of_not_contested (h : ¬ Contested J s env calls) :
    Calm (storedConfig J s env.contractAddress) env.blockHeight (calls.filterMap act)
      (slots J s env.contractAddress) := by
  rintro id voter option weight hv ht ⟨hconfig, p, hp, hcounts, hcloses⟩
  obtain ⟨v, hvmem, hvact⟩ := List.mem_filterMap.mp hv
  obtain ⟨t, htmem, htact⟩ := List.mem_filterMap.mp ht
  obtain ⟨hvmsg, rfl⟩ := act_eq_vote.mp hvact
  exact h ⟨hconfig, v, hvmem, t, htmem, id, option, weight, p, hvmsg, act_eq_tally.mp htact,
    voteOpen_iff.mpr ⟨hp, hcounts⟩, le_antisymm hcloses.1 hcounts.2.2.1⟩

theorem orderFree_of_not_contested (hcalls : ∀ c ∈ calls, c.env = env ∧ (act c).isSome)
    (honce : calls.Pairwise OneBallot) (h : ¬ Contested J s env calls) :
    OrderFree P J s env.contractAddress calls := by
  intro order order' hperm hperm' hfunded hfunded' id
  have hslots : slots J (settle P J s order) env.contractAddress =
      slots J (settle P J s order') env.contractAddress := by
    rw [slots_settle (fun c hc => hcalls c (hperm.mem_iff.mp hc)) hfunded,
      slots_settle (fun c hc => hcalls c (hperm'.mem_iff.mp hc)) hfunded']
    have hcalm := calm_of_not_contested h
    have hdistinct := distinct_acts honce
    exact (run_acts_perm (hperm.filterMap act).symm hdistinct hcalm).symm.trans
      (run_acts_perm (hperm'.filterMap act).symm hdistinct hcalm)
  exact congrArg (fun w => (w id).proposal) hslots

/-- Once a poll is closed, the rest of the block does not change it. -/
theorem run_acts_closed {config : Option GovConfig} {height : UInt64} {w : UInt64 → Slot}
    {id : UInt64} {p : Proposal} (hp : (w id).proposal = some p) (hclosed : p.status ≠ .voting)
    (acts : List (UInt64 × Act)) :
    (run (Runs.interleaved (Slot.step config height)) w acts id).proposal = some p := by
  refine run_invariant (I := fun w => (w id).proposal = some p) (fun w e h => ?_) w acts hp
  refine interleaved_of (Q := fun j (x : Slot) => j = id → x.proposal = some p) ?_ ?_ id rfl
  · rintro rfl
    rwa [Slot.step_of_closed h hclosed]
  · rintro j - rfl
    exact h

/-- The vote is counted if it comes first and lost if the tally does. -/
theorem contested_outcomes (config : GovConfig) (option : VoteOption) {height : UInt64}
    {w : UInt64 → Slot} {id weight : UInt64} {voter : Address} {p : Proposal}
    (hp : (w id).proposal = some p) (hcounts : Slot.Counts height p (w id).marked voter weight)
    (hcloses : Slot.Closes height p) (acts : List (UInt64 × Act)) :
    ∃ q q', (run (Runs.interleaved (Slot.step (some config) height)) w
        ((id, .vote voter option weight) :: (id, .tally) :: acts) id).proposal = some q ∧
      (run (Runs.interleaved (Slot.step (some config) height)) w
        ((id, .tally) :: (id, .vote voter option weight) :: acts) id).proposal = some q' ∧
      q.votes option = p.votes option + weight ∧ q'.votes option = p.votes option := by
  refine ⟨{ addVote p weight option with status := tallyStatus config (addVote p weight option) },
    { p with status := tallyStatus config p }, ?_, ?_, ?_, ?_⟩
  · refine run_acts_closed ?_ (tallyStatus_ne_voting _ _) acts
    simp only [Runs.interleaved, Function.update_self]
    rw [Slot.step_counted hp hcounts,
      Slot.step_closing rfl ((Slot.closes_addVote _ _ _).mpr hcloses)]
  · refine run_acts_closed ?_ (tallyStatus_ne_voting config p) acts
    simp only [Runs.interleaved, Function.update_self]
    rw [Slot.step_closing hp hcloses, Slot.step_of_closed rfl (tallyStatus_ne_voting config p)]
  · rw [votes_status, votes_addVote, if_pos rfl]
  · rw [votes_status]

theorem not_orderFree_of_contested (hcalls : ∀ c ∈ calls, c.env = env ∧ (act c).isSome)
    (hfunded : ∀ order, order.Perm calls → AllFunded P J s order) (h : Contested J s env calls) :
    ¬ OrderFree P J s env.contractAddress calls := by
  intro hfree
  obtain ⟨hconfig, v, hv, t, ht, id, option, weight, p, hvmsg, htmsg, hopen, hend⟩ := h
  obtain ⟨config, hconfig⟩ := Option.isSome_iff_exists.mp hconfig
  obtain ⟨hp, hcounts⟩ := voteOpen_iff.mp hopen
  have hne : t ≠ v := by
    rintro rfl
    cases hvmsg.symm.trans htmsg
  -- the vote first, then the tally, or the other way round
  have hperm : (v :: t :: (calls.erase v).erase t).Perm calls :=
    ((List.perm_cons_erase ((List.mem_erase_of_ne hne).mpr ht)).symm.cons v).trans
      (List.perm_cons_erase hv).symm
  have hperm' : (t :: v :: (calls.erase v).erase t).Perm calls := (List.Perm.swap v t _).trans hperm
  have hslots := fun order (ho : order.Perm calls) =>
    slots_settle (fun c hc => hcalls c (ho.mem_iff.mp hc)) (hfunded order ho)
  obtain ⟨q, q', hq, hq', hvotes, hvotes'⟩ := contested_outcomes config option hp hcounts
    ⟨le_of_eq hend, hopen.voting⟩ (((calls.erase v).erase t).filterMap act)
  have hvact := act_eq_vote.mpr ⟨hvmsg, rfl⟩
  have htact := act_eq_tally.mpr htmsg
  have hsame := hfree _ _ hperm hperm' (hfunded _ hperm) (hfunded _ hperm') id
  have hleft := congrFun (hslots _ hperm) id
  have hright := congrFun (hslots _ hperm') id
  rw [List.filterMap_cons_some hvact, List.filterMap_cons_some htact, hconfig] at hleft
  rw [List.filterMap_cons_some htact, List.filterMap_cons_some hvact, hconfig] at hright
  rw [← hleft] at hq
  rw [← hright] at hq'
  have hqq : q = q' := Option.some.inj (hq.symm.trans (hsame.trans hq'))
  rw [hqq, hvotes'] at hvotes
  exact hopen.weight_ne (by simpa using hvotes.symm)

theorem act_isSome {c : Invocation GovExecuteMsg}
    (h : ∀ title description, c.msg ≠ .submitProposal title description) : (act c).isSome := by
  unfold act
  split <;> rename_i hmsg
  · rfl
  · rfl
  · exact absurd hmsg (h _ _)

/-- The proposals that the votes and tallies of a block leave do not depend on
their order exactly if no vote and tally contend for a proposal in the last block
of its period. -/
theorem orderFree_iff_not_contested
    (hcalls : ∀ c ∈ calls, c.env = env ∧
      ∀ title description, c.msg ≠ .submitProposal title description)
    (honce : calls.Pairwise OneBallot) :
    (¬ Contested J s env calls → OrderFree P J s env.contractAddress calls) ∧
    ((∀ order, order.Perm calls → AllFunded P J s order) →
      (OrderFree P J s env.contractAddress calls ↔ ¬ Contested J s env calls)) := by
  have hacts : ∀ c ∈ calls, c.env = env ∧ (act c).isSome :=
    fun c hc => ⟨(hcalls c hc).1, act_isSome (hcalls c hc).2⟩
  refine ⟨orderFree_of_not_contested hacts honce, fun hfunded => ⟨fun hfree hcontested => ?_, ?_⟩⟩
  · exact not_orderFree_of_contested hacts hfunded hcontested hfree
  · exact orderFree_of_not_contested hacts honce

end Orders

section Development
open Devnet

/-- A proposal whose period ends at height 11. -/
def devPoll : ContractStorage :=
  settle primitives devJson devInstantiate.1 [devCall 1 100000 (.submitProposal "a" "b")]

def lastEnv : Env := ⟨11, Address.zero⟩

def lastCall (sender : UInt8) (msg : GovExecuteMsg) : Invocation GovExecuteMsg :=
  ⟨lastEnv, ⟨addressOf sender, Amount.zero⟩, .new u64Max, msg⟩

/-- A vote that decides the poll, and a tally. -/
def lastCalls : List (Invocation GovExecuteMsg) :=
  [lastCall 1 (.castVote 1 .yes 9), lastCall 2 (.tallyAndExecute 1)]

theorem lastCalls_calls : ∀ c ∈ lastCalls,
    c.env = lastEnv ∧ ∀ title description, c.msg ≠ .submitProposal title description := by
  simp [lastCalls, lastCall]

theorem lastCalls_once : lastCalls.Pairwise OneBallot := by
  simp [lastCalls, lastCall, OneBallot]

theorem lastCalls_funded (order : List (Invocation GovExecuteMsg)) (h : order.Perm lastCalls) :
    AllFunded primitives devJson devPoll order := by
  have hall : ∀ order ∈ lastCalls.permutations', AllFunded primitives devJson devPoll order := by
    unfold AllFunded
    decide +kernel
  exact hall order (List.mem_permutations'.mpr h)

theorem orderFree_iff_not_contested_last :
    OrderFree primitives devJson devPoll lastEnv.contractAddress lastCalls ↔
      ¬ Contested devJson devPoll lastEnv lastCalls :=
  (orderFree_iff_not_contested lastCalls_calls lastCalls_once).2 lastCalls_funded

/-- In the last block the proposal passes if the vote comes first and is rejected
without a vote if the tally does. -/
theorem last_block_order :
    lastCalls.Pairwise OneBallot ∧ lastCalls.reverse.Perm lastCalls ∧
    AllFunded primitives devJson devPoll lastCalls ∧
      AllFunded primitives devJson devPoll lastCalls.reverse ∧
    (storedProposal devJson (settle primitives devJson devPoll lastCalls) lastEnv.contractAddress
      1).map (fun p => (p.status, p.votes .yes)) = some (.passed, 9) ∧
    (storedProposal devJson (settle primitives devJson devPoll lastCalls.reverse)
      lastEnv.contractAddress 1).map (fun p => (p.status, p.votes .yes)) = some (.rejected, 0) := by
  have hperm : lastCalls.reverse.Perm lastCalls := List.reverse_perm lastCalls
  refine ⟨lastCalls_once, hperm, lastCalls_funded _ (List.Perm.refl _), lastCalls_funded _ hperm,
    ?_, ?_⟩ <;>
    decide +kernel

end Development

end Sprax.Wasm.GovernanceContract
