import Sprax.Governance
import Sprax.Runs
import Sprax.Devnet

/-!
# Counted ballots of the governance contract

The run of the contract is kept together with the ballots that returned `Ok`. As
long as no vote is cut between its two writes, no tally overflows and no counted
proposal is overwritten, every tally is the exact sum of its ballots and nobody
has two on one proposal. The first step that breaks one of the three conditions
breaks the tallies too.
-/
namespace Sprax.Wasm.GovernanceContract
open Std FiniteMap Effects Runs ContractStorage

structure Ballot where
  proposalId : UInt64
  voter : Address
  option : VoteOption
  weight : UInt64
  deriving DecidableEq

/-- The weight cast for one option of a proposal, as an exact integer. -/
def votesFor (ballots : List Ballot) (id : UInt64) (option : VoteOption) : ℕ :=
  ((ballots.filter (fun b => b.proposalId = id ∧ b.option = option)).map
    (fun b => b.weight.toNat)).sum

/-- The ballots of one voter on a proposal. -/
def ballotsOf (ballots : List Ballot) (id : UInt64) (voter : Address) : List Ballot :=
  ballots.filter (fun b => b.proposalId = id ∧ b.voter = voter)

variable (P : Primitives) (J : GovJson)

/-- The ballot of a call, if it is a vote that returns `Ok`. -/
def cast (s : ContractStorage) (c : Invocation GovExecuteMsg) : List Ballot :=
  match c.msg with
  | .castVote id option weight =>
    if (invoke (execute P J) s c).2.isOk then [⟨id, c.info.sender, option, weight⟩] else []
  | .submitProposal _ _ => []
  | .tallyAndExecute _ => []

/-- One call, with the ballots so far. -/
def step (x : ContractStorage × List Ballot) (c : Invocation GovExecuteMsg) :
    ContractStorage × List Ballot :=
  ((invoke (execute P J) x.1 c).1, x.2 ++ cast P J x.1 c)

/-- Every tally is the sum of the ballots, and nobody has two on one proposal. -/
def Counted (contract : Address) (x : ContractStorage × List Ballot) : Prop :=
  ∀ id p, storedProposal J x.1 contract id = some p →
    (∀ option, (p.votes option).toNat = votesFor x.2 id option) ∧
    ∀ voter, (ballotsOf x.2 id voter).length ≤ 1

/-- The conditions on one call: a submission that goes through does not replace a
proposal with votes, and a vote that reaches the tally reaches the marker too and
does not overflow. -/
def Fair (s : ContractStorage) (c : Invocation GovExecuteMsg) : Prop :=
  match c.msg with
  | .submitProposal title description =>
    ∀ config, storedConfig J s c.env.contractAddress = some config →
      c.gas.Affords (submitGas J s c.env.contractAddress config
        (newProposal c.env c.info config title description)) →
      ∀ p, storedProposal J s c.env.contractAddress (config.proposalCount + 1) = some p →
        ∀ option, p.votes option = 0
  | .castVote id option weight =>
    ∀ p, VoteOpen J s c.env c.info id weight p →
      c.gas.Affords (tallyGas J s c.env c.info id (addVote p weight option)) →
      c.gas.Affords (ballotGas J s c.env c.info id (addVote p weight option)) ∧
        (p.votes option).toNat + weight.toNat < 2 ^ 64
  | .tallyAndExecute _ => True

theorem forall_votes (p : Proposal) (v : UInt64) :
    (∀ option, p.votes option = v) ↔ p.yesVotes = v ∧ p.noVotes = v ∧ p.abstainVotes = v := by
  constructor
  · intro h
    exact ⟨h .yes, h .no, h .abstain⟩
  · rintro ⟨hy, hn, ha⟩ option
    cases option <;> assumption

instance decidableFair (s : ContractStorage) : ∀ c, Decidable (Fair J s c)
  | ⟨env, info, gas, .submitProposal title description⟩ =>
    decidable_of_iff ((storedConfig J s env.contractAddress).all (fun config =>
      ¬ gas.Affords (submitGas J s env.contractAddress config
        (newProposal env info config title description)) ∨
      (storedProposal J s env.contractAddress (config.proposalCount + 1)).all (fun p =>
        p.yesVotes = 0 ∧ p.noVotes = 0 ∧ p.abstainVotes = 0)) = true)
      (by simp only [Fair, forall_votes, Option.all_eq_true, decide_eq_true_eq, ← imp_iff_not_or])
  | ⟨env, info, gas, .castVote id option weight⟩ =>
    decidable_of_iff (∀ p ∈ storedProposal J s env.contractAddress id,
      weight ≠ 0 ∧ p.status = .voting ∧ env.blockHeight ≤ p.endHeight ∧
        s.getRaw env.contractAddress (voterKey id info.sender) = none →
      gas.Affords (tallyGas J s env info id (addVote p weight option)) →
      gas.Affords (ballotGas J s env info id (addVote p weight option)) ∧
        (p.votes option).toNat + weight.toNat < 2 ^ 64)
      ⟨fun h p hopen => h p hopen.stored ⟨hopen.weight_ne, hopen.voting, hopen.height_le,
        hopen.unmarked⟩, fun h p hp ⟨hw, hv, hh, hm⟩ => h p ⟨hw, hp, hv, hh, hm⟩⟩
  | ⟨_, _, _, .tallyAndExecute _⟩ => isTrue trivial

/-- Markers and proposals as the ballots say. -/
structure Recorded (contract : Address) (x : ContractStorage × List Ballot) : Prop where
  counted : Counted J contract x
  marked : ∀ id voter, x.1.getRaw contract (voterKey id voter) = none ↔ ballotsOf x.2 id voter = []
  stored : ∀ b ∈ x.2, (storedProposal J x.1 contract b.proposalId).isSome

variable {P J} {s : ContractStorage} {contract : Address} {ballots : List Ballot}

theorem storedProposal_setOther {key value : Bytes} {id : UInt64} (hkey : key ≠ proposalKey id) :
    storedProposal J (s.setRaw contract key value) contract id =
      storedProposal J s contract id := by
  unfold storedProposal
  rw [getRaw_setRaw_ne _ _ (fun h => hkey h.2)]

theorem storedProposal_tallied (id j : UInt64) (p : Proposal) :
    storedProposal J (tallied J s contract id p) contract j =
      if id = j then some p else storedProposal J s contract j := by
  by_cases h : id = j
  · subst h
    simp [storedProposal, tallied, getRaw_setRaw_self, J.proposal.fromSlice_toVec, Except.toOption]
  · rw [if_neg h, tallied, storedProposal_setOther (fun hk => h (proposalKey_injective hk))]

@[simp] theorem storedProposal_counted (config : GovConfig) (id : UInt64) :
    storedProposal J (GovernanceContract.counted J s contract config) contract id =
      storedProposal J s contract id :=
  storedProposal_setOther (keyConfig_ne_proposalKey id)

@[simp] theorem marker_tallied (id j : UInt64) (p : Proposal) (voter : Address) :
    (tallied J s contract id p).getRaw contract (voterKey j voter) =
      s.getRaw contract (voterKey j voter) :=
  getRaw_setRaw_ne _ _ (fun h => proposalKey_ne_voterKey id j voter h.2)

@[simp] theorem marker_counted (config : GovConfig) (j : UInt64) (voter : Address) :
    (GovernanceContract.counted J s contract config).getRaw contract (voterKey j voter) =
      s.getRaw contract (voterKey j voter) :=
  getRaw_setRaw_ne _ _ (fun h => keyConfig_ne_voterKey j voter h.2)

/-- Writing another proposal than the stored one changes the storage. -/
theorem tallied_ne {id : UInt64} {p p' : Proposal} (hp : storedProposal J s contract id = some p)
    (hne : p' ≠ p) : tallied J s contract id p' ≠ s := by
  intro h
  have hp' : storedProposal J (tallied J s contract id p') contract id = some p' :=
    (storedProposal_tallied id id p').trans (if_pos rfl)
  rw [h, hp] at hp'
  exact hne (Option.some.inj hp').symm

@[simp] theorem votesFor_append (xs ys : List Ballot) (id : UInt64) (option : VoteOption) :
    votesFor (xs ++ ys) id option = votesFor xs id option + votesFor ys id option := by
  simp [votesFor]

@[simp] theorem ballotsOf_append (xs ys : List Ballot) (id : UInt64) (voter : Address) :
    ballotsOf (xs ++ ys) id voter = ballotsOf xs id voter ++ ballotsOf ys id voter := by
  simp [ballotsOf]

theorem votesFor_eq_zero {id : UInt64} (h : ∀ b ∈ ballots, b.proposalId ≠ id)
    (option : VoteOption) :
    votesFor ballots id option = 0 := by
  have hnil : ballots.filter (fun b => b.proposalId = id ∧ b.option = option) = [] := by
    simpa using fun b hb hid => absurd hid (h b hb)
  rw [votesFor, hnil, List.map_nil, List.sum_nil]

theorem ballotsOf_eq_nil {id : UInt64} (h : ∀ b ∈ ballots, b.proposalId ≠ id) (voter : Address) :
    ballotsOf ballots id voter = [] := by
  simpa [ballotsOf] using fun b hb hid => absurd hid (h b hb)

theorem votes_addVote (p : Proposal) (weight : UInt64) (option o : VoteOption) :
    (addVote p weight option).votes o = if option = o then p.votes o + weight else p.votes o := by
  cases option <;> cases o <;> rfl

@[simp] theorem votes_status (p : Proposal) (status : ProposalStatus) (o : VoteOption) :
    Proposal.votes { p with status := status } o = p.votes o := by
  cases o <;> rfl

theorem addVote_ne {p : Proposal} {weight : UInt64} (hw : weight ≠ 0) (option : VoteOption) :
    addVote p weight option ≠ p := by
  intro h
  have hvotes := congrArg (fun q => Proposal.votes q option) h
  simp only [votes_addVote, if_true] at hvotes
  exact hw (by simpa using hvotes)

/-- The ballots and the markers stay, and so do the proposals. -/
theorem Recorded.frame {t : ContractStorage} (h : Recorded J contract (s, ballots))
    (hprop : ∀ id, storedProposal J t contract id = storedProposal J s contract id)
    (hmark : ∀ id voter, t.getRaw contract (voterKey id voter) =
      s.getRaw contract (voterKey id voter)) :
    Recorded J contract (t, ballots) where
  counted id p hp := h.counted id p ((hprop id).symm.trans hp)
  marked id voter := (hmark id voter).symm ▸ h.marked id voter
  stored b hb := (hprop b.proposalId).symm ▸ h.stored b hb

/-- A proposal is written whose tally is right. -/
theorem Recorded.tallied {id : UInt64} {p : Proposal} (h : Recorded J contract (s, ballots))
    (hvotes : ∀ option, (p.votes option).toNat = votesFor ballots id option)
    (honce : ∀ voter, (ballotsOf ballots id voter).length ≤ 1) :
    Recorded J contract (GovernanceContract.tallied J s contract id p, ballots) where
  counted j q hq := by
    rw [storedProposal_tallied] at hq
    split at hq
    · rename_i hj
      subst hj
      cases hq
      exact ⟨hvotes, honce⟩
    · exact h.counted j q hq
  marked j voter := by
    rw [marker_tallied]
    exact h.marked j voter
  stored b hb := by
    rw [storedProposal_tallied]
    split
    · rfl
    · exact h.stored b hb

/-- A proposal that is not stored has no ballots. -/
theorem Recorded.no_ballots {id : UInt64} (h : Recorded J contract (s, ballots))
    (hnone : storedProposal J s contract id = none) : ∀ b ∈ ballots, b.proposalId ≠ id := by
  rintro b hb rfl
  have hsome := h.stored b hb
  rw [hnone] at hsome
  cases hsome

/-- A submission over nothing, or over a proposal without votes. -/
theorem Recorded.submitted {id : UInt64} {p : Proposal} (h : Recorded J contract (s, ballots))
    (hzero : ∀ option, p.votes option = 0)
    (hfair : ∀ q, storedProposal J s contract id = some q → ∀ option, q.votes option = 0) :
    Recorded J contract (GovernanceContract.tallied J s contract id p, ballots) := by
  cases hq : storedProposal J s contract id with
  | none =>
    have hno := h.no_ballots hq
    refine h.tallied (fun option => ?_) (fun voter => ?_)
    · rw [hzero, votesFor_eq_zero hno option]
      rfl
    · rw [ballotsOf_eq_nil hno voter]
      exact Nat.zero_le 1
  | some q =>
    obtain ⟨hvotes, honce⟩ := h.counted id q hq
    refine h.tallied (fun option => ?_) honce
    rw [hzero, ← hvotes option, hfair q hq option]

theorem step_submit {c : Invocation GovExecuteMsg} {title description : String}
    (hmsg : c.msg = .submitProposal title description)
    (h : Recorded J c.env.contractAddress (s, ballots)) :
    (Fair J s c → Recorded J c.env.contractAddress (step P J (s, ballots) c)) ∧
    (Counted J c.env.contractAddress (step P J (s, ballots) c) → Fair J s c) := by
  have hstep : step P J (s, ballots) c = ((invoke (execute P J) s c).1, ballots) := by
    simp [step, cast, hmsg]
  rw [hstep]
  simp only [Fair, hmsg]
  rcases invoke_cases (execute P J) s c with ⟨r, -, hret⟩ | ⟨e, -, hraise⟩
  · generalize (invoke (execute P J) s c).1 = t at hret
    rw [hmsg] at hret
    obtain ⟨config, hconfig, haff, rfl⟩ :=
      (returns_submit (R := fun u => u = t)).mp (hret.mono (fun _ _ hq => hq.2))
    have hcounted : Recorded J c.env.contractAddress
        (counted J s c.env.contractAddress config, ballots) :=
      h.frame (storedProposal_counted config) (marker_counted config)
    constructor
    · intro hfair
      refine hcounted.submitted (fun option => by cases option <;> rfl) (fun q hq => ?_)
      rw [storedProposal_counted] at hq
      exact hfair config hconfig haff q hq
    · intro hcount config' hconfig' _ p hp option
      cases hconfig.symm.trans hconfig'
      have hnew := (hcount _ _ ((storedProposal_tallied _ _ _).trans (if_pos rfl))).1 option
      have hold := (h.counted _ p hp).1 option
      rw [← hnew] at hold
      have hzero : (newProposal c.env c.info config title description).votes option = 0 := by
        cases option <;> rfl
      rw [hzero] at hold
      exact UInt64.toNat_inj.mp hold
  · generalize (invoke (execute P J) s c).1 = t at hraise
    rw [hmsg] at hraise
    -- a failing submission has no proposal written, so there is nothing to check
    have hfair : ∀ config, storedConfig J s c.env.contractAddress = some config →
        c.gas.Affords (submitGas J s c.env.contractAddress config
          (newProposal c.env c.info config title description)) → False := by
      intro config hconfig haff
      have hret := (returns_submit (P := P) (R := fun _ => True)).mpr
        ⟨config, hconfig, haff, trivial⟩
      exact hret.not_raises hraise
    refine ⟨fun _ => ?_, fun _ config hconfig haff => (hfair config hconfig haff).elim⟩
    by_cases hs : t = s
    · exact hs ▸ h
    · obtain ⟨config, -, -, -, -, rfl⟩ := (raises_submit (R := fun u => u = t)).mp
        (hraise.mono (fun _ _ hq => ⟨hq.2 ▸ hs, hq.2⟩))
      exact h.frame (storedProposal_counted config) (marker_counted config)

/-- The tally of the proposal and the ballots on it after a vote that was open. -/
theorem Recorded.counted_vote {env : Env} {info : MessageInfo} {id weight : UInt64}
    {option : VoteOption} {p : Proposal} (h : Recorded J env.contractAddress (s, ballots))
    (hopen : VoteOpen J s env info id weight p)
    (hsum : (p.votes option).toNat + weight.toNat < 2 ^ 64) :
    (∀ o, ((addVote p weight option).votes o).toNat =
      votesFor (ballots ++ [⟨id, info.sender, option, weight⟩]) id o) ∧
    ∀ voter, (ballotsOf (ballots ++ [⟨id, info.sender, option, weight⟩]) id voter).length ≤ 1 := by
  obtain ⟨hvotes, honce⟩ := h.counted id p hopen.stored
  refine ⟨fun o => ?_, fun voter => ?_⟩
  · rw [votes_addVote, votesFor_append, ← hvotes o]
    by_cases ho : option = o
    · subst ho
      simp only [if_true, UInt64.toNat_add, Nat.mod_eq_of_lt hsum]
      simp [votesFor]
    · simp [votesFor, ho]
  · rw [ballotsOf_append, List.length_append]
    by_cases hv : info.sender = voter
    · subst hv
      rw [(h.marked id info.sender).mp hopen.unmarked]
      simp [ballotsOf]
    · simpa [ballotsOf, hv] using honce voter

/-- A vote with its marker: the tally, the marker and the ballot move together. -/
theorem Recorded.voted {env : Env} {info : MessageInfo} {id weight : UInt64} {option : VoteOption}
    {p : Proposal} (h : Recorded J env.contractAddress (s, ballots))
    (hopen : VoteOpen J s env info id weight p)
    (hsum : (p.votes option).toNat + weight.toNat < 2 ^ 64) :
    Recorded J env.contractAddress
      ((GovernanceContract.tallied J s env.contractAddress id (addVote p weight option)).setRaw
        env.contractAddress (voterKey id info.sender) [1],
          ballots ++ [⟨id, info.sender, option, weight⟩]) where
  counted j q hq := by
    rw [storedProposal_setOther (proposalKey_ne_voterKey j id info.sender).symm,
      storedProposal_tallied] at hq
    by_cases hj : id = j
    · subst hj
      rw [if_pos rfl] at hq
      cases hq
      exact h.counted_vote hopen hsum
    · rw [if_neg hj] at hq
      obtain ⟨hvotes, honce⟩ := h.counted j q hq
      exact ⟨fun o => by simpa [votesFor, hj] using hvotes o, fun voter => by
        simpa [ballotsOf, hj] using honce voter⟩
  marked j voter := by
    by_cases hkey : voterKey id info.sender = voterKey j voter
    · obtain ⟨rfl, rfl⟩ := voterKey_inj.mp hkey
      simp [getRaw_setRaw_self, ballotsOf]
    · have hne : ¬ (id = j ∧ info.sender = voter) := fun hk => hkey (voterKey_inj.mpr hk)
      rw [getRaw_setRaw_ne _ _ (fun hk => hkey hk.2), marker_tallied, h.marked j voter]
      simp [ballotsOf, hne]
  stored b hb := by
    rw [storedProposal_setOther (proposalKey_ne_voterKey b.proposalId id info.sender).symm,
      storedProposal_tallied]
    split
    · rfl
    · rename_i hid
      rcases List.mem_append.mp hb with hb | hb
      · exact h.stored b hb
      · rw [List.mem_singleton] at hb
        subst hb
        exact absurd rfl hid

/-- A tally that is right after a vote has not overflowed. -/
theorem votes_fit {env : Env} {info : MessageInfo} {id weight : UInt64} {option : VoteOption}
    {p : Proposal} (h : Counted J env.contractAddress (s, ballots))
    (hopen : VoteOpen J s env info id weight p)
    (hcount : Counted J env.contractAddress
      ((GovernanceContract.tallied J s env.contractAddress id (addVote p weight option)).setRaw
        env.contractAddress (voterKey id info.sender) [1],
          ballots ++ [⟨id, info.sender, option, weight⟩])) :
    (p.votes option).toNat + weight.toNat < 2 ^ 64 := by
  have hsome : storedProposal J ((GovernanceContract.tallied J s env.contractAddress id
      (addVote p weight option)).setRaw env.contractAddress (voterKey id info.sender) [1])
      env.contractAddress id = some (addVote p weight option) := by
    rw [storedProposal_setOther (proposalKey_ne_voterKey id id info.sender).symm,
      storedProposal_tallied, if_pos rfl]
  have hnew := (hcount id _ hsome).1 option
  have hold := (h id p hopen.stored).1 option
  rw [votes_addVote, if_pos rfl, votesFor_append, ← hold] at hnew
  have hlt := (p.votes option + weight).toNat_lt
  rw [hnew] at hlt
  simpa [votesFor] using hlt

/-- A tally that is written without its ballot is wrong. -/
theorem not_counted_tallied {env : Env} {info : MessageInfo} {id weight : UInt64}
    {option : VoteOption} {p : Proposal} (h : Counted J env.contractAddress (s, ballots))
    (hopen : VoteOpen J s env info id weight p) :
    ¬ Counted J env.contractAddress
      (GovernanceContract.tallied J s env.contractAddress id (addVote p weight option),
        ballots) := by
  intro hc
  have hnew := (hc id _ ((storedProposal_tallied _ _ _).trans (if_pos rfl))).1 option
  have hold := (h id p hopen.stored).1 option
  rw [← hold, votes_addVote, if_pos rfl] at hnew
  exact hopen.weight_ne (by simpa using UInt64.toNat_inj.mp hnew)

theorem step_vote {c : Invocation GovExecuteMsg} {id weight : UInt64} {option : VoteOption}
    (hmsg : c.msg = .castVote id option weight)
    (h : Recorded J c.env.contractAddress (s, ballots)) :
    (Fair J s c → Recorded J c.env.contractAddress (step P J (s, ballots) c)) ∧
    (Counted J c.env.contractAddress (step P J (s, ballots) c) → Fair J s c) := by
  simp only [Fair, hmsg]
  rcases invoke_cases (execute P J) s c with ⟨r, hr, hret⟩ | ⟨e, he, hraise⟩
  · have hstep : step P J (s, ballots) c =
        ((invoke (execute P J) s c).1, ballots ++ [⟨id, c.info.sender, option, weight⟩]) := by
      simp [step, cast, hmsg, hr, Except.isOk, Except.toBool]
    rw [hstep]
    generalize (invoke (execute P J) s c).1 = t at hret
    rw [hmsg] at hret
    obtain ⟨p, hopen, haff, rfl⟩ :=
      (returns_vote (R := fun u => u = t)).mp (hret.mono (fun _ _ hq => hq.2))
    constructor
    · intro hfair
      exact h.voted hopen (hfair p hopen (haff.mono (Nat.le_add_right _ _))).2
    · intro hcount p' hopen' _
      cases hopen.stored.symm.trans hopen'.stored
      exact ⟨haff, votes_fit h.counted hopen hcount⟩
  · have hstep : step P J (s, ballots) c = ((invoke (execute P J) s c).1, ballots) := by
      simp [step, cast, hmsg, he, Except.isOk, Except.toBool]
    rw [hstep]
    generalize (invoke (execute P J) s c).1 = t at hraise
    rw [hmsg] at hraise
    have hballot : ∀ p, VoteOpen J s c.env c.info id weight p →
        ¬ c.gas.Affords (ballotGas J s c.env c.info id (addVote p weight option)) := by
      intro p hopen haff
      have hret := (returns_vote (P := P) (R := fun _ => True)).mpr ⟨p, hopen, haff, trivial⟩
      exact hret.not_raises hraise
    by_cases hs : t = s
    · subst hs
      -- the tally was not reached, or the storage would have changed
      have htally : ∀ p, VoteOpen J t c.env c.info id weight p →
          ¬ c.gas.Affords (tallyGas J t c.env c.info id (addVote p weight option)) := by
        intro p hopen haff
        have hne := tallied_ne hopen.stored (addVote_ne hopen.weight_ne option)
        obtain ⟨e', w, hrun, hw, -⟩ := (raises_vote (P := P) (R := fun _ => True)).mpr
          ⟨p, hopen, haff, hballot p hopen, hne, trivial⟩
        exact hw ((raises_of_eq hrun _).mp hraise).2
      exact ⟨fun _ => h, fun _ p hopen haff => (htally p hopen haff).elim⟩
    · obtain ⟨p, hopen, haff, hno, -, rfl⟩ := (raises_vote (R := fun u => u = t)).mp
        (hraise.mono (fun _ _ hq => ⟨hq.2 ▸ hs, hq.2⟩))
      exact ⟨fun hfair => (hno (hfair p hopen haff).1).elim,
        fun hcount => (not_counted_tallied h.counted hopen hcount).elim⟩

theorem step_tally {c : Invocation GovExecuteMsg} {id : UInt64} (hmsg : c.msg = .tallyAndExecute id)
    (h : Recorded J c.env.contractAddress (s, ballots)) :
    Recorded J c.env.contractAddress (step P J (s, ballots) c) := by
  have hstep : step P J (s, ballots) c = ((invoke (execute P J) s c).1, ballots) := by
    simp [step, cast, hmsg]
  rw [hstep]
  rcases invoke_cases (execute P J) s c with ⟨r, -, hret⟩ | ⟨e, -, hraise⟩
  · generalize (invoke (execute P J) s c).1 = t at hret
    rw [hmsg] at hret
    obtain ⟨config, p, -, hp, -, rfl⟩ :=
      returns_tally (R := fun u => u = t) (hret.mono (fun _ _ hq => hq.2))
    obtain ⟨hvotes, honce⟩ := h.counted id p hp
    exact h.tallied (fun option => (votes_status p _ option).symm ▸ hvotes option) honce
  · generalize (invoke (execute P J) s c).1 = t at hraise
    rw [hmsg] at hraise
    by_cases hs : t = s
    · exact hs ▸ h
    · exact absurd (hraise.mono (fun _ _ hq => ⟨hq.2 ▸ hs, hq.2⟩))
        (not_raises_tally (R := fun u => u = t))

/-- The step: a recorded poll stays recorded exactly under a fair call. -/
theorem step_recorded (c : Invocation GovExecuteMsg)
    (h : Recorded J c.env.contractAddress (s, ballots)) :
    (Fair J s c → Recorded J c.env.contractAddress (step P J (s, ballots) c)) ∧
    (Counted J c.env.contractAddress (step P J (s, ballots) c) → Fair J s c) := by
  cases hmsg : c.msg with
  | submitProposal title description => exact step_submit hmsg h
  | castVote id option weight => exact step_vote hmsg h
  | tallyAndExecute id => exact ⟨fun _ => step_tally hmsg h, fun _ => by simp only [Fair, hmsg]⟩

/-- Nothing is recorded before the first proposal, whether or not instantiation
went through. -/
theorem recorded_of_instantiate {env : Env} {info : MessageInfo}
    {votingPeriodBlocks quorumVotesRequired : UInt64} {g : GasMeter} {s₀ : ContractStorage}
    {res : Except Abort ContractResponse} (hempty : ∀ key, s₀.getRaw env.contractAddress key = none)
    (hinst : finish (instantiate P J env info votingPeriodBlocks quorumVotesRequired ⟨s₀, g⟩) =
      (s, res)) :
    Recorded J env.contractAddress (s, []) := by
  have hs : s = s₀ ∨ ∃ value, s = s₀.setRaw env.contractAddress keyConfig value := by
    rcases finish_cases hinst with ⟨r, -, hret⟩ | ⟨e, -, hraise⟩
    · simp only [instantiate, returns_bind, returns_set, returns_pure] at hret
      exact .inr ⟨_, hret.2.2.symm⟩
    · simp only [instantiate, raises_bind, raises_set, raises_pure, returns_set, and_false,
        or_false] at hraise
      exact .inl hraise.2.2.symm
  have hkeys : ∀ key, key ≠ keyConfig → s.getRaw env.contractAddress key = none := by
    intro key hkey
    rcases hs with rfl | ⟨value, rfl⟩
    · exact hempty key
    · rw [getRaw_setRaw_ne _ _ (fun hk => hkey hk.2.symm), hempty]
  constructor
  · intro id p hp
    rw [storedProposal, hkeys _ (keyConfig_ne_proposalKey id).symm] at hp
    cases hp
  · intro id voter
    exact iff_of_true (hkeys _ (keyConfig_ne_voterKey id voter).symm) rfl
  · intro b hb
    cases hb

/-- In every run of a fresh contract, failing calls included, the tallies are the
exact sums of the counted ballots, one for each voter, exactly if every call is
fair. -/
theorem counted_throughout_iff {env : Env} {info : MessageInfo}
    {votingPeriodBlocks quorumVotesRequired : UInt64} {g : GasMeter} {s₀ : ContractStorage}
    {res : Except Abort ContractResponse} {calls : List (Invocation GovExecuteMsg)}
    (hempty : ∀ key, s₀.getRaw env.contractAddress key = none)
    (hinst : finish (instantiate P J env info votingPeriodBlocks quorumVotesRequired
      ⟨s₀, g⟩) = (s, res))
    (hcalls : ∀ c ∈ calls, c.env.contractAddress = env.contractAddress) :
    Throughout (Counted J env.contractAddress) (step P J) (s, []) calls ↔
      Along (fun x c => Fair J x.1 c) (step P J) (s, []) calls := by
  have hrec : Recorded J env.contractAddress (s, []) := recorded_of_instantiate hempty hinst
  refine throughout_iff_along (I := Recorded J env.contractAddress)
    (Q := fun c => c.env.contractAddress = env.contractAddress) ?_ ?_ hcalls hrec hrec.counted
  · rintro ⟨t, ballots⟩ c hc hrec -
    obtain ⟨hkeep, hbreak⟩ := step_recorded (P := P) c (hc.symm ▸ hrec)
    rw [hc] at hkeep hbreak
    exact ⟨hbreak, fun hfair => (hkeep hfair).counted⟩
  · rintro ⟨t, ballots⟩ c hc hrec - hfair
    exact hc ▸ (step_recorded (P := P) c (hc.symm ▸ hrec)).1 hfair

open Devnet Codec

def u64Codec : Codec UInt64 :=
  nat.through UInt64.toNat (fun n => some (UInt64.ofNat n)) (fun n => by simp)

def proposalStatusCodec : Codec ProposalStatus :=
  nat.through (fun st => match st with
      | .voting => 0
      | .passed => 1
      | .rejected => 2
      | .executed => 3)
    (fun n => match n with
      | 0 => some .voting
      | 1 => some .passed
      | 2 => some .rejected
      | _ => some .executed)
    (fun st => by cases st <;> rfl)

def proposalCodec : Codec Proposal :=
  ((u64Codec.prod (addressCodec.prod (string.prod string))).prod ((u64Codec.prod u64Codec).prod
    ((u64Codec.prod (u64Codec.prod u64Codec)).prod proposalStatusCodec))).through
    (fun p => ((p.id, p.proposer, p.title, p.description), (p.startHeight, p.endHeight),
      (p.yesVotes, p.noVotes, p.abstainVotes), p.status))
    (fun t => some ⟨t.1.1, t.1.2.1, t.1.2.2.1, t.1.2.2.2, t.2.1.1, t.2.1.2, t.2.2.1.1, t.2.2.1.2.1,
      t.2.2.1.2.2, t.2.2.2⟩) (fun _ => rfl)

def configCodec : Codec GovConfig :=
  (u64Codec.prod (u64Codec.prod u64Codec)).through
    (fun c => (c.votingPeriodBlocks, c.quorumVotesRequired, c.proposalCount))
    (fun t => some ⟨t.1, t.2.1, t.2.2⟩) (fun _ => rfl)

/-- A stand-in for `serde_json`, which writes longer texts. -/
def devJson : GovJson := ⟨json configCodec, json proposalCodec⟩

def devEnv : Env := ⟨1, Address.zero⟩

def devInstantiate : ContractStorage × Except Abort ContractResponse :=
  finish (instantiate primitives devJson devEnv ⟨addressOf 1, Amount.zero⟩ 10 5 ⟨.new, .new 100000⟩)

def devCall (sender : UInt8) (limit : ℕ) (msg : GovExecuteMsg) : Invocation GovExecuteMsg :=
  ⟨devEnv, ⟨addressOf sender, Amount.zero⟩, .new limit, msg⟩

/-- A proposal, two votes and a second attempt of the first voter. -/
def devCalls : List (Invocation GovExecuteMsg) :=
  [devCall 1 100000 (.submitProposal "a" "b"), devCall 1 100000 (.castVote 1 .yes 3),
    devCall 2 100000 (.castVote 1 .no 4), devCall 1 100000 (.castVote 1 .no 9)]

theorem devCalls_contract : ∀ c ∈ devCalls, c.env.contractAddress = devEnv.contractAddress := by
  decide +kernel

theorem getRaw_new (contract : Address) (key : Bytes) : ContractStorage.new.getRaw contract key =
    none := by
  simp [ContractStorage.getRaw, ContractStorage.new]

theorem counted_devCalls :
    Throughout (Counted devJson devEnv.contractAddress) (step primitives devJson)
      (devInstantiate.1, []) devCalls := by
  have hinst : devInstantiate = (devInstantiate.1, devInstantiate.2) := Prod.mk.eta.symm
  unfold devInstantiate at hinst
  exact (counted_throughout_iff (getRaw_new _) hinst devCalls_contract).mpr (by decide +kernel)

/-- A tally that differs from the sum of its ballots, as a test. -/
theorem not_counted_of {J : GovJson} {contract : Address} {x : ContractStorage × List Ballot}
    (id : UInt64) (option : VoteOption)
    (h : (storedProposal J x.1 contract id).any
      (fun p => (p.votes option).toNat ≠ votesFor x.2 id option) = true) :
        ¬ Counted J contract x := by
  intro hc
  cases hp : storedProposal J x.1 contract id with
  | none =>
    rw [hp] at h
    cases h
  | some p =>
    rw [hp, Option.any_some, decide_eq_true_eq] at h
    exact h ((hc id p hp).1 option)

/-- A vote with a gas limit of 1400 fails after the tally was written; repeated with more gas it
is counted a second time. Tally and marker are paid at 903 and 1475 here, and at 1350 and 1922
with the texts of `serde_json`, so that the limit falls between them either way. -/
def cutCalls : List (Invocation GovExecuteMsg) :=
  [devCall 1 100000 (.submitProposal "a" "b"), devCall 1 1400 (.castVote 1 .yes 3),
    devCall 1 100000 (.castVote 1 .yes 3)]

/-- The second voter brings the 64-bit tally back to zero. -/
def wrappedCalls : List (Invocation GovExecuteMsg) :=
  [devCall 1 100000 (.submitProposal "a" "b"),
    devCall 1 100000 (.castVote 1 .yes 18446744073709551615), devCall 2 100000 (.castVote 1 .yes 1)]

/-- The tally of 6 for one ballot of 3, and the tally of 0 for two ballots. -/
theorem cut_and_wrapped_miscount :
    ¬ Counted devJson devEnv.contractAddress
      (run (step primitives devJson) (devInstantiate.1, []) cutCalls) ∧
    ¬ Counted devJson devEnv.contractAddress
      (run (step primitives devJson) (devInstantiate.1, []) wrappedCalls) := by
  refine ⟨not_counted_of 1 .yes ?_, not_counted_of 1 .yes ?_⟩ <;>
    decide +kernel

end Sprax.Wasm.GovernanceContract
