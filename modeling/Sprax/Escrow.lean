import Sprax.Wasm
import Sprax.Runs
import Sprax.Devnet

/-!
# The escrow contract

One record under one key. Every call reads the record, checks that it is still
locked, and writes it once as its last fallible step, so a failing call changes
nothing. A payout closes the record in the same write.
-/
namespace Sprax.Wasm
open Std FiniteMap Effects Runs ContractStorage

inductive EscrowStatus
  | locked
  | released
  | refunded
  deriving DecidableEq

structure EscrowState where
  sender : Address
  recipient : Address
  arbiter : Address
  amount : Amount
  timeoutHeight : UInt64
  status : EscrowStatus
  deriving DecidableEq

inductive EscrowExecuteMsg
  | deposit
  | release
  | refund
  deriving DecidableEq

namespace EscrowContract

def keyEscrow : Bytes := ascii "escrow_state"

variable (P : Primitives) (J : Json EscrowState)

def instantiate (env : Env) (info : MessageInfo) (recipient arbiter : Address)
    (timeoutHeight : UInt64) :
    Exec ContractResponse := do
  let state : EscrowState := ⟨info.sender, recipient, arbiter, info.funds, timeoutHeight, .locked⟩
  ContractStorage.set env.contractAddress keyEscrow (J.toVec state)
  pure ⟨[⟨"escrow-instantiate",
    [("sender", info.sender.display P), ("recipient", recipient.display P),
      ("arbiter", arbiter.display P), ("amount", info.funds.toSprxString),
    ("timeout_height", toString timeoutHeight)]⟩], []⟩

/-- Writing a closed record and paying its amount out. -/
def payOut (env : Env) (state : EscrowState) (status : EscrowStatus) (recipient : Address)
    (event : ContractEvent) : Exec ContractResponse := do
  ContractStorage.set env.contractAddress keyEscrow
    (J.toVec { state with status := status, amount := Amount.zero })
  pure ⟨[event], [⟨recipient, state.amount⟩]⟩

def execute (env : Env) (info : MessageInfo) (msg : EscrowExecuteMsg) : Exec ContractResponse := do
  let stateVal ← ContractStorage.get env.contractAddress keyEscrow
  let stateBytes ← okOr (.contractNotFound "escrow not found") stateVal
  let state ← unwrap (J.fromSlice stateBytes).toOption
  if state.status ≠ .locked then fail (.executionFailed "escrow is no longer in locked state")
  else match msg with
    | .deposit => do
      let amount ← arithmetic (state.amount.checkedAdd info.funds)
      ContractStorage.set env.contractAddress keyEscrow (J.toVec { state with amount := amount })
      pure ⟨[⟨"escrow-deposit", [("depositor", info.sender.display P),
        ("added_amount", info.funds.toSprxString), ("total_amount", amount.toSprxString)]⟩], []⟩
    | .release =>
      if info.sender ≠ state.arbiter ∧ info.sender ≠ state.sender then
        fail (.unauthorized "only arbiter or sender can release escrow funds")
      else
        payOut J env state .released state.recipient ⟨"escrow-release",
          [("recipient", state.recipient.display P), ("payout_amount", state.amount.toSprxString)]⟩
    | .refund =>
      if info.sender ≠ state.arbiter ∧
        ¬ (info.sender = state.sender ∧ state.timeoutHeight ≤ env.blockHeight) then
        fail (.unauthorized "refund requires arbiter authorization or timeout expiration")
      else
        payOut J env state .refunded state.sender ⟨"escrow-refund",
          [("sender", state.sender.display P), ("refund_amount", state.amount.toSprxString)]⟩

/-- The stored record. -/
def storedEscrow (s : ContractStorage) (contract : Address) : Option EscrowState :=
  (s.getRaw contract keyEscrow).bind (fun v => (J.fromSlice v).toOption)

variable {J} {s : ContractStorage} {contract : Address}

@[simp] theorem storedEscrow_setRaw (st : EscrowState) :
    storedEscrow J (s.setRaw contract keyEscrow (J.toVec st)) contract = some st := by
  simp [storedEscrow, getRaw_setRaw_self, J.fromSlice_toVec, Except.toOption]

/-- What a successful call on a locked record does: the new record and the
payments it sends. -/
inductive Accepted (st : EscrowState) (env : Env) (info : MessageInfo) :
    EscrowExecuteMsg → EscrowState → List BankSend → Prop
  | deposit (amount : Amount) (h : amount.atto = st.amount.atto + info.funds.atto) :
      Accepted st env info .deposit { st with amount := amount } []
  | release (h : info.sender = st.arbiter ∨ info.sender = st.sender) :
      Accepted st env info .release { st with status := .released, amount := Amount.zero }
        [⟨st.recipient, st.amount⟩]
  | refund (h : info.sender = st.arbiter ∨ info.sender = st.sender ∧
      st.timeoutHeight ≤ env.blockHeight) :
      Accepted st env info .refund { st with status := .refunded, amount := Amount.zero }
        [⟨st.sender, st.amount⟩]

theorem accepted_of_returns {env : Env} {info : MessageInfo} {msg : EscrowExecuteMsg} {g : GasMeter}
    {Q : ContractResponse → World → Prop} (h : Returns (execute P J env info msg) ⟨s, g⟩ Q) :
    ∃ st st' r g', storedEscrow J s env.contractAddress = some st ∧ st.status = .locked ∧
      Accepted st env info msg st' r.messages ∧
      Q r ⟨s.setRaw env.contractAddress keyEscrow (J.toVec st'), g'⟩ := by
  simp only [execute, returns_bind, returns_get, returns_okOr, returns_unwrap, returns_ite,
    returns_fail, and_false, false_or, not_not] at h
  obtain ⟨-, bytes, hb, st, hst, hlocked, h⟩ := h
  have hstored : storedEscrow J s env.contractAddress = some st := by
    rw [storedEscrow, hb, Option.bind_some, hst]
  cases msg with
  | deposit =>
    simp only [returns_bind, returns_arithmetic, returns_set, returns_pure] at h
    obtain ⟨amount, hadd, -, hq⟩ := h
    exact ⟨st, _, _, _, hstored, hlocked, .deposit amount (Amount.checkedAdd_ok.mp hadd), hq⟩
  | release =>
    simp only [payOut, returns_ite, returns_fail, returns_bind, returns_set, returns_pure,
      and_false, false_or] at h
    obtain ⟨hauth, -, hq⟩ := h
    exact ⟨st, _, _, _, hstored, hlocked, .release (by tauto), hq⟩
  | refund =>
    simp only [payOut, returns_ite, returns_fail, returns_bind, returns_set, returns_pure,
      and_false, false_or] at h
    obtain ⟨hauth, -, hq⟩ := h
    exact ⟨st, _, _, _, hstored, hlocked, .refund (by tauto), hq⟩

/-- The only write comes last, so no failure leaves a trace. -/
theorem storage_of_raises {env : Env} {info : MessageInfo} {msg : EscrowExecuteMsg} {g : GasMeter} :
    ¬ Raises (execute P J env info msg) ⟨s, g⟩ (fun _ w => w.storage ≠ s) := by
  cases msg <;> simp [execute, payOut]

/-- A record that decodes is never read by a panicking call. -/
theorem not_panicked_of_stored {env : Env} {info : MessageInfo} {msg : EscrowExecuteMsg}
    {g : GasMeter} {st : EscrowState} (h : storedEscrow J s env.contractAddress = some st) :
    ¬ Raises (execute P J env info msg) ⟨s, g⟩ (fun e _ => e = .panicked) := by
  obtain ⟨bytes, hb, hst⟩ := Option.bind_eq_some_iff.mp h
  cases msg <;> simp [execute, payOut, hb, hst]

/-- The storage after a call. -/
def call (J : Json EscrowState) (s : ContractStorage) (c : Invocation EscrowExecuteMsg) :
    ContractStorage :=
  (invoke (execute P J) s c).1

/-- What a call returns. -/
def result (J : Json EscrowState) (s : ContractStorage) (c : Invocation EscrowExecuteMsg) :
    Except Abort ContractResponse :=
  (invoke (execute P J) s c).2

/-- Everything one call can do. -/
theorem call_cases (J : Json EscrowState) (s : ContractStorage) (c : Invocation EscrowExecuteMsg) :
    (∃ e, result P J s c = .error e ∧ call P J s c = s) ∨
    ∃ st st' r, storedEscrow J s c.env.contractAddress = some st ∧ st.status = .locked ∧
      Accepted st c.env c.info c.msg st' r.messages ∧ result P J s c = .ok r ∧
      storedEscrow J (call P J s c) c.env.contractAddress = some st' := by
  rcases invoke_cases (execute P J) s c with ⟨r, hr, hret⟩ | ⟨e, he, hraise⟩
  · obtain ⟨st, st', r', g', hst, hlocked, hacc, rfl, hw⟩ := accepted_of_returns P hret
    refine .inr ⟨st, st', r', hst, hlocked, hacc, hr, ?_⟩
    rw [call, ← hw, storedEscrow_setRaw]
  · refine .inl ⟨e, he, ?_⟩
    by_contra hne
    exact storage_of_raises P (hraise.mono (fun _ _ hq => hq.2 ▸ hne))

/-- A call fails with an `Err` where a record is stored that is not locked. -/
theorem fails_of_closed {c : Invocation EscrowExecuteMsg} {st : EscrowState}
    (hst : storedEscrow J s c.env.contractAddress = some st) (hclosed : st.status ≠ .locked) :
    (∃ e, result P J s c = .error (.error e)) ∧ call P J s c = s := by
  rcases call_cases P J s c with ⟨e, he, hs⟩ | ⟨st', _, _, hst', hlocked, _⟩
  · refine ⟨?_, hs⟩
    cases e with
    | error e => exact ⟨e, he⟩
    | panicked =>
      -- the record decodes, so `unwrap` does not panic
      rcases invoke_cases (execute P J) s c with ⟨r, hr, -⟩ | ⟨e, he', hraise⟩
      · cases hr.symm.trans he
      · cases he'.symm.trans he
        exact absurd (hraise.mono (fun _ _ hq => hq.1)) (not_panicked_of_stored P hst)
  · rw [hst] at hst'
    cases hst'
    exact absurd hlocked hclosed

/-- The funds of all deposits of a run that returned `Ok`. -/
def deposited (J : Json EscrowState) (s : ContractStorage) : List (Invocation EscrowExecuteMsg) → ℕ
  | [] => 0
  | c :: rest =>
    (if c.msg = .deposit ∧ (result P J s c).isOk then c.info.funds.atto else 0) +
      deposited J (call P J s c) rest

/-- The number of releases and refunds of a run that returned `Ok`. -/
def payouts (J : Json EscrowState) (s : ContractStorage) : List (Invocation EscrowExecuteMsg) → ℕ
  | [] => 0
  | c :: rest =>
    (if c.msg ≠ .deposit ∧ (result P J s c).isOk then 1 else 0) + payouts J (call P J s c) rest

section Closed
variable {calls : List (Invocation EscrowExecuteMsg)} {st : EscrowState}

theorem closed_run (hst : storedEscrow J s contract = some st) (hclosed : st.status ≠ .locked)
    (hcalls : ∀ c ∈ calls, c.env.contractAddress = contract) : run (call P J) s calls = s := by
  induction calls with
  | nil => rfl
  | cons c rest ih =>
    have hc := hcalls c List.mem_cons_self
    subst hc
    rw [run_cons, (fails_of_closed P hst hclosed).2]
    exact ih (fun c' h' => hcalls c' (List.mem_cons_of_mem c h'))

theorem closed_payouts (hst : storedEscrow J s contract = some st) (hclosed : st.status ≠ .locked)
    (hcalls : ∀ c ∈ calls, c.env.contractAddress = contract) : payouts P J s calls = 0 := by
  induction calls with
  | nil => rfl
  | cons c rest ih =>
    have hc := hcalls c List.mem_cons_self
    subst hc
    obtain ⟨⟨e, he⟩, hs⟩ := fails_of_closed P hst hclosed
    rw [payouts, hs, ih (fun c' h' => hcalls c' (List.mem_cons_of_mem c h'))]
    simp [he, Except.isOk, Except.toBool]

end Closed

section Locked
variable {calls : List (Invocation EscrowExecuteMsg)} {st : EscrowState}

/-- On a locked record a call fails, adds a deposit or closes the record. -/
theorem locked_call {b : Invocation EscrowExecuteMsg} (hst : storedEscrow J s contract = some st)
    (hb : b.env.contractAddress = contract) :
    ((result P J s b).isOk = false ∧ call P J s b = s) ∨
    (b.msg = .deposit ∧ (result P J s b).isOk = true ∧ ∃ amount : Amount,
      amount.atto = st.amount.atto + b.info.funds.atto ∧
      storedEscrow J (call P J s b) contract = some { st with amount := amount }) ∨
    (b.msg ≠ .deposit ∧ (result P J s b).isOk = true ∧ ∃ st' : EscrowState,
      storedEscrow J (call P J s b) contract = some st' ∧ st'.status ≠ .locked) := by
  rcases call_cases P J s b with ⟨e, he, hs⟩ | ⟨st₀, st', r, hst₀, -, hacc, hr, hst'⟩
  · exact Or.inl ⟨by rw [he]; rfl, hs⟩
  · have hok : (result P J s b).isOk = true := by rw [hr]; rfl
    rw [hb] at hst₀ hst'
    cases hst.symm.trans hst₀
    generalize b.msg = msg at hacc ⊢
    generalize r.messages = sent at hacc
    refine Or.inr ?_
    cases hacc with
    | deposit amount hadd => exact Or.inl ⟨rfl, hok, amount, hadd, hst'⟩
    | release _ | refund _ => exact Or.inr ⟨by simp, hok, _, hst', by simp⟩

/-- As long as a later call still succeeds, the record is locked and holds what
was paid in. The induction is on the calls before it; a payout among them would
have closed the record. -/
theorem locked_run {c : Invocation EscrowExecuteMsg} {r : ContractResponse}
    (hst : storedEscrow J s contract = some st) (hlocked : st.status = .locked)
    (hcalls : ∀ c ∈ calls, c.env.contractAddress = contract) (hc : c.env.contractAddress = contract)
    (hok : result P J (run (call P J) s calls) c = .ok r) :
    ∃ x : Amount, storedEscrow J (run (call P J) s calls) contract = some { st with amount := x } ∧
      x.atto = st.amount.atto + deposited P J s calls := by
  induction calls generalizing s st with
  | nil => exact ⟨st.amount, hst, rfl⟩
  | cons b rest ih =>
    obtain ⟨hb, hrest⟩ := List.forall_mem_cons.mp hcalls
    rw [run_cons] at hok ⊢
    rcases locked_call P hst hb with ⟨hfails, hs⟩ | ⟨hmsg, hisOk, amount, hadd, hst'⟩ |
      ⟨-, -, st', hst', hclosed⟩
    · rw [hs] at hok ⊢
      obtain ⟨x, hx, hsum⟩ := ih hst hlocked hrest hok
      refine ⟨x, hx, ?_⟩
      simp [deposited, hfails, hs, hsum]
    · obtain ⟨x, hx, hsum⟩ := ih hst' hlocked hrest hok
      refine ⟨x, hx, ?_⟩
      dsimp only at hsum
      simp only [deposited, hmsg, hisOk, and_self, if_true]
      omega
    · rw [closed_run P hst' hclosed hrest] at hok
      obtain ⟨⟨e, he⟩, -⟩ := fails_of_closed P (c := c) (hc ▸ hst') hclosed
      rw [he] at hok
      cases hok

theorem locked_payouts (hst : storedEscrow J s contract = some st) (hlocked : st.status = .locked)
    (hcalls : ∀ c ∈ calls, c.env.contractAddress = contract) : payouts P J s calls ≤ 1 := by
  induction calls generalizing s st with
  | nil => exact Nat.zero_le 1
  | cons b rest ih =>
    obtain ⟨hb, hrest⟩ := List.forall_mem_cons.mp hcalls
    rw [payouts]
    rcases locked_call P hst hb with ⟨hfails, hs⟩ | ⟨hmsg, -, amount, -, hst'⟩ |
      ⟨-, -, st', hst', hclosed⟩
    · rw [hs, if_neg (by simp [hfails]), Nat.zero_add]
      exact ih hst hlocked hrest
    · rw [if_neg (fun h => h.1 hmsg), Nat.zero_add]
      exact ih hst' hlocked hrest
    · rw [closed_payouts P hst' hclosed hrest]
      split <;> decide

end Locked

/-- Where nothing is stored every call fails and nothing happens. -/
theorem fails_of_missing {c : Invocation EscrowExecuteMsg}
    (hnone : s.getRaw c.env.contractAddress keyEscrow = none) :
    (∃ e, result P J s c = .error e) ∧ call P J s c = s := by
  rcases call_cases P J s c with ⟨e, he, hs⟩ | ⟨st, _, _, hst, _⟩
  · exact ⟨⟨e, he⟩, hs⟩
  · rw [storedEscrow, hnone] at hst
    cases hst

theorem missing_run {calls : List (Invocation EscrowExecuteMsg)}
    (hnone : s.getRaw contract keyEscrow = none)
    (hcalls : ∀ c ∈ calls, c.env.contractAddress = contract) :
    run (call P J) s calls = s ∧ payouts P J s calls = 0 := by
  induction calls with
  | nil => exact ⟨rfl, rfl⟩
  | cons c rest ih =>
    have hc := hcalls c List.mem_cons_self
    subst hc
    obtain ⟨⟨e, he⟩, hs⟩ := fails_of_missing P (J := J) hnone
    obtain ⟨hrun, hzero⟩ := ih (fun c' h' => hcalls c' (List.mem_cons_of_mem c h'))
    refine ⟨by rw [run_cons, hs, hrun], ?_⟩
    simp [payouts, he, hs, hzero, Except.isOk, Except.toBool]

/-- What a successful call of an escrow over `total` sends, and who may have
called it. -/
def Settles (info : MessageInfo) (recipient arbiter : Address) (timeoutHeight : UInt64) (total : ℕ)
    (c : Invocation EscrowExecuteMsg) (r : ContractResponse) : Prop :=
  match c.msg with
  | .deposit => r.messages = []
  | .release =>
    (∃ amount, r.messages = [⟨recipient, amount⟩] ∧ amount.atto = total) ∧
      (c.info.sender = arbiter ∨ c.info.sender = info.sender)
  | .refund =>
    (∃ amount, r.messages = [⟨info.sender, amount⟩] ∧ amount.atto = total) ∧
      (c.info.sender = arbiter ∨ c.info.sender = info.sender ∧ timeoutHeight ≤ c.env.blockHeight)

/-- A successful call of a locked record, told by the terms of the record. -/
theorem Accepted.settles {st st' : EscrowState} {c : Invocation EscrowExecuteMsg}
    {r : ContractResponse} (h : Accepted st c.env c.info c.msg st' r.messages) (info : MessageInfo)
    (hsender : info.sender = st.sender) :
    Settles info st.recipient st.arbiter st.timeoutHeight st.amount.atto c r := by
  unfold Settles
  generalize c.msg = msg at h
  generalize r.messages = sent at h
  rw [hsender]
  cases h with
  | deposit amount hadd => rfl
  | release h => exact ⟨⟨st.amount, rfl, rfl⟩, h⟩
  | refund h => exact ⟨⟨st.amount, rfl, rfl⟩, h⟩

/-- A payout closes the record. -/
theorem Accepted.closed {st st' : EscrowState} {env : Env} {info : MessageInfo}
    {msg : EscrowExecuteMsg} {sent : List BankSend} (h : Accepted st env info msg st' sent)
    (hmsg : msg ≠ .deposit) :
    st'.status ≠ .locked := by
  cases h with
  | deposit amount hadd => exact absurd rfl hmsg
  | release _ | refund _ => simp

/-- The record that instantiation leaves, or none. -/
theorem instantiate_cases {env : Env} {info : MessageInfo} {recipient arbiter : Address}
    {timeoutHeight : UInt64} {g : GasMeter} {s₀ : ContractStorage}
    {res : Except Abort ContractResponse}
    (hinst : finish (instantiate P J env info recipient arbiter timeoutHeight ⟨s₀, g⟩) = (s, res))
    (hfresh : res.isOk ∨ s₀.getRaw env.contractAddress keyEscrow = none) :
    storedEscrow J s env.contractAddress =
        some ⟨info.sender, recipient, arbiter, info.funds, timeoutHeight, .locked⟩ ∨
      s.getRaw env.contractAddress keyEscrow = none := by
  rcases finish_cases hinst with ⟨r, -, hret⟩ | ⟨e, rfl, hraise⟩
  · simp only [instantiate, returns_bind, returns_set, returns_pure] at hret
    left
    rw [← hret.2.2, storedEscrow_setRaw]
  · simp only [instantiate, raises_bind, raises_set, raises_pure, returns_set, and_false,
      or_false] at hraise
    right
    rw [← hraise.2.2]
    exact hfresh.resolve_left (by simp [Except.isOk, Except.toBool])

/-- A failing call changes nothing. -/
theorem call_of_error {c : Invocation EscrowExecuteMsg} {e : Abort}
    (he : result P J s c = .error e) :
    call P J s c = s := by
  rcases call_cases P J s c with ⟨-, -, hs⟩ | ⟨_, _, r, _, _, _, hr, _⟩
  · exact hs
  · rw [he] at hr
    cases hr

/-- One instantiation and any calls after it: at most one payout succeeds, it
sends everything paid in to the party its caller may pay, every later call
returns `Err`, and no failing call changes the storage. -/
theorem escrow_settles_once {env : Env} {info : MessageInfo} {recipient arbiter : Address}
    {timeoutHeight : UInt64} {g : GasMeter} {s₀ : ContractStorage}
    {res : Except Abort ContractResponse} {calls : List (Invocation EscrowExecuteMsg)}
    (hinst : finish (instantiate P J env info recipient arbiter timeoutHeight ⟨s₀, g⟩) = (s, res))
    (hfresh : res.isOk ∨ s₀.getRaw env.contractAddress keyEscrow = none)
    (hcalls : ∀ c ∈ calls, c.env.contractAddress = env.contractAddress) :
    payouts P J s calls ≤ 1 ∧
    ∀ before c after, calls = before ++ c :: after →
      (∀ r, result P J (run (call P J) s before) c = .ok r →
        Settles info recipient arbiter timeoutHeight
          (info.funds.atto + deposited P J s before) c r ∧
        (c.msg ≠ .deposit → ∀ mid d rest, after = mid ++ d :: rest →
          ∃ e, result P J (run (call P J) s (before ++ c :: mid)) d = .error (.error e))) ∧
      (∀ e, result P J (run (call P J) s before) c = .error e →
        call P J (run (call P J) s before) c = run (call P J) s before) := by
  have hstart := instantiate_cases P hinst hfresh
  refine ⟨?_, ?_⟩
  · rcases hstart with hst | hnone
    · exact locked_payouts P hst rfl hcalls
    · exact (missing_run P hnone hcalls).2.le.trans (Nat.zero_le 1)
  rintro before c after rfl
  have hbefore : ∀ b ∈ before, b.env.contractAddress = env.contractAddress :=
    fun b hb => hcalls b (List.mem_append_left _ hb)
  have hc : c.env.contractAddress = env.contractAddress := hcalls c (by simp)
  refine ⟨fun r hr => ?_, fun e he => call_of_error P he⟩
  rcases hstart with hst | hnone
  · obtain ⟨x, hx, hsum⟩ := locked_run P hst rfl hbefore hc hr
    rcases call_cases P J (run (call P J) s before) c with ⟨e, he, -⟩ |
      ⟨st, st', r', hst₀, -, hacc, hr', hst'⟩
    · rw [he] at hr
      cases hr
    rw [hr] at hr'
    cases hr'
    rw [hc] at hst₀ hst'
    cases hx.symm.trans hst₀
    refine ⟨hsum ▸ hacc.settles info rfl, ?_⟩
    rintro hmsg mid d rest rfl
    have hmid : ∀ b ∈ mid, b.env.contractAddress = env.contractAddress :=
      fun b hb => hcalls b (by simp [hb])
    have hd : d.env.contractAddress = env.contractAddress := hcalls d (by simp)
    rw [run_append, run_cons, closed_run P hst' (hacc.closed hmsg) hmid]
    exact (fails_of_closed P (hd ▸ hst') (hacc.closed hmsg)).1
  · rw [(missing_run P hnone hbefore).1] at hr
    obtain ⟨⟨e, he⟩, -⟩ := fails_of_missing P (J := J) (c := c) (hc ▸ hnone)
    rw [he] at hr
    cases hr

open Devnet Codec

def escrowStatusCodec : Codec EscrowStatus :=
  nat.through (fun st => match st with
      | .locked => 0
      | .released => 1
      | .refunded => 2)
    (fun n => match n with
      | 0 => some .locked
      | 1 => some .released
      | _ => some .refunded)
    (fun st => by cases st <;> rfl)

def escrowCodec : Codec EscrowState :=
  (addressCodec.prod
    (addressCodec.prod (addressCodec.prod (amountCodec.prod (nat.prod escrowStatusCodec))))).through
    (fun e => (e.sender, e.recipient, e.arbiter, e.amount, e.timeoutHeight.toNat, e.status))
    (fun t => some ⟨t.1, t.2.1, t.2.2.1, t.2.2.2.1, UInt64.ofNat t.2.2.2.2.1, t.2.2.2.2.2⟩)
    (fun e => by simp)

/-- Address 1 pays address 2 under arbiter 3, with a timeout at height 9. -/
def devInstantiate : ContractStorage × Except Abort ContractResponse :=
  finish (instantiate primitives (json escrowCodec) ⟨1, Address.zero⟩ ⟨addressOf 1, units 50⟩
    (addressOf 2) (addressOf 3) 9 ⟨.new, .new 100000⟩)

def devCall (height : UInt64) (sender : UInt8) (limit : ℕ) (msg : EscrowExecuteMsg) :
    Invocation EscrowExecuteMsg :=
  ⟨⟨height, Address.zero⟩, ⟨addressOf sender, units 7⟩, .new limit, msg⟩

/-- A deposit, one that runs out of gas, an early refund by the payer, one in
time, and a release that comes too late. -/
def devCalls : List (Invocation EscrowExecuteMsg) :=
  [devCall 2 4 100000 .deposit, devCall 3 4 700 .deposit, devCall 4 1 100000 .refund,
    devCall 9 1 100000 .refund, devCall 10 3 100000 .release]

theorem devCalls_contract : ∀ c ∈ devCalls, c.env.contractAddress = Address.zero := by
  decide +kernel

theorem devInstantiate_isOk : devInstantiate.2.isOk = true := by decide +kernel

/-- In the development run the refund returns the 50 and the 7 that were paid in. -/
theorem devCalls_settle_once :
    payouts primitives (json escrowCodec) devInstantiate.1 devCalls ≤ 1 ∧
    payouts primitives (json escrowCodec) devInstantiate.1 devCalls = 1 ∧
    deposited primitives (json escrowCodec) devInstantiate.1 devCalls = 7 := by
  have hinst : devInstantiate = (devInstantiate.1, devInstantiate.2) := Prod.mk.eta.symm
  unfold devInstantiate at hinst
  have hmain := escrow_settles_once primitives hinst (.inl devInstantiate_isOk) devCalls_contract
  exact ⟨hmain.1, by decide +kernel, by decide +kernel⟩

end EscrowContract

end Sprax.Wasm
