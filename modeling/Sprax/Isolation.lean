import Sprax.Built
import Sprax.Token
import Sprax.Escrow
import Sprax.Governance

/-!
# Contracts on one storage

The native contracts share one storage and reach it through metered reads and
writes of their own table only. So the calls of one contract can be taken out of
any interleaving of calls of all contracts: what they return, what they charge and
what they leave in the table is what it is without the others, whichever of the
calls fail, panic or run out of gas.
-/
namespace Sprax.Wasm
open Std FiniteMap Effects Runs

namespace ContractStorage

/-- The storage without one key of a contract. -/
def removeRaw (s : ContractStorage) (contract : Address) (key : Bytes) : ContractStorage :=
  match s.state[contract]? with
  | some map => ⟨s.state.insert contract (map.erase key)⟩
  | none => s

/-- Metered removal, at the price of an empty write. -/
def remove (contract : Address) (key : Bytes) : Exec Unit := fun w =>
  match w.gas.consume GasMeter.storageWriteBaseGas with
  | .ok gas => .ok () ⟨w.storage.removeRaw contract key, gas⟩
  | .error e => .error (.error e) w

variable (s : ContractStorage) {contract other : Address} (key value : Bytes)

theorem table_setRaw_ne (h : contract ≠ other) :
    (s.setRaw contract key value).table other = s.table other := by
  simp only [table, setRaw, getElem?_insert_ne _ _ h]

theorem table_removeRaw : (s.removeRaw contract key).table contract =
    (s.table contract).erase key := by
  unfold removeRaw table
  cases h : s.state[contract]? with
  | none => simp [h]
  | some map => simp

theorem table_removeRaw_ne (h : contract ≠ other) :
    (s.removeRaw contract key).table other = s.table other := by
  unfold removeRaw table
  cases s.state[contract]? with
  | none => rfl
  | some map => simp only [getElem?_insert_ne _ _ h]

end ContractStorage

/-- The metered accesses to the table of one contract. -/
inductive Access (contract : Address) : (α : Type) → Exec α → Prop
  | get (key : Bytes) : Access contract (Option Bytes) (ContractStorage.get contract key)
  | set (key value : Bytes) : Access contract Unit (ContractStorage.set contract key value)
  | remove (key : Bytes) : Access contract Unit (ContractStorage.remove contract key)

/-- A method that works on the table of one contract, with metered accesses, and
leaves "out of gas" to these. -/
abbrev Metered (contract : Address) {α : Type} (p : Exec α) : Prop :=
  Built (Access contract) (fun e => e.isOutOfGas = false) p

section Methods
variable {contract : Address} {α : Type}

theorem metered_get (key : Bytes) : Metered contract (ContractStorage.get contract key) :=
  .prim (.get key)

theorem metered_set (key value : Bytes) :
    Metered contract (ContractStorage.set contract key value) :=
  .prim (.set key value)

theorem metered_fail {e : ContractError} (h : (Abort.error e).isOutOfGas = false) :
    Metered contract (fail e : Exec α) := .throw _ h

theorem metered_unwrap (o : Option α) : Metered contract (unwrap o) := by
  cases o with
  | none => exact .throw _ rfl
  | some a => exact .pure a

theorem metered_okOr {e : ContractError} (h : (Abort.error e).isOutOfGas = false) (o : Option α) :
    Metered contract (okOr e o) := by
  cases o with
  | none => exact metered_fail h
  | some a => exact .pure a

theorem metered_arithmetic (x : Except TypeError α) : Metered contract (arithmetic x) := by
  cases x with
  | error e => exact metered_fail rfl
  | ok a => exact .pure a

end Methods

namespace TokenContract
variable (P : Primitives) (J : TokenJson) (env : Env) (info : MessageInfo)

theorem metered_creditInitial (balances : List InitialBalance) (totalSupply : Amount) :
    Metered env.contractAddress (creditInitial J env balances totalSupply) := by
  induction balances generalizing totalSupply with
  | nil => exact .pure _
  | cons ib rest ih =>
    refine .bind (metered_arithmetic _) (fun total => ?_)
    exact .bind (metered_set _ _) (fun _ => ih total)

theorem metered_instantiate (name symbol : String) (decimals : UInt8)
    (balances : List InitialBalance) (minter : Option Address) :
    Metered env.contractAddress (instantiate P J env info name symbol decimals balances
      minter) := by
  refine .bind (metered_creditInitial J env balances _) (fun total => ?_)
  exact .bind (metered_set _ _) (fun _ => .pure _)

theorem metered_performTransfer (source dest : Address) (amount : Amount) :
    Metered env.contractAddress (performTransfer J env source dest amount) := by
  refine .ite (.pure ()) (.bind (metered_get _) (fun sourceVal => ?_))
  refine .ite (metered_fail rfl) (.bind (metered_get _) (fun destVal => ?_))
  refine .bind (metered_arithmetic _) (fun newSource => ?_)
  refine .bind (metered_arithmetic _) (fun newDest => ?_)
  exact .bind (metered_set _ _) (fun _ => metered_set _ _)

theorem metered_execute (msg : TokenExecuteMsg) :
    Metered env.contractAddress (execute P J env info msg) := by
  cases msg with
  | transfer recipient amount =>
    exact .bind (metered_performTransfer J env _ _ _) (fun _ => .pure _)
  | transferFrom owner recipient amount =>
    refine .bind (metered_get _) (fun allowance => .ite (metered_fail rfl) ?_)
    refine .bind (metered_arithmetic _) (fun newAllowance => ?_)
    refine .bind (metered_set _ _) (fun _ => ?_)
    exact .bind (metered_performTransfer J env _ _ _) (fun _ => .pure _)
  | approve spender amount => exact .bind (metered_set _ _) (fun _ => .pure _)
  | mint recipient amount =>
    refine .bind (metered_get _) (fun infoVal => ?_)
    refine .bind (metered_okOr (by rfl) _) (fun infoBytes => ?_)
    refine .bind (metered_unwrap _) (fun tokenInfo => .ite (metered_fail rfl) ?_)
    refine .bind (metered_arithmetic _) (fun totalSupply => ?_)
    refine .bind (metered_set _ _) (fun _ => .bind (metered_get _) (fun currentVal => ?_))
    refine .bind (metered_arithmetic _) (fun newBal => ?_)
    exact .bind (metered_set _ _) (fun _ => .pure _)
  | burn amount =>
    refine .bind (metered_get _) (fun currentVal => .ite (metered_fail rfl) ?_)
    refine .bind (metered_arithmetic _) (fun newBal => ?_)
    refine .bind (metered_set _ _) (fun _ => .bind (metered_get _) (fun infoVal => ?_))
    refine .bind (metered_unwrap _)
      (fun infoBytes => .bind (metered_unwrap _) (fun tokenInfo => ?_))
    refine .bind (metered_arithmetic _) (fun totalSupply => ?_)
    exact .bind (metered_set _ _) (fun _ => .pure _)

end TokenContract

namespace EscrowContract
variable (P : Primitives) (J : Json EscrowState) (env : Env) (info : MessageInfo)

theorem metered_instantiate (recipient arbiter : Address) (timeoutHeight : UInt64) :
    Metered env.contractAddress (instantiate P J env info recipient arbiter timeoutHeight) :=
  .bind (metered_set _ _) (fun _ => .pure _)

theorem metered_payOut (state : EscrowState) (status : EscrowStatus) (recipient : Address)
    (event : ContractEvent) :
      Metered env.contractAddress (payOut J env state status recipient event) :=
  .bind (metered_set _ _) (fun _ => .pure _)

theorem metered_execute (msg : EscrowExecuteMsg) :
    Metered env.contractAddress (execute P J env info msg) := by
  refine .bind (metered_get _) (fun stateVal => ?_)
  refine .bind (metered_okOr (by rfl) _) (fun stateBytes => ?_)
  refine .bind (metered_unwrap _) (fun state => .ite (metered_fail rfl) ?_)
  cases msg with
  | deposit =>
    refine .bind (metered_arithmetic _) (fun amount => ?_)
    exact .bind (metered_set _ _) (fun _ => .pure _)
  | release => exact .ite (metered_fail rfl) (metered_payOut J env _ _ _ _)
  | refund => exact .ite (metered_fail rfl) (metered_payOut J env _ _ _ _)

end EscrowContract

namespace GovernanceContract
variable (P : Primitives) (J : GovJson) (env : Env) (info : MessageInfo)

theorem metered_instantiate (votingPeriodBlocks quorumVotesRequired : UInt64) :
    Metered env.contractAddress (instantiate P J env info votingPeriodBlocks quorumVotesRequired) :=
  .bind (metered_set _ _) (fun _ => .pure _)

theorem metered_execute (msg : GovExecuteMsg) :
    Metered env.contractAddress (execute P J env info msg) := by
  cases msg with
  | submitProposal title description =>
    refine .bind (metered_get _) (fun confVal => ?_)
    refine .bind (metered_okOr (by rfl) _) (fun confBytes => ?_)
    refine .bind (metered_unwrap _) (fun config => ?_)
    exact .bind (metered_set _ _) (fun _ => .bind (metered_set _ _) (fun _ => .pure _))
  | castVote proposalId option votingWeight =>
    refine .ite (metered_fail rfl) (.bind (metered_get _) (fun propVal => ?_))
    refine .bind (metered_okOr (by rfl) _) (fun propBytes => ?_)
    refine .bind (metered_unwrap _) (fun proposal => ?_)
    refine .ite (metered_fail rfl) (.ite (metered_fail rfl) ?_)
    refine .bind (metered_get _) (fun votedVal => .ite (metered_fail rfl) ?_)
    exact .bind (metered_set _ _) (fun _ => .bind (metered_set _ _) (fun _ => .pure _))
  | tallyAndExecute proposalId =>
    refine .bind (metered_get _) (fun confVal => ?_)
    refine .bind (metered_unwrap _) (fun confBytes => .bind (metered_unwrap _) (fun config => ?_))
    refine .bind (metered_get _) (fun propVal => ?_)
    refine .bind (metered_okOr (by rfl) _) (fun propBytes => ?_)
    refine .bind (metered_unwrap _) (fun proposal => ?_)
    refine .ite (metered_fail rfl) (.ite (metered_fail rfl) ?_)
    exact .bind (metered_set _ _) (fun _ => .pure _)

end GovernanceContract

/-- What an access does: it charges, reads and edits by the table of its contract
alone, and touches no other table. -/
structure Charged (contract : Address) {α : Type} (p : Exec α) where
  cost : ByteMap → ℕ
  answer : ByteMap → α
  edit : ByteMap → ByteMap
  act : ContractStorage → ContractStorage
  table_act : ∀ s, (act s).table contract = edit (s.table contract)
  table_act_ne : ∀ s other, contract ≠ other → (act s).table other = s.table other
  run : ∀ s g, p ⟨s, g⟩ = if g.Affords (cost (s.table contract))
    then .ok (answer (s.table contract)) ⟨act s, g.after (cost (s.table contract))⟩
    else
      .error (.error (.outOfGas g.limit (min (g.consumed + cost (s.table contract)) u64Max)))
        ⟨s, g⟩

theorem Access.charged {contract : Address} {α : Type} {p : Exec α} (h : Access contract α p) :
    Nonempty (Charged contract p) := by
  cases h with
  | get key =>
    refine ⟨⟨fun t => GasMeter.readCost (key.length + (t[key]?).elim 0 List.length), fun t =>
      t[key]?, id, id, fun s => rfl, fun s other h => rfl, fun s g => ?_⟩⟩
    rw [← ContractStorage.getRaw_eq]
    split
    case isTrue h => exact get_of_affords h
    case isFalse h => exact get_of_not_affords h
  | set key value =>
    refine ⟨⟨fun _ => ContractStorage.writeGas key value, fun _ => (), fun t => t.insert key value,
      fun s => s.setRaw contract key value, fun s => s.table_setRaw contract key value,
      fun s other h => s.table_setRaw_ne key value h, fun s g => ?_⟩⟩
    split
    case isTrue h => exact set_of_affords h
    case isFalse h => exact set_of_not_affords h
  | remove key =>
    refine ⟨⟨fun _ => GasMeter.storageWriteBaseGas, fun _ => (), fun t => t.erase key,
      fun s => s.removeRaw contract key, fun s => s.table_removeRaw key,
      fun s other h => s.table_removeRaw_ne key h, fun s g => ?_⟩⟩
    unfold ContractStorage.remove
    rw [g.consume_eq]
    by_cases h : g.Affords GasMeter.storageWriteBaseGas
    · rw [if_pos h, if_pos h]
    · rw [if_neg h, if_neg h]

/-- Two worlds with the same gas and the same table of one contract. -/
def SameTable (contract : Address) (w w' : World) : Prop :=
  w.gas = w'.gas ∧ w.storage.table contract = w'.storage.table contract

namespace Charged
variable {contract other : Address} {α : Type} {p : Exec α}

theorem keeps_other (A : Charged contract p) (h : contract ≠ other) :
    Keeps (fun w => w.storage.table other) p := by
  intro w
  obtain ⟨s, g⟩ := w
  simp only [leaves, A.run]
  by_cases hgas : g.Affords (A.cost (s.table contract))
  · simp only [if_pos hgas, A.table_act_ne s other h]
  · simp only [if_neg hgas]

theorem respects_own (A : Charged contract p) : Respects (SameTable contract) p := by
  intro w w' hsame
  obtain ⟨s, g⟩ := w
  obtain ⟨t, g'⟩ := w'
  obtain ⟨hg, ht⟩ := hsame
  simp only at hg ht
  subst hg
  rw [A.run, A.run, ht]
  by_cases hgas : g.Affords (A.cost (t.table contract))
  · simp only [if_pos hgas, Alike, true_and]
    exact ⟨rfl, by rw [A.table_act, A.table_act, ht]⟩
  · simp only [if_neg hgas, Alike, true_and]
    exact ⟨rfl, ht⟩

end Charged

theorem Metered.keeps_other {contract other : Address} {α : Type} {p : Exec α}
    (hp : Metered contract p) (h : contract ≠ other) :
      Keeps (fun w => w.storage.table other) p := by
  refine hp.keeps (fun β q haccess => ?_)
  obtain ⟨A⟩ := haccess.charged
  exact A.keeps_other h

theorem Metered.respects_own {contract : Address} {α : Type} {p : Exec α}
    (hp : Metered contract p) :
    Respects (SameTable contract) p := by
  refine hp.respects (fun β q haccess => ?_)
  obtain ⟨A⟩ := haccess.charged
  exact A.respects_own

/-- `serde_json` at the types the contracts store. -/
structure ContractJson where
  token : TokenJson
  escrow : Json EscrowState
  governance : GovJson

/-- The entry points of the native contracts that write. -/
inductive ContractMsg
  | instantiateToken (name symbol : String) (decimals : UInt8)
      (initialBalances : List InitialBalance) (minter : Option Address)
  | token (msg : TokenExecuteMsg)
  | instantiateEscrow (recipient arbiter : Address) (timeoutHeight : UInt64)
  | escrow (msg : EscrowExecuteMsg)
  | instantiateGovernance (votingPeriodBlocks quorumVotesRequired : UInt64)
  | governance (msg : GovExecuteMsg)
  deriving DecidableEq

variable (P : Primitives) (J : ContractJson)

def ContractMsg.run (env : Env) (info : MessageInfo) : ContractMsg → Exec ContractResponse
  | .instantiateToken name symbol decimals initialBalances minter =>
    TokenContract.instantiate P J.token env info name symbol decimals initialBalances minter
  | .token msg => TokenContract.execute P J.token env info msg
  | .instantiateEscrow recipient arbiter timeoutHeight =>
    EscrowContract.instantiate P J.escrow env info recipient arbiter timeoutHeight
  | .escrow msg => EscrowContract.execute P J.escrow env info msg
  | .instantiateGovernance votingPeriodBlocks quorumVotesRequired =>
    GovernanceContract.instantiate P J.governance env info votingPeriodBlocks quorumVotesRequired
  | .governance msg => GovernanceContract.execute P J.governance env info msg

theorem metered_run (env : Env) (info : MessageInfo) (msg : ContractMsg) :
    Metered env.contractAddress (msg.run P J env info) := by
  cases msg with
  | instantiateToken name symbol decimals balances minter =>
    exact TokenContract.metered_instantiate P J.token env info name symbol decimals balances minter
  | token msg => exact TokenContract.metered_execute P J.token env info msg
  | instantiateEscrow recipient arbiter timeoutHeight =>
    exact EscrowContract.metered_instantiate P J.escrow env info recipient arbiter timeoutHeight
  | escrow msg => exact EscrowContract.metered_execute P J.escrow env info msg
  | instantiateGovernance period quorum =>
    exact GovernanceContract.metered_instantiate P J.governance env info period quorum
  | governance msg => exact GovernanceContract.metered_execute P J.governance env info msg

/-- What the caller of a contract gets back. -/
structure Answer where
  contract : Address
  result : Except Abort ContractResponse
  gas : GasMeter

/-- The storage after a call, and the answer to it. -/
def serve (s : ContractStorage) (c : Invocation ContractMsg) : ContractStorage × List Answer :=
  match c.msg.run P J c.env c.info ⟨s, c.gas⟩ with
  | .ok r w => (w.storage, [⟨c.env.contractAddress, .ok r, w.gas⟩])
  | .error e w => (w.storage, [⟨c.env.contractAddress, .error e, w.gas⟩])

/-- A call says which contract answers. -/
theorem contract_of_mem_serve {s : ContractStorage} {c : Invocation ContractMsg} {a : Answer}
    (h : a ∈ (serve P J s c).2) : a.contract = c.env.contractAddress := by
  unfold serve at h
  split at h <;> simp_all

theorem table_serve_ne (s : ContractStorage) {c : Invocation ContractMsg} {contract : Address}
    (h : c.env.contractAddress ≠ contract) : (serve P J s c).1.table contract =
      s.table contract := by
  have hkeeps := (metered_run P J c.env c.info c.msg).keeps_other h ⟨s, c.gas⟩
  unfold leaves at hkeeps
  unfold serve
  split <;> simp_all

/-- A call finds in two storages what they have in common. -/
theorem serve_of_table_eq {s t : ContractStorage} {c : Invocation ContractMsg}
    (h : s.table c.env.contractAddress = t.table c.env.contractAddress) :
    (serve P J s c).1.table c.env.contractAddress = (serve P J t c).1.table c.env.contractAddress ∧
      (serve P J s c).2 = (serve P J t c).2 := by
  have halike := (metered_run P J c.env c.info c.msg).respects_own ⟨s, c.gas⟩ ⟨t, c.gas⟩ ⟨rfl, h⟩
  unfold serve
  cases hs : c.msg.run P J c.env c.info ⟨s, c.gas⟩ with
  | ok r w =>
    cases ht : c.msg.run P J c.env c.info ⟨t, c.gas⟩ with
    | ok r' w' =>
      rw [hs, ht] at halike
      obtain ⟨rfl, hgas, htable⟩ := halike
      exact ⟨htable, by simp only [hgas]⟩
    | error e' w' => simp [hs, ht, Alike] at halike
  | error e w =>
    cases ht : c.msg.run P J c.env c.info ⟨t, c.gas⟩ with
    | ok r' w' => simp [hs, ht, Alike] at halike
    | error e' w' =>
      rw [hs, ht] at halike
      obtain ⟨rfl, hgas, htable⟩ := halike
      exact ⟨htable, by simp only [hgas]⟩

/-- What one contract has seen of a run: its table and the answers it gave. -/
def seenBy (contract : Address) (st : ContractStorage × List Answer) : ByteMap × List Answer :=
  (st.1.table contract, st.2.filter (fun a => a.contract = contract))

theorem filter_serve_ne (s : ContractStorage) {c : Invocation ContractMsg} {contract : Address}
    (h : c.env.contractAddress ≠ contract) :
    (serve P J s c).2.filter (fun a => a.contract = contract) = [] := by
  refine List.filter_eq_nil_iff.mpr (fun a ha => ?_)
  simpa [contract_of_mem_serve P J ha] using h

theorem seenBy_other (contract : Address) (st : ContractStorage × List Answer)
    (c : Invocation ContractMsg) (h : ¬ c.env.contractAddress = contract) :
    seenBy contract (recorded (serve P J) st c) = seenBy contract st := by
  simp only [seenBy, recorded, List.filter_append, table_serve_ne P J st.1 h,
    filter_serve_ne P J st.1 h, List.append_nil]

theorem seenBy_own (contract : Address) (st st' : ContractStorage × List Answer)
    (c : Invocation ContractMsg) (h : c.env.contractAddress = contract)
    (hsame : seenBy contract st = seenBy contract st') :
    seenBy contract (recorded (serve P J) st c) = seenBy contract (recorded (serve P J) st' c) := by
  subst h
  obtain ⟨htable, hanswers⟩ := Prod.mk.injEq _ _ _ _ ▸ hsame
  obtain ⟨htable', hanswers'⟩ := serve_of_table_eq P J htable
  simp only [seenBy, recorded, List.filter_append, htable', hanswers, hanswers']

/-- Calls of one contract get answers of that contract only. -/
theorem filter_answers {cs : List (Invocation ContractMsg)} {contract : Address}
    (h : ∀ c ∈ cs, c.env.contractAddress = contract) (s : ContractStorage) :
    (run (recorded (serve P J)) (s, []) cs).2.filter (fun a => a.contract = contract) =
      (run (recorded (serve P J)) (s, []) cs).2 := by
  have hall : ∀ a ∈ (run (recorded (serve P J)) (s, []) cs).2, a.contract = contract := by
    refine run_invariant_of_events (I := fun st : ContractStorage × List Answer =>
      ∀ a ∈ st.2, a.contract = contract) (fun st c hc hst a ha => ?_) (s, []) cs h (by simp)
    rcases List.mem_append.mp ha with hold | hnew
    · exact hst a hold
    · exact (contract_of_mem_serve P J hnew).trans hc
  exact List.filter_eq_self.mpr (fun a ha => decide_eq_true (hall a ha))

/-- In every interleaving of calls of the contracts on one storage, the table of a
contract and the answers of its calls (result, error and gas) are those of its
own calls alone. -/
theorem calls_isolated (s : ContractStorage) (cs : List (Invocation ContractMsg))
    (contract : Address) :
    seenBy contract (run (recorded (serve P J)) (s, []) cs) =
      ((run (recorded (serve P J)) (s, [])
          (cs.filter (fun c => c.env.contractAddress = contract))).1.table contract,
        (run (recorded (serve P J)) (s, [])
          (cs.filter (fun c => c.env.contractAddress = contract))).2) := by
  have hown : ∀ c ∈ cs.filter (fun c => c.env.contractAddress = contract),
      c.env.contractAddress = contract :=
    fun c hc => of_decide_eq_true (List.mem_filter.mp hc).2
  rw [run_view_eq_filter (seenBy_other P J contract) (seenBy_own P J contract) cs rfl, seenBy,
    filter_answers P J hown]

end Sprax.Wasm
