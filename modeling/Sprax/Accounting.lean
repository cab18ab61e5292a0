import Sprax.Apply

/-!
# Executions along a run of ledger calls

A ledger is driven by submissions, mined blocks, received blocks and batches of
received blocks, any of which may fail. Every call of `execute_transaction` made
on the way is listed as an attempt, in order, with the store before and after
it. The attempts of a call form a trace from the store before the call to the
store after it: nothing else writes account state. Supply conservation and the
nonce sequence are read off traces by one induction each.
-/
namespace Sprax
open Std StateAccessor

/-- A public ledger operation that changes state. -/
inductive Call
  | submit (tx : Transaction)
  | mine (proposer : Address)
  | apply (block : Block)
  | applyBatch (blocks : List Block)

/-- One call of `execute_transaction`, with the stores around it. -/
structure Attempt where
  before : Store
  tx : Transaction
  after : Store
  result : Except CoreError TxReceipt

def Attempt.succeeded (a : Attempt) : Bool := a.result.isOk

/-- Transactions for which `execute_transaction` returned a receipt, in order. -/
def executedTxs (attempts : List Attempt) : List Transaction :=
  (attempts.filter Attempt.succeeded).map Attempt.tx

/-- The transactions of one sender among them. -/
def executedBy (sender : Address) (attempts : List Attempt) : List Transaction :=
  (executedTxs attempts).filter (fun tx => tx.body.sender = sender)

def feesOf (txs : List Transaction) : ℕ := (txs.map (fun tx => tx.body.fee.amount.atto)).sum

variable (P : Primitives)

/-- The attempt that executing `tx` on `store` makes. -/
def attempt (executor : TxExecutor) (height : ℕ) (chainId : String) (store : Store)
    (tx : Transaction) : Attempt :=
  let result := executor.executeTransaction P store tx height chainId
  ⟨store, tx, result.1, result.2⟩

namespace ChainLedger

def mineAttempts (executor : TxExecutor) (height : ℕ) (chainId : String) (b : Batch) :
    List Transaction → List Attempt
  | [] => []
  | tx :: rest =>
    attempt P executor height chainId b.store tx ::
      mineAttempts executor height chainId (mineTx P executor height chainId b tx) rest

def applyAttempts (executor : TxExecutor) (height : ℕ) (chainId : String) (b : Batch) :
    List Transaction → List Attempt
  | [] => []
  | tx :: rest =>
    attempt P executor height chainId b.store tx ::
      match executor.executeTransaction P b.store tx height chainId with
      | (store, .ok receipt) =>
        applyAttempts executor height chainId (b.record P store tx receipt height) rest
      | (_, .error _) => []

/-- The attempts of one `apply_block`: none unless the header was accepted. -/
def blockAttempts (L : ChainLedger) (block : Block) : List Attempt :=
  match L.checkHeader P block.header with
  | .error _ => []
  | .ok () =>
    applyAttempts P L.executor block.header.height L.genesis.chainId L.batch block.body.transactions

def batchAttempts (L : ChainLedger) : List Block → List Attempt
  | [] => []
  | block :: rest =>
    L.blockAttempts P block ++
      match L.applyBlock P block with
      | (_, .error _) => []
      | (L', .ok _) => batchAttempts L' rest

/-- The ledger after a call. -/
def call (L : ChainLedger) : Call → ChainLedger
  | .submit tx => (L.submitTransaction P tx).1
  | .mine proposer => (L.mineBlock P proposer).1
  | .apply block => (L.applyBlock P block).1
  | .applyBatch blocks => (L.applyBlocksBatch P blocks).1

/-- The executions a call attempts. -/
def attempts (L : ChainLedger) : Call → List Attempt
  | .submit _ => []
  | .mine _ => mineAttempts P L.executor (L.height + 1) L.genesis.chainId L.batch L.mempool
  | .apply block => L.blockAttempts P block
  | .applyBatch blocks => L.batchAttempts P blocks

/-- A run of calls from genesis, with all attempts made so far. -/
def history (genesis : GenesisConfig) (calls : List Call) : ChainLedger × List Attempt :=
  Runs.run (Runs.recorded (fun L c => (L.call P c, L.attempts P c))) (initFromGenesis P genesis, [])
    calls

end ChainLedger

/-- Attempts that lead from one store to another, up to metadata writes. -/
inductive Trace (executor : TxExecutor) (chainId : String) : Store → List Attempt → Store → Prop
  | nil {s t : Store} (hstate : s.state = t.state) : Trace executor chainId s [] t
  | cons {s t : Store} {a : Attempt} {as : List Attempt} (height : ℕ)
      (hbefore : s.state = a.before.state)
      (hexec : executor.executeTransaction P a.before a.tx height chainId = (a.after, a.result))
      (hrest : Trace executor chainId a.after as t) : Trace executor chainId s (a :: as) t

section Traces
variable {P} {executor : TxExecutor} {chainId : String}

theorem Trace.of_state_left {s s' t : Store} {as : List Attempt} (h : s'.state = s.state)
    (ht : Trace P executor chainId s as t) : Trace P executor chainId s' as t := by
  cases ht with
  | nil hstate => exact .nil (h.trans hstate)
  | cons height hbefore hexec hrest => exact .cons height (h.trans hbefore) hexec hrest

theorem Trace.append {s t u : Store} {as bs : List Attempt} (h : Trace P executor chainId s as t)
    (h' : Trace P executor chainId t bs u) : Trace P executor chainId s (as ++ bs) u := by
  induction h with
  | nil hstate => exact h'.of_state_left hstate
  | cons height hbefore hexec hrest ih => exact .cons height hbefore hexec (ih h')

theorem Trace.of_state_right {s t t' : Store} {as : List Attempt} (h : t.state = t'.state)
    (ht : Trace P executor chainId s as t) : Trace P executor chainId s as t' := by
  simpa using ht.append (.nil h)

end Traces

namespace ChainLedger
variable {P}

theorem trace_mineAttempts (executor : TxExecutor) (height : ℕ) (chainId : String) (b : Batch)
    (txs : List Transaction) :
    Trace P executor chainId b.store (mineAttempts P executor height chainId b txs)
      (txs.foldl (mineTx P executor height chainId) b).store := by
  induction txs generalizing b with
  | nil => exact .nil rfl
  | cons tx rest ih =>
    refine .cons height rfl rfl ((ih (mineTx P executor height chainId b tx)).of_state_left ?_)
    simp only [attempt, mineTx]
    split <;> rename_i hexec <;> rw [hexec]
    rfl

theorem trace_applyAttempts (executor : TxExecutor) (height : ℕ) (chainId : String) (b : Batch)
    (txs : List Transaction) :
    Trace P executor chainId b.store (applyAttempts P executor height chainId b txs)
      (applyTxs P executor height chainId b txs).1.store := by
  induction txs generalizing b with
  | nil => exact .nil rfl
  | cons tx rest ih =>
    refine .cons height rfl rfl ?_
    rcases hexec : executor.executeTransaction P b.store tx height chainId with ⟨s, e | r⟩
    · simp only [applyTxs, attempt, hexec]
      exact .nil rfl
    · simp only [applyTxs, attempt, hexec]
      exact Trace.of_state_left (by rfl) (ih (b.record P s tx r height))

theorem blockAttempts_refused {L : ChainLedger} {block : Block}
    (hext : ¬ L.Extends P block.header) :
    L.blockAttempts P block = [] := by
  obtain ⟨e, he⟩ := checkHeader_error hext
  simp only [blockAttempts, he]

theorem blockAttempts_of_extends {L : ChainLedger} {block : Block}
    (hext : L.Extends P block.header) :
    L.blockAttempts P block = applyAttempts P L.executor block.header.height L.genesis.chainId
      L.batch block.body.transactions := by
  simp only [blockAttempts, checkHeader_ok.mpr hext]

theorem trace_blockAttempts (L : ChainLedger) (block : Block) :
    Trace P L.executor L.genesis.chainId L.store (L.blockAttempts P block)
      (L.applyBlock P block).1.store := by
  have hbody := trace_applyAttempts (P := P) L.executor block.header.height L.genesis.chainId
    L.batch block.body.transactions
  have houtcome := applyBlock_outcome (P := P) L block
  generalize L.applyBlock P block = result at houtcome
  cases houtcome with
  | ignored hold =>
    rw [blockAttempts_refused (fun hext => by have := hext.height_eq; omega)]
    exact .nil rfl
  | refused e hext =>
    rw [blockAttempts_refused hext]
    exact .nil rfl
  | failed b e hext hb | mismatched b e hext hb hroots | accepted b hext hb hroots =>
    rw [blockAttempts_of_extends hext]
    exact hbody.of_state_right (by rw [← applyBody, hb]; rfl)

/-- No operation changes the genesis configuration or the executor. -/
theorem applyBlock_config (L : ChainLedger) (block : Block) :
    (L.applyBlock P block).1.genesis = L.genesis ∧
      (L.applyBlock P block).1.executor = L.executor := by
  have houtcome := applyBlock_outcome (P := P) L block
  generalize L.applyBlock P block = result at houtcome
  cases houtcome <;> exact ⟨rfl, rfl⟩

theorem applyBlocksFrom_config (count : ℕ) (L : ChainLedger) (blocks : List Block) :
    (L.applyBlocksFrom P count blocks).1.genesis = L.genesis ∧
      (L.applyBlocksFrom P count blocks).1.executor = L.executor := by
  induction blocks generalizing L count with
  | nil => exact ⟨rfl, rfl⟩
  | cons block rest ih =>
    have hstep := applyBlock_config (P := P) L block
    rw [applyBlocksFrom]
    split
    · rename_i L' e happly
      rwa [happly] at hstep
    · rename_i L' r happly
      rw [happly] at hstep
      have hrest := ih (count + 1) L'
      exact ⟨hrest.1.trans hstep.1, hrest.2.trans hstep.2⟩

theorem trace_batchAttempts (count : ℕ) (L : ChainLedger) (blocks : List Block) :
    Trace P L.executor L.genesis.chainId L.store (L.batchAttempts P blocks)
      (L.applyBlocksFrom P count blocks).1.store := by
  induction blocks generalizing L count with
  | nil => exact .nil rfl
  | cons block rest ih =>
    have hstep := trace_blockAttempts (P := P) L block
    have hconfig := applyBlock_config (P := P) L block
    rcases happly : L.applyBlock P block with ⟨L', e | r⟩
    · rw [happly] at hstep
      simpa only [batchAttempts, applyBlocksFrom, happly, List.append_nil] using hstep
    · rw [happly] at hstep hconfig
      have hrest := ih (count + 1) L'
      rw [hconfig.1, hconfig.2] at hrest
      simpa only [batchAttempts, applyBlocksFrom, happly] using hstep.append hrest

theorem submitTransaction_cases (L : ChainLedger) (tx : Transaction) :
    (L.submitTransaction P tx).1 = L ∨
      (L.submitTransaction P tx).1 = { L with mempool := L.mempool ++ [tx] } := by
  unfold submitTransaction
  dsimp only
  split
  · exact Or.inl rfl
  · split
    · exact Or.inl rfl
    · split
      · exact Or.inl rfl
      · split
        · exact Or.inl rfl
        · exact Or.inr rfl

theorem call_config (L : ChainLedger) (c : Call) :
    (L.call P c).genesis = L.genesis ∧ (L.call P c).executor = L.executor := by
  cases c with
  | submit tx => rcases submitTransaction_cases (P := P) L tx with h | h <;> simp [call, h]
  | mine proposer => exact ⟨rfl, rfl⟩
  | apply block => exact applyBlock_config L block
  | applyBatch blocks => exact applyBlocksFrom_config 0 L blocks

theorem trace_call (L : ChainLedger) (c : Call) :
    Trace P L.executor L.genesis.chainId L.store (L.attempts P c) (L.call P c).store := by
  cases c with
  | submit tx =>
    rcases submitTransaction_cases (P := P) L tx with h | h <;>
      exact .nil (by simp only [call, h])
  | mine proposer =>
    have hmine := trace_mineAttempts (P := P) L.executor (L.height + 1) L.genesis.chainId L.batch
      L.mempool
    exact Trace.of_state_right (by rfl) hmine
  | apply block => exact trace_blockAttempts L block
  | applyBatch blocks => exact trace_batchAttempts 0 L blocks

/-- A run keeps its configuration, and its attempts lead to its current store. -/
structure HistoryInv (P : Primitives) (genesis : GenesisConfig) (s : ChainLedger × List Attempt) :
    Prop where
  genesis_eq : s.1.genesis = genesis
  executor_eq : s.1.executor = TxExecutor.default
  traced : Trace P TxExecutor.default genesis.chainId (initFromGenesis P genesis).store
    s.2 s.1.store

/-- All attempts of a run lead from the genesis store to the current one. -/
theorem trace_history (genesis : GenesisConfig) (calls : List Call) :
    Trace P TxExecutor.default genesis.chainId (initFromGenesis P genesis).store
      (history P genesis calls).2 (history P genesis calls).1.store := by
  have hstep : ∀ (s : ChainLedger × List Attempt) (c : Call), HistoryInv P genesis s →
      HistoryInv P genesis (Runs.recorded (fun L c => (L.call P c, L.attempts P c)) s c) := by
    rintro ⟨L, as⟩ c ⟨hgenesis, hexecutor, htrace⟩
    have hconfig := call_config (P := P) L c
    have hcall := trace_call (P := P) L c
    rw [hgenesis, hexecutor] at hcall
    exact ⟨hconfig.1.trans hgenesis, hconfig.2.trans hexecutor, htrace.append hcall⟩
  exact (Runs.run_invariant hstep (initFromGenesis P genesis, []) calls ⟨rfl, rfl, .nil rfl⟩).traced

end ChainLedger

section Traces
variable {P} {executor : TxExecutor} {chainId : String}

@[simp] theorem executedTxs_nil : executedTxs [] = [] := rfl

theorem executedTxs_cons (a : Attempt) (as : List Attempt) :
    executedTxs (a :: as) = if a.succeeded then a.tx :: executedTxs as else executedTxs as := by
  unfold executedTxs
  rw [List.filter_cons]
  split <;> rfl

/-- On a solvent store an attempt either changes nothing or executes in full. -/
theorem Solvent.attempt {a : Attempt} (hs : Solvent P a.before) {height : ℕ}
    (hexec : executor.executeTransaction P a.before a.tx height chainId = (a.after, a.result)) :
    (a.succeeded = false ∧ a.after = a.before) ∨
      (a.succeeded = true ∧ Executed P a.before a.tx a.after) := by
  rcases hs.executeTransaction executor a.tx height chainId with ⟨e, he⟩ | ⟨s', hok, hspec⟩
  · rw [hexec, Prod.mk.injEq] at he
    exact Or.inl ⟨by rw [Attempt.succeeded, he.2]; rfl, he.1⟩
  · rw [hexec, Prod.mk.injEq] at hok
    exact Or.inr ⟨by rw [Attempt.succeeded, hok.2]; rfl, by rw [hok.1]; exact hspec⟩

/-- Fees are the only value that leaves the accounts. -/
theorem Trace.conserved {s t : Store} {as : List Attempt} (h : Trace P executor chainId s as t)
    (hs : Solvent P s) :
    Solvent P t ∧ totalBalance P t + feesOf (executedTxs as) = totalBalance P s ∧
      ∀ a ∈ as, Solvent P a.before := by
  induction h with
  | nil hstate => exact ⟨hs.congr hstate, by simp [feesOf, totalBalance_congr hstate], by simp⟩
  | @cons s t a as height hbefore hexec hrest ih =>
    have hsolvent := hs.congr hbefore
    have htotal := totalBalance_congr (P := P) hbefore
    rcases hsolvent.attempt hexec with ⟨hfail, hafter⟩ | ⟨hok, hspec⟩
    · obtain ⟨ht, hsum, hall⟩ := ih (hafter ▸ hsolvent)
      rw [hafter, ← htotal] at hsum
      refine ⟨ht, by rwa [executedTxs_cons, hfail], ?_⟩
      exact List.forall_mem_cons.mpr ⟨hsolvent, hall⟩
    · obtain ⟨ht, hsum, hall⟩ := ih hspec.solvent
      refine ⟨ht, ?_, List.forall_mem_cons.mpr ⟨hsolvent, hall⟩⟩
      have hconserved := hspec.conserved
      have hfees : feesOf (executedTxs (a :: as)) =
          a.tx.body.fee.amount.atto + feesOf (executedTxs as) := by
        simp [executedTxs_cons, hok, feesOf]
      omega

/-- The nonces a sender uses up are consecutive, from its nonce before the trace
to its nonce after it. -/
theorem Trace.nonces {s t : Store} {as : List Attempt} (h : Trace P executor chainId s as t)
    (hs : Solvent P s) {sender : Address} (hmax : nonceOf P t sender < u64Max) :
    (executedBy sender as).map (·.body.nonce) =
        List.range' (nonceOf P s sender) (executedBy sender as).length ∧
      nonceOf P t sender = nonceOf P s sender + (executedBy sender as).length := by
  induction h with
  | nil hstate => simp [executedBy, nonceOf_congr hstate]
  | @cons s t a as height hbefore hexec hrest ih =>
    have hsolvent := hs.congr hbefore
    rw [nonceOf_congr hbefore]
    rcases hsolvent.attempt hexec with ⟨hfail, hafter⟩ | ⟨hok, hspec⟩
    · have hby : executedBy sender (a :: as) = executedBy sender as := by
        simp [executedBy, executedTxs_cons, hfail]
      have hrec := ih (hafter ▸ hsolvent) hmax
      rw [hafter] at hrec
      rwa [hby]
    · obtain ⟨hmap, hlast⟩ := ih hspec.solvent hmax
      have hnonce := hspec.nonces sender
      by_cases hsender : a.tx.body.sender = sender
      · have hby : executedBy sender (a :: as) = a.tx :: executedBy sender as := by
          simp [executedBy, executedTxs_cons, hok, hsender]
        rw [if_pos hsender] at hnonce
        have hle := le_saturatingSucc (nonceOf P a.before sender)
        rw [saturatingSucc_of_lt (by omega)] at hnonce
        rw [hnonce] at hmap hlast
        rw [hby, List.map_cons, hmap, hspec.nonce_eq, hsender, List.length_cons, List.range'_succ]
        exact ⟨rfl, by omega⟩
      · have hby : executedBy sender (a :: as) = executedBy sender as := by
          simp [executedBy, executedTxs_cons, hok, hsender]
        rw [if_neg hsender] at hnonce
        rw [hnonce] at hmap hlast
        rw [hby]
        exact ⟨hmap, hlast⟩

end Traces

namespace GenesisConfig

/-- Sum of the genesis balances. -/
def supply (genesis : GenesisConfig) : ℕ :=
  (genesis.accounts.map (fun account => account.initialBalance.atto)).sum

/-- Account addresses are pairwise distinct. -/
def DistinctAccounts (genesis : GenesisConfig) : Prop :=
  (genesis.accounts.map GenesisAccount.address).Nodup

instance (genesis : GenesisConfig) : Decidable genesis.DistinctAccounts :=
  inferInstanceAs (Decidable (List.Nodup _))

variable {P}

theorem creditAccounts_readable (accounts : List GenesisAccount) {s : Store}
    (hs : Readable P s) : Readable P (accounts.foldl (creditAccount P) s) := by
  induction accounts generalizing s with
  | nil => exact hs
  | cons account rest ih => exact ih (hs.setAccount _ _)

theorem creditAccounts_nonceOf (accounts : List GenesisAccount) {s : Store} {a : Address}
    (hs : nonceOf P s a = 0) : nonceOf P (accounts.foldl (creditAccount P) s) a = 0 := by
  induction accounts generalizing s with
  | nil => exact hs
  | cons account rest ih =>
    refine ih ?_
    rw [creditAccount, nonceOf_setAccount]
    split
    · rfl
    · exact hs

/-- A repeated address overwrites its earlier balance, so the store never holds
more than the configuration lists. -/
theorem creditAccounts_total_le (accounts : List GenesisAccount) {s : Store}
    (hs : Readable P s) :
    totalBalance P (accounts.foldl (creditAccount P) s) ≤
      totalBalance P s + (accounts.map (fun account => account.initialBalance.atto)).sum := by
  induction accounts generalizing s with
  | nil => exact le_rfl
  | cons account rest ih =>
    obtain ⟨old, hold⟩ := hs account.address
    have hset := totalBalance_setAccount hold
      ⟨0, account.initialBalance, Hash32.zero, Hash32.zero⟩
    have hrest := ih (hs.setAccount account.address
      ⟨0, account.initialBalance, Hash32.zero, Hash32.zero⟩)
    rw [List.foldl_cons, List.map_cons, List.sum_cons]
    dsimp only at hset
    change totalBalance P (rest.foldl (creditAccount P) (setAccount P s account.address _)) ≤ _
    omega

theorem creditAccounts_total (accounts : List GenesisAccount) {s : Store}
    (hnew : ∀ account ∈ accounts, ∃ old, getAccount P s account.address = .ok old ∧
      old.balance.atto = 0)
    (hdistinct : (accounts.map GenesisAccount.address).Nodup) :
    totalBalance P (accounts.foldl (creditAccount P) s) =
      totalBalance P s + (accounts.map (fun account => account.initialBalance.atto)).sum := by
  induction accounts generalizing s with
  | nil => rfl
  | cons account rest ih =>
    obtain ⟨hnot, hrest⟩ := List.nodup_cons.mp hdistinct
    obtain ⟨⟨old, hold, hzero⟩, hnew'⟩ := List.forall_mem_cons.mp hnew
    have hset := totalBalance_setAccount hold
      ⟨0, account.initialBalance, Hash32.zero, Hash32.zero⟩
    have hkept : ∀ other ∈ rest, ∃ old,
        getAccount P (creditAccount P s account) other.address = .ok old ∧
          old.balance.atto = 0 := by
      intro other hother
      have hne : account.address ≠ other.address := by
        intro heq
        exact hnot (heq ▸ List.mem_map_of_mem hother)
      rw [creditAccount, getAccount_setAccount_ne P s _ hne]
      exact hnew' other hother
    rw [List.foldl_cons, ih hkept hrest, List.map_cons, List.sum_cons, creditAccount]
    dsimp only at hset
    omega

end GenesisConfig

namespace ChainLedger
variable {P}

theorem initFromGenesis_state (genesis : GenesisConfig) :
    (initFromGenesis P genesis).store.state =
      (genesis.accounts.foldl (GenesisConfig.creditAccount P) Store.empty).state := rfl

theorem initFromGenesis_nonceOf (genesis : GenesisConfig) (a : Address) :
    nonceOf P (initFromGenesis P genesis).store a = 0 := by
  rw [nonceOf_congr (initFromGenesis_state genesis)]
  refine GenesisConfig.creditAccounts_nonceOf _ ?_
  simp [nonceOf, getAccount, Store.get, Store.empty, AccountState.default]

theorem initFromGenesis_solvent {genesis : GenesisConfig} (hS : genesis.supply ≤ 2 ^ 128 - 1) :
    Solvent P (initFromGenesis P genesis).store := by
  have hle := GenesisConfig.creditAccounts_total_le genesis.accounts (readable_empty (P := P))
  rw [totalBalance_empty, Nat.zero_add] at hle
  have hstate := initFromGenesis_state (P := P) genesis
  refine Solvent.congr ⟨GenesisConfig.creditAccounts_readable _ readable_empty, ?_⟩ hstate.symm
  unfold GenesisConfig.supply at hS
  omega

theorem initFromGenesis_total {genesis : GenesisConfig} (hdistinct : genesis.DistinctAccounts) :
    totalBalance P (initFromGenesis P genesis).store = genesis.supply := by
  rw [totalBalance_congr (initFromGenesis_state genesis),
    GenesisConfig.creditAccounts_total genesis.accounts ?_ hdistinct, totalBalance_empty,
    Nat.zero_add, GenesisConfig.supply]
  intro account _
  exact ⟨AccountState.default, by simp [getAccount, Store.get, Store.empty], rfl⟩

/-- Native supply is conserved: over any run of calls, account balances and the
fees of executed transactions add up to the genesis supply, and the credit loop
of every execution that gets past the sender's checks completes. -/
theorem history_supply (genesis : GenesisConfig) (hdistinct : genesis.DistinctAccounts)
    (hS : genesis.supply ≤ 2 ^ 128 - 1) (calls : List Call) :
    totalBalance P (history P genesis calls).1.store +
        feesOf (executedTxs (history P genesis calls).2) = genesis.supply ∧
      ∀ a ∈ (history P genesis calls).2, ∀ sender,
        TxExecutor.chargeSender P a.before a.tx genesis.chainId = .ok sender →
          (TxExecutor.creditMessages P (setAccount P a.before a.tx.body.sender sender)
            a.tx.body.messages).2 = .ok () := by
  have hconserved := (trace_history (P := P) genesis calls).conserved (initFromGenesis_solvent hS)
  obtain ⟨-, htotal, hall⟩ := hconserved
  refine ⟨htotal.trans (initFromGenesis_total hdistinct), ?_⟩
  intro a ha sender hcharge
  obtain ⟨old, hold⟩ := TxExecutor.chargeSender_ok hcharge
  exact (hall a ha).creditMessages_ok hold

open Devnet in
/-- A rejected block whose transfer stays executed, a replay of that transfer
that admission refuses, and a second transfer that is mined. -/
def devCalls : List Call :=
  [.apply tamperedBlock, .submit (transferTx 0), .submit (transferTx 1), .mine (addressOf 9),
    .applyBatch [transferBlock]]

open Devnet in
theorem devCalls_history :
    totalBalance primitives (history primitives (devGenesis []) devCalls).1.store = 1498 ∧
      (history primitives (devGenesis []) devCalls).2.length = 2 ∧
      nonceOf primitives (history primitives (devGenesis []) devCalls).1.store
        (addressOf 1) = 2 := by
  decide +kernel

open Devnet in
theorem history_supply_devnet :
    totalBalance primitives (history primitives (devGenesis []) devCalls).1.store +
        feesOf (executedTxs (history primitives (devGenesis []) devCalls).2) =
          (devGenesis []).supply ∧
      totalBalance primitives (history primitives (devGenesis []) devCalls).1.store = 1498 ∧
      (history primitives (devGenesis []) devCalls).2.length = 2 :=
  ⟨(history_supply (devGenesis []) (by decide +kernel) (by decide +kernel) devCalls).1,
    devCalls_history.1, devCalls_history.2.1⟩

/-- No replay: the executed transactions of a sender carry the nonces 0, 1, 2 and
so on, so no nonce and no transaction of that sender is executed twice. -/
theorem history_nonces (genesis : GenesisConfig) (hS : genesis.supply ≤ 2 ^ 128 - 1)
    (calls : List Call) (sender : Address)
    (hmax : nonceOf P (history P genesis calls).1.store sender < u64Max) :
    (executedBy sender (history P genesis calls).2).map (·.body.nonce) =
        List.range (executedBy sender (history P genesis calls).2).length ∧
      ((executedBy sender (history P genesis calls).2).map (·.body.nonce)).Nodup ∧
      (executedBy sender (history P genesis calls).2).Nodup := by
  have hnonces :=
      ((trace_history (P := P) genesis calls).nonces (initFromGenesis_solvent hS) hmax).1
  rw [initFromGenesis_nonceOf, ← List.range_eq_range'] at hnonces
  have hnodup : ((executedBy sender (history P genesis calls).2).map (·.body.nonce)).Nodup := by
    rw [hnonces]
    exact List.nodup_range
  exact ⟨hnonces, hnodup, hnodup.of_map _⟩

open Devnet in
theorem history_nonces_devnet :
    nonceOf primitives (history primitives (devGenesis []) devCalls).1.store (addressOf 1) = 2 ∧
      (executedBy (addressOf 1) (history primitives (devGenesis []) devCalls).2).map
        (·.body.nonce) =
          List.range (executedBy (addressOf 1)
            (history primitives (devGenesis []) devCalls).2).length := by
  obtain ⟨-, -, hnonce⟩ := devCalls_history
  have hmax : nonceOf primitives (history primitives (devGenesis []) devCalls).1.store
      (addressOf 1) < u64Max := by
    rw [hnonce]
    decide
  exact ⟨hnonce, (history_nonces (devGenesis []) (by decide +kernel) devCalls (addressOf 1) hmax).1⟩

end ChainLedger

end Sprax
