import Sprax.Token
import Sprax.Runs
import Sprax.Devnet

/-!
# Stored balances and the total supply of the token contract

A successful call is one of five state changes. Each moves the sum of the stored
balances and the recorded supply by the same amount, except a transfer from an
address to itself: both balances are read before either is written, so the credit
overwrites the debit. The loop over the initial balances has the same flaw when an
address is listed twice: the balance is overwritten, the supply is added to.
-/
namespace Sprax.Wasm.TokenContract
open Std FiniteMap Effects Runs ContractStorage

/-- A key under which a balance is stored. -/
def IsBalanceKey (key : Bytes) : Prop := key.length = 24 ∧ key.take 4 = ascii "bal_"

instance decidableIsBalanceKey (key : Bytes) : Decidable (IsBalanceKey key) :=
  inferInstanceAs (Decidable (_ ∧ _))

theorem isBalanceKey_balanceKey (a : Address) : IsBalanceKey (balanceKey a) :=
  ⟨by simp [balanceKey, ascii, a.length_eq], by simp [balanceKey, ascii]⟩

theorem not_isBalanceKey_keyInfo : ¬ IsBalanceKey keyInfo := by decide

theorem not_isBalanceKey_allowanceKey (owner spender : Address) :
    ¬ IsBalanceKey (allowanceKey owner spender) := by
  intro h
  have hlen := h.1
  simp [allowanceKey, ascii, owner.length_eq, spender.length_eq] at hlen

theorem balanceKey_injective : Function.Injective balanceKey := by
  intro a b h
  exact Address.ext_bytes (List.append_cancel_left h)

theorem keyInfo_ne_balanceKey (a : Address) : keyInfo ≠ balanceKey a := by
  intro h
  exact not_isBalanceKey_keyInfo (h ▸ isBalanceKey_balanceKey a)

theorem allowanceKey_ne_balanceKey (owner spender a : Address) :
    allowanceKey owner spender ≠ balanceKey a := by
  intro h
  exact not_isBalanceKey_allowanceKey owner spender (h ▸ isBalanceKey_balanceKey a)

theorem allowanceKey_ne_keyInfo (owner spender : Address) :
    allowanceKey owner spender ≠ keyInfo := by
  intro h
  have hlen := congrArg List.length h
  simp [allowanceKey, keyInfo, ascii, owner.length_eq, spender.length_eq] at hlen

variable (P : Primitives) (J : TokenJson)

/-- What one entry of the table adds to the balances. -/
def balanceMeasure (key value : Bytes) : ℕ :=
  if IsBalanceKey key then (readAmount J (some value)).atto else 0

/-- The sum of all stored balances. -/
def storedBalances (s : ContractStorage) (contract : Address) : ℕ :=
  weightOn (balanceMeasure J) (s.table contract)

/-- The stored token record. -/
def storedInfo (s : ContractStorage) (contract : Address) : Option TokenInfo :=
  (s.getRaw contract keyInfo).bind (fun v => (J.info.fromSlice v).toOption)

/-- The balance of an address, in atomic units. -/
def balanceOf (s : ContractStorage) (contract a : Address) : ℕ :=
  (readAmount J (s.getRaw contract (balanceKey a))).atto

/-- The stored balances sum to the recorded supply. -/
def Supplied (contract : Address) (s : ContractStorage) : Prop :=
  ∃ info, storedInfo J s contract = some info ∧ storedBalances J s contract = info.totalSupply.atto

instance decidableSupplied (contract : Address) (s : ContractStorage) :
    Decidable (Supplied J contract s) :=
  decidable_of_iff
    ((storedInfo J s contract).any (fun info => storedBalances J s contract =
      info.totalSupply.atto) = true)
    (by simp [Supplied, Option.any_eq_true])

variable {J} {s : ContractStorage} {contract : Address}

@[simp] theorem readAmount_toVec (x : Amount) : readAmount J (some (J.amount.toVec x)) = x := by
  simp [readAmount, J.amount.fromSlice_toVec, Except.toOption]

theorem storedBalances_setBalance (J : TokenJson) (s : ContractStorage) (contract a : Address)
    (x : Amount) :
    storedBalances J (s.setRaw contract (balanceKey a) (J.amount.toVec x)) contract +
      balanceOf J s contract a = storedBalances J s contract + x.atto := by
  have hw := weightOn_insert (balanceMeasure J) (s.table contract) (balanceKey a) (J.amount.toVec x)
  have hnew : balanceMeasure J (balanceKey a) (J.amount.toVec x) = x.atto := by
    rw [balanceMeasure, if_pos (isBalanceKey_balanceKey a), readAmount_toVec]
  have hold : ((s.table contract)[balanceKey a]?).elim 0 (balanceMeasure J (balanceKey a)) =
      balanceOf J s contract a := by
    rw [balanceOf, getRaw_eq]
    cases (s.table contract)[balanceKey a]? with
    | none => rfl
    | some v => simp only [Option.elim_some, balanceMeasure, if_pos (isBalanceKey_balanceKey a)]
  rw [storedBalances, table_setRaw, storedBalances]
  omega

theorem storedBalances_setOther {key : Bytes} (hkey : ¬ IsBalanceKey key) (value : Bytes) :
    storedBalances J (s.setRaw contract key value) contract = storedBalances J s contract := by
  have hw := weightOn_insert (balanceMeasure J) (s.table contract) key value
  have hzero : ∀ v, balanceMeasure J key v = 0 := fun v => if_neg hkey
  have hold : ((s.table contract)[key]?).elim 0 (balanceMeasure J key) = 0 := by
    cases (s.table contract)[key]? <;> simp [hzero]
  rw [storedBalances, table_setRaw, storedBalances]
  simp only [hzero, hold] at hw
  omega

theorem balanceOf_setBalance (a b : Address) (x : Amount) :
    balanceOf J (s.setRaw contract (balanceKey a) (J.amount.toVec x)) contract b =
      if a = b then x.atto else balanceOf J s contract b := by
  unfold balanceOf
  by_cases h : a = b
  · subst h
    rw [getRaw_setRaw_self, readAmount_toVec, if_pos rfl]
  · rw [getRaw_setRaw_ne _ _ (fun hk => h (balanceKey_injective hk.2)), if_neg h]

theorem balanceOf_setOther {key : Bytes} (hkey : ¬ IsBalanceKey key) (value : Bytes) (a : Address) :
    balanceOf J (s.setRaw contract key value) contract a = balanceOf J s contract a := by
  unfold balanceOf
  rw [getRaw_setRaw_ne]
  rintro ⟨-, rfl⟩
  exact hkey (isBalanceKey_balanceKey a)

theorem storedInfo_setOther {key : Bytes} (hkey : key ≠ keyInfo) (value : Bytes) :
    storedInfo J (s.setRaw contract key value) contract = storedInfo J s contract := by
  unfold storedInfo
  rw [getRaw_setRaw_ne _ _ (fun h => hkey h.2)]

@[simp] theorem storedInfo_setInfo (info : TokenInfo) :
    storedInfo J (s.setRaw contract keyInfo (J.info.toVec info)) contract = some info := by
  simp [storedInfo, getRaw_setRaw_self, J.info.fromSlice_toVec, Except.toOption]

/-- The writes of a successful transfer. -/
inductive Moved (J : TokenJson) (contract source dest : Address) (amount : Amount)
    (s : ContractStorage) :
    ContractStorage → Prop
  | nothing (h : amount.atto = 0) : Moved J contract source dest amount s s
  | both (h : amount.atto ≠ 0) (x y : Amount)
      (hx : x.atto + amount.atto = balanceOf J s contract source)
      (hy : y.atto = balanceOf J s contract dest + amount.atto) :
      Moved J contract source dest amount s
        ((s.setRaw contract (balanceKey source) (J.amount.toVec x)).setRaw contract
          (balanceKey dest) (J.amount.toVec y))

/-- The writes of a successful call. -/
inductive Executed (J : TokenJson) (contract sender : Address) (s : ContractStorage) :
    TokenExecuteMsg → ContractStorage → Prop
  | transfer {recipient amount t} (h : Moved J contract sender recipient amount s t) :
      Executed J contract sender s (.transfer recipient amount) t
  | transferFrom {owner recipient amount t} (left : Amount)
      (h : Moved J contract owner recipient amount
        (s.setRaw contract (allowanceKey owner sender) (J.amount.toVec left)) t) :
      Executed J contract sender s (.transferFrom owner recipient amount) t
  | approve {spender amount} :
      Executed J contract sender s (.approve spender amount)
        (s.setRaw contract (allowanceKey sender spender) (J.amount.toVec amount))
  | mint {recipient amount} (info : TokenInfo) (supply bal : Amount)
      (hinfo : storedInfo J s contract = some info)
      (hsupply : supply.atto = info.totalSupply.atto + amount.atto)
      (hbal : bal.atto = balanceOf J s contract recipient + amount.atto) :
      Executed J contract sender s (.mint recipient amount)
        ((s.setRaw contract keyInfo (J.info.toVec { info with totalSupply := supply })).setRaw
          contract (balanceKey recipient) (J.amount.toVec bal))
  | burn {amount} (info : TokenInfo) (supply bal : Amount)
      (hinfo : storedInfo J s contract = some info)
      (hsupply : supply.atto + amount.atto = info.totalSupply.atto)
      (hbal : bal.atto + amount.atto = balanceOf J s contract sender) :
      Executed J contract sender s (.burn amount)
        ((s.setRaw contract (balanceKey sender) (J.amount.toVec bal)).setRaw contract keyInfo
          (J.info.toVec { info with totalSupply := supply }))

theorem moved_of_returns {env : Env} {source dest : Address} {amount : Amount} {g : GasMeter}
    {Q : Unit → World → Prop} (h : Returns (performTransfer J env source dest amount) ⟨s, g⟩ Q) :
    ∃ t g', Moved J env.contractAddress source dest amount s t ∧ Q () ⟨t, g'⟩ := by
  simp only [performTransfer, returns_ite, returns_pure, returns_bind, returns_get, returns_fail,
    returns_arithmetic, returns_set, and_false, false_or] at h
  rcases h with ⟨hz, hq⟩ | ⟨hnz, -, -, -, x, hx, y, hy, -, -, hq⟩
  · exact ⟨s, g, .nothing (by simpa [Amount.isZero] using hz), hq⟩
  · exact ⟨_, _, .both (by simpa [Amount.isZero] using hnz) x y (Amount.checkedSub_ok.mp hx)
      (Amount.checkedAdd_ok.mp hy), hq⟩

/-- A stored record that decodes, as the calls read it. -/
theorem storedInfo_of_read {bytes : Bytes} {info : TokenInfo} (hb : s.getRaw contract keyInfo =
    some bytes) (hi : (J.info.fromSlice bytes).toOption = some info) :
      storedInfo J s contract = some info := by
  rw [storedInfo, hb, Option.bind_some, hi]

theorem executed_of_returns {env : Env} {info : MessageInfo} {msg : TokenExecuteMsg} {g : GasMeter}
    {Q : ContractResponse → World → Prop} (h : Returns (execute P J env info msg) ⟨s, g⟩ Q) :
    ∃ t g' r, Executed J env.contractAddress info.sender s msg t ∧ Q r ⟨t, g'⟩ := by
  cases msg with
  | transfer recipient amount =>
    simp only [execute, returns_bind, returns_pure] at h
    obtain ⟨t, g', hm, hq⟩ := moved_of_returns h
    exact ⟨t, g', _, .transfer hm, hq⟩
  | transferFrom owner recipient amount =>
    simp only [execute, returns_bind, returns_get, returns_ite, returns_fail, returns_arithmetic,
      returns_set, returns_pure, and_false, false_or] at h
    obtain ⟨-, -, left, -, -, h⟩ := h
    obtain ⟨t, g', hm, hq⟩ := moved_of_returns h
    exact ⟨t, g', _, .transferFrom left hm, hq⟩
  | approve spender amount =>
    simp only [execute, returns_bind, returns_set, returns_pure] at h
    exact ⟨_, _, _, .approve, h.2⟩
  | mint recipient amount =>
    simp only [execute, returns_bind, returns_get, returns_okOr, returns_unwrap, returns_ite,
      returns_fail, returns_arithmetic, returns_set, returns_pure, and_false, false_or] at h
    obtain ⟨-, bytes, hb, ti, hi, -, supply, hs, -, -, bal, hbal, -, hq⟩ := h
    have hother : balanceOf J (s.setRaw env.contractAddress keyInfo
        (J.info.toVec { ti with totalSupply := supply })) env.contractAddress recipient =
        balanceOf J s env.contractAddress recipient :=
      balanceOf_setOther not_isBalanceKey_keyInfo _ recipient
    refine ⟨_, _, _, .mint ti supply bal (storedInfo_of_read hb hi)
      (Amount.checkedAdd_ok.mp hs) ?_, hq⟩
    rw [← hother]
    exact Amount.checkedAdd_ok.mp hbal
  | burn amount =>
    simp only [execute, returns_bind, returns_get, returns_unwrap, returns_ite, returns_fail,
      returns_arithmetic, returns_set, returns_pure, and_false, false_or] at h
    obtain ⟨-, -, bal, hbal, -, -, bytes, hb, ti, hi, supply, hs, -, hq⟩ := h
    have hinfo := storedInfo_of_read hb hi
    rw [storedInfo_setOther (keyInfo_ne_balanceKey _).symm] at hinfo
    exact ⟨_, _, _, .burn ti supply bal hinfo (Amount.checkedSub_ok.mp hs)
      (Amount.checkedSub_ok.mp hbal), hq⟩

/-- A transfer of something from an address to itself. -/
def SelfTransfer (sender : Address) : TokenExecuteMsg → Prop
  | .transfer recipient amount => sender = recipient ∧ amount.atto ≠ 0
  | .transferFrom owner recipient amount => owner = recipient ∧ amount.atto ≠ 0
  | .approve _ _ => False
  | .mint _ _ => False
  | .burn _ => False

instance decidableSelfTransfer (sender : Address) : ∀ msg, Decidable (SelfTransfer sender msg)
  | .transfer _ _ => inferInstanceAs (Decidable (_ ∧ _))
  | .transferFrom _ _ _ => inferInstanceAs (Decidable (_ ∧ _))
  | .approve _ _ => isFalse id
  | .mint _ _ => isFalse id
  | .burn _ => isFalse id

theorem Moved.storedInfo {source dest : Address} {amount : Amount} {t : ContractStorage}
    (h : Moved J contract source dest amount s t) :
    TokenContract.storedInfo J t contract = TokenContract.storedInfo J s contract := by
  cases h with
  | nothing h => rfl
  | both h x y hx hy =>
    rw [storedInfo_setOther (keyInfo_ne_balanceKey _).symm,
      storedInfo_setOther (keyInfo_ne_balanceKey _).symm]

/-- A transfer keeps the sum of the balances unless it aliases. -/
theorem Moved.storedBalances {source dest : Address} {amount : Amount} {t : ContractStorage}
    (h : Moved J contract source dest amount s t) :
    TokenContract.storedBalances J t contract =
      TokenContract.storedBalances J s contract + if source = dest then amount.atto else 0 := by
  cases h with
  | nothing h => simp [h]
  | both h x y hx hy =>
    have hdebit := storedBalances_setBalance J s contract source x
    have hcredit := storedBalances_setBalance J
      (s.setRaw contract (balanceKey source) (J.amount.toVec x)) contract dest y
    rw [balanceOf_setBalance] at hcredit
    by_cases hsame : source = dest
    · subst hsame
      simp only [if_true] at hcredit ⊢
      omega
    · simp only [if_neg hsame] at hcredit ⊢
      omega

theorem Moved.supplied_iff {source dest : Address} {amount : Amount} {t : ContractStorage}
    (h : Moved J contract source dest amount s t) (hs : Supplied J contract s) :
    Supplied J contract t ↔ ¬ (source = dest ∧ amount.atto ≠ 0) := by
  obtain ⟨info, hinfo, hsum⟩ := hs
  simp only [Supplied, h.storedInfo, hinfo, Option.some.injEq, exists_eq_left', h.storedBalances,
    hsum]
  by_cases hsame : source = dest <;> simp [hsame]

theorem supplied_setAllowance (owner spender : Address) (value : Bytes) :
    Supplied J contract (s.setRaw contract (allowanceKey owner spender) value) ↔
      Supplied J contract s := by
  simp only [Supplied, storedInfo_setOther (allowanceKey_ne_keyInfo owner spender),
    storedBalances_setOther (not_isBalanceKey_allowanceKey owner spender)]

/-- The step: from balances that sum to the supply, exactly the self-transfers
leave balances that do not. -/
theorem Executed.supplied_iff {sender : Address} {msg : TokenExecuteMsg} {t : ContractStorage}
    (h : Executed J contract sender s msg t) (hs : Supplied J contract s) :
    Supplied J contract t ↔ ¬ SelfTransfer sender msg := by
  cases h with
  | transfer h => exact h.supplied_iff hs
  | transferFrom left h => exact h.supplied_iff ((supplied_setAllowance _ _ _).mpr hs)
  | approve => exact iff_of_true ((supplied_setAllowance _ _ _).mpr hs) id
  | mint info supply bal hinfo hsupply hbal =>
    refine iff_of_true ⟨{ info with totalSupply := supply }, ?_, ?_⟩ id
    · rw [storedInfo_setOther (keyInfo_ne_balanceKey _).symm, storedInfo_setInfo]
    · obtain ⟨info', hinfo', hsum⟩ := hs
      cases hinfo.symm.trans hinfo'
      rename_i recipient amount
      have hcredit := storedBalances_setBalance J
        (s.setRaw contract keyInfo (J.info.toVec { info with totalSupply := supply })) contract
          recipient bal
      rw [balanceOf_setOther not_isBalanceKey_keyInfo,
        storedBalances_setOther not_isBalanceKey_keyInfo] at hcredit
      dsimp only
      omega
  | burn info supply bal hinfo hsupply hbal =>
    refine iff_of_true ⟨{ info with totalSupply := supply }, storedInfo_setInfo _, ?_⟩ id
    obtain ⟨info', hinfo', hsum⟩ := hs
    cases hinfo.symm.trans hinfo'
    have hdebit := storedBalances_setBalance J s contract sender bal
    rw [storedBalances_setOther not_isBalanceKey_keyInfo]
    dsimp only
    omega

/-- An address that is listed again later is listed with nothing before. -/
def Unrepeated : List InitialBalance → Prop
  | [] => True
  | ib :: rest => (ib.amount.atto = 0 ∨ ∀ r ∈ rest, r.address ≠ ib.address) ∧ Unrepeated rest

instance decidableUnrepeated : ∀ l, Decidable (Unrepeated l)
  | [] => isTrue trivial
  | _ :: rest =>
    have := decidableUnrepeated rest
    inferInstanceAs (Decidable (_ ∧ _))

/-- The loop adds to the supply what it adds to the balances and what it
overwrites; nothing is overwritten exactly if no listed address had anything. -/
theorem creditInitial_returns {env : Env} {l : List InitialBalance} {total : Amount} {g : GasMeter}
    {Q : Amount → World → Prop} (h : Returns (creditInitial J env l total) ⟨s, g⟩ Q) :
    ∃ t g' supply lost,
      storedBalances J t env.contractAddress + lost + total.atto =
        storedBalances J s env.contractAddress + supply.atto ∧
      (lost = 0 ↔ (∀ ib ∈ l, balanceOf J s env.contractAddress ib.address = 0) ∧ Unrepeated l) ∧
      Q supply ⟨t, g'⟩ := by
  induction l generalizing s total g with
  | nil =>
    refine ⟨s, g, total, 0, rfl, by simp [Unrepeated], ?_⟩
    simpa [creditInitial] using h
  | cons ib rest ih =>
    simp only [creditInitial, returns_bind, returns_arithmetic, returns_set] at h
    obtain ⟨total', htotal, -, h⟩ := h
    have hadd := Amount.checkedAdd_ok.mp htotal
    have hcredit := storedBalances_setBalance J s env.contractAddress ib.address ib.amount
    obtain ⟨t, g', supply, lost, hsum, hlost, hq⟩ := ih h
    refine ⟨t, g', supply, lost + balanceOf J s env.contractAddress ib.address, by omega, ?_, hq⟩
    rw [Nat.add_eq_zero_iff, hlost]
    simp only [balanceOf_setBalance, List.forall_mem_cons, Unrepeated]
    constructor
    · rintro ⟨⟨hrest, hun⟩, hib⟩
      refine ⟨⟨hib, fun r hr => ?_⟩, ?_, hun⟩
      · by_cases heq : ib.address = r.address
        · rw [← heq, hib]
        · simpa [heq] using hrest r hr
      · by_cases hz : ib.amount.atto = 0
        · exact .inl hz
        · refine .inr (fun r hr heq => hz ?_)
          simpa [heq] using hrest r hr
    · rintro ⟨⟨hib, hrest⟩, hz, hun⟩
      refine ⟨⟨fun r hr => ?_, hun⟩, hib⟩
      by_cases heq : ib.address = r.address
      · rw [if_pos heq]
        exact hz.resolve_right (fun hne => hne r hr heq.symm)
      · rw [if_neg heq]
        exact hrest r hr

/-- A fresh contract starts with balances that sum to its supply exactly if no
initial balance is overwritten. -/
theorem instantiate_supplied_iff {env : Env} {info : MessageInfo} {name symbol : String}
    {decimals : UInt8} {initialBalances : List InitialBalance} {minter : Option Address}
    {g : GasMeter} {r : ContractResponse}
    (h : finish (instantiate P J env info name symbol decimals initialBalances minter ⟨.new, g⟩) =
      (s, .ok r)) :
    Supplied J env.contractAddress s ↔ Unrepeated initialBalances := by
  have hret : Returns (instantiate P J env info name symbol decimals initialBalances minter)
      ⟨.new, g⟩ (fun _ w => w.storage = s) := by
    rcases finish_cases h with ⟨r', -, hret⟩ | ⟨e, he, -⟩
    · exact hret.mono (fun _ _ hq => hq.2)
    · cases he
  simp only [instantiate, returns_bind, returns_pure] at hret
  obtain ⟨t, g', supply, lost, hsum, hlost, hwrite⟩ := creditInitial_returns hret
  obtain ⟨-, rfl⟩ := (returns_set _ _ _ _ _ _).mp hwrite
  have hempty : storedBalances J .new env.contractAddress = 0 := by
    simp [storedBalances, ContractStorage.table, ContractStorage.new]
  have hnone : ∀ a, balanceOf J .new env.contractAddress a = 0 := by
    intro a
    simp [balanceOf, ContractStorage.getRaw, ContractStorage.new, readAmount, Amount.zero]
  have hzero : Amount.zero.atto = 0 := rfl
  simp only [Supplied, storedInfo_setInfo, Option.some.injEq, exists_eq_left',
    storedBalances_setOther not_isBalanceKey_keyInfo]
  rw [show Unrepeated initialBalances ↔ lost = 0 by rw [hlost]; simp [hnone]]
  omega

/-- The storage after a call. -/
def call (J : TokenJson) (s : ContractStorage) (c : Invocation TokenExecuteMsg) : ContractStorage :=
  (invoke (execute P J) s c).1

/-- A call of the contract that returns `Ok`. -/
def ReturnsOk (J : TokenJson) (contract : Address) (s : ContractStorage)
    (c : Invocation TokenExecuteMsg) :
    Prop :=
  c.env.contractAddress = contract ∧ (invoke (execute P J) s c).2.isOk

instance decidableReturnsOk (J : TokenJson) (contract : Address) (s : ContractStorage)
    (c : Invocation TokenExecuteMsg) : Decidable (ReturnsOk P J contract s c) :=
  inferInstanceAs (Decidable (_ ∧ _))

theorem ReturnsOk.executed {c : Invocation TokenExecuteMsg} (h : ReturnsOk P J contract s c) :
    Executed J contract c.info.sender s c.msg (call P J s c) := by
  obtain ⟨rfl, hok⟩ := h
  rcases invoke_cases (execute P J) s c with ⟨r, -, hret⟩ | ⟨e, he, -⟩
  · obtain ⟨t, g', r', hex, -, ht⟩ := executed_of_returns P hret
    rw [call, ← ht]
    exact hex
  · rw [he] at hok
    cases hok

/-- In a run of successful calls of a fresh contract the stored balances always
sum to the supply exactly if no initial balance is overwritten and no call is a
transfer of something from an address to itself. -/
theorem supplied_throughout_iff {env : Env} {info : MessageInfo} {name symbol : String}
    {decimals : UInt8} {initialBalances : List InitialBalance} {minter : Option Address}
    {g : GasMeter} {r : ContractResponse} {calls : List (Invocation TokenExecuteMsg)}
    (hinst : finish (instantiate P J env info name symbol decimals initialBalances minter
      ⟨.new, g⟩) = (s, .ok r))
    (hcalls : Along (ReturnsOk P J env.contractAddress) (call P J) s calls) :
    Throughout (Supplied J env.contractAddress) (call P J) s calls ↔
      Unrepeated initialBalances ∧ ∀ c ∈ calls, ¬ SelfTransfer c.info.sender c.msg := by
  rw [← instantiate_supplied_iff P hinst]
  clear hinst
  induction calls generalizing s with
  | nil => simp [Throughout]
  | cons c rest ih =>
    rw [Throughout, ih hcalls.2, List.forall_mem_cons, ← and_assoc, ← and_assoc]
    refine and_congr_left (fun _ => and_congr_right (fun hs => ?_))
    exact (ReturnsOk.executed P hcalls.1).supplied_iff hs

open Devnet Codec

def tokenInfoCodec : Codec TokenInfo :=
  (string.prod (string.prod (byte.prod (amountCodec.prod addressCodec.option)))).through
    (fun i => (i.name, i.symbol, i.decimals, i.totalSupply, i.minter))
    (fun t => some ⟨t.1, t.2.1, t.2.2.1, t.2.2.2.1, t.2.2.2.2⟩) (fun _ => rfl)

def devJson : TokenJson := ⟨json amountCodec, json tokenInfoCodec⟩

def devEnv : Env := ⟨1, Address.zero⟩

/-- The address with the given last byte. -/
def devAddress (n : UInt8) : Address := ⟨List.replicate 19 0 ++ [n], by simp⟩

/-- The token of address 1, with the given initial balances. -/
def devInstantiate (initialBalances : List InitialBalance) :
    ContractStorage × Except Abort ContractResponse :=
  finish (instantiate primitives devJson devEnv ⟨devAddress 1, Amount.zero⟩ "Token" "TKN" 6
    initialBalances (some (devAddress 1)) ⟨.new, .new 100000⟩)

/-- A call of address 1. -/
def devCall (msg : TokenExecuteMsg) : Invocation TokenExecuteMsg :=
  ⟨devEnv, ⟨devAddress 1, Amount.zero⟩, .new 100000, msg⟩

/-- Address 1 holds everything, mints, pays address 2 and burns. -/
def devBalances : List InitialBalance := [⟨devAddress 1, units 100⟩]

def devCalls : List (Invocation TokenExecuteMsg) :=
  [devCall (.mint (devAddress 2) (units 7)), devCall (.transfer (devAddress 2) (units 40)),
    devCall (.burn (units 10))]

theorem devInstantiate_isOk : (devInstantiate devBalances).2.isOk = true := by decide +kernel

theorem supplied_throughout_devCalls :
    Throughout (Supplied devJson devEnv.contractAddress) (call primitives devJson)
      (devInstantiate devBalances).1 devCalls :=
  (supplied_throughout_iff primitives (Prod.ext rfl (eq_okValue _ devInstantiate_isOk))
    (by decide +kernel)).mpr ⟨by decide +kernel, by decide +kernel⟩

/-- Address 1 pays 40 of its 100 units to itself and holds 140 of a supply of 100.
Listed with 100 and then with 30, it starts with 30 of a supply of 130. -/
theorem selfTransfer_inflates :
    ((devInstantiate devBalances).2.isOk ∧
      ReturnsOk primitives devJson devEnv.contractAddress (devInstantiate devBalances).1
        (devCall (.transfer (devAddress 1) (units 40))) ∧
      ¬ Supplied devJson devEnv.contractAddress
        (call primitives devJson (devInstantiate devBalances).1
          (devCall (.transfer (devAddress 1) (units 40))))) ∧
    (devInstantiate (devBalances ++ [⟨devAddress 1, units 30⟩])).2.isOk ∧
      ¬ Supplied devJson devEnv.contractAddress
        (devInstantiate (devBalances ++ [⟨devAddress 1, units 30⟩])).1 := by
  decide +kernel

end Sprax.Wasm.TokenContract
