import Sprax.GasLimits
import Sprax.Spending

/-!
# What the token contract is a ledger of

Above the stored JSON values the token contract is a table of balances, a table of
allowances and a supply, all of them plain numbers. Every call that its gas limit does
not cut succeeds exactly where this ledger allows it, none panics, and the queries read
the ledger back. Failing calls are not without effect: a `TransferFrom` without cover
has spent the allowance, a `Mint` over the largest balance has raised the supply, and a
`Burn` beyond the supply has lowered the balance.
-/
namespace Sprax.Wasm
open Std Effects Runs ContractStorage

/-- What a method does to the storage on every meter, unless the meter cuts it. -/
abbrev Settles {α : Type} (p : Exec α) (s : ContractStorage) (Q : α → ContractStorage → Prop)
    (E : Abort → ContractStorage → Prop) : Prop :=
  Yields World.storage (fun e => e.isOutOfGas = true) p s Q E

section Settles
variable {α : Type} {contract : Address} {s : ContractStorage} {key : Bytes}
  {E : Abort → ContractStorage → Prop}

theorem settles_get {Q : Option Bytes → ContractStorage → Prop} (h : Q (s.getRaw contract key) s) :
    Settles (ContractStorage.get contract key) s Q E := by
  rintro ⟨u, g⟩ rfl
  by_cases haffords : g.Affords (u.readGas contract key)
  · exact .inl ((returns_get _ _ _ _ _).mpr ⟨haffords, h⟩)
  · exact .inr ((raises_get _ _ _ _ _).mpr ⟨haffords, .inl rfl⟩)

theorem settles_set {value : Bytes} {Q : Unit → ContractStorage → Prop}
    (h : Q () (s.setRaw contract key value)) :
    Settles (ContractStorage.set contract key value) s Q E := by
  rintro ⟨_, g⟩ rfl
  by_cases haffords : g.Affords (ContractStorage.writeGas key value)
  · exact .inl ((returns_set _ _ _ _ _ _).mpr ⟨haffords, h⟩)
  · exact .inr ((raises_set _ _ _ _ _ _).mpr ⟨haffords, .inl rfl⟩)

theorem settles_arithmetic {x : Except TypeError α} {Q : α → ContractStorage → Prop}
    (hok : ∀ a, x = .ok a → Q a s) (herror : ∀ e, x = .error e →
      E (.error (.arithmeticError e.display)) s) :
    Settles (arithmetic x) s Q E := by
  cases x with
  | ok a => exact .pure (hok a rfl)
  | error e => exact .throw (herror e rfl)

/-- The storage and the result of a call that its meter does not cut. -/
theorem finish_of_settles {p : Exec α} {Q : α → ContractStorage → Prop} (h : Settles p s Q E)
    {g : GasMeter} (hfine : ¬ Starved (p ⟨s, g⟩)) :
    (∃ a, (finish (p ⟨s, g⟩)).2 = .ok a ∧ Q a (finish (p ⟨s, g⟩)).1) ∨
      ∃ e, (finish (p ⟨s, g⟩)).2 = .error e ∧ E e (finish (p ⟨s, g⟩)).1 := by
  rcases h ⟨s, g⟩ rfl with ⟨a, t, hrun, hq⟩ | ⟨e, t, hrun, he⟩
  · rw [hrun]
    exact .inl ⟨a, rfl, hq⟩
  · rw [hrun] at hfine ⊢
    exact .inr ⟨e, rfl, he.resolve_left hfine⟩

end Settles

namespace TokenContract

inductive TokenQueryMsg
  | balance (address : Address)
  | allowance (owner spender : Address)
  | tokenInfo
  deriving DecidableEq

/-- The read-only entry point, which is not metered. -/
def query (J : TokenJson) (s : ContractStorage) (env : Env) : TokenQueryMsg →
    Except ContractError Bytes
  | .balance address =>
    .ok (J.amount.toVec (readAmount J (s.getRaw env.contractAddress (balanceKey address))))
  | .allowance owner spender =>
    .ok (J.amount.toVec (readAmount J (s.getRaw env.contractAddress (allowanceKey owner spender))))
  | .tokenInfo =>
    match s.getRaw env.contractAddress keyInfo with
    | some info => .ok info
    | none => .error (.contractNotFound "missing token info")

/-- Balances, allowances and supply of a token, with the data that never change. -/
structure TokenLedger where
  balances : Address → ℕ
  allowances : Address → Address → ℕ
  supply : ℕ
  name : String
  symbol : String
  decimals : UInt8
  minter : Option Address

namespace TokenLedger
variable (L : TokenLedger)

/-- There is cover for the transfer, and room for it. -/
def Covers (source dest : Address) (amount : ℕ) : Prop :=
  amount = 0 ∨ amount ≤ L.balances source ∧ L.balances dest + amount < 2 ^ 128

/-- Both balances are computed before either is replaced. -/
def move (source dest : Address) (amount : ℕ) : TokenLedger :=
  { L with
    balances := Function.update (Function.update L.balances source (L.balances source - amount))
      dest (L.balances dest + amount) }

def approve (owner spender : Address) (amount : ℕ) : TokenLedger :=
  { L with
    allowances := Function.update L.allowances owner
      (Function.update (L.allowances owner) spender amount) }

def draw (owner spender : Address) (amount : ℕ) : TokenLedger :=
  L.approve owner spender (L.allowances owner spender - amount)

/-- What the sender may do. -/
def Allows (sender : Address) : TokenExecuteMsg → Prop
  | .transfer recipient amount => L.Covers sender recipient amount.atto
  | .transferFrom owner recipient amount =>
    amount.atto ≤ L.allowances owner sender ∧ L.Covers owner recipient amount.atto
  | .approve _ _ => True
  | .mint recipient amount => L.minter = some sender ∧ L.supply + amount.atto < 2 ^ 128 ∧
    L.balances recipient + amount.atto < 2 ^ 128
  | .burn amount => amount.atto ≤ L.balances sender ∧ amount.atto ≤ L.supply

open Classical in
/-- The ledger after a call, allowed or not. -/
noncomputable def next (sender : Address) : TokenExecuteMsg → TokenLedger
  | .transfer recipient amount =>
    if L.Covers sender recipient amount.atto then L.move sender recipient amount.atto else L
  | .transferFrom owner recipient amount =>
    if amount.atto ≤ L.allowances owner sender then
      if L.Covers owner recipient amount.atto then
        (L.draw owner sender amount.atto).move owner recipient amount.atto
      else L.draw owner sender amount.atto
    else L
  | .approve spender amount => L.approve sender spender amount.atto
  | .mint recipient amount =>
    if L.minter = some sender ∧ L.supply + amount.atto < 2 ^ 128 then
      { L with
        supply := L.supply + amount.atto
        balances := if L.balances recipient + amount.atto < 2 ^ 128
          then Function.update L.balances recipient (L.balances recipient + amount.atto)
            else L.balances }
    else L
  | .burn amount =>
    if amount.atto ≤ L.balances sender then
      { L with
        balances := Function.update L.balances sender (L.balances sender - amount.atto)
        supply := if amount.atto ≤ L.supply then L.supply - amount.atto else L.supply }
    else L

/-- A new token: of several entries for an address the last one counts as its balance, and
all of them count as supply. -/
def opened (name symbol : String) (decimals : UInt8) (initialBalances : List InitialBalance)
    (minter : Option Address) : TokenLedger where
  balances := initialBalances.foldl (fun b ib => Function.update b ib.address ib.amount.atto)
    (fun _ => 0)
  allowances := fun _ _ => 0
  supply := initialBalances.foldl (fun n ib => n + ib.amount.atto) 0
  name := name
  symbol := symbol
  decimals := decimals
  minter := minter

/-- What a query should return. -/
def Answers (J : TokenJson) : TokenQueryMsg → Except ContractError Bytes → Prop
  | .balance address, r => ∃ x : Amount, x.atto = L.balances address ∧ r = .ok (J.amount.toVec x)
  | .allowance owner spender, r =>
    ∃ x : Amount, x.atto = L.allowances owner spender ∧ r = .ok (J.amount.toVec x)
  | .tokenInfo, r => ∃ total : Amount, total.atto = L.supply ∧
    r = .ok (J.info.toVec ⟨L.name, L.symbol, L.decimals, total, L.minter⟩)

theorem move_zero (source dest : Address) : L.move source dest 0 = L := by
  simp [move]

end TokenLedger

section Shows
variable {J : TokenJson} {contract : Address} {s : ContractStorage} {L : TokenLedger}

/-- The stored values are those of the ledger. -/
structure Shows (J : TokenJson) (contract : Address) (s : ContractStorage)
    (L : TokenLedger) : Prop where
  balances : ∀ a, balanceOf J s contract a = L.balances a
  allowances : ∀ owner spender, allowanceOf J s contract owner spender = L.allowances owner spender
  info : ∃ total : Amount, total.atto = L.supply ∧
    s.getRaw contract keyInfo = some (J.info.toVec ⟨L.name, L.symbol, L.decimals, total, L.minter⟩)

namespace Shows

theorem setBalance (h : Shows J contract s L) (a : Address) {x : Amount} {n : ℕ} (hx : x.atto = n) :
    Shows J contract (s.setRaw contract (balanceKey a) (J.amount.toVec x))
      { L with balances := Function.update L.balances a n } where
  balances b := by
    rw [balanceOf_setBalance, h.balances, hx]
    by_cases hb : a = b
    · subst hb
      simp
    · simp [hb, Function.update_of_ne (Ne.symm hb)]
  allowances owner spender := by rw [allowanceOf_setBalance, h.allowances]
  info := by
    rw [getRaw_setRaw_ne _ _ (fun hk => keyInfo_ne_balanceKey a hk.2.symm)]
    exact h.info

theorem setAllowance (h : Shows J contract s L) (owner spender : Address) {x : Amount} {n : ℕ}
    (hx : x.atto = n) :
    Shows J contract (s.setRaw contract (allowanceKey owner spender) (J.amount.toVec x))
      (L.approve owner spender n) where
  balances b := by rw [balanceOf_setOther (not_isBalanceKey_allowanceKey _ _), h.balances,
    TokenLedger.approve]
  allowances o p := by
    by_cases hkey : owner = o ∧ spender = p
    · obtain ⟨rfl, rfl⟩ := hkey
      simp [TokenLedger.approve, hx]
    · rw [allowanceOf_setOther (fun hk => hkey (allowanceKey_inj hk)), h.allowances,
        TokenLedger.approve]
      simp only [Function.update_apply]
      grind
  info := by
    rw [getRaw_setRaw_ne _ _ (fun hk => allowanceKey_ne_keyInfo owner spender hk.2)]
    exact h.info

theorem setSupply (h : Shows J contract s L) {total : Amount} {n : ℕ} (htotal : total.atto = n) :
    Shows J contract (s.setRaw contract keyInfo
        (J.info.toVec ⟨L.name, L.symbol, L.decimals, total, L.minter⟩)) { L with supply := n } where
  balances b := by rw [balanceOf_setOther not_isBalanceKey_keyInfo, h.balances]
  allowances owner spender := by
    rw [allowanceOf_setOther (allowanceKey_ne_keyInfo owner spender).symm, h.allowances]
  info := ⟨total, htotal, getRaw_setRaw_self _ _ _ _⟩

/-- Two credits in a row, as a transfer writes them. -/
theorem move (h : Shows J contract s L) {source dest : Address} {x y amount : Amount}
    (hx : x.atto + amount.atto = L.balances source) (hy : y.atto = L.balances dest + amount.atto) :
    Shows J contract ((s.setRaw contract (balanceKey source) (J.amount.toVec x)).setRaw contract
      (balanceKey dest) (J.amount.toVec y)) (L.move source dest amount.atto) := by
  have hsource : x.atto = L.balances source - amount.atto := by omega
  exact (h.setBalance source hsource).setBalance dest hy

end Shows

/-- A call succeeds exactly where the ledger allows it, does not panic, and leaves the next
ledger either way. -/
abbrev Follows (P : Primitives) (J : TokenJson) (env : Env) (info : MessageInfo)
    (s : ContractStorage) (L : TokenLedger) (msg : TokenExecuteMsg) : Prop :=
  Settles (execute P J env info msg) s
    (fun _ t => L.Allows info.sender msg ∧ Shows J env.contractAddress t (L.next info.sender msg))
    (fun e t => ¬ L.Allows info.sender msg ∧ e ≠ .panicked ∧
      Shows J env.contractAddress t (L.next info.sender msg))

variable {P : Primitives} {env : Env} {info : MessageInfo}

theorem settles_transfer (h : Shows J env.contractAddress s L) (source dest : Address)
    (amount : Amount) :
    Settles (performTransfer J env source dest amount) s
      (fun _ t => L.Covers source dest amount.atto ∧
        Shows J env.contractAddress t (L.move source dest amount.atto))
      (fun e t => ¬ L.Covers source dest amount.atto ∧ e ≠ .panicked ∧ t = s) := by
  have hsource := h.balances source
  have hdest := h.balances dest
  unfold performTransfer
  split
  case isTrue hzero =>
    have hnothing : amount.atto = 0 := by simpa [Amount.isZero] using hzero
    rw [hnothing, L.move_zero]
    exact .pure ⟨.inl rfl, h⟩
  case isFalse hsome =>
    have hpositive : amount.atto ≠ 0 := by simpa [Amount.isZero] using hsome
    refine .bind (settles_get ?_)
    dsimp only
    split
    case isTrue hshort =>
      have hless : L.balances source < amount.atto := hsource ▸ hshort
      refine .throw ⟨fun hcovers => ?_, by simp, rfl⟩
      have := hcovers.resolve_left hpositive
      omega
    case isFalse hcover =>
      have hle : amount.atto ≤ L.balances source := hsource ▸ Nat.le_of_not_lt hcover
      refine .bind (settles_get ?_)
      refine .bind (settles_arithmetic (fun x hx => ?_) (fun e he => ?_))
      · have hx' : x.atto + amount.atto = L.balances source := hsource ▸ Amount.checkedSub_ok.mp hx
        refine .bind (settles_arithmetic (fun y hy => ?_) (fun e he => ?_))
        · have hy' : y.atto = L.balances dest + amount.atto := hdest ▸ Amount.checkedAdd_ok.mp hy
          have hroom := y.lt
          exact .bind (settles_set (settles_set ⟨.inr ⟨hle, by omega⟩, h.move hx' hy'⟩))
        · have hfull : 2 ^ 128 ≤ L.balances dest + amount.atto := hdest ▸ Amount.checkedAdd_error he
          refine ⟨fun hcovers => ?_, by simp, rfl⟩
          have := hcovers.resolve_left hpositive
          omega
      · simp [Amount.checkedSub, Nat.le_of_not_lt hcover] at he

theorem follows_mint (h : Shows J env.contractAddress s L) (recipient : Address) (amount : Amount) :
    Follows P J env info s L (.mint recipient amount) := by
  obtain ⟨total, htotal, hinfo⟩ := h.info
  refine .bind (settles_get ?_)
  rw [hinfo]
  refine .bind (.pure ?_)
  rw [J.info.fromSlice_toVec]
  refine .bind (.pure ?_)
  dsimp only
  split
  case isTrue hother =>
    have hnot : ¬ (L.minter = some info.sender ∧ L.supply + amount.atto < 2 ^ 128) :=
      fun hm => hother hm.1
    refine .throw ⟨fun hallowed => hother hallowed.1, by simp, ?_⟩
    rwa [TokenLedger.next, if_neg hnot]
  case isFalse hminter =>
    have hminter : L.minter = some info.sender := not_not.mp hminter
    refine .bind (settles_arithmetic (fun supply hsupply => ?_) (fun e he => ?_))
    · have hsupply : supply.atto = L.supply + amount.atto :=
        htotal ▸ Amount.checkedAdd_ok.mp hsupply
      have hroom : L.minter = some info.sender ∧ L.supply + amount.atto < 2 ^ 128 :=
        ⟨hminter, hsupply ▸ supply.lt⟩
      have hraised := h.setSupply hsupply
      have hbalance := hraised.balances recipient
      refine .bind (settles_set (.bind (settles_get ?_)))
      refine .bind (settles_arithmetic (fun bal hbal => ?_) (fun e he => ?_))
      · have hbal : bal.atto = L.balances recipient + amount.atto :=
          hbalance ▸ Amount.checkedAdd_ok.mp hbal
        have hfits : L.balances recipient + amount.atto < 2 ^ 128 := hbal ▸ bal.lt
        refine .bind (settles_set (.pure ⟨⟨hroom.1, hroom.2, hfits⟩, ?_⟩))
        rw [TokenLedger.next, if_pos hroom, if_pos hfits]
        exact hraised.setBalance recipient hbal
      · have hfull : ¬ L.balances recipient + amount.atto < 2 ^ 128 :=
          Nat.not_lt.mpr (hbalance ▸ Amount.checkedAdd_error he)
        refine ⟨fun hallowed => hfull hallowed.2.2, by simp, ?_⟩
        rw [TokenLedger.next, if_pos hroom, if_neg hfull]
        exact hraised
    · have hfull : ¬ L.supply + amount.atto < 2 ^ 128 :=
        Nat.not_lt.mpr (htotal ▸ Amount.checkedAdd_error he)
      refine ⟨fun hallowed => hfull hallowed.2.1, by simp, ?_⟩
      rwa [TokenLedger.next, if_neg (fun hm => hfull hm.2)]

theorem follows_burn (h : Shows J env.contractAddress s L) (amount : Amount) :
    Follows P J env info s L (.burn amount) := by
  have hbalance := h.balances info.sender
  refine .bind (settles_get ?_)
  dsimp only
  split
  case isTrue hshort =>
    have hless : ¬ amount.atto ≤ L.balances info.sender := by
      rw [← hbalance]
      exact Nat.not_le.mpr hshort
    refine .throw ⟨fun hallowed => hless hallowed.1, by simp, ?_⟩
    rwa [TokenLedger.next, if_neg hless]
  case isFalse hcover =>
    have hle : amount.atto ≤ L.balances info.sender := hbalance ▸ Nat.le_of_not_lt hcover
    refine .bind (settles_arithmetic (fun bal hbal => ?_) (fun e he => ?_))
    · have hbal : bal.atto = L.balances info.sender - amount.atto := by
        have hsum : bal.atto + amount.atto = L.balances info.sender :=
          hbalance ▸ Amount.checkedSub_ok.mp hbal
        omega
      have hlowered := h.setBalance info.sender hbal
      obtain ⟨total, htotal, hinfo⟩ := hlowered.info
      refine .bind (settles_set (.bind (settles_get ?_)))
      rw [hinfo]
      refine .bind (.pure ?_)
      rw [J.info.fromSlice_toVec]
      refine .bind (.pure (.bind (settles_arithmetic (fun supply hsupply => ?_) (fun e he => ?_))))
      · have hsum : supply.atto + amount.atto = L.supply := htotal ▸ Amount.checkedSub_ok.mp hsupply
        have hburnt : amount.atto ≤ L.supply := by omega
        refine .bind (settles_set (.pure ⟨⟨hle, hburnt⟩, ?_⟩))
        rw [TokenLedger.next, if_pos hle, if_pos hburnt]
        exact hlowered.setSupply (by omega)
      · have hless : ¬ amount.atto ≤ L.supply := by
          intro hburnt
          simp [Amount.checkedSub, htotal, hburnt] at he
        refine ⟨fun hallowed => hless hallowed.2, by simp, ?_⟩
        rw [TokenLedger.next, if_pos hle, if_neg hless]
        exact hlowered
    · simp [Amount.checkedSub, Nat.le_of_not_lt hcover] at he

theorem follows_execute (h : Shows J env.contractAddress s L) (msg : TokenExecuteMsg) :
    Follows P J env info s L msg := by
  cases msg with
  | transfer recipient amount =>
    refine .bind ((settles_transfer h info.sender recipient amount).mono (fun _ t ht => .pure ?_)
      (fun e t ht => ?_))
    · obtain ⟨hcovers, hshown⟩ := ht
      refine ⟨hcovers, ?_⟩
      rwa [TokenLedger.next, if_pos hcovers]
    · obtain ⟨hshort, hpanic, rfl⟩ := ht
      refine ⟨hshort, hpanic, ?_⟩
      rwa [TokenLedger.next, if_neg hshort]
  | transferFrom owner recipient amount =>
    have hallowance :
        (readAmount J (s.getRaw env.contractAddress (allowanceKey owner info.sender))).atto =
      L.allowances owner info.sender := h.allowances owner info.sender
    refine .bind (settles_get ?_)
    dsimp only
    rw [hallowance]
    split
    case isTrue hshort =>
      have hless : ¬ amount.atto ≤ L.allowances owner info.sender := Nat.not_le.mpr hshort
      refine .throw ⟨fun hallowed => hless hallowed.1, by simp, ?_⟩
      rwa [TokenLedger.next, if_neg hless]
    case isFalse hcover =>
      have hle : amount.atto ≤ L.allowances owner info.sender := Nat.le_of_not_lt hcover
      refine .bind (settles_arithmetic (fun left hleft => ?_) (fun e he => ?_))
      · have hdrawn : left.atto = L.allowances owner info.sender - amount.atto := by
          have hsum := Amount.checkedSub_ok.mp hleft
          omega
        refine .bind (settles_set
          (.bind ((settles_transfer (h.setAllowance owner info.sender hdrawn) owner recipient
            amount).mono (fun _ t ht => .pure ?_) (fun e t ht => ?_))))
        · have hcovers : L.Covers owner recipient amount.atto := ht.1
          refine ⟨⟨hle, hcovers⟩, ?_⟩
          rw [TokenLedger.next, if_pos hle, if_pos hcovers]
          exact ht.2
        · obtain ⟨hshort, hpanic, rfl⟩ := ht
          have hshort : ¬ L.Covers owner recipient amount.atto := hshort
          refine ⟨fun hallowed => hshort hallowed.2, hpanic, ?_⟩
          rw [TokenLedger.next, if_pos hle, if_neg hshort]
          exact h.setAllowance owner info.sender hdrawn
      · simp [Amount.checkedSub, hallowance, hle] at he
  | approve spender amount =>
    exact .bind (settles_set (.pure ⟨trivial, h.setAllowance info.sender spender rfl⟩))
  | mint recipient amount => exact follows_mint h recipient amount
  | burn amount => exact follows_burn h amount

/-- The loop writes the entries one after the other and adds them up. -/
theorem settles_creditInitial (l : List InitialBalance) (total : Amount) :
    Settles (creditInitial J env l total) s
      (fun supply t => supply.atto = l.foldl (fun n ib => n + ib.amount.atto) total.atto ∧
        (∀ a, balanceOf J t env.contractAddress a =
          l.foldl (fun b ib => Function.update b ib.address ib.amount.atto)
            (balanceOf J s env.contractAddress) a) ∧
        ∀ owner spender, allowanceOf J t env.contractAddress owner spender =
          allowanceOf J s env.contractAddress owner spender)
      (fun _ _ => True) := by
  induction l generalizing s total with
  | nil => exact .pure ⟨rfl, fun _ => rfl, fun _ _ => rfl⟩
  | cons ib rest ih =>
    refine .bind (settles_arithmetic (fun total' htotal => .bind (settles_set ?_))
      (fun _ _ => trivial))
    refine (ih total').mono (fun supply t ht => ?_) (fun _ _ _ => trivial)
    obtain ⟨hsupply, hbalances, hallowances⟩ := ht
    refine ⟨?_, fun a => ?_, fun owner spender => ?_⟩
    · rw [hsupply, List.foldl_cons, Amount.checkedAdd_ok.mp htotal]
    · have hwritten : balanceOf J (s.setRaw env.contractAddress (balanceKey ib.address)
          (J.amount.toVec ib.amount)) env.contractAddress =
          Function.update (balanceOf J s env.contractAddress) ib.address ib.amount.atto := by
        ext b
        rw [balanceOf_setBalance, Function.update_apply]
        simp only [eq_comm]
      rw [hbalances, hwritten, List.foldl_cons]
    · rw [hallowances, allowanceOf_setBalance]

/-- On a table that is still empty, instantiation opens the ledger. -/
theorem settles_instantiate {name symbol : String} {decimals : UInt8}
    {initialBalances : List InitialBalance} {minter : Option Address}
    (hfresh : s.table env.contractAddress = ∅) :
    Settles (instantiate P J env info name symbol decimals initialBalances minter) s
      (fun _ t => Shows J env.contractAddress t
        (.opened name symbol decimals initialBalances minter))
      (fun _ _ => True) := by
  have hnone : ∀ key, s.getRaw env.contractAddress key = none := by
    intro key
    rw [getRaw_eq, hfresh]
    exact ExtTreeMap.getElem?_empty
  have hbalances : balanceOf J s env.contractAddress = fun _ => 0 := by
    ext a
    rw [balanceOf, hnone]
    rfl
  refine .bind ((settles_creditInitial initialBalances .zero).mono (fun supply t ht => ?_)
    (fun _ _ _ => trivial))
  obtain ⟨hsupply, hbal, hallow⟩ := ht
  refine .bind (settles_set (.pure ⟨fun a => ?_, fun owner spender => ?_, supply, hsupply,
    getRaw_setRaw_self _ _ _ _⟩))
  · rw [balanceOf_setOther not_isBalanceKey_keyInfo, hbal, hbalances]
    rfl
  · rw [allowanceOf_setOther (allowanceKey_ne_keyInfo owner spender).symm, hallow, allowanceOf,
      hnone]
    rfl

theorem Shows.answers (h : Shows J env.contractAddress s L) (q : TokenQueryMsg) :
    L.Answers J q (query J s env q) := by
  cases q with
  | balance address => exact ⟨_, h.balances address, rfl⟩
  | allowance owner spender => exact ⟨_, h.allowances owner spender, rfl⟩
  | tokenInfo =>
    obtain ⟨total, htotal, hinfo⟩ := h.info
    refine ⟨total, htotal, ?_⟩
    rw [query, hinfo]

/-- A call of the contract that its gas limit does not cut. -/
def Uncut (P : Primitives) (J : TokenJson) (contract : Address) (s : ContractStorage)
    (c : Invocation TokenExecuteMsg) : Prop :=
  c.env.contractAddress = contract ∧ ¬ Starved (execute P J c.env c.info c.msg ⟨s, c.gas⟩)

instance decidableUncut (P : Primitives) (J : TokenJson) (contract : Address) (s : ContractStorage)
    (c : Invocation TokenExecuteMsg) : Decidable (Uncut P J contract s c) :=
  inferInstanceAs (Decidable (_ ∧ _))

/-- The contract beside its ledger. -/
noncomputable def advance (P : Primitives) (J : TokenJson) (p : ContractStorage × TokenLedger)
    (c : Invocation TokenExecuteMsg) : ContractStorage × TokenLedger :=
  (call P J p.1 c, p.2.next c.info.sender c.msg)

/-- The call returns `Ok` exactly where the ledger allows it, and does not panic. -/
def Decided (P : Primitives) (J : TokenJson) (p : ContractStorage × TokenLedger)
    (c : Invocation TokenExecuteMsg) : Prop :=
  ((invoke (execute P J) p.1 c).2.isOk ↔ p.2.Allows c.info.sender c.msg) ∧
    (invoke (execute P J) p.1 c).2 ≠ .error .panicked

theorem Shows.step (h : Shows J contract s L) {c : Invocation TokenExecuteMsg}
    (hc : Uncut P J contract s c) :
    Decided P J (s, L) c ∧ Shows J contract (call P J s c) (L.next c.info.sender c.msg) := by
  obtain ⟨rfl, hfine⟩ := hc
  rcases finish_of_settles (follows_execute h c.msg) hfine with ⟨r, hr, hallowed, hshows⟩ |
    ⟨e, he, hrefused, hpanic, hshows⟩
  · refine ⟨⟨?_, ?_⟩, hshows⟩
    · rw [invoke, hr]
      exact iff_of_true rfl hallowed
    · simp [invoke, hr]
  · refine ⟨⟨?_, ?_⟩, hshows⟩
    · rw [invoke, he]
      exact iff_of_false Bool.false_ne_true hrefused
    · simpa [invoke, he] using hpanic

/-- Take a token that was instantiated on an empty table and any calls of it that their gas
limits do not cut, failing ones included. Each returns `Ok` exactly where the ledger of the
calls before allows it, none panics, and afterwards every query reads the ledger back. -/
theorem queries_answered {s₀ : ContractStorage} {name symbol : String} {decimals : UInt8}
    {initialBalances : List InitialBalance} {minter : Option Address} {g : GasMeter}
    {r : ContractResponse} {calls : List (Invocation TokenExecuteMsg)}
    (hfresh : s₀.table env.contractAddress = ∅)
      (hinst : finish (instantiate P J env info name symbol decimals initialBalances minter
        ⟨s₀, g⟩) = (s, .ok r))
    (hcalls : Along (Uncut P J env.contractAddress) (call P J) s calls) :
    let L := TokenLedger.opened name symbol decimals initialBalances minter
    Along (Decided P J) (advance P J) (s, L) calls ∧
      ∀ q, (run (advance P J) (s, L) calls).2.Answers J q
        (query J (run (call P J) s calls) env q) := by
  intro L
  have hstart : Shows J env.contractAddress s L := by
    have hsettles : Settles (instantiate P J env info name symbol decimals initialBalances minter)
        s₀ (fun _ t => Shows J env.contractAddress t L) (fun _ _ => True) :=
          settles_instantiate hfresh
    rcases hsettles ⟨s₀, g⟩ rfl with ⟨a, t, hrun, hshows⟩ | ⟨e, t, hrun, -⟩
    · rw [hrun] at hinst
      cases hinst
      exact hshows
    · rw [hrun] at hinst
      cases hinst
  clear hinst
  generalize L = L at hstart
  induction calls generalizing s L with
  | nil => exact ⟨trivial, hstart.answers⟩
  | cons c calls ih =>
    obtain ⟨hdecided, hshows⟩ := hstart.step hcalls.1
    obtain ⟨hrest, hanswers⟩ := ih hcalls.2 _ hshows
    exact ⟨⟨hdecided, hrest⟩, hanswers⟩

end Shows

/-- Address 1 lets address 2 draw 200 of its 100 units. -/
def overdraft : List (Invocation TokenExecuteMsg) :=
  [callBy 1 (.approve (devAddress 2) (Devnet.units 200)),
    callBy 2 (.transferFrom (devAddress 1) (devAddress 3) (Devnet.units 150))]

/-- The second call fails, and has spent the allowance all the same. -/
theorem overdraft_answered :
    let s := (devInstantiate devBalances).1
    let L := TokenLedger.opened "Token" "TKN" 6 devBalances (some (devAddress 1))
    query devJson (run (call Devnet.primitives devJson) s overdraft) devEnv
        (.allowance (devAddress 1) (devAddress 2)) = .ok (devJson.amount.toVec (Devnet.units 50)) ∧
      (run (advance Devnet.primitives devJson) (s, L) overdraft).2.Answers devJson
        (.allowance (devAddress 1) (devAddress 2))
        (query devJson (run (call Devnet.primitives devJson) s overdraft) devEnv
          (.allowance (devAddress 1) (devAddress 2))) := by
  intro s L
  have hcalls : Along (Uncut Devnet.primitives devJson devEnv.contractAddress)
      (call Devnet.primitives devJson) s overdraft := by decide +kernel
  exact ⟨by decide +kernel, (queries_answered rfl
    (Prod.ext rfl (Devnet.eq_okValue _ devInstantiate_isOk)) hcalls).2 _⟩

end TokenContract

end Sprax.Wasm
