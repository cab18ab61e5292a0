import Sprax.Wasm

/-!
# The token contract

Balances, allowances and the token record are JSON values under three kinds of
key, which have three different lengths. A balance that is missing or does not
decode reads as zero. Transfers read both balances before they write either.
-/
namespace Sprax.Wasm
open Std FiniteMap Effects

structure InitialBalance where
  address : Address
  amount : Amount
  deriving DecidableEq

structure TokenInfo where
  name : String
  symbol : String
  decimals : UInt8
  totalSupply : Amount
  minter : Option Address
  deriving DecidableEq

inductive TokenExecuteMsg
  | transfer (recipient : Address) (amount : Amount)
  | transferFrom (owner recipient : Address) (amount : Amount)
  | approve (spender : Address) (amount : Amount)
  | mint (recipient : Address) (amount : Amount)
  | burn (amount : Amount)
  deriving DecidableEq

/-- `serde_json` at the types the contract stores. -/
structure TokenJson where
  amount : Json Amount
  info : Json TokenInfo

namespace TokenContract

def keyInfo : Bytes := ascii "token_info"

def balanceKey (addr : Address) : Bytes := ascii "bal_" ++ addr.bytes

def allowanceKey (owner spender : Address) : Bytes :=
  ascii "allow_" ++ owner.bytes ++ ascii "_" ++ spender.bytes

variable (P : Primitives) (J : TokenJson)

/-- What is stored as an amount; anything else reads as zero. -/
def readAmount (val : Option Bytes) : Amount :=
  (val.bind (fun v => (J.amount.fromSlice v).toOption)).getD Amount.zero

/-- The loop over `initial_balances`, which returns the total supply. -/
def creditInitial (env : Env) : List InitialBalance → Amount → Exec Amount
  | [], totalSupply => pure totalSupply
  | ib :: rest, totalSupply => do
    let totalSupply ← arithmetic (totalSupply.checkedAdd ib.amount)
    ContractStorage.set env.contractAddress (balanceKey ib.address) (J.amount.toVec ib.amount)
    creditInitial env rest totalSupply

def instantiate (env : Env) (info : MessageInfo) (name symbol : String) (decimals : UInt8)
    (initialBalances : List InitialBalance) (minter : Option Address) : Exec ContractResponse := do
  let totalSupply ← creditInitial J env initialBalances Amount.zero
  let tokenInfo : TokenInfo := ⟨name, symbol, decimals, totalSupply, minter⟩
  ContractStorage.set env.contractAddress keyInfo (J.info.toVec tokenInfo)
  pure ⟨[⟨"cw20-instantiate",
    [("creator", info.sender.display P), ("name", name), ("symbol", symbol),
      ("total_supply", totalSupply.toSprxString)]⟩], []⟩

def performTransfer (env : Env) (source dest : Address) (amount : Amount) : Exec Unit :=
  if amount.isZero then pure ()
  else do
    let sourceVal ← ContractStorage.get env.contractAddress (balanceKey source)
    let sourceBal := readAmount J sourceVal
    if sourceBal.atto < amount.atto then
      fail (.insufficientFunds sourceBal.toSprxString amount.toSprxString)
    else do
      let destVal ← ContractStorage.get env.contractAddress (balanceKey dest)
      let destBal := readAmount J destVal
      let newSourceBal ← arithmetic (sourceBal.checkedSub amount)
      let newDestBal ← arithmetic (destBal.checkedAdd amount)
      ContractStorage.set env.contractAddress (balanceKey source) (J.amount.toVec newSourceBal)
      ContractStorage.set env.contractAddress (balanceKey dest) (J.amount.toVec newDestBal)

/-- A response with a single event. -/
def respond (eventType : String) (attributes : List (String × String)) : ContractResponse :=
  ⟨[⟨eventType, attributes⟩], []⟩

def execute (env : Env) (info : MessageInfo) : TokenExecuteMsg → Exec ContractResponse
  | .transfer recipient amount => do
    performTransfer J env info.sender recipient amount
    pure (respond "cw20-transfer" [("from", info.sender.display P), ("to", recipient.display P),
      ("amount", amount.toSprxString)])
  | .transferFrom owner recipient amount => do
    let allowKey := allowanceKey owner info.sender
    let allowanceVal ← ContractStorage.get env.contractAddress allowKey
    let allowance := readAmount J allowanceVal
    if allowance.atto < amount.atto then
      fail (.insufficientFunds allowance.toSprxString amount.toSprxString)
    else do
      let newAllowance ← arithmetic (allowance.checkedSub amount)
      ContractStorage.set env.contractAddress allowKey (J.amount.toVec newAllowance)
      performTransfer J env owner recipient amount
      pure (respond "cw20-transfer-from" [("owner", owner.display P),
        ("spender", info.sender.display P), ("recipient", recipient.display P),
        ("amount", amount.toSprxString)])
  | .approve spender amount => do
    ContractStorage.set env.contractAddress (allowanceKey info.sender spender)
      (J.amount.toVec amount)
    pure (respond "cw20-approve" [("owner", info.sender.display P), ("spender", spender.display P),
      ("amount", amount.toSprxString)])
  | .mint recipient amount => do
    let infoVal ← ContractStorage.get env.contractAddress keyInfo
    let infoBytes ← okOr (.contractNotFound "missing token info") infoVal
    let tokenInfo ← unwrap (J.info.fromSlice infoBytes).toOption
    if tokenInfo.minter ≠ some info.sender then
      fail (.unauthorized "only minter can mint new tokens")
    else do
      let totalSupply ← arithmetic (tokenInfo.totalSupply.checkedAdd amount)
      ContractStorage.set env.contractAddress keyInfo
        (J.info.toVec { tokenInfo with totalSupply := totalSupply })
      let currentVal ← ContractStorage.get env.contractAddress (balanceKey recipient)
      let newBal ← arithmetic ((readAmount J currentVal).checkedAdd amount)
      ContractStorage.set env.contractAddress (balanceKey recipient) (J.amount.toVec newBal)
      pure (respond "cw20-mint" [("recipient", recipient.display P),
        ("amount", amount.toSprxString)])
  | .burn amount => do
    let currentVal ← ContractStorage.get env.contractAddress (balanceKey info.sender)
    let currentBal := readAmount J currentVal
    if currentBal.atto < amount.atto then
      fail (.insufficientFunds currentBal.toSprxString amount.toSprxString)
    else do
      let newBal ← arithmetic (currentBal.checkedSub amount)
      ContractStorage.set env.contractAddress (balanceKey info.sender) (J.amount.toVec newBal)
      let infoVal ← ContractStorage.get env.contractAddress keyInfo
      let infoBytes ← unwrap infoVal
      let tokenInfo ← unwrap (J.info.fromSlice infoBytes).toOption
      let totalSupply ← arithmetic (tokenInfo.totalSupply.checkedSub amount)
      ContractStorage.set env.contractAddress keyInfo
        (J.info.toVec { tokenInfo with totalSupply := totalSupply })
      pure (respond "cw20-burn" [("from", info.sender.display P), ("amount", amount.toSprxString)])

end TokenContract

end Sprax.Wasm
