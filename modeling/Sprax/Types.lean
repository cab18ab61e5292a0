import Mathlib.Data.List.Defs
import Mathlib.Tactic.Linarith

/-!
# Protocol types

The value types of `sprax-types`, with the account record and the vote. Hashes
and addresses carry their byte length and amounts their 128-bit bound, so that
no ill-sized value can be built. Heights, rounds, timestamps, nonces and gas are
naturals; where the source saturates or wraps them, the operation does so
explicitly. Byte vectors are lists of bytes.
-/
namespace Sprax
open Std

abbrev Bytes := List UInt8

/-- Largest value of a 64-bit counter. -/
def u64Max : ℕ := 2 ^ 64 - 1

/-- One lowercase hexadecimal digit. -/
def hexDigit (n : ℕ) : Char := "0123456789abcdef".toList.getD n '0'

/-- Two digits for every byte, high half first. -/
def hexEncode (bs : Bytes) : String :=
  String.ofList (bs.flatMap (fun b => [hexDigit (b.toNat / 16), hexDigit (b.toNat % 16)]))

/-- Standard 32-byte cryptographic hash. -/
structure Hash32 where
  bytes : Bytes
  length_eq : bytes.length = 32
  deriving DecidableEq

namespace Hash32

def zero : Hash32 := ⟨List.replicate 32 0, by simp⟩

def toHex (h : Hash32) : String := "0x" ++ hexEncode h.bytes

theorem ext_bytes {a b : Hash32} (h : a.bytes = b.bytes) : a = b := by
  cases a; cases b; simp_all

instance : Ord Hash32 := ⟨compareOn Hash32.bytes⟩

instance : TransOrd Hash32 := inferInstanceAs (TransCmp (compareOn Hash32.bytes))

instance : LawfulEqOrd Hash32 where
  eq_of_compare h := ext_bytes (LawfulEqCmp.eq_of_compare h)

end Hash32

/-- 20-byte account address. -/
structure Address where
  bytes : Bytes
  length_eq : bytes.length = 20
  deriving DecidableEq

namespace Address

def zero : Address := ⟨List.replicate 20 0, by simp⟩

def toHex (a : Address) : String := "0x" ++ hexEncode a.bytes

theorem ext_bytes {a b : Address} (h : a.bytes = b.bytes) : a = b := by
  cases a; cases b; simp_all

instance : Ord Address := ⟨compareOn Address.bytes⟩

instance : TransOrd Address := inferInstanceAs (TransCmp (compareOn Address.bytes))

instance : LawfulEqOrd Address where
  eq_of_compare h := ext_bytes (LawfulEqCmp.eq_of_compare h)

end Address

/-- Errors of `sprax-types` that the modelled functions raise. -/
inductive TypeError
  | amountOverflow (reason : String)
  | amountUnderflow (reason : String)
  deriving DecidableEq

/-- The `Display` text of the error. -/
def TypeError.display : TypeError → String
  | .amountOverflow reason => s!"Arithmetic overflow in amount operation: {reason}"
  | .amountUnderflow reason => s!"Arithmetic underflow in amount operation: {reason}"

def attoSprxPerSprx : ℕ := 1000000000000000000

/-- Native value in atomic units, a 128-bit unsigned integer. -/
structure Amount where
  atto : ℕ
  lt : atto < 2 ^ 128
  deriving DecidableEq

namespace Amount

def zero : Amount := ⟨0, by decide⟩

theorem ext_atto {a b : Amount} (h : a.atto = b.atto) : a = b := by
  cases a; cases b; simp_all

def checkedAdd (a b : Amount) : Except TypeError Amount :=
  if h : a.atto + b.atto < 2 ^ 128 then .ok ⟨a.atto + b.atto, h⟩
  else .error (.amountOverflow "addition overflow")

def checkedSub (a b : Amount) : Except TypeError Amount :=
  if b.atto ≤ a.atto then .ok ⟨a.atto - b.atto, by have := a.lt; omega⟩
  else .error (.amountUnderflow "subtraction underflow")

def isZero (a : Amount) : Bool := a.atto = 0

/-- Whole units and, when there is one, the fraction without trailing zeros. -/
def toSprxString (a : Amount) : String :=
  let whole := a.atto / attoSprxPerSprx
  let frac := a.atto % attoSprxPerSprx
  if frac = 0 then s!"{whole} SPRX"
  else
    let digits := (Nat.toDigits 10 frac).leftpad 18 '0'
    let trimmed := String.ofList (digits.reverse.dropWhile (· = '0')).reverse
    s!"{whole}.{trimmed} SPRX"

theorem checkedAdd_ok {a b c : Amount} :
    checkedAdd a b = .ok c ↔ c.atto = a.atto + b.atto := by
  unfold checkedAdd
  constructor
  · intro h
    split at h
    · cases h
      rfl
    · cases h
  · intro h
    have hlt : a.atto + b.atto < 2 ^ 128 := h ▸ c.lt
    rw [dif_pos hlt]
    exact congrArg _ (ext_atto h.symm)

theorem checkedAdd_of_lt {a b : Amount} (h : a.atto + b.atto < 2 ^ 128) :
    checkedAdd a b = .ok ⟨a.atto + b.atto, h⟩ := by
  rw [checkedAdd, dif_pos h]

theorem checkedAdd_error {a b : Amount} {e : TypeError} (h : checkedAdd a b = .error e) :
    2 ^ 128 ≤ a.atto + b.atto := by
  by_contra hlt
  rw [checkedAdd_of_lt (Nat.lt_of_not_le hlt)] at h
  cases h

theorem checkedSub_ok {a b c : Amount} :
    checkedSub a b = .ok c ↔ c.atto + b.atto = a.atto := by
  unfold checkedSub
  constructor
  · intro h
    split at h
    · cases h
      dsimp only
      omega
    · cases h
  · intro h
    rw [if_pos (by omega)]
    exact congrArg _ (ext_atto (by dsimp only; omega))

end Amount

/-- Chain identifier. Decoding does not validate it. -/
structure ChainId where
  id : String
  deriving DecidableEq

/-- Signature algorithm of a transaction signer. -/
inductive KeyType
  | ed25519
  | secp256k1
  deriving DecidableEq

/-- Transaction message payload variants. -/
inductive TxMessage
  | transfer (recipient : Address) (amount : Amount)
  | delegate (validator : Address) (amount : Amount)
  | unbond (validator : Address) (amount : Amount)
  | contractCall (contract : Address) (data : Bytes)
  | generic (typeUrl : String) (payload : Bytes)
  deriving DecidableEq

structure TxFee where
  amount : Amount
  gasLimit : ℕ
  priorityFee : Amount
  deriving DecidableEq

structure TxBody where
  chainId : ChainId
  sender : Address
  nonce : ℕ
  messages : List TxMessage
  fee : TxFee
  memo : String
  timeoutHeight : ℕ
  deriving DecidableEq

/-- Complete signed transaction envelope. -/
structure Transaction where
  body : TxBody
  keyType : KeyType
  publicKey : Bytes
  signature : Bytes
  deriving DecidableEq

structure TxReceipt where
  txHash : Hash32
  height : ℕ
  success : Bool
  gasUsed : ℕ
  errorMessage : Option String
  returnData : Bytes
  deriving DecidableEq

structure BlockHeader where
  version : ℕ
  chainId : String
  height : ℕ
  timestampUnixSecs : ℕ
  parentHash : Hash32
  proposer : Address
  stateRoot : Hash32
  txsRoot : Hash32
  receiptsRoot : Hash32
  validatorSetHash : Hash32
  deriving DecidableEq

structure BlockBody where
  transactions : List Transaction
  deriving DecidableEq

/-- Commit signature from an active validator. -/
structure CommitSignature where
  validatorAddress : Address
  signature : Bytes
  timestampUnixSecs : ℕ
  deriving DecidableEq

structure Block where
  header : BlockHeader
  body : BlockBody
  lastCommit : List CommitSignature
  deriving DecidableEq

/-- On-chain account record of `sprax-core`. -/
structure AccountState where
  nonce : ℕ
  balance : Amount
  codeHash : Hash32
  storageRoot : Hash32
  deriving DecidableEq

/-- The record of an account that was never written. -/
def AccountState.default : AccountState := ⟨0, Amount.zero, Hash32.zero, Hash32.zero⟩

/-- Kind of consensus attestation. -/
inductive VoteType
  | prevote
  | precommit
  deriving DecidableEq

/-- Signed validator vote; no block hash means a vote for nil. -/
structure Vote where
  voteType : VoteType
  height : ℕ
  round : ℕ
  blockHash : Option Hash32
  validatorAddress : Address
  signature : Bytes
  deriving DecidableEq

/-- The part of a vote that is signed: everything but the address and the signature. -/
structure SignableVote where
  voteType : VoteType
  height : ℕ
  round : ℕ
  blockHash : Option Hash32
  deriving DecidableEq

def Vote.signable (v : Vote) : SignableVote := ⟨v.voteType, v.height, v.round, v.blockHash⟩

end Sprax
