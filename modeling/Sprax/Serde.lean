import Sprax.Crypto
import Sprax.Text

/-!
# JSON values of chain types

`serde_json::Value` and the derived encodings of the transaction types: what the
node writes into its answers and what it reads from a request without looking at
the fields itself. A struct is written as an object and read from an object or an
array of its fields; an enum value is written and read as an object with the
variant as its only member. All numbers of these types are integers.
-/
namespace Sprax

inductive Value
  | null
  | bool (b : Bool)
  | number (n : ℤ)
  | string (s : String)
  | array (items : List Value)
  | object (members : List (String × Value))

namespace Value

/-- The member of an object; other values have none. -/
def get (v : Value) (key : String) : Option Value :=
  match v with
  | .object members => members.lookup key
  | _ => none

def asStr : Value → Option String
  | .string s => some s
  | _ => none

def asU64 : Value → Option ℕ
  | .number n => if 0 ≤ n ∧ n < 2 ^ 64 then some n.toNat else none
  | _ => none

def asArray : Value → Option (List Value)
  | .array items => some items
  | _ => none

/-- A number in the range of a byte. -/
def asU8 (v : Value) : Option UInt8 :=
  v.asU64.bind (fun n => if n < 2 ^ 8 then some (UInt8.ofNat n) else none)

/-- The fields of a struct. -/
def structFields (names : List String) : Value → Option (List Value)
  | .object members => names.mapM (fun name => members.lookup name)
  | .array items => if items.length = names.length then some items else none
  | _ => none

/-- The fields of an enum variant; they are not read from an array. -/
def variantFields (names : List String) : Value → Option (List Value)
  | .object members => names.mapM (fun name => members.lookup name)
  | _ => none

def readBytes (v : Value) : Option Bytes := v.asArray.bind (fun items => items.mapM asU8)

def ofBytes (bs : Bytes) : Value := .array (bs.map (fun b => .number b.toNat))

end Value

/-- The decoder of the bech32 library, which reads back what the encoder writes;
an encoded text is the human-readable part, a separator and the rest. -/
structure Bech32 (P : Primitives) where
  decode : String → Except String (String × Bytes)
  decode_encode : ∀ hrp data s, P.bech32Encode hrp data = .ok s → decode s = .ok (hrp, data)
  encode_eq : ∀ hrp data s, P.bech32Encode hrp data = .ok s → ∃ rest, s = hrp ++ "1" ++ rest

namespace Address

def fromSlice (bs : Bytes) : Option Address :=
  if h : bs.length = 20 then some ⟨bs, h⟩ else none

def fromHex (s : String) : Option Address :=
  (Text.hexDecode (Text.stripMark s)).toOption.bind fromSlice

variable {P : Primitives} (B : Bech32 P)

def fromBech32 (s : String) : Option Address :=
  match B.decode s with
  | .error _ => none
  | .ok (hrp, data) => if hrp = "sprax" then fromSlice data else none

/-- Either spelling, told apart by the prefix. -/
def parse (s : String) : Option Address :=
  if "sprax".toList.isPrefixOf s.toList then fromBech32 B s else fromHex s

end Address

section Encoding
variable (P : Primitives)

def Address.toValue (a : Address) : Value := .string (a.display P)

/-- A text, so that no digit is lost in a client. -/
def Amount.toValue (a : Amount) : Value := .string (toString a.atto)

def KeyType.toValue : KeyType → Value
  | .ed25519 => .string "Ed25519"
  | .secp256k1 => .string "Secp256k1"

def TxMessage.toValue : TxMessage → Value
  | .transfer recipient amount =>
    .object [("Transfer", .object [("to", recipient.toValue P), ("amount", amount.toValue)])]
  | .delegate validator amount =>
    .object [("Delegate", .object [("validator", validator.toValue P), ("amount", amount.toValue)])]
  | .unbond validator amount =>
    .object [("Unbond", .object [("validator", validator.toValue P), ("amount", amount.toValue)])]
  | .contractCall contract data =>
    .object [("ContractCall", .object [("contract", contract.toValue P), ("data", .ofBytes data)])]
  | .generic typeUrl payload =>
    .object [("Generic", .object [("type_url", .string typeUrl), ("payload", .ofBytes payload)])]

def TxFee.toValue (fee : TxFee) : Value :=
  .object [("amount", fee.amount.toValue), ("gas_limit", .number fee.gasLimit),
    ("priority_fee", fee.priorityFee.toValue)]

def TxBody.toValue (body : TxBody) : Value :=
  .object [("chain_id", .string body.chainId.id), ("sender", body.sender.toValue P),
    ("nonce", .number body.nonce), ("messages", .array (body.messages.map (TxMessage.toValue P))),
    ("fee", body.fee.toValue), ("memo", .string body.memo),
    ("timeout_height", .number body.timeoutHeight)]

def Transaction.toValue (tx : Transaction) : Value :=
  .object [("body", tx.body.toValue P), ("key_type", tx.keyType.toValue),
    ("public_key", .ofBytes tx.publicKey), ("signature", .ofBytes tx.signature)]

def CommitSignature.toValue (c : CommitSignature) : Value :=
  .object [("validator_address", c.validatorAddress.toValue P), ("signature", .ofBytes c.signature),
    ("timestamp_unix_secs", .number c.timestampUnixSecs)]

end Encoding

section Decoding
variable {P : Primitives} (B : Bech32 P)

def Address.fromValue (v : Value) : Option Address := v.asStr.bind (Address.parse B)

def Amount.fromValue (v : Value) : Option Amount :=
  v.asStr.bind (fun s => match Text.parseUnsigned 128 s with
    | .ok n => if h : n < 2 ^ 128 then some ⟨n, h⟩ else none
    | .error _ => none)

/-- A unit variant may also be written as an object with nothing in it. -/
def KeyType.fromValue : Value → Option KeyType
  | .string "Ed25519" | .object [("Ed25519", .null)] => some .ed25519
  | .string "Secp256k1" | .object [("Secp256k1", .null)] => some .secp256k1
  | _ => none

def TxMessage.fromValue : Value → Option TxMessage
  | .object [("Transfer", v)] => do
    let [recipient, amount] ← v.variantFields ["to", "amount"] | none
    return .transfer (← Address.fromValue B recipient) (← Amount.fromValue amount)
  | .object [("Delegate", v)] => do
    let [validator, amount] ← v.variantFields ["validator", "amount"] | none
    return .delegate (← Address.fromValue B validator) (← Amount.fromValue amount)
  | .object [("Unbond", v)] => do
    let [validator, amount] ← v.variantFields ["validator", "amount"] | none
    return .unbond (← Address.fromValue B validator) (← Amount.fromValue amount)
  | .object [("ContractCall", v)] => do
    let [contract, data] ← v.variantFields ["contract", "data"] | none
    return .contractCall (← Address.fromValue B contract) (← data.readBytes)
  | .object [("Generic", v)] => do
    let [typeUrl, payload] ← v.variantFields ["type_url", "payload"] | none
    return .generic (← typeUrl.asStr) (← payload.readBytes)
  | _ => none

def TxFee.fromValue (v : Value) : Option TxFee := do
  let [amount, gasLimit, priorityFee] ←
    v.structFields ["amount", "gas_limit", "priority_fee"] | none
  return ⟨← Amount.fromValue amount, ← gasLimit.asU64, ← Amount.fromValue priorityFee⟩

def TxBody.fromValue (v : Value) : Option TxBody := do
  let [chainId, sender, nonce, messages, fee, memo, timeoutHeight] ← v.structFields
    ["chain_id", "sender", "nonce", "messages", "fee", "memo", "timeout_height"] | none
  return {
    chainId := ⟨← chainId.asStr⟩
    sender := ← Address.fromValue B sender
    nonce := ← nonce.asU64
    messages := ← (← messages.asArray).mapM (TxMessage.fromValue B)
    fee := ← TxFee.fromValue fee
    memo := ← memo.asStr
    timeoutHeight := ← timeoutHeight.asU64 }

def Transaction.fromValue (v : Value) : Option Transaction := do
  let [body, keyType, publicKey, signature] ←
    v.structFields ["body", "key_type", "public_key", "signature"] | none
  return ⟨← TxBody.fromValue B body, ← KeyType.fromValue keyType, ← publicKey.readBytes,
    ← signature.readBytes⟩

end Decoding

theorem Value.asU64_number {n : ℕ} (hn : n < 2 ^ 64) : (Value.number n).asU64 = some n := by
  have hrange : (0 : ℤ) ≤ n ∧ (n : ℤ) < 2 ^ 64 := by omega
  rw [Value.asU64, if_pos hrange, Int.toNat_natCast]

theorem mapM_map {α β : Type} {f : α → β} {g : β → Option α} (h : ∀ a, g (f a) = some a)
    (l : List α) : (l.map f).mapM g = some l := by
  induction l with
  | nil => rfl
  | cons a l ih =>
    rw [List.map_cons, List.mapM_cons, h, ih]
    rfl

theorem Value.readBytes_ofBytes (bs : Bytes) : (Value.ofBytes bs).readBytes = some bs := by
  refine mapM_map (fun b => ?_) bs
  have hb : b.toNat < 2 ^ 8 := b.toNat_lt
  rw [Value.asU8, Value.asU64_number (by omega), Option.bind_some, if_pos hb, UInt8.ofNat_toNat]

theorem Address.fromHex_toHex (a : Address) : Address.fromHex a.toHex = some a := by
  rw [Address.fromHex, Address.toHex, Text.stripMark_mark, Text.hexDecode_hexEncode]
  exact dif_pos a.length_eq

section ReadingBack
variable {P : Primitives} (B : Bech32 P)

/-- Both spellings of an address are told apart and read. -/
theorem Address.parse_display (a : Address) : Address.parse B (a.display P) = some a := by
  cases henc : P.bech32Encode "sprax" a.bytes with
  | error e =>
    have hprefix : "sprax".toList.isPrefixOf a.toHex.toList = false := by
      simp [Address.toHex, List.isPrefixOf]
    rw [Address.display, henc, Address.parse, hprefix, if_neg Bool.false_ne_true]
    exact a.fromHex_toHex
  | ok s =>
    obtain ⟨rest, hrest⟩ := B.encode_eq _ _ _ henc
    have hprefix : "sprax".toList.isPrefixOf s.toList = true := by
      simp [hrest, List.isPrefixOf]
    rw [Address.display, henc, Address.parse, if_pos hprefix, Address.fromBech32,
      B.decode_encode _ _ _ henc]
    exact dif_pos a.length_eq

theorem Address.fromValue_toValue (a : Address) : Address.fromValue B (a.toValue P) = some a :=
  a.parse_display B

theorem Amount.fromValue_toValue (a : Amount) : Amount.fromValue a.toValue = some a := by
  change (match Text.parseUnsigned 128 (toString a.atto) with
    | .ok n => if h : n < 2 ^ 128 then some (Amount.mk n h) else none
    | .error _ => none) = _
  rw [Text.parseUnsigned_toString a.lt]
  exact dif_pos a.lt

theorem KeyType.fromValue_toValue (k : KeyType) : KeyType.fromValue k.toValue = some k := by
  cases k <;> rfl

theorem TxMessage.fromValue_toValue (m : TxMessage) :
    TxMessage.fromValue B (m.toValue P) = some m := by
  have hpayment (variant : Address → Amount → TxMessage) (a : Address) (x : Amount) :
      (do
        return variant (← Address.fromValue B (a.toValue P)) (← Amount.fromValue x.toValue)) =
          some (variant a x) := by
    rw [a.fromValue_toValue, x.fromValue_toValue]
    rfl
  cases m with
  | transfer recipient amount => exact hpayment .transfer recipient amount
  | delegate validator amount => exact hpayment .delegate validator amount
  | unbond validator amount => exact hpayment .unbond validator amount
  | contractCall contract data =>
    change (do
      return TxMessage.contractCall (← Address.fromValue B (contract.toValue P))
        (← (Value.ofBytes data).readBytes)) = _
    rw [contract.fromValue_toValue, Value.readBytes_ofBytes]
    rfl
  | generic typeUrl payload =>
    change (do
      return TxMessage.generic typeUrl (← (Value.ofBytes payload).readBytes)) = _
    rw [Value.readBytes_ofBytes]
    rfl

/-- The 64-bit fields of a transaction are in range. -/
structure Transaction.Fits (tx : Transaction) : Prop where
  nonce : tx.body.nonce < 2 ^ 64
  gasLimit : tx.body.fee.gasLimit < 2 ^ 64
  timeoutHeight : tx.body.timeoutHeight < 2 ^ 64

theorem TxFee.fromValue_toValue {fee : TxFee} (hgas : fee.gasLimit < 2 ^ 64) :
    TxFee.fromValue fee.toValue = some fee := by
  change (do
    return TxFee.mk (← Amount.fromValue fee.amount.toValue) (← (Value.number fee.gasLimit).asU64)
      (← Amount.fromValue fee.priorityFee.toValue)) = _
  rw [Amount.fromValue_toValue, Value.asU64_number hgas, Amount.fromValue_toValue]
  rfl

theorem TxBody.fromValue_toValue {body : TxBody} (hnonce : body.nonce < 2 ^ 64)
    (hgas : body.fee.gasLimit < 2 ^ 64) (htimeout : body.timeoutHeight < 2 ^ 64) :
    TxBody.fromValue B (body.toValue P) = some body := by
  have hfields : (body.toValue P).structFields
      ["chain_id", "sender", "nonce", "messages", "fee", "memo", "timeout_height"] =
        some [.string body.chainId.id, body.sender.toValue P, .number body.nonce,
          .array (body.messages.map (TxMessage.toValue P)), body.fee.toValue, .string body.memo,
          .number body.timeoutHeight] := rfl
  simp only [TxBody.fromValue, hfields, Value.asStr, Value.asArray, Option.bind_eq_bind,
    Option.bind_some, Address.fromValue_toValue, Value.asU64_number hnonce,
    Value.asU64_number htimeout, mapM_map (TxMessage.fromValue_toValue B),
    TxFee.fromValue_toValue hgas]
  rfl

theorem Transaction.fromValue_toValue {tx : Transaction} (h : tx.Fits) :
    Transaction.fromValue B (tx.toValue P) = some tx := by
  change (do
    return Transaction.mk (← TxBody.fromValue B (tx.body.toValue P))
      (← KeyType.fromValue tx.keyType.toValue) (← (Value.ofBytes tx.publicKey).readBytes)
      (← (Value.ofBytes tx.signature).readBytes)) = _
  rw [TxBody.fromValue_toValue B h.nonce h.gasLimit h.timeoutHeight, KeyType.fromValue_toValue,
    Value.readBytes_ofBytes, Value.readBytes_ofBytes]
  rfl

end ReadingBack

end Sprax
