import Sprax.Ledger
import Sprax.Serde

/-!
# The RPC server

The answer to `sprax_getBlock` and the parsing of broadcast transactions. A
transaction is first read in the node's own encoding; only if that fails is the
object searched field by field, under the spellings of the wallets, with defaults
for what is missing. Addresses of the second path go through `parse_address`.
-/
namespace Sprax

/-- A missing value as an error. -/
def orError {α : Type} (o : Option α) (message : String) : Except String α :=
  match o with
  | some a => .ok a
  | none => .error message

theorem orError_some_bind {α β : Type} (a : α) (message : String) (f : α → Except String β) :
    (orError (some a) message >>= f) = f a := rfl

theorem exists_of_bind_ok {ε α β : Type} {x : Except ε α} {f : α → Except ε β} {b : β}
    (h : x >>= f = .ok b) : ∃ a, x = .ok a ∧ f a = .ok b := by
  cases x with
  | error e => cases h
  | ok a => exact ⟨a, rfl, h⟩

theorem bind_eq_ok_iff {ε α β : Type} {x : Except ε α} {f : α → Except ε β} {b : β} :
    x >>= f = .ok b ↔ ∃ a, x = .ok a ∧ f a = .ok b := by
  constructor
  · exact exists_of_bind_ok
  · rintro ⟨a, rfl, h⟩
    exact h

def Hash32.fromHex (s : String) : Option Hash32 :=
  (Text.hexDecode (Text.stripMark s)).toOption.bind
    (fun bs => if h : bs.length = 32 then some ⟨bs, h⟩ else none)

/-- The characters of a chain identifier. -/
def ChainId.admits (c : Char) : Bool := c.isLower || c.isDigit || c == '-' || c == '_'

def ChainId.new (s : String) : Except String ChainId :=
  let refuse (reason : String) : Except String ChainId := .error
    s!"Invalid chain ID format: '{reason}' (expected lowercase alphanumeric with hyphens, e.g. sprax-mainnet-1)"
  if s.utf8ByteSize = 0 ∨ 64 < s.utf8ByteSize then
    refuse "chain ID must be between 1 and 64 characters"
  else if s.toList.all ChainId.admits then .ok ⟨s⟩
  else
    refuse "chain ID must contain only lowercase alphanumeric characters, dashes, or underscores"

/-- `trim_end_matches("SPRX")`, on the reversed text. -/
def trimUnit : List Char → List Char
  | 'X' :: 'R' :: 'P' :: 'S' :: rest => trimUnit rest
  | cs => cs

def Amount.fromAttoStr (s : String) : Except String Amount :=
  let clean := Text.trim (String.ofList (trimUnit (Text.trim s).toList.reverse).reverse)
  let refuse (reason : String) : Except String Amount :=
    .error s!"Invalid amount format: invalid atto amount string '{s}': {reason}"
  match Text.parseUnsigned 128 clean with
  | .error e => refuse e.display
  | .ok n => if h : n < 2 ^ 128 then .ok ⟨n, h⟩ else refuse Text.ParseIntError.posOverflow.display

def TxFee.default : TxFee := ⟨⟨500000000000000, by decide⟩, 200000, Amount.zero⟩

def Transaction.new (body : TxBody) (keyType : KeyType) (publicKey signature : Bytes) :
    Except String Transaction :=
  if body.messages.isEmpty then
    .error "Invalid transaction: transaction must contain at least one message"
  else if publicKey.isEmpty then .error "Invalid transaction: public key cannot be empty"
  else if signature.isEmpty then .error "Invalid transaction: signature cannot be empty"
  else .ok ⟨body, keyType, publicKey, signature⟩

theorem Transaction.new_ok {body : TxBody} {keyType : KeyType} {publicKey signature : Bytes}
    {tx : Transaction} (h : Transaction.new body keyType publicKey signature = .ok tx) :
    tx = ⟨body, keyType, publicKey, signature⟩ := by
  unfold Transaction.new at h
  split at h
  · cases h
  · split at h
    · cases h
    · split at h
      · cases h
      · cases h
        rfl

namespace Rpc

section Blocks
variable (P : Primitives)

/-- The object a block is answered with. -/
def blockValue (b : Block) : Value :=
  .object [
    ("hash", .string (Hasher.blockHash P b.header).toHex),
    ("header", .object [
      ("version", .number b.header.version),
      ("chainId", .string b.header.chainId),
      ("height", .number b.header.height),
      ("timestampUnixSecs", .number b.header.timestampUnixSecs),
      ("parentHash", .string b.header.parentHash.toHex),
      ("proposer", .string b.header.proposer.toHex),
      ("stateRoot", .string b.header.stateRoot.toHex),
      ("txsRoot", .string b.header.txsRoot.toHex),
      ("receiptsRoot", .string b.header.receiptsRoot.toHex),
      ("validatorSetHash", .string b.header.validatorSetHash.toHex)]),
    ("body", .object [("transactions", .array (b.body.transactions.map (Transaction.toValue P)))]),
    ("lastCommit", .array (b.lastCommit.map (CommitSignature.toValue P)))]

/-- The block a request asks for: by height, as a number or a text, or by hash;
the latest one if it names none. -/
def requestedBlock (L : ChainLedger) (params : Option Value) : Option Block :=
  match (params.bind Value.asArray).bind List.head? with
  | some (.number n) => L.getBlockByHeight (((Value.number n).asU64).getD 0)
  | some (.string s) =>
    match Text.parseUnsigned 64 s with
    | .ok height => L.getBlockByHeight height
    | .error _ => (Hash32.fromHex s).bind L.getBlockByHash
  | _ => L.getBlockByHeight L.height

def getBlock (L : ChainLedger) (params : Option Value) : Value :=
  match requestedBlock L params with
  | some b => blockValue P b
  | none => .null

/-- A height sent as a text finds its block. -/
theorem getBlock_of_height {L : ChainLedger} {height : ℕ} {b : Block}
    (hb : L.getBlockByHeight height = some b) (hsmall : height < 2 ^ 64) :
    getBlock P L (some (.array [.string (toString height)])) = blockValue P b := by
  have hblock : requestedBlock L (some (.array [.string (toString height)])) = some b := by
    simp only [requestedBlock, Value.asArray, Option.bind_some, List.head?_cons,
      Text.parseUnsigned_toString hsmall, hb]
  rw [getBlock, hblock]

end Blocks

section Parsing
variable {P : Primitives} (B : Bech32 P)

def parseAddress (text : String) : Option Address :=
  let s := Text.trim text
  if "sprx".toList.isPrefixOf s.toList then Address.fromBech32 B s else Address.fromHex s

theorem fromHex_of_s (rest : String) : Address.fromHex ("s" ++ rest) = none := by
  have hbytes : ("s" ++ rest).toUTF8.data.toList = 115 :: rest.toUTF8.data.toList := by
    rw [Text.utf8_append]
    rfl
  have hchars : ("s" ++ rest).toList = 's' :: rest.toList := by simp
  obtain ⟨e, he⟩ := Text.hexDecode_error hbytes (e := .invalidHexCharacter 's' 0) (by decide)
  rw [Address.fromHex, Text.stripMark_of_ne hchars (by decide), he]
  rfl

/-- An address in bech32 is not taken for one: it starts with `sprax`. -/
theorem parseAddress_sprax (rest : String) : parseAddress B ("sprax" ++ "1" ++ rest) = none := by
  have hchars : ("sprax" ++ "1" ++ rest).toList =
      ['s', 'p', 'r'] ++ 'a' :: ('x' :: '1' :: rest.toList) := by simp
  have htrim : Text.trim ("sprax" ++ "1" ++ rest) =
      "s" ++ ("pra" ++ String.ofList (Text.trimEnd ('x' :: '1' :: rest.toList))) := by
    apply String.toList_injective
    rw [Text.trim, hchars, List.cons_append, Text.trimStart_cons (by decide), ← List.cons_append,
      Text.trimEnd_append (by decide)]
    simp
  have hprefix : "sprx".toList.isPrefixOf
      ("s" ++ ("pra" ++ String.ofList (Text.trimEnd ('x' :: '1' :: rest.toList)))).toList =
        false := by
    simp [List.isPrefixOf]
  unfold parseAddress
  dsimp only
  rw [htrim, hprefix, if_neg Bool.false_ne_true]
  exact fromHex_of_s _

/-- `trim_start_matches("0x")`. -/
def trimHexMark : List Char → List Char
  | '0' :: 'x' :: rest => trimHexMark rest
  | cs => cs

def parseBytesField (v : Option Value) : Except String Bytes :=
  match v with
  | some (.string s) =>
    match Text.hexDecode (String.ofList (trimHexMark s.toList)) with
    | .ok bs => .ok bs
    | .error e =>
      let reason := e.display
      .error s!"Invalid hex: {reason}"
  | some (.array items) => items.mapM (fun item => orError item.asU8 "Invalid byte value in array")
  | _ => .error "Missing or invalid byte field"

def parseFee (fee : Option Value) : Except String TxFee :=
  match fee with
  | none => .ok TxFee.default
  | some f => do
    let amountText := (((f.get "amount").or (f.get "amountAtto")).bind Value.asStr).getD
      "500000000000000"
    let gasLimit := (((f.get "gas_limit").or (f.get "gasLimit")).bind Value.asU64).getD 200000
    let amount ← Amount.fromAttoStr amountText
    return ⟨amount, gasLimit, Amount.zero⟩

/-- One message; those of an unknown type are dropped. -/
def parseMessage (msg : Value) : Except String (Option TxMessage) :=
  match TxMessage.fromValue B msg with
  | some m => .ok (some m)
  | none =>
    let msgType := ((msg.get "type").bind Value.asStr).getD "Transfer"
    if msgType = "Transfer" ∨ msgType = "transfer" then do
      let recipientText ← orError ((msg.get "to").bind Value.asStr)
          "Missing 'to' in Transfer message"
      let recipient ← orError (parseAddress B recipientText) "Invalid 'to' address"
      let amountText ← orError ((msg.get "amount").bind Value.asStr)
        "Missing 'amount' in Transfer message"
      let amount ← Amount.fromAttoStr amountText
      return some (.transfer recipient amount)
    else .ok none

def parseKeyType (v : Value) : KeyType :=
  match (((v.get "keyType").or (v.get "key_type")).bind Value.asStr).getD "Ed25519" with
  | "Secp256k1" | "secp256k1" => .secp256k1
  | _ => .ed25519

/-- The object read field by field. -/
def parseWalletFormat (v : Value) : Except String Transaction := do
  let body ← orError (v.get "body") "Missing 'body' field"
  let chainId ← ChainId.new
    ((((body.get "chainId").or (body.get "chain_id")).bind Value.asStr).getD "sprax-devnet-1")
  let senderText ← orError ((body.get "sender").bind Value.asStr) "Missing 'body.sender'"
  let sender ← orError (parseAddress B senderText) "Invalid sender address"
  let fee ← parseFee (body.get "fee")
  let messages ← (((body.get "messages").bind Value.asArray).getD []).mapM (parseMessage B)
  let messages := messages.filterMap id
  if messages.isEmpty then .error "Transaction messages cannot be empty"
  else do
    let publicKey ← parseBytesField ((v.get "publicKey").or (v.get "public_key"))
    let signature ← parseBytesField (v.get "signature")
    Transaction.new
      { chainId := chainId
        sender := sender
        nonce := ((body.get "nonce").bind Value.asU64).getD 0
        messages := messages
        fee := fee
        memo := ((body.get "memo").bind Value.asStr).getD ""
        timeoutHeight :=
          (((body.get "timeout_height").or (body.get "timeoutHeight")).bind Value.asU64).getD 0 }
      (parseKeyType v) publicKey signature

def parseTransaction (v : Value) : Except String Transaction :=
  match Transaction.fromValue B v with
  | some tx => .ok tx
  | none => parseWalletFormat B v

/-- What the node writes it reads, without a look at the fields. -/
theorem parseTransaction_toValue {tx : Transaction} (h : tx.Fits) :
    parseTransaction B (tx.toValue P) = .ok tx := by
  rw [parseTransaction, Transaction.fromValue_toValue B h]

/-- The object is refused, for its sender if its chain identifier is fine. -/
def RefusesSender (chainId : String) (v : Value) : Prop :=
  ∃ e, parseTransaction B v = .error e ∧
    ∀ id, ChainId.new chainId = .ok id → e = "Invalid sender address"

/-- An object that is not in the node's own encoding and writes its sender in
bech32 is refused. -/
theorem refusesSender_of_sprax {v body : Value} {chainId rest : String}
    (hforeign : Transaction.fromValue B v = none) (hbody : v.get "body" = some body)
    (hchain : ((body.get "chainId").or (body.get "chain_id")).bind Value.asStr = some chainId)
    (hsender : (body.get "sender").bind Value.asStr = some ("sprax" ++ "1" ++ rest)) :
    RefusesSender B chainId v := by
  have hparse : parseTransaction B v =
      (ChainId.new chainId >>= fun _ => .error "Invalid sender address") := by
    unfold parseTransaction parseWalletFormat
    rw [hforeign]
    dsimp only
    rw [hbody, orError_some_bind, hchain, hsender]
    simp only [Option.getD_some, orError_some_bind, parseAddress_sprax]
    rfl
  cases hid : ChainId.new chainId with
  | error e => exact ⟨e, by rw [hparse, hid]; rfl, fun id h => by cases hid.symm.trans h⟩
  | ok id => exact ⟨"Invalid sender address", by rw [hparse, hid]; rfl, fun _ _ => rfl⟩

end Parsing

end Rpc

end Sprax
