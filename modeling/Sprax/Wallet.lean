import Sprax.Rpc
import Sprax.Executor
import Sprax.Devnet

/-!
# Transactions of the wallets

The TypeScript wallet core and the mobile wallet derive accounts, sign transfers
and produce the object that is sent to the node. Both write the sender in bech32
under the prefix `sprax`. The parser of the node takes a text for bech32 only if
it starts with `sprx`, and reads everything else as hexadecimal, so it refuses
the sender of every transaction either wallet can produce.
-/
namespace Sprax

/-- The object is read as a transaction that passes the static checks. -/
def Rpc.Accepts {P : Primitives} (B : Bech32 P) (chainId : String) (v : Value) : Prop :=
  ∃ tx, Rpc.parseTransaction B v = .ok tx ∧
    TxExecutor.validateTransactionStatic P tx chainId = .ok ()

namespace WalletCore

/-- The JavaScript libraries the wallet core calls. -/
structure Libraries where
  trim : String → String
  bigInt : String → Except String ℤ
  stringify : Value → Bytes
  sha256 : Bytes → Bytes
  hmacSha512 : Bytes → Bytes → Bytes
  secp256k1PublicKey : Bytes → Bytes
  secp256k1Sign : Bytes → Bytes → Bytes

structure TxFee where
  amountAtto : String
  gasLimit : ℕ

structure SendTxRequest where
  fromAddress : String
  toAddress : String
  amountSprx : String
  nonce : ℕ
  fee : Option TxFee
  memo : Option String
  timeoutHeight : Option ℕ

structure Account where
  index : ℕ
  addressBech32 : String
  addressHex : String
  publicKeyHex : String
  algorithm : KeyType

section Functions
variable {P : Primitives} (B : Bech32 P) (js : Libraries)

def toBech32 (P : Primitives) (rawBytes : Bytes) : Except String String :=
  let n := rawBytes.length
  if n ≠ 20 then .error s!"Address must be exactly 20 bytes, got {n}"
  else P.bech32Encode "sprax" rawBytes

def toHex (rawBytes : Bytes) : Except String String :=
  let n := rawBytes.length
  if n ≠ 20 then .error s!"Address must be exactly 20 bytes, got {n}"
  else .ok ("0x" ++ hexEncode rawBytes)

/-- Bech32, or 40 hexadecimal digits behind a mark. -/
def parseToBytes (address : String) : Except String Bytes :=
  let clean := js.trim address
  let hex (digits : List Char) : Except String Bytes :=
    match Text.hexDecode (String.ofList digits) with
    | .ok bs => if digits.length = 40 then .ok bs
      else .error "Invalid 0x hex address: must be 40 hexadecimal characters"
    | .error _ => .error "Invalid 0x hex address: must be 40 hexadecimal characters"
  match clean.toList with
  | '0' :: 'x' :: digits | '0' :: 'X' :: digits => hex digits
  | _ =>
    match B.decode clean with
    | .error e => .error s!"Invalid address format: {e}"
    | .ok (hrp, bytes) =>
      let n := bytes.length
      if hrp ≠ "sprax" then
        .error s!"Invalid address format: Invalid Bech32 prefix: expected 'sprax', got '{hrp}'"
      else if n ≠ 20 then
        .error s!"Invalid address format: Invalid address payload length: expected 20 bytes, got {n}"
      else .ok bytes

def isValidAddress (address : String) : Bool := (parseToBytes B js address).isOk

/-- A wallet is a seed of 64 bytes. -/
structure HDWallet where
  seed : Bytes
  length_eq : seed.length = 64

/-- Four bytes, the highest first. -/
def uint32Bytes (n : ℕ) : Bytes :=
  [UInt8.ofNat (n / 2 ^ 24), UInt8.ofNat (n / 2 ^ 16), UInt8.ofNat (n / 2 ^ 8), UInt8.ofNat n]

/-- The private key of an account: one step from the master key of the salt. -/
def HDWallet.privateKey (w : HDWallet) (saltKey : String) (index : ℕ) : Bytes :=
  let master := js.hmacSha512 saltKey.toUTF8.data.toList w.seed
  let indexData := uint32Bytes ((2 ^ 31 ||| index) % 2 ^ 32)
  (js.hmacSha512 ((master.drop 32).take 32) (0 :: master.take 32 ++ indexData)).take 32

/-- The account of a key: its address is the start of the SHA-256 hash of the
public key. -/
def accountOf (P : Primitives) (algorithm : KeyType) (index : ℕ) (publicKey : Bytes) :
    Except String Account := do
  let rawAddress := (js.sha256 publicKey).take 20
  let addressBech32 ← toBech32 P rawAddress
  let addressHex ← toHex rawAddress
  return ⟨index, addressBech32, addressHex, hexEncode publicKey, algorithm⟩

def HDWallet.deriveAccount (P : Primitives) (w : HDWallet) (index : ℕ) :
    Except String (Account × Bytes) := do
  let privateKey := w.privateKey js "ed25519 seed" index
  return (← accountOf js P .ed25519 index (P.ed25519PublicKey privateKey), privateKey)

def HDWallet.deriveSecp256k1Account (P : Primitives) (w : HDWallet) (index : ℕ) :
    Except String (Account × Bytes) := do
  let privateKey := w.privateKey js "Bitcoin seed" index
  return (← accountOf js P .secp256k1 index (js.secp256k1PublicKey privateKey), privateKey)

def sprxToAtto (sprx : String) : Except String ℤ :=
  match (js.trim sprx).toList.splitOn '.' with
  | [whole] => do
    return (← js.bigInt (if whole.isEmpty then "0" else String.ofList whole)) * 10 ^ 18
  | [whole, fraction] => do
    let units ← js.bigInt (if whole.isEmpty then "0" else String.ofList whole)
    let rest ← js.bigInt (String.ofList ((fraction.rightpad 18 '0').take 18))
    return units * 10 ^ 18 + rest
  | _ => .error s!"Invalid SPRX decimal amount format: {sprx}"

def defaultFee : TxFee := ⟨"500000000000000", 200000⟩

/-- The object that is signed; addresses are in hexadecimal here. -/
def getSignBytes (req : SendTxRequest) (chainId : String) : Except String Bytes := do
  let source := req.fromAddress
  let dest := req.toAddress
  if !isValidAddress B js req.fromAddress then .error s!"Invalid sender address: {source}"
  else if !isValidAddress B js req.toAddress then .error s!"Invalid recipient address: {dest}"
  else do
    let attoAmount ← sprxToAtto js req.amountSprx
    if attoAmount ≤ 0 then .error "Transaction amount must be strictly greater than 0"
    else do
      let fee := req.fee.getD defaultFee
      let recipient ← toHex (← parseToBytes B js req.toAddress)
      let sender ← toHex (← parseToBytes B js req.fromAddress)
      return js.stringify (.object [
        ("chain_id", .string chainId),
        ("fee", .object [("amount", .string fee.amountAtto), ("gas_limit", .number fee.gasLimit)]),
        ("memo", .string (req.memo.getD "")),
        ("messages", .array [.object [("Transfer", .object [
          ("amount", .string (toString attoAmount)), ("to", .string recipient)])]]),
        ("nonce", .number req.nonce),
        ("sender", .string sender),
        ("timeout_height", .number (req.timeoutHeight.getD 0))])

/-- Public key and signature over the bytes; secp256k1 signs their hash. -/
def signWith (P : Primitives) (algorithm : KeyType) (privateKey signBytes : Bytes) :
    Bytes × Bytes :=
  match algorithm with
  | .ed25519 => (P.ed25519PublicKey privateKey, P.ed25519Sign privateKey signBytes)
  | .secp256k1 =>
    (js.secp256k1PublicKey privateKey, js.secp256k1Sign privateKey (js.sha256 signBytes))

/-- The object that is sent; addresses are in bech32 here. -/
def signedTransaction (req : SendTxRequest) (chainId sender recipient amount : String)
    (algorithm : KeyType) (publicKey signature : Bytes) : Value :=
  let fee := req.fee.getD defaultFee
  .object [
    ("body", .object [
      ("chainId", .string chainId),
      ("sender", .string sender),
      ("nonce", .number req.nonce),
      ("messages", .array [.object [
        ("type", .string "Transfer"), ("to", .string recipient), ("amount", .string amount)]]),
      ("fee", .object [("amount", .string fee.amountAtto), ("gas_limit", .number fee.gasLimit)]),
      ("memo", .string (req.memo.getD "")),
      ("timeout_height", .number (req.timeoutHeight.getD 0))]),
    ("keyType", algorithm.toValue),
    ("publicKey", .string ("0x" ++ hexEncode publicKey)),
    ("signature", .string ("0x" ++ hexEncode signature))]

def sign (req : SendTxRequest) (chainId : String) (privateKey : Bytes) (algorithm : KeyType) :
    Except String Value := do
  let signBytes ← getSignBytes B js req chainId
  let attoAmount ← sprxToAtto js req.amountSprx
  let signed := signWith js P algorithm privateKey signBytes
  let sender ← toBech32 P (← parseToBytes B js req.fromAddress)
  let recipient ← toBech32 P (← parseToBytes B js req.toAddress)
  return signedTransaction req chainId sender recipient (toString attoAmount) algorithm
    signed.1 signed.2

end Functions

end WalletCore

namespace MobileWallet

/-- The Dart libraries the mobile wallet calls. An encoded address starts with
its prefix and the separator. -/
structure Libraries where
  trim : String → String
  mnemonicToSeed : String → Bytes
  hmacSha512 : Bytes → Bytes → Bytes
  sha256 : Bytes → Bytes
  ripemd160 : Bytes → Bytes
  newKeyFromSeed : Bytes → Bytes
  publicOf : Bytes → Bytes
  sign : Bytes → Bytes → Bytes
  bech32Codec : String → List ℕ → Except String String
  jsonEncode : Value → Bytes
  bech32Codec_eq : ∀ hrp words s, bech32Codec hrp words = .ok s → ∃ rest, s = hrp ++ "1" ++ rest

/-- The inner loop of `_convertBits`: full groups of the accumulator, and the
number of bits that are left. -/
def drain (toBits acc : ℕ) : ℕ → ℕ → List ℕ × ℕ
  | 0, bits => ([], bits)
  | fuel + 1, bits =>
    if toBits ≤ bits then
      let rest := drain toBits acc fuel (bits - toBits)
      ((acc >>> (bits - toBits)) % 2 ^ toBits :: rest.1, rest.2)
    else ([], bits)

/-- The loop of `_convertBits` over the data: groups, accumulator and open bits.
A group needs at least one bit, so the open bits are fuel enough. -/
def convertLoop (fromBits toBits : ℕ) : List ℕ → ℕ → ℕ → Except String (List ℕ × ℕ × ℕ)
  | [], acc, bits => .ok ([], acc, bits)
  | value :: rest, acc, bits => do
    if value >>> fromBits ≠ 0 then .error s!"Exception: Invalid value: {value}"
    else do
      let acc := ((acc <<< fromBits) ||| value) % 2 ^ (fromBits + toBits - 1)
      let drained := drain toBits acc (bits + fromBits) (bits + fromBits)
      let tail ← convertLoop fromBits toBits rest acc drained.2
      return (drained.1 ++ tail.1, tail.2)

def convertBits (data : List ℕ) (fromBits toBits : ℕ) (pad : Bool) : Except String (List ℕ) := do
  let (groups, acc, bits) ← convertLoop fromBits toBits data 0 0
  let last := (acc <<< (toBits - bits)) % 2 ^ toBits
  if pad then return (if 0 < bits then groups ++ [last] else groups)
  else if fromBits ≤ bits ∨ last ≠ 0 then .error "Exception: Invalid padding"
  else return groups

section Functions
variable (dart : Libraries)

def encodeToBech32 (rawAddress : Bytes) : Except String String := do
  let words ← convertBits (rawAddress.map UInt8.toNat) 8 5 true
  dart.bech32Codec "sprax" words

structure KeyPairResult where
  privateKeyBytes : Bytes
  publicKeyBytes : Bytes
  address : String

/-- The address is RIPEMD-160 of SHA-256 of the public key. -/
def deriveAccountFromMnemonic (mnemonic : String) (accountIndex : ℕ) :
    Except String KeyPairResult := do
  let seed := dart.mnemonicToSeed (dart.trim mnemonic)
  let pathStr := s!"m/44'/9999'/0'/0/{accountIndex}"
  let digest := dart.hmacSha512 "ed25519 seed".toUTF8.data.toList
    (pathStr.toUTF8.data.toList ++ seed)
  let privateKey := dart.newKeyFromSeed (digest.take 32)
  let publicKey := dart.publicOf privateKey
  let address ← encodeToBech32 dart (dart.ripemd160 (dart.sha256 publicKey))
  return ⟨privateKey, publicKey, address⟩

structure TransferRequest where
  chainId : String
  senderAddress : String
  recipientAddress : String
  amountAtto : ℤ
  feeAtto : ℤ
  nonce : ℤ
  timeoutHeight : ℤ
  memo : String := "SPRX Mobile Wallet Transfer"

def txBody (req : TransferRequest) : Value :=
  .object [
    ("chain_id", .string req.chainId),
    ("sender", .string req.senderAddress),
    ("nonce", .number req.nonce),
    ("messages", .array [.object [
      ("type", .string "transfer"), ("to", .string req.recipientAddress),
      ("amount", .string (toString req.amountAtto))]]),
    ("fee", .object [("amount", .string (toString req.feeAtto)), ("gas_limit", .number 100000)]),
    ("memo", .string req.memo),
    ("timeout_height", .number req.timeoutHeight)]

/-- The hash of the encoded body is signed. -/
def buildAndSignTransferTx (req : TransferRequest) (keys : KeyPairResult) : Value :=
  let signBytes := dart.sha256 (dart.jsonEncode (txBody req))
  let signature := dart.sign keys.privateKeyBytes signBytes
  .object [
    ("body", txBody req),
    ("key_type", .string "Ed25519"),
    ("public_key", .string (hexEncode keys.publicKeyBytes)),
    ("signature", .string (hexEncode signature))]

end Functions

end MobileWallet

theorem Rpc.RefusesSender.not_accepts {P : Primitives} {B : Bech32 P} {chainId : String} {v : Value}
    (h : Rpc.RefusesSender B chainId v) : ¬ Rpc.Accepts B chainId v := by
  obtain ⟨e, he, _⟩ := h
  rintro ⟨tx, htx, _⟩
  cases he.symm.trans htx

namespace WalletCore
variable {P : Primitives} (B : Bech32 P)

include B in
theorem toBech32_ok {rawBytes : Bytes} {s : String} (h : toBech32 P rawBytes = .ok s) :
    ∃ rest, s = "sprax" ++ "1" ++ rest := by
  unfold toBech32 at h
  dsimp only at h
  split at h
  · cases h
  · exact B.encode_eq _ _ _ h

/-- What is signed plays no role: the object names its sender in bech32, and its
keys are not those of the node's encoding. -/
theorem sign_refused {js : Libraries} {req : SendTxRequest} {chainId : String} {privateKey : Bytes}
    {algorithm : KeyType} {v : Value} (h : sign B js req chainId privateKey algorithm = .ok v) :
    Rpc.RefusesSender B chainId v := by
  obtain ⟨signBytes, _, h⟩ := exists_of_bind_ok h
  obtain ⟨attoAmount, _, h⟩ := exists_of_bind_ok h
  obtain ⟨source, _, h⟩ := exists_of_bind_ok h
  obtain ⟨sender, hsender, h⟩ := exists_of_bind_ok h
  obtain ⟨dest, _, h⟩ := exists_of_bind_ok h
  obtain ⟨recipient, _, h⟩ := exists_of_bind_ok h
  cases h
  obtain ⟨rest, rfl⟩ := toBech32_ok B hsender
  exact Rpc.refusesSender_of_sprax B rfl rfl rfl rfl

end WalletCore

namespace MobileWallet
variable {P : Primitives} (B : Bech32 P) {dart : Libraries}

theorem encodeToBech32_ok {rawAddress : Bytes} {s : String}
    (h : encodeToBech32 dart rawAddress = .ok s) : ∃ rest, s = "sprax" ++ "1" ++ rest := by
  obtain ⟨words, _, h⟩ := exists_of_bind_ok h
  exact dart.bech32Codec_eq _ _ _ h

/-- The node's encoding has the public key as an array of bytes. -/
theorem fromValue_transfer (req : TransferRequest) (keys : KeyPairResult) :
    Transaction.fromValue B (buildAndSignTransferTx dart req keys) = none := by
  change (do
    let body ← TxBody.fromValue B (txBody req)
    let keyType ← some KeyType.ed25519
    let publicKey ← none
    let signature ← none
    return Transaction.mk body keyType publicKey signature) = none
  cases TxBody.fromValue B (txBody req) with
  | none => rfl
  | some body => rfl

theorem deriveAccount_address {mnemonic : String} {accountIndex : ℕ} {keys : KeyPairResult}
    (h : deriveAccountFromMnemonic dart mnemonic accountIndex = .ok keys) :
    ∃ rest, keys.address = "sprax" ++ "1" ++ rest := by
  obtain ⟨address, haddress, h⟩ := exists_of_bind_ok h
  cases h
  exact encodeToBech32_ok haddress

theorem transfer_refused {mnemonic : String} {accountIndex : ℕ} {keys : KeyPairResult}
    {req : TransferRequest}
    (hkeys : deriveAccountFromMnemonic dart mnemonic accountIndex = .ok keys)
    (hsender : req.senderAddress = keys.address) :
    Rpc.RefusesSender B req.chainId (buildAndSignTransferTx dart req keys) := by
  obtain ⟨rest, hrest⟩ := deriveAccount_address hkeys
  have hbody : ((txBody req).get "sender").bind Value.asStr = some ("sprax" ++ "1" ++ rest) :=
    congrArg some (hsender.trans hrest)
  exact Rpc.refusesSender_of_sprax B (fromValue_transfer B req keys) rfl rfl hbody

end MobileWallet

/-- The node accepts no transaction of a wallet: whatever the key, the request
and the chain identifier, the signed object is refused, and for its sender if
the chain identifier is fine. -/
theorem wallet_transactions_refused {P : Primitives} (B : Bech32 P) :
    (∀ js req chainId privateKey algorithm v,
      WalletCore.sign B js req chainId privateKey algorithm = .ok v →
        Rpc.RefusesSender B chainId v ∧ ¬ Rpc.Accepts B chainId v) ∧
    (∀ dart mnemonic accountIndex keys (req : MobileWallet.TransferRequest),
      MobileWallet.deriveAccountFromMnemonic dart mnemonic accountIndex = .ok keys →
      req.senderAddress = keys.address →
        Rpc.RefusesSender B req.chainId (MobileWallet.buildAndSignTransferTx dart req keys) ∧
        ¬ Rpc.Accepts B req.chainId (MobileWallet.buildAndSignTransferTx dart req keys)) := by
  constructor
  · intro js req chainId privateKey algorithm v h
    have hrefused := WalletCore.sign_refused B h
    exact ⟨hrefused, hrefused.not_accepts⟩
  · intro dart mnemonic accountIndex keys req hkeys hsender
    have hrefused := MobileWallet.transfer_refused B hkeys hsender
    exact ⟨hrefused, hrefused.not_accepts⟩

section Development
open Devnet

/-- The development primitives with an encoder for one prefix, which can be
decoded. -/
def walletPrimitives : Primitives :=
  { primitives with
    bech32Encode := fun hrp bs =>
      if hrp = "sprax" then .ok ("sprax" ++ "1" ++ hexEncode bs) else .error "invalid prefix" }

theorem walletPrimitives_encode {hrp s : String} {data : Bytes}
    (h : walletPrimitives.bech32Encode hrp data = .ok s) :
    hrp = "sprax" ∧ s = "sprax" ++ "1" ++ hexEncode data := by
  change (if hrp = "sprax" then _ else _) = _ at h
  split at h
  · rename_i hhrp
    cases h
    exact ⟨hhrp, rfl⟩
  · cases h

def walletBech32 : Bech32 walletPrimitives where
  decode s :=
    match Text.hexDecode (String.ofList (s.toList.drop 6)) with
    | .ok bs => .ok ("sprax", bs)
    | .error _ => .error "invalid data"
  decode_encode hrp data s h := by
    obtain ⟨rfl, rfl⟩ := walletPrimitives_encode h
    have hdrop : ("sprax" ++ "1" ++ hexEncode data).toList.drop 6 = (hexEncode data).toList := by
      simp
    rw [hdrop, String.ofList_toList, Text.hexDecode_hexEncode]
  encode_eq hrp data s h := by
    obtain ⟨rfl, rfl⟩ := walletPrimitives_encode h
    exact ⟨_, rfl⟩

mutual

/-- A text of a value, without escapes. -/
def Value.render : Value → String
  | .null => "null"
  | .bool b => toString b
  | .number n => toString n
  | .string s => "\"" ++ s ++ "\""
  | .array items => "[" ++ Value.renderItems items ++ "]"
  | .object members => "\x7b" ++ Value.renderMembers members ++ "\x7d"

def Value.renderItems : List Value → String
  | [] => ""
  | item :: items => Value.render item ++ "," ++ Value.renderItems items

def Value.renderMembers : List (String × Value) → String
  | [] => ""
  | (key, v) :: members =>
    "\"" ++ key ++ "\":" ++ Value.render v ++ "," ++ Value.renderMembers members

end

def walletJs : WalletCore.Libraries where
  trim := Text.trim
  bigInt s := match Text.parseUnsigned 128 s with
    | .ok n => .ok n
    | .error e => .error e.display
  stringify v := (Value.render v).toUTF8.data.toList
  sha256 bs := (Devnet.hash bs).bytes
  hmacSha512 := signature
  secp256k1PublicKey := publicKey
  secp256k1Sign key := signature (publicKey key)

def walletDart : MobileWallet.Libraries where
  trim := Text.trim
  mnemonicToSeed words := signature [] words.toUTF8.data.toList
  hmacSha512 := signature
  sha256 bs := (Devnet.hash bs).bytes
  ripemd160 bs := (Devnet.hash bs).bytes.take 20
  newKeyFromSeed := publicKey
  publicOf key := publicKey key
  sign key := signature (publicKey key)
  bech32Codec hrp words := .ok (hrp ++ "1" ++ hexEncode (words.map UInt8.ofNat))
  jsonEncode v := (Value.render v).toUTF8.data.toList
  bech32Codec_eq hrp words s h := by
    cases h
    exact ⟨_, rfl⟩

def devWallet : WalletCore.HDWallet := ⟨List.replicate 64 1, by simp⟩

/-- A request to send one and a half coins from an account to itself. -/
def devSend (address : String) : WalletCore.SendTxRequest where
  fromAddress := address
  toAddress := address
  amountSprx := "1.5"
  nonce := 0
  fee := none
  memo := none
  timeoutHeight := none

def devTransfer (address : String) : MobileWallet.TransferRequest where
  chainId := "sprax-devnet-1"
  senderAddress := address
  recipientAddress := address
  amountAtto := 1500000000000000000
  feeAtto := 500000000000000
  nonce := 0
  timeoutHeight := 0

/-- The first account of the wallet signs the request. -/
theorem devSend_signed : ∃ account privateKey v,
    devWallet.deriveAccount walletJs walletPrimitives 0 = .ok (account, privateKey) ∧
    WalletCore.sign walletBech32 walletJs (devSend account.addressBech32) "sprax-devnet-1"
      privateKey .ed25519 = .ok v := by
  let signed := devWallet.deriveAccount walletJs walletPrimitives 0 >>= fun derived =>
    WalletCore.sign walletBech32 walletJs (devSend derived.1.addressBech32) "sprax-devnet-1"
      derived.2 .ed25519
  have hok : signed.isOk = true := by decide +kernel
  obtain ⟨⟨account, privateKey⟩, hderived, hsigned⟩ := exists_of_bind_ok (eq_okValue signed hok)
  exact ⟨account, privateKey, _, hderived, hsigned⟩

theorem devAccount_derived :
    ∃ keys, MobileWallet.deriveAccountFromMnemonic walletDart "abandon ability able" 0 = .ok keys :=
  have hok : (MobileWallet.deriveAccountFromMnemonic walletDart
      "abandon ability able" 0).isOk = true :=
    by decide +kernel
  ⟨_, eq_okValue _ hok⟩

theorem wallet_transactions_refused_devnet :
    (∃ account privateKey v,
      devWallet.deriveAccount walletJs walletPrimitives 0 = .ok (account, privateKey) ∧
      WalletCore.sign walletBech32 walletJs (devSend account.addressBech32) "sprax-devnet-1"
        privateKey .ed25519 = .ok v ∧
      ¬ Rpc.Accepts walletBech32 "sprax-devnet-1" v) ∧
    (∃ keys,
      MobileWallet.deriveAccountFromMnemonic walletDart "abandon ability able" 0 = .ok keys ∧
      ¬ Rpc.Accepts walletBech32 "sprax-devnet-1"
        (MobileWallet.buildAndSignTransferTx walletDart (devTransfer keys.address) keys)) := by
  obtain ⟨account, privateKey, v, hderived, hsigned⟩ := devSend_signed
  obtain ⟨keys, hkeys⟩ := devAccount_derived
  have hrefused := wallet_transactions_refused walletBech32
  exact ⟨⟨account, privateKey, v, hderived, hsigned, (hrefused.1 _ _ _ _ _ _ hsigned).2⟩,
    ⟨keys, hkeys, (hrefused.2 _ _ _ _ (devTransfer keys.address) hkeys rfl).2⟩⟩

/-- Both wallets sign a transfer from an account of theirs, under an identifier
of the right form, and the node answers that the sender is invalid. -/
theorem signed_transfers_refused :
    (∃ account privateKey v,
      devWallet.deriveAccount walletJs walletPrimitives 0 = .ok (account, privateKey) ∧
      WalletCore.sign walletBech32 walletJs (devSend account.addressBech32) "sprax-devnet-1"
        privateKey .ed25519 = .ok v ∧
      Rpc.parseTransaction walletBech32 v = .error "Invalid sender address") ∧
    (∃ keys,
      MobileWallet.deriveAccountFromMnemonic walletDart "abandon ability able" 0 = .ok keys ∧
      Rpc.parseTransaction walletBech32
        (MobileWallet.buildAndSignTransferTx walletDart (devTransfer keys.address) keys) =
          .error "Invalid sender address") := by
  have hid : ChainId.new "sprax-devnet-1" = .ok ⟨"sprax-devnet-1"⟩ := by decide
  constructor
  · obtain ⟨account, privateKey, v, hderived, hsigned⟩ := devSend_signed
    obtain ⟨e, he, hsender⟩ := WalletCore.sign_refused walletBech32 hsigned
    exact ⟨account, privateKey, v, hderived, hsigned, hsender _ hid ▸ he⟩
  · obtain ⟨keys, hkeys⟩ := devAccount_derived
    obtain ⟨e, he, hsender⟩ :=
      @MobileWallet.transfer_refused _ walletBech32 _ _ _ _ (devTransfer keys.address)
      hkeys rfl
    exact ⟨keys, hkeys, hsender _ hid ▸ he⟩

end Development

end Sprax
