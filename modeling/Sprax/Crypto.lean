import Sprax.Types

/-!
# Hashing and signatures over third-party primitives

Blake3, Ed25519, secp256k1, bech32 and `serde_json` are not part of the
repository. They enter as one record of functions, together with the only law
the code relies on without checking: JSON reads back what it wrote. Everything
the crates build from them is defined here as the source computes it.
-/
namespace Sprax

/-- `serde_json` at one type. -/
structure Json (α : Type) where
  toVec : α → Bytes
  fromSlice : Bytes → Except String α
  fromSlice_toVec : ∀ a, fromSlice (toVec a) = .ok a

theorem Json.toVec_injective {α : Type} (J : Json α) : Function.Injective J.toVec := by
  intro a b h
  have hread := congrArg J.fromSlice h
  rw [J.fromSlice_toVec, J.fromSlice_toVec] at hread
  exact Except.ok.inj hread

/-- The third-party functions the crates call. Parsing functions return the
error text of the library. -/
structure Primitives where
  blake3 : Bytes → Hash32
  ed25519PublicKey : Bytes → Bytes
  ed25519Sign : Bytes → Bytes → Bytes
  ed25519VerifyingKey : Bytes → Except String Unit
  ed25519VerifyStrict : Bytes → Bytes → Bytes → Bool
  secp256k1VerifyingKey : Bytes → Except String Unit
  secp256k1Signature : Bytes → Except String Unit
  secp256k1Verify : Bytes → Bytes → Bytes → Bool
  bech32Encode : String → Bytes → Except String String
  accountJson : Json AccountState
  txBodyJson : Json TxBody
  txJson : Json Transaction
  receiptJson : Json TxReceipt
  headerJson : Json BlockHeader
  blockJson : Json Block
  txEntryJson : Json (Transaction × TxReceipt × ℕ)
  voteJson : Json SignableVote

variable (P : Primitives)

/-- `Display` of an address: bech32, or hexadecimal when the encoder fails. -/
def Address.display (a : Address) : String :=
  match P.bech32Encode "sprax" a.bytes with
  | .ok b32 => b32
  | .error _ => a.toHex

namespace Hasher

def txHash (tx : Transaction) : Hash32 := P.blake3 (P.txJson.toVec tx)

def blockHash (header : BlockHeader) : Hash32 := P.blake3 (P.headerJson.toVec header)

def receiptHash (receipt : TxReceipt) : Hash32 := P.blake3 (P.receiptJson.toVec receipt)

/-- One level of the Merkle loop: hash pairs, an odd last hash with itself. -/
def merkleLevel : List Hash32 → List Hash32
  | [] => []
  | [a] => [P.blake3 (a.bytes ++ a.bytes)]
  | a :: b :: rest => P.blake3 (a.bytes ++ b.bytes) :: merkleLevel rest

theorem length_merkleLevel (hs : List Hash32) :
    (merkleLevel P hs).length = (hs.length + 1) / 2 := by
  induction hs using merkleLevel.induct with
  | case1 => simp [merkleLevel]
  | case2 a => simp [merkleLevel]
  | case3 a b rest ih => simp only [merkleLevel, List.length_cons, ih]; omega

/-- The `while current.len() > 1` loop; every level is shorter, so the number of
hashes is fuel enough. -/
def merkleLoop : ℕ → List Hash32 → List Hash32
  | 0, current => current
  | fuel + 1, current =>
    if 1 < current.length then merkleLoop fuel (merkleLevel P current) else current

theorem length_merkleLoop (fuel : ℕ) (hs : List Hash32) (hne : hs ≠ [])
    (hf : hs.length ≤ fuel + 1) : (merkleLoop P fuel hs).length = 1 := by
  have hpos := List.length_pos_iff.mpr hne
  induction fuel generalizing hs with
  | zero => simp only [merkleLoop]; omega
  | succ fuel ih =>
    unfold merkleLoop
    split
    · rename_i hlong
      have hlen := length_merkleLevel P hs
      have hpos' : 0 < (merkleLevel P hs).length := by omega
      exact ih _ (List.length_pos_iff.mp hpos') (by omega) hpos'
    · omega

/-- Binary Merkle root over a list of hashes. -/
def merkleRoot (hs : List Hash32) : Hash32 :=
  match hs with
  | [] => Hash32.zero
  | [h] => h
  | hs => (merkleLoop P hs.length hs).headD Hash32.zero

/-- Root over sorted key-value pairs: hash of the concatenated pair hashes. -/
def computeFlatRoot (pairs : List (Bytes × Bytes)) : Hash32 :=
  if pairs.isEmpty then Hash32.zero
  else P.blake3 (pairs.flatMap (fun e => (P.blake3 (e.1 ++ e.2)).bytes))

end Hasher

/-- Errors of `sprax-crypto` that verification raises. -/
inductive CryptoError
  | invalidPublicKey (reason : String)
  | invalidSignature (reason : String)
  | signatureVerificationFailed
  deriving DecidableEq

/-- The `Display` text of the error. -/
def CryptoError.display : CryptoError → String
  | .invalidPublicKey reason => s!"Invalid public key: {reason}"
  | .invalidSignature reason => s!"Invalid signature: {reason}"
  | .signatureVerificationFailed => "Signature verification failed"

/-- The first 20 bytes of the Blake3 hash of a public key. -/
def addressOfPublicKey (publicKey : Bytes) : Address :=
  ⟨(P.blake3 publicKey).bytes.take 20, by simp [(P.blake3 publicKey).length_eq]⟩

/-- Ed25519 keypair, represented by its secret seed. -/
structure Ed25519Keypair where
  seed : Bytes
  deriving DecidableEq

namespace Ed25519Keypair

def publicKeyBytes (k : Ed25519Keypair) : Bytes := P.ed25519PublicKey k.seed

def address (k : Ed25519Keypair) : Address := addressOfPublicKey P (k.publicKeyBytes P)

def sign (k : Ed25519Keypair) (message : Bytes) : Bytes := P.ed25519Sign k.seed message

def verify (publicKey message signatureBytes : Bytes) : Except CryptoError Unit :=
  let keyLen := publicKey.length
  let sigLen := signatureBytes.length
  if keyLen ≠ 32 then .error (.invalidPublicKey s!"expected 32 bytes, found {keyLen}")
  else match P.ed25519VerifyingKey publicKey with
    | .error e => .error (.invalidPublicKey e)
    | .ok () =>
      if sigLen ≠ 64 then .error (.invalidSignature s!"expected 64 bytes, found {sigLen}")
      else if P.ed25519VerifyStrict publicKey message signatureBytes then .ok ()
      else .error .signatureVerificationFailed

end Ed25519Keypair

namespace Secp256k1Keypair

def verify (publicKey message signatureBytes : Bytes) : Except CryptoError Unit :=
  match P.secp256k1VerifyingKey publicKey with
  | .error e => .error (.invalidPublicKey e)
  | .ok () =>
    match P.secp256k1Signature signatureBytes with
    | .error e => .error (.invalidSignature e)
    | .ok () =>
      if P.secp256k1Verify publicKey message signatureBytes then .ok ()
      else .error .signatureVerificationFailed

end Secp256k1Keypair

def Transaction.signBytes (tx : Transaction) : Bytes := P.txBodyJson.toVec tx.body

def Vote.signBytes (v : Vote) : Bytes := P.voteJson.toVec v.signable

end Sprax
