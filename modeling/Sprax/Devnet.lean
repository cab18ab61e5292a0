import Sprax.Codec
import Sprax.Node

/-!
# A development instance of the third-party primitives

Concrete functions for the parameters of the model, so that every definition can
be run. Encodings are built from the codec combinators. The hash is a polynomial
digest over a 255-bit prime and the signature of a message is its digest under
the key; neither is meant to be secure, and the properties proved elsewhere
never mention them.
-/
namespace Sprax.Devnet
open Codec

def hashCodec : Codec Hash32 :=
  bytes.through Hash32.bytes (fun bs => if h : bs.length = 32 then some ⟨bs, h⟩ else none)
    (fun h => dif_pos h.length_eq)

def addressCodec : Codec Address :=
  bytes.through Address.bytes (fun bs => if h : bs.length = 20 then some ⟨bs, h⟩ else none)
    (fun a => dif_pos a.length_eq)

def amountCodec : Codec Amount :=
  nat.through Amount.atto (fun n => if h : n < 2 ^ 128 then some ⟨n, h⟩ else none)
    (fun a => dif_pos a.lt)

def accountCodec : Codec AccountState :=
  (nat.prod (amountCodec.prod (hashCodec.prod hashCodec))).through
    (fun a => (a.nonce, a.balance, a.codeHash, a.storageRoot))
    (fun t => some ⟨t.1, t.2.1, t.2.2.1, t.2.2.2⟩) (fun _ => rfl)

def messageCodec : Codec TxMessage :=
  ((addressCodec.prod amountCodec).sum ((addressCodec.prod amountCodec).sum
    ((addressCodec.prod amountCodec).sum
      ((addressCodec.prod bytes).sum (string.prod bytes))))).through
    (fun m => match m with
      | .transfer a v => .inl (a, v)
      | .delegate a v => .inr (.inl (a, v))
      | .unbond a v => .inr (.inr (.inl (a, v)))
      | .contractCall a d => .inr (.inr (.inr (.inl (a, d))))
      | .generic u d => .inr (.inr (.inr (.inr (u, d)))))
    (fun s => match s with
      | .inl (a, v) => some (.transfer a v)
      | .inr (.inl (a, v)) => some (.delegate a v)
      | .inr (.inr (.inl (a, v))) => some (.unbond a v)
      | .inr (.inr (.inr (.inl (a, d)))) => some (.contractCall a d)
      | .inr (.inr (.inr (.inr (u, d)))) => some (.generic u d))
    (fun m => by cases m <;> rfl)

def txBodyCodec : Codec TxBody :=
  (string.prod (addressCodec.prod (nat.prod (messageCodec.list.prod
    ((amountCodec.prod (nat.prod amountCodec)).prod (string.prod nat)))))).through
    (fun b => (b.chainId.id, b.sender, b.nonce, b.messages,
      (b.fee.amount, b.fee.gasLimit, b.fee.priorityFee), b.memo, b.timeoutHeight))
    (fun t => some ⟨⟨t.1⟩, t.2.1, t.2.2.1, t.2.2.2.1,
      ⟨t.2.2.2.2.1.1, t.2.2.2.2.1.2.1, t.2.2.2.2.1.2.2⟩, t.2.2.2.2.2.1, t.2.2.2.2.2.2⟩)
    (fun _ => rfl)

def keyTypeCodec : Codec KeyType :=
  bool.through (fun k => k = .secp256k1) (fun b => some (if b then .secp256k1 else .ed25519))
    (fun k => by cases k <;> rfl)

def txCodec : Codec Transaction :=
  (txBodyCodec.prod (keyTypeCodec.prod (bytes.prod bytes))).through
    (fun t => (t.body, t.keyType, t.publicKey, t.signature))
    (fun t => some ⟨t.1, t.2.1, t.2.2.1, t.2.2.2⟩) (fun _ => rfl)

def receiptCodec : Codec TxReceipt :=
  (hashCodec.prod (nat.prod (bool.prod (nat.prod (string.option.prod bytes))))).through
    (fun r => (r.txHash, r.height, r.success, r.gasUsed, r.errorMessage, r.returnData))
    (fun t => some ⟨t.1, t.2.1, t.2.2.1, t.2.2.2.1, t.2.2.2.2.1, t.2.2.2.2.2⟩) (fun _ => rfl)

def headerCodec : Codec BlockHeader :=
  (nat.prod (string.prod (nat.prod (nat.prod (hashCodec.prod (addressCodec.prod (hashCodec.prod
    (hashCodec.prod (hashCodec.prod hashCodec))))))))).through
    (fun h => (h.version, h.chainId, h.height, h.timestampUnixSecs, h.parentHash, h.proposer,
      h.stateRoot, h.txsRoot, h.receiptsRoot, h.validatorSetHash))
    (fun t => some ⟨t.1, t.2.1, t.2.2.1, t.2.2.2.1, t.2.2.2.2.1, t.2.2.2.2.2.1, t.2.2.2.2.2.2.1,
      t.2.2.2.2.2.2.2.1, t.2.2.2.2.2.2.2.2.1, t.2.2.2.2.2.2.2.2.2⟩) (fun _ => rfl)

def commitCodec : Codec CommitSignature :=
  (addressCodec.prod (bytes.prod nat)).through
    (fun c => (c.validatorAddress, c.signature, c.timestampUnixSecs))
    (fun t => some ⟨t.1, t.2.1, t.2.2⟩) (fun _ => rfl)

def blockCodec : Codec Block :=
  (headerCodec.prod (txCodec.list.prod commitCodec.list)).through
    (fun b => (b.header, b.body.transactions, b.lastCommit))
    (fun t => some ⟨t.1, ⟨t.2.1⟩, t.2.2⟩) (fun _ => rfl)

def voteTypeCodec : Codec VoteType :=
  bool.through (fun v => v = .precommit) (fun b => some (if b then .precommit else .prevote))
    (fun v => by cases v <;> rfl)

def voteCodec : Codec SignableVote :=
  (voteTypeCodec.prod (nat.prod (nat.prod hashCodec.option))).through
    (fun v => (v.voteType, v.height, v.round, v.blockHash))
    (fun t => some ⟨t.1, t.2.1, t.2.2.1, t.2.2.2⟩) (fun _ => rfl)

def json {α : Type} (C : Codec α) : Json α := ⟨C.enc, C.decodeAll, C.decodeAll_enc⟩

/-- Polynomial digest over the prime of Curve25519. -/
def digest (bs : Bytes) : ℕ :=
  bs.foldl (fun acc b => (acc * 257 + b.toNat + 1) % (2 ^ 255 - 19)) 7

/-- The 32 big-endian bytes of a number below 2^256. -/
def hashOfNat (n : ℕ) : Hash32 :=
  ⟨(List.range 32).map (fun i => UInt8.ofNat (n / 256 ^ (31 - i))), by simp⟩

def hash (bs : Bytes) : Hash32 := hashOfNat (digest bs)

/-- The first 32 bytes of a seed, padded with zeros. -/
def publicKey (seed : Bytes) : Bytes := (seed ++ List.replicate 32 0).take 32

/-- 64 bytes: the digest of key and message, written twice. -/
def signature (key message : Bytes) : Bytes :=
  (hash (key ++ message)).bytes ++ (hash (key ++ message)).bytes

def primitives : Primitives where
  blake3 := hash
  ed25519PublicKey := publicKey
  ed25519Sign seed message := signature (publicKey seed) message
  ed25519VerifyingKey _ := .ok ()
  ed25519VerifyStrict key message sig := sig = signature key message
  secp256k1VerifyingKey _ := .ok ()
  secp256k1Signature _ := .ok ()
  secp256k1Verify key message sig := sig = signature key message
  bech32Encode hrp bs := .ok (hrp ++ "1" ++ hexEncode bs)
  accountJson := json accountCodec
  txBodyJson := json txBodyCodec
  txJson := json txCodec
  receiptJson := json receiptCodec
  headerJson := json headerCodec
  blockJson := json blockCodec
  txEntryJson := json (txCodec.prod (receiptCodec.prod nat))
  voteJson := json voteCodec

/-- The keypair with a constant seed. -/
def keypair (n : UInt8) : Ed25519Keypair := ⟨List.replicate 32 n⟩

def addressOf (n : UInt8) : Address := (keypair n).address primitives

/-- A few atomic units. -/
def units (n : UInt8) : Amount := ⟨n.toNat, lt_trans n.toNat_lt (by decide)⟩

/-- Two funded accounts, those of keypairs 1 and 2, and the given validators. -/
def devGenesis (validators : List GenesisValidator) : GenesisConfig :=
  { chainId := "sprax-devnet-1"
    genesisTimeUnixSecs := 1700000000
    accounts := [⟨addressOf 1, ⟨1000, by decide⟩⟩, ⟨addressOf 2, ⟨500, by decide⟩⟩]
    validators := validators }

/-- A transaction under the signature of keypair 1. -/
def signedTx (body : TxBody) : Transaction :=
  ⟨body, .ed25519, (keypair 1).publicKeyBytes primitives,
    (keypair 1).sign primitives (primitives.txBodyJson.toVec body)⟩

/-- A signed transfer of 10 units from keypair 1 to keypair 2, for a fee of 1. -/
def transferTx (nonce : ℕ) : Transaction :=
  signedTx
    { chainId := ⟨"sprax-devnet-1"⟩
      sender := addressOf 1
      nonce := nonce
      messages := [.transfer (addressOf 2) ⟨10, by decide⟩]
      fee := ⟨⟨1, by decide⟩, 100000, Amount.zero⟩
      memo := ""
      timeoutHeight := 100 }

/-- The ledger every development scenario starts from. -/
def ledger : ChainLedger := ChainLedger.initFromGenesis primitives (devGenesis [])

/-- The first block after genesis, with one transfer, mined by keypair 9. -/
def transferBlock : Block :=
  ((ledger.submitTransaction primitives (transferTx 0)).1.mineBlock primitives (addressOf 9)).2

/-- The same block under a state root it does not have. -/
def tamperedBlock : Block :=
  { transferBlock with header := { transferBlock.header with stateRoot := Hash32.zero } }

def stakingParams : StakingParams where
  maxValidators := 100
  minSelfStake := ⟨1000 * attoSprxPerSprx, by decide⟩
  doubleSignSlash tokens := ⟨tokens.atto / 20, lt_of_le_of_lt (Nat.div_le_self _ _) tokens.lt⟩

instance neZeroStake : NeZero (2 ^ 64) := ⟨by decide⟩

/-- A validator by key number and stake in whole SPRX. -/
def validator (v : UInt8 × Fin (2 ^ 64)) : GenesisValidator where
  operatorAddress := addressOf v.1
  consensusPubkey := (keypair v.1).publicKeyBytes primitives
  selfStake := ⟨v.2.val * attoSprxPerSprx, by
    have hlt := v.2.isLt
    simp only [attoSprxPerSprx]
    omega⟩
  moniker := ""

/-- The node of one key on a network with the given validators. -/
def startNode (key : UInt8) (validators : List (UInt8 × Fin (2 ^ 64))) :
    Except ConsensusError Node :=
  match (StakingKeeper.empty stakingParams).registerGenesis (validators.map validator) with
  | .error e => .error e
  | .ok staking => Node.start ledger staking (keypair key) (FiniteMap.IterOrder.listed _)

theorem startNode_pair_isOk : (startNode 1 [(1, 3000), (2, 1000)]).isOk = true := by decide +kernel

theorem start_of_startNode {key : UInt8} {validators : List (UInt8 × Fin (2 ^ 64))} {n : Node}
    (h : startNode key validators = .ok n) :
    Node.start ledger n.staking (keypair key) (FiniteMap.IterOrder.listed _) = .ok n := by
  unfold startNode at h
  split at h
  · cases h
  · obtain ⟨valSet, -, hn⟩ := Node.start_ok h
    rw [hn] at h ⊢
    exact h

/-- The key numbers of a network of two nodes. -/
def pairKey (i : Bool) : UInt8 := if i then 2 else 1

/-- The value of a computation that succeeds. -/
def okValue {ε α : Type} : (x : Except ε α) → x.isOk = true → α
  | .ok a, _ => a
  | .error _, h => absurd h (by simp [Except.isOk, Except.toBool])

/-- A node of keypair 1 next to one of a third of its power. -/
def pairNode : Node := okValue (startNode 1 [(1, 3000), (2, 1000)]) startNode_pair_isOk

theorem eq_okValue {ε α : Type} : ∀ (x : Except ε α) (h : x.isOk = true), x = .ok (okValue x h)
  | .ok _, _ => rfl
  | .error _, h => absurd h (by simp [Except.isOk, Except.toBool])

end Sprax.Devnet
