import Sprax.Framing
import Sprax.Gossip
import Sprax.Tables
import Sprax.Text
import Sprax.Devnet

/-!
# Messages on the wire

A message is sent as the length of its JSON text in four bytes and the text. The writer
has no limit and cuts the length to 32 bits; the reader of a connection ends at a length
above ten mebibytes. Messages within that limit arrive in order, however the stream is
cut. A longer one ends the connection, also where its length was cut to a small one:
JSON has no zero byte, so what the reader takes for the next length is far too large.
-/
namespace Sprax.Network
open Framing

/-- `len as u32`, in big-endian bytes. -/
def u32ToBeBytes (n : ℕ) : Bytes := (List.range 4).map (fun i => UInt8.ofNat (n / 256 ^ (3 - i)))

def u32FromBeBytes (bs : Bytes) : ℕ := bs.foldl (fun acc b => acc * 256 + b.toNat) 0

variable (J : Json NetworkMessage)

def encode (msg : NetworkMessage) : Bytes :=
  let jsonBytes := J.toVec msg
  u32ToBeBytes jsonBytes.length ++ jsonBytes

def decode (bytes : Bytes) : Except String NetworkMessage := J.fromSlice bytes

def maxFrame : ℕ := 10 * 1024 * 1024

/-- The frames that the reader loop takes; each message it decodes is handed to
`Inbox.read`. -/
def wireFormat : Format UInt8 NetworkMessage where
  headerSize := 4
  headerSize_pos := by decide
  payloadSize := u32FromBeBytes
  limit := maxFrame
  decode := fun buf => (decode J buf).toOption

/-- The reader loop of a connection after some chunks have arrived. -/
def readerLoop (chunks : List Bytes) : Reader UInt8 NetworkMessage :=
  chunks.foldl (Reader.receive (wireFormat J)) Reader.start

variable {J}

@[simp] theorem length_u32ToBeBytes (n : ℕ) : (u32ToBeBytes n).length = 4 := by simp [u32ToBeBytes]

theorem u32FromBeBytes_u32ToBeBytes (n : ℕ) : u32FromBeBytes (u32ToBeBytes n) = n % 2 ^ 32 :=
  u64FromBeBytes_range 4 n

/-- Without a leading zero byte a length is above every limit. -/
theorem maxFrame_lt_of_ne_zero {b₀ b₁ b₂ b₃ : UInt8} (h : b₀ ≠ 0) :
    maxFrame < u32FromBeBytes [b₀, b₁, b₂, b₃] := by
  have hpos : 0 < b₀.toNat := by
    refine Nat.pos_of_ne_zero (fun hzero => h ?_)
    exact UInt8.toNat_inj.mp hzero
  simp only [maxFrame, u32FromBeBytes, List.foldl_cons, List.foldl_nil]
  omega

/-- The reader starts blocked, so it sees the stream and not the chunks. -/
theorem readerLoop_eq (chunks : List Bytes) :
    readerLoop J chunks = Reader.drain (wireFormat J) ⟨.header, chunks.flatten, []⟩ := by
  have hstart : Reader.drain (wireFormat J) Reader.start = Reader.start := Reader.drain_of_none rfl
  rw [readerLoop, Reader.receive_chunks hstart]
  rfl

/-- Messages within the limit are delivered, whatever comes behind them. -/
theorem drain_messages {msgs : List NetworkMessage}
    (h : ∀ m ∈ msgs, (J.toVec m).length ≤ maxFrame) (rest : Bytes)
    (delivered : List NetworkMessage) :
    Reader.drain (wireFormat J) ⟨.header, msgs.flatMap (encode J) ++ rest, delivered⟩ =
      Reader.drain (wireFormat J) ⟨.header, rest, delivered ++ msgs⟩ := by
  induction msgs generalizing delivered with
  | nil => simp
  | cons m msgs ih =>
    have hlen := h m List.mem_cons_self
    have hsize : u32FromBeBytes (u32ToBeBytes (J.toVec m).length) = (J.toVec m).length := by
      rw [u32FromBeBytes_u32ToBeBytes, Nat.mod_eq_of_lt]
      unfold maxFrame at hlen
      omega
    have hdecode : (wireFormat J).decode (J.toVec m) = some m := by
      simp only [wireFormat, decode, J.fromSlice_toVec]
      rfl
    have hframe : (m :: msgs).flatMap (encode J) ++ rest =
        u32ToBeBytes (J.toVec m).length ++ (J.toVec m ++ (msgs.flatMap (encode J) ++ rest)) := by
      simp [encode]
    rw [hframe, Reader.drain_frame (length_u32ToBeBytes _) hsize hlen hdecode,
      ih (fun m' hm' => h m' (List.mem_cons_of_mem m hm')), List.append_assoc,
      List.singleton_append]

/-- Text in the place of a length ends the connection. -/
theorem drain_text {text : Bytes} (hnul : (0 : UInt8) ∉ text) (hlen : 4 ≤ text.length)
    (rest : Bytes) (delivered : List NetworkMessage) :
    (Reader.drain (wireFormat J) ⟨.header, text ++ rest, delivered⟩).awaiting = .closed := by
  obtain _ | ⟨b₀, _ | ⟨b₁, _ | ⟨b₂, _ | ⟨b₃, tail⟩⟩⟩⟩ := text
  iterate 4 simp at hlen
  have hne : b₀ ≠ 0 := fun hzero => hnul (hzero ▸ List.mem_cons_self)
  have hsplit : b₀ :: b₁ :: b₂ :: b₃ :: tail ++ rest = [b₀, b₁, b₂, b₃] ++ (tail ++ rest) := rfl
  have hlarge : (wireFormat J).limit < (wireFormat J).payloadSize [b₀, b₁, b₂, b₃] :=
    maxFrame_lt_of_ne_zero hne
  rw [hsplit, Reader.drain_too_large rfl hlarge]

/-- A message above the limit ends the connection. -/
theorem drain_oversized (hnul : ∀ m, (0 : UInt8) ∉ J.toVec m) {m : NetworkMessage}
    (h : maxFrame < (J.toVec m).length) (rest : Bytes) (delivered : List NetworkMessage) :
    (Reader.drain (wireFormat J) ⟨.header, encode J m ++ rest, delivered⟩).awaiting = .closed := by
  have hframe : encode J m ++ rest = u32ToBeBytes (J.toVec m).length ++ (J.toVec m ++ rest) := by
    simp [encode]
  have hsize : (wireFormat J).payloadSize (u32ToBeBytes (J.toVec m).length) =
      (J.toVec m).length % 2 ^ 32 := u32FromBeBytes_u32ToBeBytes _
  rw [hframe]
  by_cases hlimit : maxFrame < (J.toVec m).length % 2 ^ 32
  · rw [Reader.drain_too_large (length_u32ToBeBytes _) (hsize ▸ hlimit)]
  · -- The length was cut: text is left where the reader goes on.
    have hcut : (J.toVec m).length % 2 ^ 32 + 4 ≤ (J.toVec m).length := by
      unfold maxFrame at h hlimit
      omega
    have hfits : (wireFormat J).payloadSize (u32ToBeBytes (J.toVec m).length) ≤
        (J.toVec m ++ rest).length := by
      rw [hsize, List.length_append]
      omega
    obtain ⟨more, hshort⟩ := Reader.drain_short (length_u32ToBeBytes _)
      (hsize ▸ Nat.le_of_not_lt hlimit) hfits
    rw [hshort, hsize, List.drop_append_of_le_length (by omega)]
    refine drain_text (fun hmem => hnul m (List.mem_of_mem_drop hmem)) ?_ rest more
    rw [List.length_drop]
    omega

/-- One message above the limit is enough, wherever it stands. -/
theorem drain_closed (hnul : ∀ m, (0 : UInt8) ∉ J.toVec m) {msgs : List NetworkMessage}
    {m : NetworkMessage} (hm : m ∈ msgs) (hlen : maxFrame < (J.toVec m).length)
    (delivered : List NetworkMessage) :
    (Reader.drain (wireFormat J) ⟨.header, msgs.flatMap (encode J), delivered⟩).awaiting =
      .closed := by
  induction msgs generalizing delivered with
  | nil => cases hm
  | cons first msgs ih =>
    rw [List.flatMap_cons]
    by_cases hfirst : maxFrame < (J.toVec first).length
    · exact drain_oversized hnul hfirst _ delivered
    · have hsmall : ∀ m' ∈ [first], (J.toVec m').length ≤ maxFrame := by
        simpa using Nat.le_of_not_lt hfirst
      have hrest : m ∈ msgs := by
        rcases List.mem_cons.mp hm with rfl | hrest
        · exact absurd hlen hfirst
        · exact hrest
      have hframe := drain_messages hsmall (msgs.flatMap (encode J)) delivered
      rw [List.flatMap_singleton] at hframe
      rw [hframe]
      exact ih hrest _

/-- Framing is lossless exactly for messages of at most ten mebibytes of JSON. However
the encodings of a list of messages are cut into chunks, the reader delivers that list
and stays open if and only if no message is longer. -/
theorem framing_lossless_iff (hnul : ∀ m, (0 : UInt8) ∉ J.toVec m) (msgs : List NetworkMessage)
    (chunks : List Bytes) (hchunks : chunks.flatten = msgs.flatMap (encode J)) :
    ((readerLoop J chunks).delivered = msgs ∧ (readerLoop J chunks).awaiting ≠ .closed) ↔
      ∀ m ∈ msgs, (J.toVec m).length ≤ maxFrame := by
  rw [readerLoop_eq, hchunks]
  constructor
  · rintro ⟨-, hopen⟩ m hm
    by_contra hlen
    exact hopen (drain_closed hnul hm (Nat.lt_of_not_le hlen) [])
  · intro hsmall
    have hall := drain_messages hsmall [] []
    rw [List.append_nil, List.nil_append] at hall
    have hblocked : Reader.drain (wireFormat J) ⟨.header, [], msgs⟩ = ⟨.header, [], msgs⟩ :=
      Reader.drain_of_none rfl
    rw [hall, hblocked]
    exact ⟨rfl, by simp⟩

end Sprax.Network

namespace Sprax.Devnet
open Codec Text Network

def helloCodec : Codec Hello :=
  (string.prod (string.prod (nat.prod hashCodec))).through
    (fun h => (h.peerId, h.chainId, h.height, h.latestBlockHash))
    (fun t => some ⟨t.1, t.2.1, t.2.2.1, t.2.2.2⟩) (fun _ => rfl)

def signedVoteCodec : Codec Vote :=
  (voteTypeCodec.prod
    (nat.prod (nat.prod (hashCodec.option.prod (addressCodec.prod bytes))))).through
    (fun v => (v.voteType, v.height, v.round, v.blockHash, v.validatorAddress, v.signature))
    (fun t => some ⟨t.1, t.2.1, t.2.2.1, t.2.2.2.1, t.2.2.2.2.1, t.2.2.2.2.2⟩) (fun _ => rfl)

def evidenceCodec : Codec EquivocationEvidence :=
  (addressCodec.prod (nat.prod (nat.prod (signedVoteCodec.prod signedVoteCodec)))).through
    (fun e => (e.validatorAddress, e.height, e.round, e.voteA, e.voteB))
    (fun t => some ⟨t.1, t.2.1, t.2.2.1, t.2.2.2.1, t.2.2.2.2⟩) (fun _ => rfl)

def networkCodec : Codec NetworkMessage :=
  (blockCodec.list.sum (blockCodec.sum (txCodec.sum ((bool.prod nat).sum ((nat.prod nat).sum
    (string.list.option.sum ((nat.prod (nat.prod blockCodec)).sum (signedVoteCodec.sum
      (evidenceCodec.sum ((helloCodec.prod string.option).sum helloCodec)))))))))).through
    (fun m => match m with
      | .getBlocksResponse blocks => .inl blocks
      | .blockGossip block => .inr (.inl block)
      | .txGossip tx => .inr (.inr (.inl tx))
      | .ping nonce => .inr (.inr (.inr (.inl (true, nonce))))
      | .pong nonce => .inr (.inr (.inr (.inl (false, nonce))))
      | .getBlocksRequest a b => .inr (.inr (.inr (.inr (.inl (a, b)))))
      | .peerDiscoveryRequest => .inr (.inr (.inr (.inr (.inr (.inl none)))))
      | .peerDiscoveryResponse peers => .inr (.inr (.inr (.inr (.inr (.inl (some peers))))))
      | .proposal h r block => .inr (.inr (.inr (.inr (.inr (.inr (.inl (h, r, block)))))))
      | .vote v => .inr (.inr (.inr (.inr (.inr (.inr (.inr (.inl v)))))))
      | .evidence e => .inr (.inr (.inr (.inr (.inr (.inr (.inr (.inr (.inl e))))))))
      | .handshake hello addr =>
        .inr (.inr (.inr (.inr (.inr (.inr (.inr (.inr (.inr (.inl (hello, addr))))))))))
      | .handshakeAck hello =>
        .inr (.inr (.inr (.inr (.inr (.inr (.inr (.inr (.inr (.inr hello))))))))))
    (fun s => match s with
      | .inl blocks => some (.getBlocksResponse blocks)
      | .inr (.inl block) => some (.blockGossip block)
      | .inr (.inr (.inl tx)) => some (.txGossip tx)
      | .inr (.inr (.inr (.inl (isPing, nonce)))) =>
        some (if isPing then .ping nonce else .pong nonce)
      | .inr (.inr (.inr (.inr (.inl (a, b))))) => some (.getBlocksRequest a b)
      | .inr (.inr (.inr (.inr (.inr (.inl peers))))) =>
        some (peers.elim .peerDiscoveryRequest .peerDiscoveryResponse)
      | .inr (.inr (.inr (.inr (.inr (.inr (.inl (h, r, block))))))) => some (.proposal h r block)
      | .inr (.inr (.inr (.inr (.inr (.inr (.inr (.inl v))))))) => some (.vote v)
      | .inr (.inr (.inr (.inr (.inr (.inr (.inr (.inr (.inl e)))))))) => some (.evidence e)
      | .inr (.inr (.inr (.inr (.inr (.inr (.inr (.inr (.inr (.inl (hello, addr)))))))))) =>
        some (.handshake hello addr)
      | .inr (.inr (.inr (.inr (.inr (.inr (.inr (.inr (.inr (.inr hello))))))))) =>
        some (.handshakeAck hello))
    (fun m => by cases m <;> rfl)

/-- The codec in hexadecimal digits: text without a zero byte. -/
def networkJson : Json NetworkMessage where
  toVec m := hexDigits (networkCodec.enc m)
  fromSlice bs :=
    match hexPairs 0 bs with
    | .ok bytes => networkCodec.decodeAll bytes
    | .error _ => .error "invalid digit"
  fromSlice_toVec m := by simp only [hexPairs_hexDigits, networkCodec.decodeAll_enc]

theorem zero_not_mem_hexDigits (bs : Bytes) : (0 : UInt8) ∉ hexDigits bs := by
  have hdigit : ∀ n < 16, UInt8.ofNat (hexDigit n).toNat ≠ 0 := by decide
  intro hmem
  obtain ⟨b, -, hb⟩ := List.mem_flatMap.mp hmem
  obtain ⟨n, hn, hzero⟩ := List.mem_map.mp hb
  have hlt : n < 16 := by
    have := b.toNat_lt
    simp only [List.mem_cons, List.not_mem_nil, or_false] at hn
    omega
  exact hdigit n hlt hzero

theorem networkJson_no_zero (m : NetworkMessage) : (0 : UInt8) ∉ networkJson.toVec m :=
  zero_not_mem_hexDigits _

/-- The text of an answer to a range request grows with the number of blocks. -/
theorem length_blocks_le (block : Block) (n : ℕ) :
    2 * (n * (blockCodec.enc block).length) ≤
      (networkJson.toVec (.getBlocksResponse (List.replicate n block))).length := by
  have hblocks : ((List.replicate n block).flatMap blockCodec.enc).length =
      n * (blockCodec.enc block).length := by
    rw [List.length_flatMap, List.map_replicate, List.sum_replicate_nat]
  change _ ≤ (hexDigits
    (0 :: (nat.enc _ ++ (List.replicate n block).flatMap blockCodec.enc))).length
  rw [length_hexDigits, List.length_cons, List.length_append, hblocks]
  omega

def emptyBlock : Block :=
  ⟨⟨1, "sprax-devnet-1", 1, 0, Hash32.zero, addressOf 1, Hash32.zero, Hash32.zero, Hash32.zero,
    Hash32.zero⟩, ⟨[]⟩, []⟩

/-- A range of blocks as a synchronizing peer asks for it. -/
def longAnswer : NetworkMessage := .getBlocksResponse (List.replicate 100000 emptyBlock)

theorem maxFrame_lt_longAnswer : maxFrame < (networkJson.toVec longAnswer).length := by
  have hblock : 53 ≤ (blockCodec.enc emptyBlock).length := by decide +kernel
  have hmul : 2 * (100000 * 53) ≤ 2 * (100000 * (blockCodec.enc emptyBlock).length) :=
    Nat.mul_le_mul_left 2 (Nat.mul_le_mul_left 100000 hblock)
  calc maxFrame < 2 * (100000 * 53) := by decide
    _ ≤ 2 * (100000 * (blockCodec.enc emptyBlock).length) := hmul
    _ ≤ (networkJson.toVec longAnswer).length := length_blocks_le emptyBlock 100000

end Sprax.Devnet

namespace Sprax.Network
open Devnet

/-- A peer that answers with 100000 blocks loses the connection. -/
theorem long_answer_closes :
    (readerLoop networkJson [encode networkJson longAnswer]).awaiting = .closed := by
  have hstream : [encode networkJson longAnswer].flatten =
      [longAnswer].flatMap (encode networkJson) := by
    rw [List.flatten_singleton, List.flatMap_singleton]
  rw [readerLoop_eq, hstream]
  exact drain_closed networkJson_no_zero (List.mem_singleton_self _) maxFrame_lt_longAnswer []

/-- A few small messages, byte by byte. -/
theorem framing_lossless_iff_devnet :
    let msgs := [NetworkMessage.ping 1, .peerDiscoveryRequest, .getBlocksRequest 1 5]
    let chunks := (msgs.flatMap (encode networkJson)).map (fun b => [b])
    (∀ m, (0 : UInt8) ∉ networkJson.toVec m) ∧ chunks.flatten = msgs.flatMap (encode networkJson) ∧
      (readerLoop networkJson chunks).delivered = msgs ∧
      (readerLoop networkJson chunks).awaiting ≠ .closed := by
  intro msgs chunks
  have hchunks : chunks.flatten = msgs.flatMap (encode networkJson) := by decide +kernel
  have hsmall : ∀ m ∈ msgs, (networkJson.toVec m).length ≤ maxFrame := by decide +kernel
  exact ⟨networkJson_no_zero, hchunks,
    (framing_lossless_iff networkJson_no_zero msgs chunks hchunks).mpr hsmall⟩

end Sprax.Network
