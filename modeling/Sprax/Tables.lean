import Sprax.Store

/-!
# The chain metadata table

One byte table holds the height, the blocks, the hash index and the transaction
index under prefixed keys. The four kinds of key have four different lengths, so
that a write of one kind is never seen by a read of another; heights are written
as eight bytes, so that blocks below 2^64 have keys of their own.
-/
namespace Sprax
open Std FiniteMap

@[simp] theorem length_u64ToBeBytes (n : ℕ) : (u64ToBeBytes n).length = 8 := by simp [u64ToBeBytes]

/-- The last byte is the remainder by 256, those before it are the bytes of the quotient. -/
theorem u64FromBeBytes_range (k n : ℕ) :
    u64FromBeBytes ((List.range k).map (fun i => UInt8.ofNat (n / 256 ^ (k - 1 - i)))) =
      n % 256 ^ k := by
  induction k generalizing n with
  | zero => simp [u64FromBeBytes, Nat.mod_one]
  | succ k ih =>
    have hinit : (List.range k).map (fun i => UInt8.ofNat (n / 256 ^ (k + 1 - 1 - i))) =
        (List.range k).map (fun i => UInt8.ofNat (n / 256 / 256 ^ (k - 1 - i))) := by
      refine List.map_congr_left (fun i hi => ?_)
      have hlt := List.mem_range.mp hi
      have hexp : k + 1 - 1 - i = (k - 1 - i).succ := by omega
      rw [Nat.div_div_eq_div_mul, ← Nat.pow_succ', hexp]
    have hih := ih (n / 256)
    unfold u64FromBeBytes at hih ⊢
    rw [List.range_succ, List.map_append, List.foldl_append, hinit, hih, Nat.pow_succ', Nat.mod_mul]
    simp only [List.map_cons, List.map_nil, List.foldl_cons, List.foldl_nil, Nat.add_sub_cancel,
      Nat.sub_self, Nat.pow_zero, Nat.div_one, UInt8.toNat_ofNat']
    omega

/-- Reading eight bytes back gives the number modulo 2^64. -/
theorem u64FromBeBytes_u64ToBeBytes (n : ℕ) : u64FromBeBytes (u64ToBeBytes n) = n % 2 ^ 64 :=
  u64FromBeBytes_range 8 n

theorem u64ToBeBytes_inj {m n : ℕ} (hm : m < 2 ^ 64) (hn : n < 2 ^ 64) :
    u64ToBeBytes m = u64ToBeBytes n ↔ m = n := by
  refine ⟨fun h => ?_, fun h => h ▸ rfl⟩
  have hread := congrArg u64FromBeBytes h
  rwa [u64FromBeBytes_u64ToBeBytes, u64FromBeBytes_u64ToBeBytes, Nat.mod_eq_of_lt hm,
    Nat.mod_eq_of_lt hn] at hread

namespace Store

theorem length_heightKey : heightKey.length = 11 := by decide +kernel

theorem length_blockKey (h : ℕ) : (u64Key blockPrefix h).length = 12 := by
  have hlen : blockPrefix.length = 4 := by decide +kernel
  simp [u64Key, hlen]

theorem length_blockHashKey (hash : Hash32) : (hashKey blockHashPrefix hash).length = 40 := by
  have hlen : blockHashPrefix.length = 8 := by decide +kernel
  simp [hashKey, hlen, hash.length_eq]

theorem length_txKey (hash : Hash32) : (hashKey txPrefix hash).length = 35 := by
  have hlen : txPrefix.length = 3 := by decide +kernel
  simp [hashKey, hlen, hash.length_eq]

theorem hashKey_inj {pre : Bytes} {a b : Hash32} : hashKey pre a = hashKey pre b ↔ a = b := by
  refine ⟨fun h => Hash32.ext_bytes (List.append_cancel_left h), fun h => h ▸ rfl⟩

theorem blockKey_inj {m n : ℕ} (hm : m < 2 ^ 64) (hn : n < 2 ^ 64) :
    u64Key blockPrefix m = u64Key blockPrefix n ↔ m = n := by
  rw [← u64ToBeBytes_inj hm hn, u64Key, u64Key, List.append_cancel_left_eq]

theorem putMeta_ne (s : Store) {k a : Bytes} (v : Bytes) (h : k ≠ a) :
    (s.putMeta k v).chainMeta[a]? = s.chainMeta[a]? := getElem?_insert_ne _ _ h

/-- Keys of different lengths do not meet. -/
theorem putMeta_of_length (s : Store) {k a : Bytes} (v : Bytes) (h : k.length ≠ a.length) :
    (s.putMeta k v).chainMeta[a]? = s.chainMeta[a]? :=
  s.putMeta_ne v (fun he => h (congrArg List.length he))

@[simp] theorem getHeight_putHeight (s : Store) (h : ℕ) :
    (s.putHeight h).getHeight = some (h % 2 ^ 64) := by
  simp [getHeight, putHeight, putMeta, u64FromBeBytes_u64ToBeBytes]

@[simp] theorem getHeight_putBlock (s : Store) (h : ℕ) (bs : Bytes) :
    (s.putBlock h bs).getHeight = s.getHeight := by
  rw [getHeight, putBlock, putMeta_of_length, getHeight]
  simp [length_blockKey, length_heightKey]

@[simp] theorem getHeight_putBlockHashIndex (s : Store) (hash : Hash32) (h : ℕ) :
    (s.putBlockHashIndex hash h).getHeight = s.getHeight := by
  rw [getHeight, putBlockHashIndex, putMeta_of_length, getHeight]
  simp [length_blockHashKey, length_heightKey]

@[simp] theorem getHeight_putTxIndex (s : Store) (hash : Hash32) (bs : Bytes) :
    (s.putTxIndex hash bs).getHeight = s.getHeight := by
  rw [getHeight, putTxIndex, putMeta_of_length, getHeight]
  simp [length_txKey, length_heightKey]

@[simp] theorem getBlock_putHeight (s : Store) (h i : ℕ) :
    (s.putHeight h).getBlock i = s.getBlock i := by
  rw [getBlock, putHeight, putMeta_of_length, getBlock]
  simp [length_blockKey, length_heightKey]

@[simp] theorem getBlock_putBlock_self (s : Store) (h : ℕ) (bs : Bytes) :
    (s.putBlock h bs).getBlock h = some bs := by
  simp [getBlock, putBlock, putMeta]

theorem getBlock_putBlock_ne (s : Store) {h i : ℕ} (bs : Bytes) (hh : h < 2 ^ 64) (hi : i < 2 ^ 64)
    (hne : h ≠ i) : (s.putBlock h bs).getBlock i = s.getBlock i := by
  rw [getBlock, putBlock, putMeta_ne, getBlock]
  exact fun he => hne ((blockKey_inj hh hi).mp he)

@[simp] theorem getBlock_putBlockHashIndex (s : Store) (hash : Hash32) (h i : ℕ) :
    (s.putBlockHashIndex hash h).getBlock i = s.getBlock i := by
  rw [getBlock, putBlockHashIndex, putMeta_of_length, getBlock]
  simp [length_blockHashKey, length_blockKey]

@[simp] theorem getBlock_putTxIndex (s : Store) (hash : Hash32) (bs : Bytes) (i : ℕ) :
    (s.putTxIndex hash bs).getBlock i = s.getBlock i := by
  rw [getBlock, putTxIndex, putMeta_of_length, getBlock]
  simp [length_txKey, length_blockKey]

@[simp] theorem getTxIndex_putHeight (s : Store) (h : ℕ) (hash : Hash32) :
    (s.putHeight h).getTxIndex hash = s.getTxIndex hash := by
  rw [getTxIndex, putHeight, putMeta_of_length, getTxIndex]
  simp [length_txKey, length_heightKey]

@[simp] theorem getTxIndex_putBlock (s : Store) (h : ℕ) (bs : Bytes) (hash : Hash32) :
    (s.putBlock h bs).getTxIndex hash = s.getTxIndex hash := by
  rw [getTxIndex, putBlock, putMeta_of_length, getTxIndex]
  simp [length_txKey, length_blockKey]

@[simp] theorem getTxIndex_putBlockHashIndex (s : Store) (hash' : Hash32) (h : ℕ) (hash : Hash32) :
    (s.putBlockHashIndex hash' h).getTxIndex hash = s.getTxIndex hash := by
  rw [getTxIndex, putBlockHashIndex, putMeta_of_length, getTxIndex]
  simp [length_txKey, length_blockHashKey]

theorem getTxIndex_putTxIndex (s : Store) (hash hash' : Hash32) (bs : Bytes) :
    (s.putTxIndex hash bs).getTxIndex hash' = if hash =
      hash' then some bs else s.getTxIndex hash' := by
  by_cases h : hash = hash'
  · subst hash'
    simp [getTxIndex, putTxIndex, putMeta]
  · rw [if_neg h, getTxIndex, putTxIndex, putMeta_ne, getTxIndex]
    exact fun he => h (hashKey_inj.mp he)

end Store

end Sprax
