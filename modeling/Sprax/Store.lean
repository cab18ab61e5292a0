import Sprax.Crypto
import Sprax.FiniteMap

/-!
# The key-value store and account records

Both backing stores hold two byte tables ordered by key: account state, which
the state root covers, and chain metadata, which it does not. Store operations
are total here; failures of the database itself are outside the model. Account
records are read and written through JSON, so a read can fail to decode.
-/
namespace Sprax
open Std FiniteMap

/-- Errors of `sprax-core` that the modelled functions raise. -/
inductive CoreError
  | insufficientFunds (balance required : String)
  | invalidNonce (accountNonce txNonce : ℕ)
  | moduleError (moduleName reason : String)
  | stateError (reason : String)
  deriving DecidableEq

abbrev ByteMap := ExtTreeMap Bytes Bytes compare

/-- The `state` and the `chain_meta` table of a store. -/
structure Store where
  state : ByteMap
  chainMeta : ByteMap

/-- Bytes of an ASCII literal. -/
def ascii (s : String) : Bytes := s.toList.map (fun c => UInt8.ofNat c.toNat)

/-- The eight big-endian bytes of a 64-bit integer. -/
def u64ToBeBytes (n : ℕ) : Bytes := (List.range 8).map (fun i => UInt8.ofNat (n / 256 ^ (7 - i)))

def u64FromBeBytes (bs : Bytes) : ℕ := bs.foldl (fun acc b => acc * 256 + b.toNat) 0

def u64Key (pre : Bytes) (height : ℕ) : Bytes := pre ++ u64ToBeBytes height

def hashKey (pre : Bytes) (hash : Hash32) : Bytes := pre ++ hash.bytes

namespace Store

def empty : Store := ⟨∅, ∅⟩

def get (s : Store) (key : Bytes) : Option Bytes := s.state[key]?

def set (s : Store) (key value : Bytes) : Store := { s with state := s.state.insert key value }

def computeRoot (P : Primitives) (s : Store) : Hash32 := Hasher.computeFlatRoot P s.state.toList

def heightKey : Bytes := ascii "meta:height"
def blockPrefix : Bytes := ascii "blk:"
def blockHashPrefix : Bytes := ascii "blkhash:"
def txPrefix : Bytes := ascii "tx:"

/-- Insertion into the metadata table; no metadata write touches account state. -/
def putMeta (s : Store) (key value : Bytes) : Store :=
  { s with chainMeta := s.chainMeta.insert key value }

def putHeight (s : Store) (height : ℕ) : Store := s.putMeta heightKey (u64ToBeBytes height)

def getHeight (s : Store) : Option ℕ := s.chainMeta[heightKey]?.map u64FromBeBytes

def putBlock (s : Store) (height : ℕ) (blockBytes : Bytes) : Store :=
  s.putMeta (u64Key blockPrefix height) blockBytes

def getBlock (s : Store) (height : ℕ) : Option Bytes := s.chainMeta[u64Key blockPrefix height]?

def putBlockHashIndex (s : Store) (hash : Hash32) (height : ℕ) : Store :=
  s.putMeta (hashKey blockHashPrefix hash) (u64ToBeBytes height)

def putTxIndex (s : Store) (txHash : Hash32) (entryBytes : Bytes) : Store :=
  s.putMeta (hashKey txPrefix txHash) entryBytes

def getTxIndex (s : Store) (txHash : Hash32) : Option Bytes :=
  s.chainMeta[hashKey txPrefix txHash]?

end Store

namespace StateAccessor

def accountKey (addr : Address) : Bytes := 97 :: addr.bytes

theorem accountKey_injective : Function.Injective accountKey := by
  intro a b h
  exact Address.ext_bytes (List.cons.inj h).2

variable (P : Primitives)

/-- A missing record reads as the default account. -/
def getAccount (store : Store) (addr : Address) : Except CoreError AccountState :=
  match store.get (accountKey addr) with
  | some bytes =>
    match P.accountJson.fromSlice bytes with
    | .ok account => .ok account
    | .error e => .error (.stateError s!"deserialization error: {e}")
  | none => .ok AccountState.default

def setAccount (store : Store) (addr : Address) (account : AccountState) : Store :=
  store.set (accountKey addr) (P.accountJson.toVec account)

@[simp] theorem getAccount_setAccount_self (s : Store) (a : Address) (acc : AccountState) :
    getAccount P (setAccount P s a acc) a = .ok acc := by
  simp [getAccount, setAccount, Store.get, Store.set, P.accountJson.fromSlice_toVec]

theorem getAccount_setAccount_ne (s : Store) {a b : Address} (acc : AccountState) (h : a ≠ b) :
    getAccount P (setAccount P s a acc) b = getAccount P s b := by
  have hk : accountKey a ≠ accountKey b := fun he => h (accountKey_injective he)
  simp only [getAccount, setAccount, Store.get, Store.set, getElem?_insert_ne _ _ hk]

theorem getAccount_setAccount (s : Store) (a b : Address) (acc : AccountState) :
    getAccount P (setAccount P s a acc) b = if a = b then .ok acc else getAccount P s b := by
  by_cases h : a = b
  · subst b
    simp
  · simp [h, getAccount_setAccount_ne]

/-- Account reads depend on the state table alone. -/
theorem getAccount_congr {s t : Store} (h : s.state = t.state) (a : Address) :
    getAccount P s a = getAccount P t a := by
  simp only [getAccount, Store.get, h]

end StateAccessor

open StateAccessor

section Readings
variable (P : Primitives)

/-- Every account record of the store decodes. -/
def Readable (s : Store) : Prop := ∀ a, ∃ acc, getAccount P s a = .ok acc

/-- Nonce of an account; an unreadable record counts as untouched. -/
def nonceOf (s : Store) (a : Address) : ℕ :=
  match getAccount P s a with
  | .ok acc => acc.nonce
  | .error _ => 0

/-- Balance held by one stored record. -/
def recordBalance (bytes : Bytes) : ℕ :=
  match P.accountJson.fromSlice bytes with
  | .ok acc => acc.balance.atto
  | .error _ => 0

/-- Sum of all account balances in the store. -/
def totalBalance (s : Store) : ℕ := weight (recordBalance P) s.state

variable {P}

theorem readable_empty : Readable P Store.empty := by
  intro a
  exact ⟨AccountState.default, by simp [getAccount, Store.get, Store.empty]⟩

theorem Readable.setAccount {s : Store} (h : Readable P s) (a : Address) (acc : AccountState) :
    Readable P (setAccount P s a acc) := by
  intro b
  rw [getAccount_setAccount]
  split
  · exact ⟨acc, rfl⟩
  · exact h b

theorem Readable.congr {s t : Store} (h : Readable P s) (he : s.state = t.state) :
    Readable P t := by
  intro a
  rw [← getAccount_congr P he]
  exact h a

theorem nonceOf_of_ok {s : Store} {a : Address} {acc : AccountState}
    (h : getAccount P s a = .ok acc) : nonceOf P s a = acc.nonce := by
  simp [nonceOf, h]

theorem nonceOf_setAccount (s : Store) (a b : Address) (acc : AccountState) :
    nonceOf P (setAccount P s a acc) b = if a = b then acc.nonce else nonceOf P s b := by
  unfold nonceOf
  rw [getAccount_setAccount]
  by_cases h : a = b
  · simp only [if_pos h]
  · simp only [if_neg h]

theorem nonceOf_congr {s t : Store} (h : s.state = t.state) (a : Address) :
    nonceOf P s a = nonceOf P t a := by
  simp only [nonceOf, getAccount_congr P h]

theorem totalBalance_congr {s t : Store} (h : s.state = t.state) :
    totalBalance P s = totalBalance P t := by
  simp only [totalBalance, h]

@[simp] theorem totalBalance_empty : totalBalance P Store.empty = 0 := by
  simp [totalBalance, Store.empty]

/-- What a successful read returns is what the state table weighs at that key. -/
theorem weightAt_account {s : Store} {a : Address} {acc : AccountState}
    (h : getAccount P s a = .ok acc) :
    weightAt (recordBalance P) s.state (accountKey a) = acc.balance.atto := by
  unfold getAccount Store.get at h
  unfold weightAt
  split at h
  · rename_i bytes hb
    rw [hb]
    split at h
    · rename_i acc' hacc
      cases h
      simp [recordBalance, hacc]
    · cases h
  · rename_i hb
    cases h
    simp [hb, AccountState.default, Amount.zero]

/-- Writing an account exchanges its old balance for its new one. -/
theorem totalBalance_setAccount {s : Store} {a : Address} {old : AccountState}
    (h : getAccount P s a = .ok old) (acc : AccountState) :
    totalBalance P (setAccount P s a acc) + old.balance.atto =
      totalBalance P s + acc.balance.atto := by
  have hw := weight_insert (recordBalance P) s.state (accountKey a) (P.accountJson.toVec acc)
  rw [weightAt_account h] at hw
  simpa [totalBalance, setAccount, Store.set, recordBalance, P.accountJson.fromSlice_toVec] using hw

/-- No account holds more than all accounts together. -/
theorem balance_le_total {s : Store} {a : Address} {acc : AccountState}
    (h : getAccount P s a = .ok acc) : acc.balance.atto ≤ totalBalance P s := by
  rw [← weightAt_account h]
  exact weightAt_le_weight _ _ _

end Readings

end Sprax
