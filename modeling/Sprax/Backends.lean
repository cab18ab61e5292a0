import Sprax.Runs
import Sprax.Tables
import Sprax.Devnet

/-!
# The two back ends of the store

A node runs on `MemKVStore`, two maps in memory, or on `RedbStore`, two tables of a
database that are changed by write transactions. The store of the other modules is the
first. The second is written here over any table that behaves as an ordered map, and
answers every read as the first does after every sequence of writes. Metadata records
of all kinds share one table under keys that never meet.
-/
namespace Sprax
open Std FiniteMap

structure BatchOperation where
  puts : List (Bytes × Bytes)
  deletes : List Bytes

/-- The writing methods of the store traits. -/
inductive StoreWrite
  | set (key value : Bytes)
  | delete (key : Bytes)
  | writeBatch (batch : BatchOperation)
  | putHeight (height : UInt64)
  | putBlock (height : UInt64) (blockBytes : Bytes)
  | putBlockHashIndex (hash : Hash32) (height : UInt64)
  | putTxIndex (txHash : Hash32) (entryBytes : Bytes)

/-- The reading methods of the store traits. -/
inductive StoreRead
  | get (key : Bytes)
  | computeRoot
  | getHeight
  | getBlock (height : UInt64)
  | getHeightByHash (hash : Hash32)
  | getTxIndex (txHash : Hash32)

inductive StoreAnswer
  | bytes (value : Option Bytes)
  | root (hash : Hash32)
  | height (value : Option ℕ)
  | panicked
  deriving DecidableEq

/-- A stored height is copied into an array of eight bytes, which panics for any other
length. -/
def readHeight : Option Bytes → StoreAnswer
  | none => .height none
  | some bytes =>
    if bytes.length = 8 then .height (some (u64FromBeBytes bytes)) else .panicked

abbrev MemKVStore := Store

namespace MemKVStore

def delete (s : MemKVStore) (key : Bytes) : MemKVStore := { s with state := s.state.erase key }

def writeBatch (s : MemKVStore) (batch : BatchOperation) : MemKVStore :=
  let put := batch.puts.foldl (fun table e => table.insert e.1 e.2) s.state
  { s with state := batch.deletes.foldl (fun table key => table.erase key) put }

def write (s : MemKVStore) : StoreWrite → MemKVStore
  | .set key value => s.set key value
  | .delete key => delete s key
  | .writeBatch batch => writeBatch s batch
  | .putHeight height => s.putHeight height.toNat
  | .putBlock height blockBytes => s.putBlock height.toNat blockBytes
  | .putBlockHashIndex hash height => s.putBlockHashIndex hash height.toNat
  | .putTxIndex txHash entryBytes => s.putTxIndex txHash entryBytes

def read (P : Primitives) (s : MemKVStore) : StoreRead → StoreAnswer
  | .get key => .bytes (s.get key)
  | .computeRoot => .root (s.computeRoot P)
  | .getHeight => readHeight s.chainMeta[Store.heightKey]?
  | .getBlock height => .bytes (s.getBlock height.toNat)
  | .getHeightByHash hash => readHeight s.chainMeta[hashKey Store.blockHashPrefix hash]?
  | .getTxIndex txHash => .bytes (s.getTxIndex txHash)

/-- The store after a sequence of writes to an empty one. -/
def after (writes : List StoreWrite) : MemKVStore := Runs.run write Store.empty writes

end MemKVStore

/-- A table of the database: a map that is iterated in the order of its keys. -/
structure RedbTable where
  Table : Type
  empty : Table
  get : Table → Bytes → Option Bytes
  insert : Table → Bytes → Bytes → Table
  remove : Table → Bytes → Table
  iter : Table → List (Bytes × Bytes)
  get_empty : ∀ key, get empty key = none
  get_insert : ∀ table key value other,
    get (insert table key value) other = if key = other then some value else get table other
  get_remove : ∀ table key other,
    get (remove table key) other = if key = other then none else get table other
  iter_ordered : ∀ table, (iter table).Pairwise (fun a b => compare a.1 b.1 = .lt)
  mem_iter : ∀ table key value, (key, value) ∈ iter table ↔ get table key = some value

inductive TableName
  | state
  | chainMeta
  deriving DecidableEq

variable {T : RedbTable}

/-- The committed tables, by name. -/
structure Database (T : RedbTable) where
  tables : TableName → T.Table

/-- The tables that a write transaction works on; nobody sees them before the commit. -/
structure WriteTransaction (T : RedbTable) where
  tables : TableName → T.Table

def Database.beginWrite (db : Database T) : WriteTransaction T := ⟨db.tables⟩

namespace WriteTransaction

/-- Opening a table, changing it and dropping the handle. -/
def withTable (txn : WriteTransaction T) (name : TableName) (change : T.Table → T.Table) :
    WriteTransaction T := ⟨Function.update txn.tables name (change (txn.tables name))⟩

def commit (txn : WriteTransaction T) : Database T := ⟨txn.tables⟩

end WriteTransaction

structure RedbStore (T : RedbTable) where
  db : Database T

namespace RedbStore

/-- A new database file with both tables. -/
def create (T : RedbTable) : RedbStore T := ⟨⟨fun _ => T.empty⟩⟩

/-- One write transaction on one table. -/
def transact (r : RedbStore T) (name : TableName) (change : T.Table → T.Table) : RedbStore T :=
  ⟨(r.db.beginWrite.withTable name change).commit⟩

def set (r : RedbStore T) (key value : Bytes) : RedbStore T :=
  r.transact .state (fun table => T.insert table key value)

def delete (r : RedbStore T) (key : Bytes) : RedbStore T :=
  r.transact .state (fun table => T.remove table key)

def writeBatch (r : RedbStore T) (batch : BatchOperation) : RedbStore T :=
  r.transact .state (fun table =>
    let put := batch.puts.foldl (fun table e => T.insert table e.1 e.2) table
    batch.deletes.foldl (fun table key => T.remove table key) put)

def putHeight (r : RedbStore T) (height : ℕ) : RedbStore T :=
  r.transact .chainMeta (fun table => T.insert table Store.heightKey (u64ToBeBytes height))

def putBlock (r : RedbStore T) (height : ℕ) (blockBytes : Bytes) : RedbStore T :=
  let key := u64Key Store.blockPrefix height
  r.transact .chainMeta (fun table => T.insert table key blockBytes)

def putBlockHashIndex (r : RedbStore T) (hash : Hash32) (height : ℕ) : RedbStore T :=
  let key := hashKey Store.blockHashPrefix hash
  r.transact .chainMeta (fun table => T.insert table key (u64ToBeBytes height))

def putTxIndex (r : RedbStore T) (txHash : Hash32) (entryBytes : Bytes) : RedbStore T :=
  let key := hashKey Store.txPrefix txHash
  r.transact .chainMeta (fun table => T.insert table key entryBytes)

def write (r : RedbStore T) : StoreWrite → RedbStore T
  | .set key value => r.set key value
  | .delete key => r.delete key
  | .writeBatch batch => r.writeBatch batch
  | .putHeight height => r.putHeight height.toNat
  | .putBlock height blockBytes => r.putBlock height.toNat blockBytes
  | .putBlockHashIndex hash height => r.putBlockHashIndex hash height.toNat
  | .putTxIndex txHash entryBytes => r.putTxIndex txHash entryBytes

/-- A read transaction sees the committed table. -/
def getFrom (r : RedbStore T) (name : TableName) (key : Bytes) : Option Bytes :=
  T.get (r.db.tables name) key

def computeRoot (P : Primitives) (r : RedbStore T) : Hash32 :=
  Hasher.computeFlatRoot P (T.iter (r.db.tables .state))

def read (P : Primitives) (r : RedbStore T) : StoreRead → StoreAnswer
  | .get key => .bytes (r.getFrom .state key)
  | .computeRoot => .root (r.computeRoot P)
  | .getHeight => readHeight (r.getFrom .chainMeta Store.heightKey)
  | .getBlock height => .bytes (r.getFrom .chainMeta (u64Key Store.blockPrefix height.toNat))
  | .getHeightByHash hash => readHeight (r.getFrom .chainMeta (hashKey Store.blockHashPrefix hash))
  | .getTxIndex txHash => .bytes (r.getFrom .chainMeta (hashKey Store.txPrefix txHash))

/-- The store after a sequence of writes to a new database. -/
def after (T : RedbTable) (writes : List StoreWrite) : RedbStore T :=
  Runs.run write (create T) writes

@[simp] theorem transact_self (r : RedbStore T) (name : TableName) (change : T.Table → T.Table) :
    (r.transact name change).db.tables name = change (r.db.tables name) :=
  Function.update_self _ _ _

theorem transact_ne (r : RedbStore T) {name other : TableName} (h : other ≠ name)
    (change : T.Table → T.Table) :
    (r.transact name change).db.tables other = r.db.tables other := Function.update_of_ne h _ _

end RedbStore

/-- A table holds the records of a map. -/
def Holds (table : T.Table) (m : ByteMap) : Prop := ∀ key, T.get table key = m[key]?

section Tables
variable {table : T.Table} {m : ByteMap}

theorem holds_empty : Holds (T := T) T.empty ∅ := fun key => by simp [T.get_empty]

theorem Holds.insert (h : Holds table m) (key value : Bytes) :
    Holds (T.insert table key value) (m.insert key value) := by
  intro other
  rw [T.get_insert]
  split
  · rename_i heq
    subst heq
    simp
  · rename_i hne
    rw [getElem?_insert_ne _ _ hne, h other]

theorem Holds.remove (h : Holds table m) (key : Bytes) :
    Holds (T.remove table key) (m.erase key) := by
  intro other
  rw [T.get_remove]
  split
  · rename_i heq
    subst heq
    simp
  · rename_i hne
    rw [getElem?_erase_ne _ hne, h other]

theorem Holds.insertAll (h : Holds table m) (puts : List (Bytes × Bytes)) :
    Holds (puts.foldl (fun table e => T.insert table e.1 e.2) table)
      (puts.foldl (fun m e => m.insert e.1 e.2) m) := by
  induction puts generalizing table m with
  | nil => exact h
  | cons e rest ih => exact ih (h.insert e.1 e.2)

theorem Holds.removeAll (h : Holds table m) (deletes : List Bytes) :
    Holds (deletes.foldl (fun table key => T.remove table key) table)
      (deletes.foldl (fun m key => m.erase key) m) := by
  induction deletes generalizing table m with
  | nil => exact h
  | cons key rest ih => exact ih (h.remove key)

/-- Both iterate over the same records in the same order. -/
theorem Holds.iter (h : Holds table m) : T.iter table = m.toList :=
  eq_toList_of_ordered (T.iter_ordered table) (fun key value => by rw [T.mem_iter, h key])

end Tables

/-- The database holds what is in memory. -/
structure RedbStore.Mirrors (r : RedbStore T) (s : MemKVStore) : Prop where
  state : Holds (r.db.tables .state) s.state
  chainMeta : Holds (r.db.tables .chainMeta) s.chainMeta

namespace RedbStore.Mirrors
variable {r : RedbStore T} {s : MemKVStore}

theorem transact_state (h : r.Mirrors s) {change : T.Table → T.Table} {state : ByteMap}
    (hchange : Holds (change (r.db.tables .state)) state) :
    (r.transact .state change).Mirrors { s with state := state } := by
  refine ⟨?_, ?_⟩
  · rw [transact_self]
    exact hchange
  · rw [r.transact_ne (by decide)]
    exact h.chainMeta

theorem transact_chainMeta (h : r.Mirrors s) (key value : Bytes) :
    (r.transact .chainMeta (fun table => T.insert table key value)).Mirrors
    (s.putMeta key value) := by
  refine ⟨?_, ?_⟩
  · rw [r.transact_ne (by decide)]
    exact h.state
  · rw [transact_self]
    exact h.chainMeta.insert key value

theorem write (h : r.Mirrors s) (w : StoreWrite) : (r.write w).Mirrors (MemKVStore.write s w) := by
  cases w with
  | set key value => exact h.transact_state (h.state.insert key value)
  | delete key => exact h.transact_state (h.state.remove key)
  | writeBatch batch =>
    exact h.transact_state ((h.state.insertAll batch.puts).removeAll batch.deletes)
  | putHeight height => exact h.transact_chainMeta _ _
  | putBlock height blockBytes => exact h.transact_chainMeta _ _
  | putBlockHashIndex hash height => exact h.transact_chainMeta _ _
  | putTxIndex txHash entryBytes => exact h.transact_chainMeta _ _

theorem read (h : r.Mirrors s) (P : Primitives) (q : StoreRead) :
    r.read P q = MemKVStore.read P s q := by
  cases q with
  | get key => exact congrArg StoreAnswer.bytes (h.state key)
  | computeRoot =>
    have hroot : r.computeRoot P = s.computeRoot P := by
      rw [computeRoot, h.state.iter, Store.computeRoot]
    exact congrArg StoreAnswer.root hroot
  | getHeight => exact congrArg readHeight (h.chainMeta _)
  | getBlock height => exact congrArg StoreAnswer.bytes (h.chainMeta _)
  | getHeightByHash hash => exact congrArg readHeight (h.chainMeta _)
  | getTxIndex txHash => exact congrArg StoreAnswer.bytes (h.chainMeta _)

end RedbStore.Mirrors

theorem RedbStore.after_mirrors (T : RedbTable) (writes : List StoreWrite) :
    (after T writes).Mirrors (MemKVStore.after writes) :=
  Runs.run_related (fun _ _ w h => h.write w) ⟨holds_empty, holds_empty⟩ writes

/-- The records of the metadata table. -/
inductive ChainEntry
  | height
  | block (height : UInt64)
  | blockHash (hash : Hash32)
  | tx (txHash : Hash32)
  deriving DecidableEq

def ChainEntry.key : ChainEntry → Bytes
  | .height => Store.heightKey
  | .block h => u64Key Store.blockPrefix h.toNat
  | .blockHash hash => hashKey Store.blockHashPrefix hash
  | .tx txHash => hashKey Store.txPrefix txHash

/-- Keys of one kind have one length, and the four lengths differ. -/
def ChainEntry.keyLength : ChainEntry → ℕ
  | .height => 11
  | .block _ => 12
  | .blockHash _ => 40
  | .tx _ => 35

theorem ChainEntry.length_key (e : ChainEntry) : e.key.length = e.keyLength := by
  cases e with
  | height => exact Store.length_heightKey
  | block h => exact Store.length_blockKey _
  | blockHash hash => exact Store.length_blockHashKey hash
  | tx txHash => exact Store.length_txKey txHash

theorem ChainEntry.key_injective : Function.Injective ChainEntry.key := by
  intro e f h
  have hlen : e.keyLength = f.keyLength := by rw [← e.length_key, ← f.length_key, h]
  cases e <;> cases f <;> try cases hlen
  · rfl
  · rename_i m n
    have hsame := (Store.blockKey_inj m.toNat_lt n.toNat_lt).mp h
    rw [UInt64.toNat_inj.mp hsame]
  · rw [Store.hashKey_inj.mp h]
  · rw [Store.hashKey_inj.mp h]

/-- The records that are read as heights. -/
def ChainEntry.isHeight : ChainEntry → Bool
  | .height | .blockHash _ => true
  | .block _ | .tx _ => false

/-- The record that a metadata write replaces, with its new contents. -/
def StoreWrite.entry : StoreWrite → Option (ChainEntry × Bytes)
  | .set _ _ | .delete _ | .writeBatch _ => none
  | .putHeight height => some (.height, u64ToBeBytes height.toNat)
  | .putBlock height blockBytes => some (.block height, blockBytes)
  | .putBlockHashIndex hash height => some (.blockHash hash, u64ToBeBytes height.toNat)
  | .putTxIndex txHash entryBytes => some (.tx txHash, entryBytes)

/-- The record that a metadata read looks up. -/
def StoreRead.entry : StoreRead → Option ChainEntry
  | .get _ | .computeRoot => none
  | .getHeight => some .height
  | .getBlock height => some (.block height)
  | .getHeightByHash hash => some (.blockHash hash)
  | .getTxIndex txHash => some (.tx txHash)

namespace MemKVStore

theorem write_of_entry {w : StoreWrite} {e : ChainEntry} {value : Bytes}
    (h : w.entry = some (e, value)) (s : MemKVStore) : write s w = s.putMeta e.key value := by
  cases w <;> cases h <;> rfl

theorem write_of_no_entry {w : StoreWrite} (h : w.entry = none) (s : MemKVStore) :
    (write s w).chainMeta = s.chainMeta := by
  cases w <;> first | rfl | cases h

/-- A read depends on the state, or on one metadata record. -/
theorem read_congr {P : Primitives} {s t : MemKVStore} {q : StoreRead} (hstate : s.state = t.state)
    (hmeta : ∀ e, q.entry = some e → s.chainMeta[e.key]? = t.chainMeta[e.key]?) :
    read P s q = read P t q := by
  cases q with
  | get key => simp only [read, Store.get, hstate]
  | computeRoot => simp only [read, Store.computeRoot, hstate]
  | getHeight => exact congrArg readHeight (hmeta _ rfl)
  | getBlock height => exact congrArg StoreAnswer.bytes (hmeta _ rfl)
  | getHeightByHash hash => exact congrArg readHeight (hmeta _ rfl)
  | getTxIndex txHash => exact congrArg StoreAnswer.bytes (hmeta _ rfl)

/-- A metadata write is seen by no read but those of its own record. -/
theorem read_write_of_entry {w : StoreWrite} {e : ChainEntry} {value : Bytes}
    (h : w.entry = some (e, value)) {q : StoreRead} (hq : q.entry ≠ some e) (P : Primitives)
    (s : MemKVStore) : read P (write s w) q = read P s q := by
  rw [write_of_entry h]
  refine read_congr rfl (fun f hf => s.putMeta_ne value (fun hkey => hq ?_))
  rw [hf, ChainEntry.key_injective hkey]

/-- Heights are stored as eight bytes. -/
def HeightsStored (s : MemKVStore) : Prop :=
  ∀ (e : ChainEntry) (bytes : Bytes), e.isHeight → s.chainMeta[e.key]? = some bytes →
    bytes.length = 8

theorem heightsStored_write {s : MemKVStore} (h : HeightsStored s) (w : StoreWrite) :
    HeightsStored (write s w) := by
  cases hw : w.entry with
  | none =>
    intro e bytes hkind hget
    rw [write_of_no_entry hw] at hget
    exact h e bytes hkind hget
  | some record =>
    obtain ⟨f, value⟩ := record
    intro e bytes hkind hget
    rw [write_of_entry hw] at hget
    by_cases hsame : f = e
    · subst hsame
      have hvalue : bytes = value := by simpa [Store.putMeta] using hget.symm
      subst hvalue
      -- Only the two methods that store a height write these records.
      cases w <;> cases hw <;> first | exact length_u64ToBeBytes _ | cases hkind
    · rw [s.putMeta_ne value (fun hkey => hsame (ChainEntry.key_injective hkey))] at hget
      exact h e bytes hkind hget

theorem readHeight_ne_panicked {record : Option Bytes}
    (h : ∀ bytes, record = some bytes → bytes.length = 8) : readHeight record ≠ .panicked := by
  cases record with
  | none => simp [readHeight]
  | some bytes => simp [readHeight, h bytes rfl]

theorem read_ne_panicked {s : MemKVStore} (h : HeightsStored s) (P : Primitives) (q : StoreRead) :
    read P s q ≠ .panicked := by
  cases q with
  | getHeight => exact readHeight_ne_panicked (fun bytes => h .height bytes rfl)
  | getHeightByHash hash =>
    exact readHeight_ne_panicked (fun bytes => h (.blockHash hash) bytes rfl)
  | _ => simp [read]

theorem heightsStored_after (writes : List StoreWrite) : HeightsStored (after writes) := by
  refine Runs.run_invariant (I := HeightsStored) (fun _ w h => heightsStored_write h w)
    Store.empty writes ?_
  intro e bytes _ hget
  simp [Store.empty] at hget

end MemKVStore

/-- The back ends are interchangeable. After any writes to empty stores both give the
same answer to every read, no read panics, and one more metadata write changes, on
either of them, only what is read of its own record. -/
theorem backends_agree (T : RedbTable) (P : Primitives) (writes : List StoreWrite) :
    (∀ q, (RedbStore.after T writes).read P q = MemKVStore.read P (MemKVStore.after writes) q) ∧
    (∀ q, MemKVStore.read P (MemKVStore.after writes) q ≠ .panicked) ∧
    ∀ w e value, StoreWrite.entry w = some (e, value) → ∀ q, StoreRead.entry q ≠ some e →
      MemKVStore.read P (MemKVStore.after (writes ++ [w])) q =
        MemKVStore.read P (MemKVStore.after writes) q ∧
      (RedbStore.after T (writes ++ [w])).read P q = (RedbStore.after T writes).read P q := by
  have hsame : ∀ ws q, (RedbStore.after T ws).read P q =
      MemKVStore.read P (MemKVStore.after ws) q :=
    fun ws q => (RedbStore.after_mirrors T ws).read P q
  refine ⟨hsame writes, MemKVStore.read_ne_panicked (MemKVStore.heightsStored_after writes) P, ?_⟩
  intro w e value hw q hq
  have hmem : MemKVStore.read P (MemKVStore.after (writes ++ [w])) q =
      MemKVStore.read P (MemKVStore.after writes) q := by
    rw [MemKVStore.after, Runs.run_append]
    exact MemKVStore.read_write_of_entry hw hq P _
  exact ⟨hmem, by rw [hsame, hsame, hmem]⟩

/-- The tree maps of the library are such tables. -/
def treeTable : RedbTable where
  Table := ByteMap
  empty := ∅
  get := fun table key => table[key]?
  insert := fun table key value => table.insert key value
  remove := fun table key => table.erase key
  iter := fun table => table.toList
  get_empty := by simp
  get_insert := by
    intro table key value other
    split
    · rename_i heq
      subst heq
      simp
    · rename_i hne
      exact getElem?_insert_ne table value hne
  get_remove := by
    intro table key other
    split
    · rename_i heq
      subst heq
      simp
    · rename_i hne
      exact getElem?_erase_ne table hne
  iter_ordered := fun _ => ExtTreeMap.ordered_keys_toList
  mem_iter := fun _ _ _ => ExtTreeMap.mem_toList_iff_getElem?_eq_some

/-- A block stored under height 1 does not touch the hash index. -/
theorem backends_agree_devnet :
    let writes := [StoreWrite.set [1] [2], .putBlockHashIndex Hash32.zero 7]
    (RedbStore.after treeTable (writes ++ [.putBlock 1 [3]])).read Devnet.primitives
        (.getHeightByHash Hash32.zero) =
      (RedbStore.after treeTable writes).read Devnet.primitives (.getHeightByHash Hash32.zero) :=
  ((backends_agree treeTable Devnet.primitives _).2.2 (.putBlock 1 [3]) (.block 1) [3] rfl
    (.getHeightByHash Hash32.zero) (by decide)).2

end Sprax
