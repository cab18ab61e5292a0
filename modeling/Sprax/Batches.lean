import Sprax.Backends
import Sprax.Edits

/-!
# Batches of writes

A `BatchOperation` keeps what is put and what is deleted in two lists and so
forgets how the two were interleaved; both back ends apply all puts before all
deletions. A key that is put again after it was deleted is therefore missing after
the batch. For all other sequences the batch does what the single calls would do.
-/
namespace Sprax
open Std FiniteMap Runs Edits

/-- The calls of `BatchWriter`. -/
abbrev BatchCall := Edit Bytes Bytes

namespace BatchOperation

def new : BatchOperation := ⟨[], []⟩

def insert (b : BatchOperation) (key value : Bytes) : BatchOperation :=
  { b with puts := b.puts ++ [(key, value)] }

def remove (b : BatchOperation) (key : Bytes) : BatchOperation :=
  { b with deletes := b.deletes ++ [key] }

def call (b : BatchOperation) : BatchCall → BatchOperation
  | .put key value => b.insert key value
  | .delete key => b.remove key

/-- The batch that a sequence of calls builds. -/
def built (calls : List BatchCall) : BatchOperation := run call new calls

/-- The writes of a batch as the back ends apply them. -/
def edits (b : BatchOperation) : List BatchCall :=
  b.puts.map (fun e => .put e.1 e.2) ++ b.deletes.map (fun key => .delete key)

theorem run_call (b : BatchOperation) (calls : List BatchCall) :
    (run call b calls).puts.map (fun e => (.put e.1 e.2 : BatchCall)) =
        b.puts.map (fun e => .put e.1 e.2) ++ calls.filter (fun e => !e.isDelete) ∧
      (run call b calls).deletes.map (fun key => (.delete key : BatchCall)) =
        b.deletes.map (fun key => .delete key) ++ calls.filter Edit.isDelete := by
  induction calls generalizing b with
  | nil => simp
  | cons c calls ih =>
    rw [run_cons, (ih (b.call c)).1, (ih (b.call c)).2]
    cases c with
    | put key value => simp [call, insert]
    | delete key => simp [call, remove, List.filter_cons]

theorem edits_built (calls : List BatchCall) : (built calls).edits = grouped calls := by
  obtain ⟨hputs, hdeletes⟩ := run_call new calls
  rw [edits, built, hputs, hdeletes]
  rfl

end BatchOperation

/-- The call made directly on the store. -/
def directWrite : BatchCall → StoreWrite
  | .put key value => .set key value
  | .delete key => .delete key

/-- One call on a table in memory. -/
def editMap (m : ByteMap) : BatchCall → ByteMap
  | .put key value => m.insert key value
  | .delete key => m.erase key

theorem look_editMap (m : ByteMap) (c : BatchCall) :
    (fun key => (editMap m c)[key]?) = edit (fun key => m[key]?) c := by
  funext key
  cases c with
  | put k v =>
    by_cases h : k = key
    · subst h
      simp [editMap, edit, Edit.key, Edit.value]
    · simp [editMap, edit, Edit.key, getElem?_insert_ne _ _ h, Function.update_of_ne (Ne.symm h)]
  | delete k =>
    by_cases h : k = key
    · subst h
      simp [editMap, edit, Edit.key, Edit.value]
    · simp [editMap, edit, Edit.key, getElem?_erase_ne _ h, Function.update_of_ne (Ne.symm h)]

/-- Two sequences of calls make the same table if they make the same entries. -/
theorem run_editMap_inj {m : ByteMap} {calls calls' : List BatchCall} :
    run editMap m calls = run editMap m calls' ↔
      run edit (fun key => m[key]?) calls = run edit (fun key => m[key]?) calls' := by
  have hlook := look_run (fun (m : ByteMap) key => m[key]?) look_editMap m
  rw [← hlook, ← hlook]
  constructor
  · intro h
    rw [h]
  · intro h
    exact ExtTreeMap.ext_getElem? (fun key => congrFun h key)

namespace MemKVStore

/-- The store after the calls, one by one. -/
def oneByOne (s : MemKVStore) (calls : List BatchCall) : MemKVStore :=
  run (fun s c => write s (directWrite c)) s calls

theorem oneByOne_eq (s : MemKVStore) (calls : List BatchCall) :
    oneByOne s calls = { s with state := run editMap s.state calls } := by
  induction calls generalizing s with
  | nil => rfl
  | cons c calls ih =>
    rw [oneByOne, run_cons, ← oneByOne, ih]
    cases c <;> rfl

theorem writeBatch_eq (s : MemKVStore) (b : BatchOperation) :
    writeBatch s b = { s with state := run editMap s.state b.edits } := by
  simp [writeBatch, run, BatchOperation.edits, List.foldl_map, editMap]

theorem writeBatch_built_iff (s : MemKVStore) (calls : List BatchCall) :
    writeBatch s (.built calls) = oneByOne s calls ↔ DeletedLast calls := by
  rw [writeBatch_eq, oneByOne_eq, BatchOperation.edits_built, Store.mk.injEq, run_editMap_inj,
    run_grouped_iff]
  exact and_iff_left rfl

end MemKVStore

namespace RedbStore
variable {T : RedbTable}

/-- The database after the calls, each in a transaction of its own. -/
def oneByOne (r : RedbStore T) (calls : List BatchCall) : RedbStore T :=
  run (fun r c => r.write (directWrite c)) r calls

/-- Every table holds the records of a map. -/
theorem exists_holds (table : T.Table) : ∃ m : ByteMap, Holds table m := by
  have hdistinct : (T.iter table).Pairwise (fun a b => compare a.1 b.1 ≠ .eq) :=
    (T.iter_ordered table).imp (fun hlt heq => by rw [hlt] at heq; cases heq)
  refine ⟨ExtTreeMap.ofList (T.iter table) compare, fun key => ?_⟩
  cases hget : T.get table key with
  | some value =>
    have hmem := (T.mem_iter table key value).mpr hget
    rw [ExtTreeMap.getElem?_ofList_of_mem ReflCmp.compare_self hdistinct hmem]
  | none =>
    have habsent : key ∉ (T.iter table).map Prod.fst := by
      rintro hkey
      obtain ⟨⟨k, value⟩, hmem, rfl⟩ := List.mem_map.mp hkey
      cases hget.symm.trans ((T.mem_iter table k value).mp hmem)
    rw [ExtTreeMap.getElem?_ofList_of_contains_eq_false (by simpa using habsent)]

theorem exists_mirrors (r : RedbStore T) : ∃ s : MemKVStore, r.Mirrors s := by
  obtain ⟨state, hstate⟩ := exists_holds (r.db.tables .state)
  obtain ⟨chainMeta, hmeta⟩ := exists_holds (r.db.tables .chainMeta)
  exact ⟨⟨state, chainMeta⟩, hstate, hmeta⟩

theorem Mirrors.oneByOne {r : RedbStore T} {s : MemKVStore} (h : r.Mirrors s)
    (calls : List BatchCall) :
    (r.oneByOne calls).Mirrors (s.oneByOne calls) :=
  run_related (fun _ _ c h => h.write (directWrite c)) h calls

theorem writeBatch_built_iff (P : Primitives) (r : RedbStore T) (calls : List BatchCall) :
    (∀ q, (r.write (.writeBatch (.built calls))).read P q = (r.oneByOne calls).read P q) ↔
      DeletedLast calls := by
  obtain ⟨s, hs⟩ := r.exists_mirrors
  have hbatch := fun q => (hs.write (.writeBatch (.built calls))).read P q
  have hsingle := fun q => (hs.oneByOne calls).read P q
  rw [← s.writeBatch_built_iff calls]
  constructor
  · intro h
    have hget : ∀ key, (s.writeBatch (.built calls)).get key = (s.oneByOne calls).get key := by
      intro key
      have hread := (hbatch (.get key)).symm.trans ((h (.get key)).trans (hsingle (.get key)))
      exact StoreAnswer.bytes.inj hread
    rw [MemKVStore.writeBatch_eq, MemKVStore.oneByOne_eq] at hget ⊢
    rw [show run editMap s.state (BatchOperation.built calls).edits = run editMap s.state calls from
      ExtTreeMap.ext_getElem? (fun {key} => hget key)]
  · intro h q
    rw [hbatch, hsingle, ← h]
    rfl

end RedbStore

/-- A batch leaves either store as the calls that built it would have done, one by
one, exactly if no key that was deleted is put again for good. -/
theorem writeBatch_iff_deletedLast (T : RedbTable) (P : Primitives) (calls : List BatchCall) :
    (∀ s : MemKVStore, s.write (.writeBatch (.built calls)) = s.oneByOne calls ↔
      DeletedLast calls) ∧
    ∀ r : RedbStore T,
      (∀ q, (r.write (.writeBatch (.built calls))).read P q = (r.oneByOne calls).read P q) ↔
        DeletedLast calls :=
  ⟨fun s => s.writeBatch_built_iff calls, fun r => r.writeBatch_built_iff P calls⟩

/-- A key that is deleted and put again is missing after the batch. -/
theorem put_after_delete_lost :
    let calls : List BatchCall := [.delete [1], .put [1] [2]]
    (MemKVStore.write Store.empty (.writeBatch (.built calls))).get [1] = none ∧
    (MemKVStore.oneByOne Store.empty calls).get [1] = some [2] ∧
    ((RedbStore.create treeTable).write (.writeBatch (.built calls))).read Devnet.primitives
      (.get [1]) = .bytes none ∧
    ((RedbStore.create treeTable).oneByOne calls).read Devnet.primitives (.get [1]) =
      .bytes (some [2]) := by
  dsimp only
  refine ⟨?_, ?_, ?_, ?_⟩ <;> decide +kernel

end Sprax
