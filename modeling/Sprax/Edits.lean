import Mathlib.Logic.Function.Basic
import Sprax.Runs

/-!
# Edits of a table

A table is a partial function, edited by writing and deleting keys. What stands
under a key after a sequence of edits is decided by the last edit of that key. If
the writes of a sequence are done first and the deletions afterwards, the table
ends up the same exactly if every key that is deleted at all is deleted last.
-/
namespace Sprax.Edits
open Runs

variable {κ ν : Type*}

inductive Edit (κ ν : Type*)
  | put (key : κ) (value : ν)
  | delete (key : κ)
  deriving DecidableEq

namespace Edit

def key : Edit κ ν → κ
  | .put key _ => key
  | .delete key => key

/-- What stands under the key afterwards. -/
def value : Edit κ ν → Option ν
  | .put _ value => some value
  | .delete _ => none

def isDelete : Edit κ ν → Bool
  | .put _ _ => false
  | .delete _ => true

@[simp] theorem isDelete_put (key : κ) (value : ν) : (put key value).isDelete = false := rfl

@[simp] theorem isDelete_delete (key : κ) : (delete key : Edit κ ν).isDelete = true := rfl

theorem eq_delete {e : Edit κ ν} (h : e.isDelete = true) : e = .delete e.key := by
  cases e with
  | put key value => cases h
  | delete key => rfl

theorem value_eq_none {e : Edit κ ν} : e.value = none ↔ e.isDelete = true := by
  cases e <;> simp [value, isDelete]

end Edit

variable [DecidableEq κ]

def edit (table : κ → Option ν) (e : Edit κ ν) : κ → Option ν := Function.update table e.key e.value

/-- The last edit of a key. -/
def lastOn (es : List (Edit κ ν)) (key : κ) : Option (Edit κ ν) :=
  (es.filter (fun e => e.key = key)).getLast?

@[simp] theorem lastOn_append (es fs : List (Edit κ ν)) (key : κ) :
    lastOn (es ++ fs) key = (lastOn fs key).or (lastOn es key) := by
  simp only [lastOn, List.filter_append, List.getLast?_append]

theorem mem_of_lastOn {es : List (Edit κ ν)} {key : κ} {e : Edit κ ν} (h : lastOn es key = some e) :
    e ∈ es ∧ e.key = key := by
  simpa using List.mem_of_getLast? h

theorem run_edit (table : κ → Option ν) (es : List (Edit κ ν)) (key : κ) :
    run edit table es key = (lastOn es key).elim (table key) Edit.value := by
  induction es generalizing table with
  | nil => rfl
  | cons e es ih =>
    have hcons : lastOn (e :: es) key = (lastOn es key).or (lastOn [e] key) :=
      lastOn_append [e] es key
    rw [run_cons, ih, hcons]
    cases lastOn es key with
    | some last => rfl
    | none =>
      by_cases hkey : e.key = key
      · subst hkey
        simp [lastOn, edit]
      · simp [lastOn, edit, hkey, Function.update_of_ne (Ne.symm hkey)]

/-- The writes of a sequence, then its deletions. -/
def grouped (es : List (Edit κ ν)) : List (Edit κ ν) :=
  es.filter (fun e => !e.isDelete) ++ es.filter Edit.isDelete

/-- A key that is deleted at all is deleted last. -/
def DeletedLast (es : List (Edit κ ν)) : Prop :=
  ∀ key, Edit.delete key ∈ es → lastOn es key = some (.delete key)

/-- In the grouped sequence a deletion is always last. -/
theorem lastOn_grouped_of_mem {es : List (Edit κ ν)} {key : κ} (h : Edit.delete key ∈ es) :
    lastOn (grouped es) key = some (.delete key) := by
  have hmem : Edit.delete key ∈ (es.filter Edit.isDelete).filter (fun e => e.key = key) := by
    simp [h, Edit.isDelete, Edit.key]
  have hlast : lastOn (es.filter Edit.isDelete) key ≠ none := by
    rw [lastOn, Ne, List.getLast?_eq_none_iff]
    exact List.ne_nil_of_mem hmem
  obtain ⟨e, he⟩ := Option.ne_none_iff_exists'.mp hlast
  obtain ⟨hedit, hkey⟩ := mem_of_lastOn he
  rw [grouped, lastOn_append, he, Option.some_or, Edit.eq_delete (List.mem_filter.mp hedit).2, hkey]

theorem lastOn_grouped_of_not_mem {es : List (Edit κ ν)} {key : κ} (h : Edit.delete key ∉ es) :
    lastOn (grouped es) key = lastOn es key := by
  have hputs : ∀ e ∈ es, e.key = key → e.isDelete = false := by
    intro e he hkey
    cases e with
    | put k v => rfl
    | delete k =>
      change k = key at hkey
      exact absurd (hkey ▸ he) h
  have hnone : lastOn (es.filter Edit.isDelete) key = none := by
    rw [lastOn, List.getLast?_eq_none_iff, List.filter_eq_nil_iff]
    intro e he hkey
    obtain ⟨hmem, hdelete⟩ := List.mem_filter.mp he
    rw [hputs e hmem (by simpa using hkey)] at hdelete
    cases hdelete
  have hsame : lastOn (es.filter (fun e => !e.isDelete)) key = lastOn es key := by
    unfold lastOn
    rw [List.filter_filter]
    congr 1
    refine List.filter_congr (fun e he => ?_)
    by_cases hkey : e.key = key
    · simp [hkey, hputs e he hkey]
    · simp [hkey]
  rw [grouped, lastOn_append, hnone, Option.none_or, hsame]

theorem run_grouped_iff (table : κ → Option ν) (es : List (Edit κ ν)) :
    run edit table (grouped es) = run edit table es ↔ DeletedLast es := by
  constructor
  · intro h key hkey
    have hvalue := congrFun h key
    rw [run_edit, run_edit, lastOn_grouped_of_mem hkey] at hvalue
    cases hlast : lastOn es key with
    | none =>
      rw [lastOn, List.getLast?_eq_none_iff, List.filter_eq_nil_iff] at hlast
      exact absurd (by simp [Edit.key]) (hlast _ hkey)
    | some e =>
      rw [hlast] at hvalue
      rw [Edit.eq_delete (Edit.value_eq_none.mp hvalue.symm), (mem_of_lastOn hlast).2]
  · intro h
    funext key
    rw [run_edit, run_edit]
    by_cases hkey : Edit.delete key ∈ es
    · rw [lastOn_grouped_of_mem hkey, h key hkey]
    · rw [lastOn_grouped_of_not_mem hkey]

/-- A system whose steps edit the table that is read off its states. -/
theorem look_run {σ : Type*} {step : σ → Edit κ ν → σ} (look : σ → κ → Option ν)
    (h : ∀ s e, look (step s e) = edit (look s) e) (s : σ) (es : List (Edit κ ν)) :
    look (run step s es) = run edit (look s) es :=
  run_related (R := fun s table => look s = table) (fun s _ e hs => hs ▸ h s e) rfl es

end Sprax.Edits
