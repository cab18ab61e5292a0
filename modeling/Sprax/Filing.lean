import Sprax.FiniteMap

/-!
# Tables filled from a list

Two ways to file the entries of a list in a map. Overwriting keeps, under every key,
the last entry that has the key. Pushing keeps a list under every key: the entries
that have the key among theirs, in their order.
-/
namespace Sprax.Filing
open Std FiniteMap

variable {α κ ν : Type} {cmp : κ → κ → Ordering} [TransCmp cmp] [LawfulEqCmp cmp]

/-- A write has no effect exactly if its value stands already. -/
theorem insert_eq_self_iff {t : ExtTreeMap κ ν cmp} {k : κ} {v : ν} :
    t.insert k v = t ↔ t[k]? = some v := by
  constructor
  · intro h
    rw [← h]
    simp
  · exact insert_getElem? t

section Overwriting
variable [DecidableEq κ]

/-- The last entry of the list with the key. -/
def latest (key : α → κ) (xs : List α) (k : κ) : Option α :=
  (xs.filter (fun x => key x = k)).getLast?

variable {key : α → κ} {value : α → ν} {xs : List α} {k : κ} {x : α}

@[simp] theorem latest_nil : latest key [] k = none := rfl

theorem latest_append (xs ys : List α) :
    latest key (xs ++ ys) k = (latest key ys k).or (latest key xs k) := by
  simp only [latest, List.filter_append, List.getLast?_append]

theorem latest_snoc (xs : List α) (x : α) :
    latest key (xs ++ [x]) k = if key x = k then some x else latest key xs k := by
  by_cases hx : key x = k <;> simp [latest, hx]

theorem mem_of_latest (h : latest key xs k = some x) : x ∈ xs ∧ key x = k := by
  simpa using List.mem_of_getLast? h

theorem exists_latest (h : x ∈ xs) : ∃ y, latest key xs (key x) = some y := by
  rw [← Option.ne_none_iff_exists', latest, Ne, List.getLast?_eq_none_iff]
  exact List.ne_nil_of_mem (List.mem_filter.mpr ⟨h, by simp⟩)

/-- The last entry with a key: it has the key, and no entry behind it does. -/
theorem latest_eq_some_iff :
    latest key xs k = some x ↔ ∃ before after, xs = before ++ x :: after ∧ key x = k ∧
      ∀ y ∈ after, key y ≠ k := by
  constructor
  · intro h
    obtain ⟨init, hfilter⟩ := List.getLast?_eq_some_iff.mp h
    obtain ⟨before, after, rfl, -, hlast⟩ := List.filter_eq_append_iff.mp hfilter
    obtain ⟨skipped, rest, rfl, hskipped, hx, hrest⟩ := List.filter_eq_cons_iff.mp hlast
    refine ⟨before ++ skipped, rest, by simp, by simpa using hx, fun y hy hkey => ?_⟩
    exact List.filter_eq_nil_iff.mp hrest y hy (by simpa using hkey)
  · rintro ⟨before, after, rfl, hx, hafter⟩
    have hnone : after.filter (fun y => key y = k) = [] :=
      List.filter_eq_nil_iff.mpr (fun y hy => by simpa using hafter y hy)
    simp [latest, hx, hnone]

/-- Writing an entry into a table with one value a key. -/
def overwrite (key : α → κ) (value : α → ν) (t : ExtTreeMap κ ν cmp) (x : α) : ExtTreeMap κ ν cmp :=
  t.insert (key x) (value x)

theorem getElem?_overwrites (t : ExtTreeMap κ ν cmp) (xs : List α) (k : κ) :
    (xs.foldl (overwrite key value) t)[k]? = ((latest key xs k).map value).or t[k]? := by
  induction xs using List.reverseRecOn with
  | nil => simp
  | append_singleton xs x ih =>
    rw [List.foldl_append, List.foldl_cons, List.foldl_nil, latest_snoc, overwrite]
    by_cases hx : key x = k
    · subst hx
      simp
    · rw [getElem?_insert_ne _ _ hx, ih, if_neg hx]

end Overwriting

section Pushing

/-- The list under a key. -/
def entries (t : ExtTreeMap κ (List ν) cmp) (k : κ) : List ν := t[k]?.getD []

def push (v : ν) (t : ExtTreeMap κ (List ν) cmp) (k : κ) : ExtTreeMap κ (List ν) cmp :=
  t.insert k (entries t k ++ [v])

variable {keys : α → List κ} {value : α → ν}

omit [LawfulEqCmp cmp] in
@[simp] theorem entries_empty (k : κ) : entries (∅ : ExtTreeMap κ (List ν) cmp) k = [] := by
  simp [entries]

variable [DecidableEq κ]

theorem entries_push (v : ν) (t : ExtTreeMap κ (List ν) cmp) (j k : κ) :
    entries (push v t j) k = entries t k ++ if j = k then [v] else [] := by
  by_cases hj : j = k
  · subst hj
    simp [entries, push]
  · simp [entries, push, getElem?_insert_ne _ _ hj, hj]

/-- Filing an entry under each of its keys. -/
def pushUnder (keys : α → List κ) (value : α → ν) (t : ExtTreeMap κ (List ν) cmp) (x : α) :
    ExtTreeMap κ (List ν) cmp :=
  (keys x).foldl (push (value x)) t

theorem entries_pushUnder (t : ExtTreeMap κ (List ν) cmp) {x : α} (hkeys : (keys x).Nodup) (k : κ) :
    entries (pushUnder keys value t x) k = entries t k ++ if k ∈ keys x then [value x] else [] := by
  unfold pushUnder
  generalize keys x = ks at hkeys
  induction ks generalizing t with
  | nil => simp
  | cons j ks ih =>
    obtain ⟨hj, hks⟩ := List.nodup_cons.mp hkeys
    rw [List.foldl_cons, ih _ hks, entries_push]
    by_cases hjk : j = k
    · subst hjk
      simp [hj]
    · simp [hjk, Ne.symm hjk]

/-- What stands under a key: the entries that have it, in their order. -/
theorem entries_pushes (hkeys : ∀ x, (keys x).Nodup) (t : ExtTreeMap κ (List ν) cmp)
    (xs : List α) (k : κ) :
    entries (xs.foldl (pushUnder keys value) t) k =
      entries t k ++ (xs.filter (fun x => k ∈ keys x)).map value := by
  induction xs generalizing t with
  | nil => simp
  | cons x xs ih =>
    rw [List.foldl_cons, ih, entries_pushUnder t (hkeys x)]
    by_cases hx : k ∈ keys x <;> simp [hx]

end Pushing

end Sprax.Filing
