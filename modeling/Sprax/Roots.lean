import Sprax.Collisions
import Sprax.Devnet

/-!
# What a state root determines

The root hashes the concatenation of one hash for each pair, and the hash of a
pair is that of its key followed by its value. So a root determines the list of
these concatenations, in key order, unless a collision among the hashed strings
was found. It does not determine where in each of them the key ends.
-/
namespace Sprax
open Std Collisions

/-- The strings that pairs are hashed as. -/
def pairStrings (pairs : List (Bytes × Bytes)) : List Bytes := pairs.map (fun e => e.1 ++ e.2)

/-- The concatenated hashes of the pairs. -/
def combinedHashes (P : Primitives) (pairs : List (Bytes × Bytes)) : Bytes :=
  ((pairStrings pairs).map P.blake3).flatMap Hash32.bytes

/-- All strings that are hashed for one root. -/
def rootStrings (P : Primitives) (pairs : List (Bytes × Bytes)) : List Bytes :=
  if pairs.isEmpty then [] else combinedHashes P pairs :: pairStrings pairs

section Lists
variable {P : Primitives}

theorem flatMap_bytes_injective {as bs : List Hash32}
    (h : as.flatMap Hash32.bytes = bs.flatMap Hash32.bytes) : as = bs := by
  induction as generalizing bs with
  | nil =>
    cases bs with
    | nil => rfl
    | cons b bs =>
      have hlen := congrArg List.length h
      simp only [List.flatMap_nil, List.length_nil, List.flatMap_cons, List.length_append,
        b.length_eq] at hlen
      omega
  | cons a as ih =>
    cases bs with
    | nil =>
      have hlen := congrArg List.length h
      simp [a.length_eq] at hlen
    | cons b bs =>
      rw [List.flatMap_cons, List.flatMap_cons] at h
      obtain ⟨hhead, htail⟩ := List.append_inj h (a.length_eq.trans b.length_eq.symm)
      rw [Hash32.ext_bytes hhead, ih htail]

theorem computeFlatRoot_cons (e : Bytes × Bytes) (pairs : List (Bytes × Bytes)) :
    Hasher.computeFlatRoot P (e :: pairs) = P.blake3 (combinedHashes P (e :: pairs)) := by
  simp [Hasher.computeFlatRoot, combinedHashes, pairStrings, List.flatMap_map]

/-- Equal roots come from equal pair strings, or the hash function was broken. -/
theorem pairStrings_of_root_eq {ps qs : List (Bytes × Bytes)}
    (h : Hasher.computeFlatRoot P ps = Hasher.computeFlatRoot P qs) :
    pairStrings ps = pairStrings qs ∨
      Broken P.blake3 Hash32.zero (rootStrings P ps ++ rootStrings P qs) := by
  by_cases hbroken : Broken P.blake3 Hash32.zero (rootStrings P ps ++ rootStrings P qs)
  · exact Or.inr hbroken
  refine Or.inl ?_
  obtain ⟨hcollides, hhits⟩ := not_or.mp hbroken
  cases ps with
  | nil =>
    cases qs with
    | nil => rfl
    | cons q qs =>
      rw [computeFlatRoot_cons] at h
      exact absurd ⟨_, by simp [rootStrings], h.symm⟩ hhits
  | cons p ps =>
    cases qs with
    | nil =>
      rw [computeFlatRoot_cons] at h
      exact absurd ⟨_, by simp [rootStrings], h⟩ hhits
    | cons q qs =>
      rw [computeFlatRoot_cons, computeFlatRoot_cons] at h
      have hcombined : combinedHashes P (p :: ps) = combinedHashes P (q :: qs) :=
        eq_of_hash_eq hcollides (by simp [rootStrings]) (by simp [rootStrings]) h
      have hhashes := flatMap_bytes_injective hcombined
      refine eq_of_map_eq hcollides ?_ ?_ hhashes
      · intro x hx
        simp [rootStrings, hx]
      · intro x hx
        simp [rootStrings, hx]

end Lists

namespace Store
variable (P : Primitives)

/-- What is hashed for the roots of two stores shows a collision, or a string
with the hash of an empty store. -/
def RootsBroken (s t : Store) : Prop :=
  Broken P.blake3 Hash32.zero (rootStrings P s.state.toList ++ rootStrings P t.state.toList)

/-- Equal roots mean equal pairs, or a broken hash function. -/
def RootBinds (s t : Store) : Prop :=
  s.computeRoot P = t.computeRoot P → s.state.toList = t.state.toList ∨ RootsBroken P s t

/-- The root binds two stores exactly if they do not differ in where keys end. -/
theorem rootBinds_iff (s t : Store) :
    RootBinds P s t ↔
      (pairStrings s.state.toList = pairStrings t.state.toList →
        s.state.toList = t.state.toList ∨ RootsBroken P s t) := by
  constructor
  · intro hbinds hstrings
    refine hbinds ?_
    unfold computeRoot
    cases hs : s.state.toList with
    | nil =>
      rw [hs] at hstrings
      have hempty := List.map_eq_nil_iff.mp hstrings.symm
      rw [hempty]
    | cons e pairs =>
      cases ht : t.state.toList with
      | nil =>
        rw [hs, ht] at hstrings
        cases hstrings
      | cons e' pairs' =>
        rw [hs, ht] at hstrings
        rw [computeFlatRoot_cons, computeFlatRoot_cons, combinedHashes, combinedHashes, hstrings]
  · intro hkeys hroot
    rcases pairStrings_of_root_eq hroot with hstrings | hbroken
    · exact hkeys hstrings
    · exact Or.inr hbroken

/-- Keys of one length are enough: account keys have 21 bytes. -/
theorem rootBinds_of_length {s t : Store} {n : ℕ} (hs : ∀ e ∈ s.state.toList, e.1.length = n)
    (ht : ∀ e ∈ t.state.toList, e.1.length = n) : RootBinds P s t := by
  refine (rootBinds_iff P s t).mpr (fun hstrings => Or.inl ?_)
  generalize s.state.toList = ps at hs hstrings
  generalize t.state.toList = qs at ht hstrings
  induction ps generalizing qs with
  | nil => exact (List.map_eq_nil_iff.mp hstrings.symm).symm
  | cons p ps ih =>
    cases qs with
    | nil => cases hstrings
    | cons q qs =>
      obtain ⟨hhead, htail⟩ := List.cons.inj hstrings
      have hlen : p.1.length = q.1.length :=
        (hs p List.mem_cons_self).trans (ht q List.mem_cons_self).symm
      obtain ⟨hkey, hvalue⟩ := List.append_inj hhead hlen
      rw [Prod.ext hkey hvalue, ih (fun e he => hs e (List.mem_cons_of_mem p he)) qs
        (fun e he => ht e (List.mem_cons_of_mem q he)) htail]

open Devnet in
/-- The pairs `a ↦ bc` and `ab ↦ c` have one root. -/
theorem moved_key_same_root :
    let s := Store.empty.set (ascii "a") (ascii "bc")
    let t := Store.empty.set (ascii "ab") (ascii "c")
    s.computeRoot primitives = t.computeRoot primitives ∧ s.state.toList ≠ t.state.toList ∧
      ¬ RootsBroken primitives s t := by
  simp only [RootsBroken, Broken, Collides, Hits]
  decide +kernel

end Store

end Sprax
