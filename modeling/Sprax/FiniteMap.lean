import Mathlib.Tactic.Linarith
import Mathlib.Algebra.BigOperators.Group.List.Lemmas
import Mathlib.Algebra.Order.BigOperators.Group.Finset

/-!
# Weights of finite ordered maps

A map is `Std.ExtTreeMap`: extensional, and enumerated in key order. The weight
of a map is the sum of a measure over its stored values. Overwriting one key
moves the weight by the difference of the two values, which is the only fact a
conservation argument over single-key writes needs. An iteration order stands
for the unspecified enumeration of a hash table.
-/
namespace Sprax.FiniteMap
open Std

variable {κ : Type} {β : Type} {cmp : κ → κ → Ordering} [TransCmp cmp]

/-- Sum of `f` over the stored values, in key order. -/
def weight (f : β → ℕ) (t : ExtTreeMap κ β cmp) : ℕ := (t.toList.map (fun e => f e.2)).sum

/-- The sum of a measure that may depend on the key as well. -/
def weightOn (f : κ → β → ℕ) (t : ExtTreeMap κ β cmp) : ℕ :=
  (t.toList.map (fun e => f e.1 e.2)).sum

/-- The measure of the value under one key; an absent key weighs nothing. -/
def weightAt (f : β → ℕ) (t : ExtTreeMap κ β cmp) (k : κ) : ℕ := (t[k]?).elim 0 f

theorem sum_map_toList_empty (f : κ × β → ℕ) : ((∅ : ExtTreeMap κ β cmp).toList.map f).sum = 0 := by
  have h : (∅ : ExtTreeMap κ β cmp).toList = [] := ExtTreeMap.toList_eq_nil_iff.mpr rfl
  simp [h]

@[simp] theorem weight_empty (f : β → ℕ) : weight f (∅ : ExtTreeMap κ β cmp) = 0 :=
  sum_map_toList_empty (fun e => f e.2)

@[simp] theorem weightOn_empty (f : κ → β → ℕ) : weightOn f (∅ : ExtTreeMap κ β cmp) = 0 :=
  sum_map_toList_empty (fun e => f e.1 e.2)

theorem toList_insert_perm [BEq κ] [LawfulBEqCmp cmp] (t : ExtTreeMap κ β cmp) (k : κ) (v : β) :
    (t.insert k v).toList.Perm ((k, v) :: t.toList.filter (fun e => ¬ k == e.1)) := by
  rcases t with ⟨⟨t⟩⟩
  induction t using Quotient.ind with
  | _ t => exact DTreeMap.Const.toList_insert_perm

variable [LawfulEqCmp cmp]

/-- A map without weighty values weighs nothing. -/
theorem weight_eq_zero {f : β → ℕ} {t : ExtTreeMap κ β cmp}
    (h : ∀ (k : κ) (v : β), t[k]? = some v → f v = 0) :
    weight f t = 0 := by
  refine List.sum_eq_zero (fun n hn => ?_)
  obtain ⟨⟨k, v⟩, he, rfl⟩ := List.mem_map.mp hn
  exact h k v (ExtTreeMap.mem_toList_iff_getElem?_eq_some.mp he)

theorem getElem?_insert_ne (t : ExtTreeMap κ β cmp) {k a : κ} (v : β) (h : k ≠ a) :
    (t.insert k v)[a]? = t[a]? := by
  have hc : cmp k a ≠ .eq := fun he => h (LawfulEqCmp.eq_of_compare he)
  rw [ExtTreeMap.getElem?_insert, if_neg hc]

/-- Writing back the stored value changes nothing. -/
theorem insert_getElem? (t : ExtTreeMap κ β cmp) {k : κ} {v : β} (h : t[k]? = some v) :
    t.insert k v = t := by
  apply ExtTreeMap.ext_getElem?
  intro a
  by_cases ha : k = a
  · subst a
    simp [h]
  · exact getElem?_insert_ne t v ha

theorem getElem?_erase_ne (t : ExtTreeMap κ β cmp) {k a : κ} (h : k ≠ a) :
    (t.erase k)[a]? = t[a]? := by
  have hc : cmp k a ≠ .eq := fun he => h (LawfulEqCmp.eq_of_compare he)
  rw [ExtTreeMap.getElem?_erase, if_neg hc]

/-- What is left after an erasure was there before, under another key. -/
theorem getElem?_of_erase {t : ExtTreeMap κ β cmp} {k a : κ} {v : β}
    (h : (t.erase k)[a]? = some v) :
    k ≠ a ∧ t[a]? = some v := by
  rw [ExtTreeMap.getElem?_erase] at h
  split at h
  · cases h
  · rename_i hc
    exact ⟨fun heq => hc (heq ▸ ReflCmp.compare_self), h⟩

/-- A list in key order that holds the entries of a map is the enumeration of the map. -/
theorem eq_toList_of_ordered {l : List (κ × β)} {t : ExtTreeMap κ β cmp}
    (hordered : l.Pairwise (fun a b => cmp a.1 b.1 = .lt))
    (hmem : ∀ k v, (k, v) ∈ l ↔ t[k]? = some v) : l = t.toList := by
  have hnodup : ∀ l' : List (κ × β), l'.Pairwise (fun a b => cmp a.1 b.1 = .lt) → l'.Nodup := by
    intro l' h
    refine h.imp (fun {a b} hlt heq => ?_)
    have hself : cmp b.1 b.1 = .eq := ReflCmp.compare_self
    rw [heq, hself] at hlt
    cases hlt
  have htree : t.toList.Pairwise (fun a b => cmp a.1 b.1 = .lt) := ExtTreeMap.ordered_keys_toList
  have hperm : l.Perm t.toList := by
    refine (List.perm_ext_iff_of_nodup (hnodup l hordered) (hnodup _ htree)).mpr (fun e => ?_)
    rw [ExtTreeMap.mem_toList_iff_getElem?_eq_some, ← hmem]
  refine hperm.eq_of_pairwise (fun a b _ _ hab hba => ?_) hordered htree
  have hswap : cmp a.1 b.1 = (cmp b.1 a.1).swap := OrientedCmp.eq_swap
  rw [hab, hba] at hswap
  cases hswap

section Weights
/-- The first value written under a key stays. -/
theorem getElem?_insertIfNew_self (t : ExtTreeMap κ β cmp) (k : κ) (v : β) :
    (t.insertIfNew k v)[k]? = t[k]?.or (some v) := by
  rw [ExtTreeMap.getElem?_insertIfNew]
  cases hk : t[k]? with
  | none =>
    have hfree : k ∉ t := by
      rw [ExtTreeMap.mem_iff_isSome_getElem?, hk]
      exact Bool.false_ne_true
    exact if_pos ⟨ReflCmp.compare_self, hfree⟩
  | some old =>
    have htaken : k ∈ t := by
      rw [ExtTreeMap.mem_iff_isSome_getElem?, hk]
      rfl
    exact if_neg (fun h => h.2 htaken)

theorem getElem?_insertIfNew_ne (t : ExtTreeMap κ β cmp) {k a : κ} (v : β) (h : k ≠ a) :
    (t.insertIfNew k v)[a]? = t[a]? := by
  rw [ExtTreeMap.getElem?_insertIfNew, if_neg]
  exact fun hslot => h (LawfulEqCmp.eq_of_compare hslot.1)

variable [DecidableEq κ]

/-- The weight carried by the keys other than `k`. -/
def weightOff (f : β → ℕ) (t : ExtTreeMap κ β cmp) (k : κ) : ℕ :=
  ((t.toList.filter (fun e => ¬ k = e.1)).map (fun e => f e.2)).sum

/-- The entries under the other keys, and the entry under `k` if there is one. -/
theorem weightOn_eq_off (f : κ → β → ℕ) (t : ExtTreeMap κ β cmp) (k : κ) :
    weightOn f t = (t[k]?).elim 0 (f k) +
      ((t.toList.filter (fun e => ¬ k = e.1)).map (fun e => f e.1 e.2)).sum := by
  cases hg : t[k]? with
  | none =>
    have hfil : t.toList.filter (fun e => ¬ k = e.1) = t.toList := by
      apply List.filter_eq_self.mpr
      intro e he
      have hm := ExtTreeMap.mem_toList_iff_getElem?_eq_some.mp he
      have hne : k ≠ e.1 := by
        intro h
        rw [← h, hg] at hm
        cases hm
      simpa using hne
    simp only [weightOn, hfil, Option.elim_none, Nat.zero_add]
  | some v =>
    have hp := (toList_insert_perm t k v).map (fun e => f e.1 e.2)
    rw [insert_getElem? t hg] at hp
    simpa [weightOn] using hp.sum_eq

/-- Writing one key exchanges its old measure for the new one. -/
theorem weightOn_insert (f : κ → β → ℕ) (t : ExtTreeMap κ β cmp) (k : κ) (v : β) :
    weightOn f (t.insert k v) + (t[k]?).elim 0 (f k) = weightOn f t + f k v := by
  have hp := (toList_insert_perm t k v).map (fun e => f e.1 e.2)
  have hi : weightOn f (t.insert k v) = f k v +
      ((t.toList.filter (fun e => ¬ k = e.1)).map (fun e => f e.1 e.2)).sum := by
    simpa [weightOn] using hp.sum_eq
  have ho := weightOn_eq_off f t k
  omega

theorem weight_eq_off (f : β → ℕ) (t : ExtTreeMap κ β cmp) (k : κ) :
    weight f t = weightAt f t k + weightOff f t k := weightOn_eq_off (fun _ => f) t k

/-- Writing one key exchanges the old measure at that key for the new one. -/
theorem weight_insert (f : β → ℕ) (t : ExtTreeMap κ β cmp) (k : κ) (v : β) :
    weight f (t.insert k v) + weightAt f t k = weight f t + f v :=
  weightOn_insert (fun _ => f) t k v

/-- A single stored value weighs at most the whole map. -/
theorem weightAt_le_weight (f : β → ℕ) (t : ExtTreeMap κ β cmp) (k : κ) :
    weightAt f t k ≤ weight f t := by
  have h := weight_eq_off f t k
  omega

theorem weight_eq_sum (f : β → ℕ) (t : ExtTreeMap κ β cmp) :
    weight f t = ∑ k ∈ t.keys.toFinset, weightAt f t k := by
  have hkeys : t.keys = t.toList.map Prod.fst := ExtTreeMap.map_fst_toList_eq_keys.symm
  have hnodup : t.keys.Nodup := ExtTreeMap.nodup_keys
  rw [List.sum_toFinset _ hnodup, hkeys, List.map_map, weight]
  refine congrArg List.sum (List.map_congr_left (fun e he => ?_))
  have hget := ExtTreeMap.mem_toList_iff_getElem?_eq_some.mp he
  simp only [Function.comp_apply, weightAt, hget, Option.elim_some]

/-- The values under any set of keys weigh at most the whole map. -/
theorem sum_weightAt_le (f : β → ℕ) (t : ExtTreeMap κ β cmp) (A : Finset κ) :
    ∑ k ∈ A, weightAt f t k ≤ weight f t := by
  rw [weight_eq_sum]
  refine Finset.sum_le_sum_of_ne_zero (fun k _ hk => ?_)
  rw [List.mem_toFinset, ExtTreeMap.mem_keys]
  by_contra hfree
  rw [weightAt, ExtTreeMap.getElem?_eq_none hfree] at hk
  exact hk rfl

/-- A value of no weight can be offered to any slot. -/
theorem weight_insertIfNew_of_zero (f : β → ℕ) (t : ExtTreeMap κ β cmp) (k : κ) {v : β}
    (hv : f v = 0) : weight f (t.insertIfNew k v) = weight f t := by
  by_cases hk : k ∈ t
  · have hsame : t.insertIfNew k v = t := by
      apply ExtTreeMap.ext_getElem?
      intro a
      rw [ExtTreeMap.getElem?_insertIfNew, if_neg (fun h => h.2 hk)]
    rw [hsame]
  · have hinsert : t.insertIfNew k v = t.insert k v := by
      apply ExtTreeMap.ext_getElem?
      intro a
      by_cases ha : k = a
      · subst ha
        rw [ExtTreeMap.getElem?_insertIfNew, if_pos ⟨ReflCmp.compare_self, hk⟩]
        simp
      · have hc : cmp k a ≠ .eq := fun he => ha (LawfulEqCmp.eq_of_compare he)
        rw [ExtTreeMap.getElem?_insertIfNew, if_neg (fun h => hc h.1), getElem?_insert_ne t v ha]
    have hw := weight_insert f t k v
    have hnone : weightAt f t k = 0 := by
      rw [weightAt, ExtTreeMap.getElem?_eq_none hk, Option.elim_none]
    rw [hinsert]
    omega

end Weights

/-- One enumeration order of a hash table: any rearrangement of its entries. -/
structure IterOrder (α : Type) where
  arrange : List α → List α
  perm : ∀ l, (arrange l).Perm l

/-- Enumeration in the order in which the entries are listed. -/
def IterOrder.listed (α : Type) : IterOrder α := ⟨fun l => l, fun _ => List.Perm.refl _⟩

@[simp] theorem IterOrder.mem_arrange {α : Type} (o : IterOrder α) (l : List α) (a : α) :
    a ∈ o.arrange l ↔ a ∈ l := (o.perm l).mem_iff

/-- Every listing of the entries is the enumeration of some order. -/
theorem IterOrder.exists_arrange {α : Type} {l l' : List α} (h : l'.Perm l) :
    ∃ o : IterOrder α, o.arrange l = l' := by
  classical
  refine ⟨⟨fun m => if m = l then l' else m, fun m => ?_⟩, if_pos rfl⟩
  split
  · rename_i hm
    rw [hm]
    exact h
  · exact List.Perm.refl _

section Pairs
variable {α β : Type} [Ord α] [Ord β]

/-- Pairs are compared lexicographically. -/
instance instOrdPair : Ord (α × β) := ⟨compareLex (compareOn Prod.fst) (compareOn Prod.snd)⟩

instance transOrdPair [TransOrd α] [TransOrd β] : TransOrd (α × β) :=
  inferInstanceAs (TransCmp (compareLex (compareOn Prod.fst) (compareOn Prod.snd)))

instance lawfulEqOrdPair [LawfulEqOrd α] [LawfulEqOrd β] : LawfulEqOrd (α × β) where
  compare_self := by
    intro x
    simp [compare, compareLex, compareOn]
  eq_of_compare := by
    intro x y h
    obtain ⟨h₁, h₂⟩ := Ordering.then_eq_eq.mp h
    exact Prod.ext (LawfulEqCmp.eq_of_compare h₁) (LawfulEqCmp.eq_of_compare h₂)

end Pairs

end Sprax.FiniteMap
