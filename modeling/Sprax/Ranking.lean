import Mathlib.Data.List.Sort

/-!
# The first of a ranking

A list is ranked by a total preorder and cut after `n` places. Sorting keeps tied elements
in the order in which they were listed, so what is above the cut may depend on that order.
It does exactly if tied elements lie on both sides: fewer than `n` are ahead of one of
them, and more than `n` are at least level with it.
-/
namespace Sprax.Ranking

variable {α : Type*} {r : α → α → Prop}

/-- In a ranking, a property that is closed upwards holds in the first places. -/
theorem getElem_iff_lt_countP {l : List α} (hl : l.Pairwise r) {p : α → Bool}
    (hup : ∀ x y, r x y → p y = true → p x = true) {i : ℕ} (hi : i < l.length) :
    p l[i] = true ↔ i < l.countP p := by
  induction l generalizing i with
  | nil => exact absurd hi (Nat.not_lt_zero _)
  | cons a rest ih =>
    obtain ⟨hfirst, hrest⟩ := List.pairwise_cons.mp hl
    cases ha : p a with
    | true =>
      cases i with
      | zero => simp [ha]
      | succ i => simpa [ha] using ih hrest (by simpa using hi)
    | false =>
      have hnone : ∀ y ∈ a :: rest, ¬ p y = true := by
        intro y hy hpy
        rcases List.mem_cons.mp hy with rfl | hy
        · simp [ha] at hpy
        · simp [hup a y (hfirst y hy) hpy] at ha
      rw [List.countP_eq_zero.mpr hnone]
      exact iff_of_false (hnone _ (List.getElem_mem hi)) (Nat.not_lt_zero _)

/-- What has such a property is cut off by its number. -/
theorem filter_eq_take {l : List α} (hl : l.Pairwise r) {p : α → Bool}
    (hup : ∀ x y, r x y → p y = true → p x = true) : l.filter p = l.take (l.countP p) := by
  induction l with
  | nil => rfl
  | cons a rest ih =>
    obtain ⟨hfirst, hrest⟩ := List.pairwise_cons.mp hl
    cases ha : p a with
    | true => simp [ha, ih hrest]
    | false =>
      have hnone : ∀ y ∈ rest, ¬ p y = true := fun y hy hpy => by
        simp [hup a y (hfirst y hy) hpy] at ha
      simp [ha, List.countP_eq_zero.mpr hnone, List.filter_eq_nil_iff.mpr hnone]

variable (r) [DecidableRel r]

/-- The tied elements around `v` lie on both sides of the cut. -/
def Straddled (n : ℕ) (l : List α) (v : α) : Prop :=
  l.countP (fun x => ¬ r v x) < n ∧ n < l.countP (fun x => r x v)

instance (n : ℕ) (l : List α) (v : α) : Decidable (Straddled r n l v) :=
  inferInstanceAs (Decidable (_ ∧ _))

variable {r}

theorem straddled_congr {n : ℕ} {l l' : List α} (h : l.Perm l') (v : α) :
    Straddled r n l v ↔ Straddled r n l' v := by
  rw [Straddled, Straddled, h.countP_eq, h.countP_eq]

section Order
variable [IsTrans α r]

theorem ahead_up (v x y : α) (hxy : r x y) (hy : decide (¬ r v y) = true) :
    decide (¬ r v x) = true := by
  simp only [decide_eq_true_eq] at hy ⊢
  exact fun hvx => hy (IsTrans.trans _ _ _ hvx hxy)

theorem level_up (v x y : α) (hxy : r x y) (hy : decide (r y v) = true) :
    decide (r x v) = true := by
  simp only [decide_eq_true_eq] at hy ⊢
  exact IsTrans.trans _ _ _ hxy hy

/-- Across a straddled cut two neighbours are tied. -/
theorem exists_tied {n : ℕ} {l : List α} (hl : l.Pairwise r) {v : α} (hv : Straddled r n l v) :
    ∃ above a b below, l = above ++ a :: b :: below ∧ above.length + 1 = n ∧ r a b ∧ r b a := by
  obtain ⟨hahead, hlevel⟩ := hv
  have hlen : n < l.length := hlevel.trans_le List.countP_le_length
  obtain ⟨m, rfl⟩ : ∃ m, n = m + 1 := ⟨n - 1, by omega⟩
  -- the places around the cut are level with `v`
  have htied : ∀ i (hi : i < l.length), m ≤ i → i ≤ m + 1 → r v l[i] ∧ r l[i] v := by
    intro i hi hlow hhigh
    have hnot := mt (getElem_iff_lt_countP hl (ahead_up v) hi).mp (by omega)
    have hyes := (getElem_iff_lt_countP hl (level_up v) hi).mpr (by omega)
    simp only [decide_eq_true_eq, not_not] at hnot hyes
    exact ⟨hnot, hyes⟩
  obtain ⟨hva, hav⟩ := htied m (by omega) le_rfl (by omega)
  obtain ⟨hvb, hbv⟩ := htied (m + 1) hlen (by omega) le_rfl
  refine ⟨l.take m, l[m], l[m + 1], l.drop (m + 2), ?_, ?_, IsTrans.trans _ _ _ hav hvb,
    IsTrans.trans _ _ _ hbv hva⟩
  · rw [← List.drop_eq_getElem_cons hlen, ← List.drop_eq_getElem_cons, List.take_append_drop]
  · rw [List.length_take]
    omega

end Order

variable [Std.Total r] [IsTrans α r]

/-- Where no tie straddles the cut, what is above it does not depend on the listing. -/
theorem perm_take {n : ℕ} {l l' : List α} (hperm : l.Perm l') (hno : ∀ v ∈ l, ¬ Straddled r n l v) :
    ((l.insertionSort r).take n).Perm ((l'.insertionSort r).take n) := by
  have hsorted := List.pairwise_insertionSort r l
  have hsorted' := List.pairwise_insertionSort r l'
  have hsame : (l.insertionSort r).Perm l := List.perm_insertionSort r l
  have hsame' : (l.insertionSort r).Perm (l'.insertionSort r) :=
    hsame.trans (hperm.trans (List.perm_insertionSort r l').symm)
  by_cases hlen : n < l.length
  · cases n with
    | zero => simp
    | succ m =>
      -- everything level with the last element above the cut is above the cut
      have hm : m < (l.insertionSort r).length := by
        rw [List.length_insertionSort]
        omega
      obtain ⟨v, hv⟩ : ∃ v, (l.insertionSort r)[m] = v := ⟨_, rfl⟩
      have hrefl : r v v := (Std.Total.total v v).elim id id
      have hmem : v ∈ l := hsame.mem_iff.mp (hv ▸ List.getElem_mem hm)
      have hahead := mt (getElem_iff_lt_countP hsorted (ahead_up v) hm).mpr
        (by simpa [hv] using hrefl)
      have hlevel := (getElem_iff_lt_countP hsorted (level_up v) hm).mp (by simpa [hv] using hrefl)
      have hstraddled := hno v hmem
      rw [← straddled_congr hsame, Straddled] at hstraddled
      have hcount : (l.insertionSort r).countP (fun x => r x v) = m + 1 := by omega
      have htake := filter_eq_take hsorted (level_up v)
      have htake' := filter_eq_take hsorted' (level_up v)
      rw [← hsame'.countP_eq, hcount] at htake'
      rw [hcount] at htake
      rw [← htake, ← htake']
      exact hsame'.filter _
  · have hlen' : l'.length ≤ n := by
      rw [← hperm.length_eq]
      omega
    rw [List.take_of_length_le (by rw [List.length_insertionSort]; omega),
      List.take_of_length_le (by rwa [List.length_insertionSort])]
    exact hsame'

/-- Where one does, listing two tied neighbours the other way exchanges them. -/
theorem exists_exchanged {n : ℕ} {l : List α} {v : α} (hv : Straddled r n l v) :
    ∃ above a b below, (above ++ a :: b :: below).Perm l ∧
      (l.insertionSort r).take n = above ++ [a] ∧
      ((above ++ b :: a :: below).insertionSort r).take n = above ++ [b] := by
  have hsorted := List.pairwise_insertionSort r l
  have hsame := List.perm_insertionSort r l
  obtain ⟨above, a, b, below, hl, rfl, hab, hba⟩ :=
    exists_tied hsorted ((straddled_congr hsame v).mpr hv)
  rw [hl] at hsorted hsame
  have hswapped : (above ++ b :: a :: below).Pairwise r := by
    simp only [List.pairwise_append, List.pairwise_cons, List.mem_cons] at hsorted ⊢
    grind
  refine ⟨above, a, b, below, hsame, ?_, ?_⟩
  · rw [hl, List.take_length_add_append]
    rfl
  · rw [hswapped.insertionSort_eq, List.take_length_add_append]
    rfl

section Keys
variable {κ : Type*} [Ord κ] [Std.TransOrd κ] {key : α → κ} {s : α → α → Prop} [DecidableRel s]
  (hs : ∀ a b, s a b ↔ compare (key a) (key b) ≠ .gt)

include hs

omit [DecidableRel s] in
theorem total_of_key : Std.Total s := by
  refine ⟨fun a b => ?_⟩
  rw [hs, hs]
  by_contra hboth
  obtain ⟨hab, hba⟩ := not_or.mp hboth
  have hlt := Std.OrientedCmp.gt_iff_lt.mp (not_not.mp hab)
  rw [not_not.mp hba] at hlt
  cases hlt

omit [DecidableRel s] in
theorem trans_of_key : IsTrans α s := by
  refine ⟨fun a b c hab hbc => ?_⟩
  have hab := Ordering.isLE_iff_ne_gt.mpr ((hs a b).mp hab)
  have hbc := Ordering.isLE_iff_ne_gt.mpr ((hs b c).mp hbc)
  exact (hs a c).mpr (Ordering.isLE_iff_ne_gt.mp (Std.TransCmp.isLE_trans hab hbc))

theorem pairwise_sort (l : List α) : (l.insertionSort s).Pairwise s := by
  have := total_of_key hs
  have := trans_of_key hs
  exact List.pairwise_insertionSort s l

variable [Std.LawfulEqOrd κ]

/-- With distinct keys the ranking does not depend on the listing. -/
theorem sort_eq_of_perm {l l' : List α} (hperm : l.Perm l') (hnodup : (l.map key).Nodup) :
    l.insertionSort s = l'.insertionSort s := by
  have hsame : (l.insertionSort s).Perm (l'.insertionSort s) :=
    (List.perm_insertionSort s l).trans (hperm.trans (List.perm_insertionSort s l').symm)
  refine hsame.eq_of_pairwise (fun a b ha hb hab hba => ?_) (pairwise_sort hs l)
    (pairwise_sort hs l')
  rw [hs] at hab hba
  have hkey : compare (key a) (key b) = .eq := by
    cases hcase : compare (key a) (key b) with
    | eq => rfl
    | gt => exact absurd hcase hab
    | lt => exact absurd (Std.OrientedCmp.gt_iff_lt.mpr hcase) hba
  have hl : ∀ x ∈ l.insertionSort s, x ∈ l := fun x hx => (List.mem_insertionSort s).mp hx
  exact List.inj_on_of_nodup_map hnodup (hl a ha) (hl b (hsame.mem_iff.mpr hb))
    (Std.LawfulEqCmp.eq_of_compare hkey)

/-- With distinct keys a ranking by them is strict. -/
theorem sort_strict {l : List α} (hnodup : (l.map key).Nodup) :
    (l.insertionSort s).Pairwise (fun a b => compare (key a) (key b) = .lt) := by
  have hdistinct : ((l.insertionSort s).map key).Nodup :=
    ((List.perm_insertionSort s l).map key).nodup_iff.mpr hnodup
  refine (List.Pairwise.and (pairwise_sort hs l) (List.pairwise_map.mp hdistinct)).imp ?_
  rintro a b ⟨hab, hne⟩
  rw [hs] at hab
  cases hcase : compare (key a) (key b) with
  | lt => rfl
  | gt => exact absurd hcase hab
  | eq => exact absurd (Std.LawfulEqCmp.eq_of_compare hcase) hne

end Keys

end Sprax.Ranking
