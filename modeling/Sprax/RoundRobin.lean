import Mathlib.Algebra.Order.BigOperators.Group.Finset
import Mathlib.Algebra.BigOperators.Ring.Finset
import Mathlib.Data.Int.Order.Basic
import Mathlib.Tactic.Linarith
import Mathlib.Tactic.Ring

/-!
# Weighted round robin

Every member of a finite set has a weight and a credit. A turn adds its weight to every
credit, goes to a member of largest credit and takes the total weight from it. Credits
that start at zero keep the sum zero and stay above minus the total, and this is enough
for exact shares: after as many turns as the total weight, everybody has had as many as
its weight and all credits are back at zero. Credits that start anywhere still leave
nobody waiting for long: twice the total and twice the sum of their absolute values.
-/
namespace Sprax.RoundRobin

variable {ι : Type*} (members : Finset ι) (weight : ι → ℕ)

/-- The weights of all members. -/
def total : ℕ := ∑ i ∈ members, weight i

/-- The turn may go to `k`: nobody has more credit after the weights were added. -/
def Selects (credit : ι → ℤ) (k : ι) : Prop :=
  k ∈ members ∧ ∀ i ∈ members, credit i + weight i ≤ credit k + weight k

/-- The credits of a running round: they sum to zero and nobody owes a whole total. -/
structure Level (credit : ι → ℤ) : Prop where
  sum_zero : ∑ i ∈ members, credit i = 0
  above : ∀ i ∈ members, -(total members weight : ℤ) < credit i

variable {members weight}

theorem level_zero (hpos : 0 < total members weight) : Level members weight 0 :=
  ⟨by simp, fun i _ => by simpa using hpos⟩

theorem weight_le_total {i : ι} (hi : i ∈ members) : weight i ≤ total members weight :=
  Finset.single_le_sum (fun _ _ => Nat.zero_le _) hi

/-- A member that is selected has credit to spend. -/
theorem Level.selected_pos {credit : ι → ℤ} (h : Level members weight credit)
    (hpos : 0 < total members weight) {k : ι} (hk : Selects members weight credit k) :
    0 < credit k + weight k := by
  by_contra hneg
  have hall : ∀ i ∈ members, credit i + weight i ≤ 0 :=
    fun i hi => (hk.2 i hi).trans (not_lt.mp hneg)
  have hsum := Finset.sum_nonpos hall
  rw [Finset.sum_add_distrib, h.sum_zero, zero_add] at hsum
  have hcast : ((total members weight : ℕ) : ℤ) ≤ 0 := by simpa [total] using hsum
  omega

variable [DecidableEq ι]

variable (members weight) in
/-- The credits after a turn of `k`. -/
def settle (credit : ι → ℤ) (k : ι) : ι → ℤ := fun i =>
  credit i + weight i - if i = k then (total members weight : ℤ) else 0

theorem sum_settle {credit : ι → ℤ} {k : ι} (hk : k ∈ members) :
    ∑ i ∈ members, settle members weight credit k i = ∑ i ∈ members, credit i := by
  simp only [settle, Finset.sum_sub_distrib, Finset.sum_add_distrib, Finset.sum_ite_eq' members k,
    if_pos hk, total, Nat.cast_sum]
  ring

theorem Level.settle {credit : ι → ℤ} (h : Level members weight credit)
    (hpos : 0 < total members weight) {k : ι} (hk : Selects members weight credit k) :
    Level members weight (settle members weight credit k) := by
  refine ⟨(sum_settle hk.1).trans h.sum_zero, fun i hi => ?_⟩
  have hold := h.above i hi
  unfold RoundRobin.settle
  split
  · rename_i hik
    subst hik
    have hspend := h.selected_pos hpos hk
    omega
  · omega

/-- Nobody can have more credit than the others owe. -/
theorem Level.le {credit : ι → ℤ} (h : Level members weight credit) {i : ι} (hi : i ∈ members) :
    credit i ≤ (members.card - 1 : ℤ) * total members weight := by
  have hsplit := Finset.add_sum_erase members credit hi
  have hothers : ∑ j ∈ members.erase i, -(total members weight : ℤ) ≤ ∑ j ∈ members.erase i,
      credit j :=
    Finset.sum_le_sum (fun j hj => (h.above j (Finset.mem_of_mem_erase hj)).le)
  rw [Finset.sum_const, Finset.card_erase_of_mem hi, nsmul_eq_mul,
    Nat.cast_pred (Finset.card_pos.mpr ⟨i, hi⟩)] at hothers
  have hzero := h.sum_zero
  linarith

variable (members weight)

/-- The turns go to the listed members one after the other. -/
def Turns : (ι → ℤ) → List ι → Prop
  | _, [] => True
  | credit, k :: rest =>
    Selects members weight credit k ∧ Turns (settle members weight credit k) rest

/-- The credits after a list of turns. -/
def settled (credit : ι → ℤ) (turns : List ι) : ι → ℤ := turns.foldl (settle members weight) credit

variable {members weight}

theorem Level.settled {credit : ι → ℤ} (h : Level members weight credit)
    (hpos : 0 < total members weight) {turns : List ι} (ht : Turns members weight credit turns) :
    Level members weight (settled members weight credit turns) := by
  induction turns generalizing credit with
  | nil => exact h
  | cons k rest ih => exact ih (h.settle hpos ht.1) ht.2

/-- Every turn pays the weight and every own turn costs the total. -/
theorem settled_eq (credit : ι → ℤ) (turns : List ι) (i : ι) :
    settled members weight credit turns i =
      credit i + turns.length * weight i - total members weight * turns.count i := by
  induction turns generalizing credit with
  | nil => simp [settled]
  | cons k rest ih =>
    have hrest := ih (settle members weight credit k)
    simp only [settled, List.foldl_cons] at hrest ⊢
    rw [hrest, settle, List.length_cons, List.count_cons]
    by_cases hik : i = k
    · subst hik
      simp only [if_true, BEq.rfl]
      push_cast
      ring
    · have hki : (k == i) = false := beq_false_of_ne (Ne.symm hik)
      simp only [hik, hki, if_false, Bool.false_eq_true]
      push_cast
      ring

/-- Exact shares: `m` rounds, each of as many turns as the total weight, give every
member `m` times its weight in turns and end as they began. -/
theorem count_of_rounds (hpos : 0 < total members weight) {m : ℕ} {turns : List ι}
    (ht : Turns members weight 0 turns) (hlen : turns.length = m * total members weight) :
    ∀ i ∈ members, turns.count i = m * weight i ∧ settled members weight 0 turns i = 0 := by
  have hlevel := (level_zero hpos).settled hpos ht
  have hform : ∀ i, settled members weight 0 turns i =
      total members weight * (((m * weight i : ℕ) : ℤ) - turns.count i) := by
    intro i
    rw [settled_eq, hlen, Pi.zero_apply]
    push_cast
    ring
  -- A multiple of the total above minus the total is not negative.
  have hnonneg : ∀ i ∈ members, 0 ≤ settled members weight 0 turns i := by
    intro i hi
    have habove := hlevel.above i hi
    rw [hform] at habove ⊢
    have hposZ : (0 : ℤ) < total members weight := by exact_mod_cast hpos
    have hfactor : -1 < ((m * weight i : ℕ) : ℤ) - turns.count i := by
      by_contra hle
      have hmul := mul_le_mul_of_nonneg_left (not_lt.mp hle) hposZ.le
      linarith
    exact mul_nonneg hposZ.le (by omega)
  intro i hi
  have hzero := (Finset.sum_eq_zero_iff_of_nonneg hnonneg).mp hlevel.sum_zero i hi
  refine ⟨?_, hzero⟩
  rw [hform, mul_eq_zero] at hzero
  rcases hzero with htotal | hcount
  · omega
  · omega

variable (members weight)

/-- The members whose credit grows while they wait. -/
def gaining : Finset ι := members.filter (fun i => 0 < weight i)

/-- What the turns keep of credits whose absolute values sum to `d`. -/
structure Spread (d : ℤ) (credit : ι → ℤ) : Prop where
  sum_ge : -d ≤ ∑ i ∈ members, credit i
  above : ∀ i ∈ members, -(total members weight + d) ≤ credit i
  idle_le : ∀ i ∈ members, weight i = 0 → credit i ≤ d
  gaining_le : ∑ i ∈ gaining members weight, credit i ≤ (gaining members weight).card * d

variable {members weight}

omit [DecidableEq ι] in
theorem mem_gaining {i : ι} : i ∈ gaining members weight ↔ i ∈ members ∧ 0 < weight i :=
  Finset.mem_filter

omit [DecidableEq ι] in
theorem sum_gaining : ∑ i ∈ gaining members weight, weight i = total members weight :=
  Finset.sum_filter_of_ne (fun _ _ hne => Nat.pos_of_ne_zero hne)

omit [DecidableEq ι] in
theorem spread_of_abs (credit : ι → ℤ) :
    Spread members weight (∑ i ∈ members, |credit i|) credit := by
  have hle : ∀ i ∈ members, |credit i| ≤ ∑ j ∈ members, |credit j| := fun i hi =>
    Finset.single_le_sum (fun j _ => abs_nonneg (credit j)) hi
  refine ⟨?_, fun i hi => ?_, fun i hi _ => (le_abs_self _).trans (hle i hi), ?_⟩
  · have habs := Finset.abs_sum_le_sum_abs credit members
    exact (neg_le_neg habs).trans (neg_abs_le _)
  · have hneg := neg_abs_le (credit i)
    have hself := hle i hi
    omega
  · rw [← nsmul_eq_mul]
    exact Finset.sum_le_card_nsmul _ _ _ (fun i hi =>
      (le_abs_self _).trans (hle i (mem_gaining.mp hi).1))

/-- Whoever is selected has not less than `-d`, since the credits together have not. -/
theorem Spread.selected_ge {d : ℤ} {credit : ι → ℤ} (h : Spread members weight d credit)
    (hd : 0 ≤ d) {k : ι} (hk : Selects members weight credit k) : -d ≤ credit k + weight k := by
  by_contra hlow
  have hothers : ∑ i ∈ members.erase k, (credit i + weight i) ≤ 0 :=
    Finset.sum_nonpos (fun i hi => by
      have hle := hk.2 i (Finset.mem_of_mem_erase hi)
      omega)
  have hsplit := Finset.add_sum_erase members (fun i => credit i + weight i) hk.1
  have hsum : ∑ i ∈ members, (credit i + weight i) =
      ∑ i ∈ members, credit i + total members weight := by
    rw [Finset.sum_add_distrib, total, Nat.cast_sum]
  have hge := h.sum_ge
  omega

theorem Spread.settle {d : ℤ} {credit : ι → ℤ} (h : Spread members weight d credit) (hd : 0 ≤ d)
    {k : ι} (hk : Selects members weight credit k) :
    Spread members weight d (settle members weight credit k) := by
  refine ⟨?_, fun i hi => ?_, fun i hi hidle => ?_, ?_⟩
  · rw [sum_settle hk.1]
    exact h.sum_ge
  · have hold := h.above i hi
    unfold RoundRobin.settle
    split
    · rename_i hik
      subst hik
      have hspend := h.selected_ge hd hk
      omega
    · omega
  · have hold := h.idle_le i hi hidle
    unfold RoundRobin.settle
    split <;> omega
  · have hadded : ∑ i ∈ gaining members weight, (credit i + weight i) =
        ∑ i ∈ gaining members weight, credit i + total members weight := by
      rw [Finset.sum_add_distrib, ← sum_gaining, Nat.cast_sum]
    by_cases hgains : 0 < weight k
    · -- the selected member pays what the others gain
      have hmem : k ∈ gaining members weight := mem_gaining.mpr ⟨hk.1, hgains⟩
      have hsame : ∑ i ∈ gaining members weight, RoundRobin.settle members weight credit k i =
          ∑ i ∈ gaining members weight, credit i := by
        simp only [RoundRobin.settle, Finset.sum_sub_distrib, Finset.sum_ite_eq', if_pos hmem,
          hadded]
        ring
      rw [hsame]
      exact h.gaining_le
    · -- an idle member of credit at most `d` is ahead of everybody
      have hidle : weight k = 0 := by omega
      have hmem : k ∉ gaining members weight := fun hmem => hgains (mem_gaining.mp hmem).2
      have hsame : ∑ i ∈ gaining members weight, RoundRobin.settle members weight credit k i =
          ∑ i ∈ gaining members weight, (credit i + weight i) := by
        simp only [RoundRobin.settle, Finset.sum_sub_distrib, Finset.sum_ite_eq', if_neg hmem,
          sub_zero]
      rw [hsame, ← nsmul_eq_mul]
      refine Finset.sum_le_card_nsmul _ _ _ (fun i hi => ?_)
      have hahead := hk.2 i (mem_gaining.mp hi).1
      have hcap := h.idle_le k hk.1 hidle
      rw [hidle] at hahead
      omega

/-- While `v` waits, everybody who gains stays within a total of a line that rises by
one with every turn, and `v` stays above it. -/
theorem waiting_rises {credit : ι → ℤ} {v : ι} (hv : v ∈ members) (hgains : 0 < weight v) {low : ℤ}
    (hself : low ≤ credit v)
    (hothers : ∀ i ∈ gaining members weight, low - total members weight ≤ credit i) {turns : List ι}
    (ht : Turns members weight credit turns) (hwaits : v ∉ turns) :
    low + turns.length ≤ settled members weight credit turns v ∧
      ∀ i ∈ gaining members weight,
        low - total members weight + turns.length ≤ settled members weight credit turns i := by
  induction turns generalizing credit low with
  | nil =>
    simp only [settled, List.foldl_nil, List.length_nil, Nat.cast_zero, add_zero]
    exact ⟨hself, hothers⟩
  | cons k rest ih =>
    obtain ⟨hk, hrest⟩ := ht
    have hvk : v ≠ k := fun heq => hwaits (heq ▸ List.mem_cons_self)
    have hself' : low + 1 ≤ settle members weight credit k v := by
      simp only [settle, if_neg hvk]
      omega
    have hothers' : ∀ i ∈ gaining members weight,
        low + 1 - total members weight ≤ settle members weight credit k i := by
      intro i hi
      have hold := hothers i hi
      have hweight := (mem_gaining.mp hi).2
      unfold settle
      split
      · rename_i hik
        subst hik
        have hahead := hk.2 v hv
        omega
      · omega
    have hlater := ih hself' hothers' hrest (fun hmem => hwaits (List.mem_cons_of_mem _ hmem))
    rw [List.length_cons, Nat.cast_add, Nat.cast_one]
    refine ⟨?_, fun i hi => ?_⟩
    · have hend := hlater.1
      simp only [settled, List.foldl_cons] at hend ⊢
      omega
    · have hend := hlater.2 i hi
      simp only [settled, List.foldl_cons] at hend ⊢
      omega

theorem Spread.settled {d : ℤ} {credit : ι → ℤ} (h : Spread members weight d credit) (hd : 0 ≤ d)
    {turns : List ι} (ht : Turns members weight credit turns) :
    Spread members weight d (settled members weight credit turns) := by
  induction turns generalizing credit with
  | nil => exact h
  | cons k rest ih => exact ih (h.settle hd ht.1) ht.2

theorem Turns.append {credit : ι → ℤ} {turns more : List ι} :
    Turns members weight credit (turns ++ more) ↔
      Turns members weight credit turns ∧
        Turns members weight (settled members weight credit turns) more := by
  induction turns generalizing credit with
  | nil => exact Iff.intro (fun h => ⟨trivial, h⟩) And.right
  | cons k rest ih => exact (and_congr_right fun _ => ih).trans and_assoc.symm

/-- Nobody with a weight waits for twice the total and twice the spread. -/
theorem Spread.mem_of_length {d : ℤ} {credit : ι → ℤ} (h : Spread members weight d credit)
    (hd : 0 ≤ d) {v : ι} (hv : v ∈ members) (hgains : 0 < weight v) {turns : List ι}
    (ht : Turns members weight credit turns)
    (hlong : 2 * total members weight + 2 * d ≤ (turns.length : ℤ)) : v ∈ turns := by
  by_contra hwaits
  have hmem : v ∈ gaining members weight := mem_gaining.mpr ⟨hv, hgains⟩
  obtain ⟨hself, hothers⟩ := waiting_rises hv hgains (h.above v hv)
    (fun i hi => (by linarith [h.above i (mem_gaining.mp hi).1])) ht hwaits
  -- everybody who gains is above a line, `v` by a whole total
  have hsplit := Finset.add_sum_erase _ (RoundRobin.settled members weight credit turns) hmem
  have hrest : ((gaining members weight).erase v).card •
      (-(total members weight + d) - total members weight + turns.length) ≤
        ∑ i ∈ (gaining members weight).erase v, RoundRobin.settled members weight credit turns i :=
    Finset.card_nsmul_le_sum _ _ _ (fun i hi => hothers i (Finset.mem_of_mem_erase hi))
  have hcap := (h.settled hd ht).gaining_le
  have hpos : (0 : ℤ) < total members weight := by
    have hle : weight v ≤ total members weight := weight_le_total hv
    omega
  have hslack : 0 ≤ ((gaining members weight).card : ℤ) *
      (turns.length - (2 * total members weight + 2 * d)) :=
    mul_nonneg (Nat.cast_nonneg _) (sub_nonneg.mpr hlong)
  rw [nsmul_eq_mul, Finset.card_erase_of_mem hmem,
    Nat.cast_pred (Finset.card_pos.mpr ⟨v, hmem⟩)] at hrest
  linarith

end Sprax.RoundRobin
