import Mathlib.Data.List.DropRight
import Mathlib.Data.Nat.Digits.Defs
import Mathlib.Tactic.FieldSimp
import Mathlib.Tactic.Positivity

/-!
# Decimal numerals

A numeral is digits with at most one dot among them. Its value is a rational
number; the text of `n / 10 ^ k`, with the fraction padded on the left and freed of
zeros on the right, is a numeral of that value, and padding its fraction on the
right again gives back the `k` digits.
-/
namespace Sprax.Decimal

def AllDigits (cs : List Char) : Prop := ∀ c ∈ cs, c.isDigit = true

instance decidableAllDigits (cs : List Char) : Decidable (AllDigits cs) := List.decidableBAll _ cs

def value (cs : List Char) : ℕ := Nat.ofDigitChars 10 cs 0

theorem value_append (cs ds : List Char) :
    value (cs ++ ds) = value cs * 10 ^ ds.length + value ds := by
  rw [value, Nat.ofDigitChars_append, Nat.ofDigitChars_eq_ofDigitChars_zero, value, value,
    Nat.mul_comm]

@[simp] theorem value_replicate_zero (n : ℕ) : value (List.replicate n '0') = 0 := by
  simp [value, Nat.ofDigitChars_replicate_zero]

@[simp] theorem value_toDigits (n : ℕ) : value (Nat.toDigits 10 n) = n :=
  Nat.ofDigitChars_ten_toDigits

theorem allDigits_toDigits (n : ℕ) : AllDigits (Nat.toDigits 10 n) :=
  fun _ hc => Nat.isDigit_of_mem_toDigits (by decide) (by decide) hc

theorem AllDigits.append {cs ds : List Char} (hcs : AllDigits cs) (hds : AllDigits ds) :
    AllDigits (cs ++ ds) := by
  intro c hc
  rcases List.mem_append.mp hc with h | h
  · exact hcs c h
  · exact hds c h

theorem allDigits_replicate_zero (n : ℕ) : AllDigits (List.replicate n '0') := by
  intro c hc
  rw [List.eq_of_mem_replicate hc]
  rfl

/-- The digits of a number, with zeros in front up to `k` digits. -/
def padded (k n : ℕ) : List Char := (Nat.toDigits 10 n).leftpad k '0'

@[simp] theorem value_padded (k n : ℕ) : value (padded k n) = n := by
  rw [padded, List.leftpad, value_append]
  simp

theorem allDigits_padded (k n : ℕ) : AllDigits (padded k n) :=
  (allDigits_replicate_zero _).append (allDigits_toDigits n)

theorem length_padded {k n : ℕ} (hk : 0 < k) (hn : n < 10 ^ k) : (padded k n).length = k := by
  have hlength : (Nat.toDigits 10 n).length ≤ k :=
    (Nat.length_toDigits_le_iff (by decide) hk).mpr hn
  simp only [padded, List.leftpad, List.length_append, List.length_replicate]
  omega

/-- The string without the zeros at its end. -/
def stripZeros (cs : List Char) : List Char := (cs.reverse.dropWhile (· = '0')).reverse

theorem stripZeros_append (cs : List Char) :
    stripZeros cs ++ List.replicate (cs.length - (stripZeros cs).length) '0' = cs := by
  have hzeros : ∀ c ∈ cs.reverse.takeWhile (· = '0'), c = '0' :=
    fun c hc => by simpa using List.mem_takeWhile_imp hc
  have hsplit : stripZeros cs ++ (cs.reverse.takeWhile (· = '0')).reverse = cs := by
    rw [stripZeros, ← List.reverse_append, List.takeWhile_append_dropWhile, List.reverse_reverse]
  have hlength := congrArg List.length hsplit
  rw [List.length_append, List.length_reverse] at hlength
  have hcount : cs.length - (stripZeros cs).length = (cs.reverse.takeWhile (· = '0')).length := by
    omega
  rw [hcount, ← List.eq_replicate_of_mem hzeros]
  nth_rewrite 3 [← hsplit]
  rw [List.eq_replicate_of_mem hzeros, List.reverse_replicate]

theorem allDigits_stripZeros {cs : List Char} (h : AllDigits cs) : AllDigits (stripZeros cs) := by
  intro c hc
  rw [← stripZeros_append cs] at h
  exact h c (List.mem_append_left _ hc)

/-- Padding on the right undoes the stripping. -/
theorem rightpad_stripZeros (cs : List Char) : (stripZeros cs).rightpad cs.length '0' = cs :=
  stripZeros_append cs

theorem stripZeros_padded_eq_nil_iff (k n : ℕ) : stripZeros (padded k n) = [] ↔ n = 0 := by
  constructor
  · intro h
    have hzeros := stripZeros_append (padded k n)
    rw [h, List.nil_append] at hzeros
    have hvalue := value_padded k n
    rw [← hzeros, value_replicate_zero] at hvalue
    exact hvalue.symm
  · rintro rfl
    have hzeros : (padded k 0).reverse = '0' :: List.replicate (k - 1) '0' := by
      simp [padded, List.leftpad, Nat.toDigits_zero]
    rw [stripZeros, hzeros, List.reverse_eq_nil_iff, List.dropWhile_eq_nil_iff]
    intro c hc
    rcases List.mem_cons.mp hc with rfl | hc
    · rfl
    · rw [List.eq_of_mem_replicate hc]
      rfl

/-- What stands before the first dot. -/
def whole (cs : List Char) : List Char := cs.takeWhile (· ≠ '.')

/-- What stands behind the first dot. -/
def fraction (cs : List Char) : List Char := (cs.dropWhile (· ≠ '.')).drop 1

/-- Digits with at most one dot among them. -/
structure IsNumeral (cs : List Char) : Prop where
  whole_digits : AllDigits (whole cs)
  fraction_digits : AllDigits (fraction cs)
  has_digit : whole cs ≠ [] ∨ fraction cs ≠ []

instance decidableIsNumeral (cs : List Char) : Decidable (IsNumeral cs) :=
  decidable_of_iff (AllDigits (whole cs) ∧ AllDigits (fraction cs) ∧
    (whole cs ≠ [] ∨ fraction cs ≠ [])) ⟨fun h => ⟨h.1, h.2.1, h.2.2⟩, fun h => ⟨h.1, h.2, h.3⟩⟩

def numeralValue (cs : List Char) : ℚ :=
  value (whole cs) + value (fraction cs) / 10 ^ (fraction cs).length

theorem not_mem_of_allDigits {cs : List Char} (h : AllDigits cs) : '.' ∉ cs :=
  fun hdot => by cases h '.' hdot

theorem ne_dot_of_not_mem {cs : List Char} (h : '.' ∉ cs) : ∀ c ∈ cs, decide (c ≠ '.') = true := by
  intro c hc
  rw [decide_eq_true_eq]
  rintro rfl
  exact h hc

theorem whole_of_not_mem {cs : List Char} (h : '.' ∉ cs) : whole cs = cs :=
  List.takeWhile_eq_self_iff.mpr (ne_dot_of_not_mem h)

theorem fraction_of_not_mem {cs : List Char} (h : '.' ∉ cs) : fraction cs = [] := by
  have hsplit := List.takeWhile_append_dropWhile (p := (· ≠ '.')) (l := cs)
  have hwhole := whole_of_not_mem h
  rw [whole] at hwhole
  rw [hwhole, List.append_right_eq_self] at hsplit
  rw [fraction, hsplit]
  rfl

theorem whole_append {ws : List Char} (h : '.' ∉ ws) (fs : List Char) :
    whole (ws ++ '.' :: fs) = ws := by
  rw [whole, List.takeWhile_append_of_pos (ne_dot_of_not_mem h)]
  simp

theorem fraction_append {ws : List Char} (h : '.' ∉ ws) (fs : List Char) :
    fraction (ws ++ '.' :: fs) = fs := by
  rw [fraction, List.dropWhile_append_of_pos (ne_dot_of_not_mem h)]
  simp

theorem eq_append_of_mem {cs : List Char} (h : '.' ∈ cs) : cs = whole cs ++ '.' :: fraction cs := by
  obtain ⟨ws, fs, rfl, hws⟩ := List.eq_append_cons_of_mem h
  rw [whole_append hws, fraction_append hws]

theorem not_mem_whole (cs : List Char) : '.' ∉ whole cs := by
  intro h
  simpa using List.mem_takeWhile_imp h

theorem IsNumeral.ne_nil {cs : List Char} (h : IsNumeral cs) : cs ≠ [] := by
  rintro rfl
  exact h.has_digit.elim (fun hne => hne rfl) (fun hne => hne rfl)

theorem IsNumeral.isDigit_or_dot {cs : List Char} (h : IsNumeral cs) {c : Char} (hc : c ∈ cs) :
    c.isDigit = true ∨ c = '.' := by
  by_cases hdot : '.' ∈ cs
  · rw [eq_append_of_mem hdot, List.mem_append, List.mem_cons] at hc
    rcases hc with hc | rfl | hc
    · exact Or.inl (h.whole_digits c hc)
    · exact Or.inr rfl
    · exact Or.inl (h.fraction_digits c hc)
  · rw [← whole_of_not_mem hdot] at hc
    exact Or.inl (h.whole_digits c hc)

theorem splitOn_dot (cs : List Char) :
    cs.splitOn '.' = if '.' ∈ cs then whole cs :: (fraction cs).splitOn '.' else [cs] := by
  split
  · rename_i hdot
    nth_rewrite 1 [eq_append_of_mem hdot]
    exact List.splitOn_append_cons_self_of_not_mem (not_mem_whole cs) _
  · rename_i hdot
    exact List.splitOn_eq_singleton hdot

theorem exists_splitOn_dot (cs : List Char) : ∃ more, cs.splitOn '.' = whole cs :: more := by
  rw [splitOn_dot]
  split
  · exact ⟨_, rfl⟩
  · rename_i hdot
    exact ⟨[], by rw [whole_of_not_mem hdot]⟩

/-- Zeros at the end of a fraction do not count. -/
theorem value_append_zeros_div (cs : List Char) (n : ℕ) :
    (value (cs ++ List.replicate n '0') : ℚ) / 10 ^ (cs ++ List.replicate n '0').length =
      value cs / 10 ^ cs.length := by
  rw [value_append, value_replicate_zero, List.length_append, List.length_replicate]
  push_cast
  rw [add_zero, pow_add]
  field_simp

theorem value_rightpad_div {k : ℕ} {cs : List Char} (h : cs.length ≤ k) :
    (value (cs.rightpad k '0') : ℚ) / 10 ^ k = value cs / 10 ^ cs.length := by
  have hlength : (cs.rightpad k '0').length = k := by
    simp only [List.rightpad, List.length_append, List.length_replicate]
    omega
  have hzeros := value_append_zeros_div cs (k - cs.length)
  change (value (cs.rightpad k '0') : ℚ) / 10 ^ (cs.rightpad k '0').length = _ at hzeros
  rwa [hlength] at hzeros

/-- The value in units of `10 ^ k`, if the fraction has at most `k` digits. -/
theorem numeralValue_mul {k : ℕ} {cs : List Char} (h : (fraction cs).length ≤ k) :
    numeralValue cs * 10 ^ k =
      (value (whole cs) * 10 ^ k + value ((fraction cs).rightpad k '0') : ℕ) := by
  rw [numeralValue, ← value_rightpad_div h]
  push_cast
  field_simp

/-- The text of `n / 10 ^ k`. -/
def fixedText (k n : ℕ) : List Char :=
  if n % 10 ^ k = 0 then Nat.toDigits 10 (n / 10 ^ k)
  else Nat.toDigits 10 (n / 10 ^ k) ++ '.' :: stripZeros (padded k (n % 10 ^ k))

section FixedText
variable (k n : ℕ)

theorem whole_fixedText : whole (fixedText k n) = Nat.toDigits 10 (n / 10 ^ k) := by
  have hdot := not_mem_of_allDigits (allDigits_toDigits (n / 10 ^ k))
  unfold fixedText
  split
  · exact whole_of_not_mem hdot
  · exact whole_append hdot _

theorem fraction_fixedText : fraction (fixedText k n) = stripZeros (padded k (n % 10 ^ k)) := by
  have hdot := not_mem_of_allDigits (allDigits_toDigits (n / 10 ^ k))
  unfold fixedText
  split
  · rename_i hzero
    rw [fraction_of_not_mem hdot, hzero, (stripZeros_padded_eq_nil_iff k 0).mpr rfl]
  · exact fraction_append hdot _

theorem fixedText_ne_nil : fixedText k n ≠ [] := by
  intro hnil
  have hwhole := whole_fixedText k n
  rw [hnil] at hwhole
  exact Nat.toDigits_ne_nil hwhole.symm

theorem isNumeral_fixedText : IsNumeral (fixedText k n) := by
  refine ⟨?_, ?_, Or.inl ?_⟩
  · rw [whole_fixedText]
    exact allDigits_toDigits _
  · rw [fraction_fixedText]
    exact allDigits_stripZeros (allDigits_padded k _)
  · rw [whole_fixedText]
    exact Nat.toDigits_ne_nil

variable {k}

/-- Filled up again, the fraction is the remainder with all its digits. -/
theorem rightpad_fraction_fixedText (hk : 0 < k) :
    (fraction (fixedText k n)).rightpad k '0' = padded k (n % 10 ^ k) := by
  have hright := rightpad_stripZeros (padded k (n % 10 ^ k))
  rwa [length_padded hk (Nat.mod_lt _ (by positivity)), ← fraction_fixedText] at hright

theorem length_fraction_fixedText_le (hk : 0 < k) : (fraction (fixedText k n)).length ≤ k := by
  have happend := congrArg List.length (stripZeros_append (padded k (n % 10 ^ k)))
  rw [List.length_append, length_padded hk (Nat.mod_lt _ (by positivity))] at happend
  rw [fraction_fixedText]
  omega

theorem numeralValue_fixedText (hk : 0 < k) : numeralValue (fixedText k n) = n / 10 ^ k := by
  have hscaled := numeralValue_mul (length_fraction_fixedText_le n hk)
  rw [rightpad_fraction_fixedText n hk, whole_fixedText, value_padded, value_toDigits,
    Nat.div_add_mod'] at hscaled
  rw [eq_div_iff (by positivity), hscaled]

end FixedText

end Sprax.Decimal
