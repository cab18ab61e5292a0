import Sprax.Decimal

/-!
# Integer literals of JavaScript and Dart

The texts that `BigInt(…)` and `BigInt.parse(…)` take for an integer. Both allow
white space around the literal, a sign, and a mark for another radix; JavaScript
reads a text without any digit as zero. A text that starts and ends with neither
white space, a sign nor a mark is an integer for both if it consists of digits, and
then has their value.
-/
namespace Sprax.Literals
open Decimal

def digitIn (radix : ℕ) (c : Char) : Option ℕ :=
  let n := if c.isDigit then c.toNat - '0'.toNat
    else if 'a'.toNat ≤ c.toNat ∧ c.toNat ≤ 'f'.toNat then c.toNat - 'a'.toNat + 10
    else if 'A'.toNat ≤ c.toNat ∧ c.toNat ≤ 'F'.toNat then c.toNat - 'A'.toNat + 10
    else radix
  if n < radix then some n else none

def readDigits (radix : ℕ) : List Char → ℕ → Option ℕ
  | [], acc => some acc
  | c :: cs, acc => (digitIn radix c).bind (fun d => readDigits radix cs (radix * acc + d))

/-- One digit or more. -/
def natural (radix : ℕ) (cs : List Char) : Option ℕ :=
  if cs.isEmpty then none else readDigits radix cs 0

theorem digitIn_ten (c : Char) :
    digitIn 10 c = if c.isDigit then some (c.toNat - '0'.toNat) else none := by
  unfold digitIn
  by_cases hdigit : c.isDigit = true
  · have hhigh : c.toNat ≤ 57 := by
      simp only [Char.isDigit, Bool.and_eq_true, decide_eq_true_eq] at hdigit
      exact hdigit.2
    have hlt : c.toNat - '0'.toNat < 10 := by
      change c.toNat - 48 < 10
      omega
    simp only [hdigit, if_true, hlt]
  · have hnot : ∀ m, ¬ m + 10 < 10 := by omega
    simp only [hdigit, Bool.false_eq_true, if_false]
    split
    · exact if_neg (hnot _)
    · split
      · exact if_neg (hnot _)
      · exact if_neg (lt_irrefl 10)

theorem readDigits_ten_iff {cs : List Char} {acc n : ℕ} :
    readDigits 10 cs acc = some n ↔ AllDigits cs ∧ n = Nat.ofDigitChars 10 cs acc := by
  induction cs generalizing acc with
  | nil =>
    have hdigits : AllDigits [] := fun c hc => absurd hc List.not_mem_nil
    rw [readDigits, Option.some.injEq, Nat.ofDigitChars_nil, and_iff_right hdigits, eq_comm]
  | cons c cs ih =>
    rw [readDigits, digitIn_ten]
    by_cases hdigit : c.isDigit = true
    · rw [if_pos hdigit, Option.bind_some, ih, Nat.ofDigitChars_cons]
      simp [AllDigits, hdigit]
    · rw [if_neg hdigit, Option.bind_none]
      simp [AllDigits, hdigit]

theorem natural_ten_iff {cs : List Char} {n : ℕ} :
    natural 10 cs = some n ↔ cs ≠ [] ∧ AllDigits cs ∧ n = value cs := by
  cases cs with
  | nil => simp [natural]
  | cons c cs => simp [natural, readDigits_ten_iff, value]

/-- White space and line terminators of ECMAScript, which are also the `\s` of Dart. -/
def isSpace (c : Char) : Bool :=
  let n := c.toNat
  (9 ≤ n && n ≤ 13) || n == 0x20 || n == 0xA0 || n == 0x1680 || (0x2000 ≤ n && n ≤ 0x200A) ||
    n == 0x2028 || n == 0x2029 || n == 0x202F || n == 0x205F || n == 0x3000 || n == 0xFEFF

/-- Without the characters of a class at both ends. -/
def strip (p : Char → Bool) (cs : List Char) : List Char := (cs.dropWhile p).rdropWhile p

theorem strip_of_ends {p : Char → Bool} {cs : List Char} (hhead : ∀ c, cs.head? = some c →
    p c = false) (hlast : ∀ c, cs.getLast? = some c → p c = false) : strip p cs = cs := by
  have hdrop : cs.dropWhile p = cs := by
    cases cs with
    | nil => rfl
    | cons c cs => simp [hhead c rfl]
  rw [strip, hdrop, List.rdropWhile_eq_self_iff]
  intro hne
  simp [hlast _ (List.getLast?_eq_some_getLast hne)]

theorem strip_eq_self {p : Char → Bool} {cs : List Char} (h : ∀ c ∈ cs, p c = false) :
    strip p cs = cs :=
  strip_of_ends (fun c hc => h c (List.mem_of_head? hc)) (fun c hc => h c (List.mem_of_getLast? hc))

/-- What is stripped at the two ends belongs to the class. -/
theorem exists_append_strip (p : Char → Bool) (cs : List Char) :
    ∃ front back, cs = front ++ (strip p cs ++ back) ∧ (∀ c ∈ front, p c = true) ∧
      ∀ c ∈ back, p c = true := by
  refine ⟨cs.takeWhile p, (cs.dropWhile p).rtakeWhile p, ?_, fun c hc => List.mem_takeWhile_imp hc,
    fun c hc => List.mem_rtakeWhile_imp hc⟩
  rw [strip, List.rdropWhile_append_rtakeWhile, List.takeWhile_append_dropWhile]

/-- Stripping stops at characters outside the class. -/
theorem strip_append {p : Char → Bool} {front cs : List Char} (hfront : ∀ c ∈ front, p c = true)
    (hne : cs ≠ []) (hcs : ∀ c ∈ cs, p c = false) (back : List Char) :
    strip p (front ++ (cs ++ back)) = cs ++ back.rdropWhile p := by
  obtain ⟨c, rest, rfl⟩ := List.exists_cons_of_ne_nil hne
  have hstart : (front ++ (c :: rest ++ back)).dropWhile p = c :: rest ++ back := by
    rw [List.dropWhile_append_of_pos hfront]
    simp [hcs c List.mem_cons_self]
  have hreverse : (c :: rest).reverse.dropWhile p = (c :: rest).reverse := by
    have hlast : ∀ d, (c :: rest).reverse.head? = some d → p d = false := fun d hd =>
      hcs d (List.mem_reverse.mp (List.mem_of_head? hd))
    cases hrev : (c :: rest).reverse with
    | nil => rfl
    | cons d ds =>
      rw [hrev] at hlast
      simp [hlast d rfl]
  rw [strip, hstart, List.rdropWhile, List.reverse_append, List.dropWhile_append]
  split
  · rename_i hempty
    rw [hreverse, List.reverse_reverse, List.rdropWhile, List.isEmpty_iff.mp hempty]
    simp
  · rw [List.reverse_append, List.reverse_reverse, List.rdropWhile]

theorem isSpace_of_isDigit {c : Char} (h : c.isDigit = true) : isSpace c = false := by
  simp only [Char.isDigit, Bool.and_eq_true, decide_eq_true_eq] at h
  have hlow : 48 ≤ c.toNat := h.1
  have hhigh : c.toNat ≤ 57 := h.2
  simp only [isSpace, Bool.or_eq_false_iff, Bool.and_eq_false_iff, beq_eq_false_iff_ne,
    decide_eq_false_iff_not]
  omega

/-- The radix of a mark. -/
def radixOf : Char → Option ℕ
  | 'x' | 'X' => some 16
  | 'o' | 'O' => some 8
  | 'b' | 'B' => some 2
  | _ => none

namespace Js

/-- Digits in the radix of the mark before them, or decimal ones. -/
def magnitude (cs : List Char) : Option ℕ :=
  match cs with
  | '0' :: mark :: ds =>
    match radixOf mark with
    | some radix => natural radix ds
    | none => natural 10 cs
  | ds => natural 10 ds

/-- `BigInt(…)` of a text; a sign does not go with a mark. -/
def bigInt (cs : List Char) : Option ℤ :=
  match strip isSpace cs with
  | [] => some 0
  | '+' :: ds => (natural 10 ds).map (fun n : ℕ => (n : ℤ))
  | '-' :: ds => (natural 10 ds).map (fun n : ℕ => -(n : ℤ))
  | ds => (magnitude ds).map (fun n : ℕ => (n : ℤ))

end Js

namespace Dart

def magnitude (cs : List Char) : Option ℕ :=
  match cs with
  | '0' :: 'x' :: ds | '0' :: 'X' :: ds => natural 16 ds
  | ds => natural 10 ds

/-- `BigInt.parse(…)` of a text, with `none` for an exception. -/
def bigIntParse (cs : List Char) : Option ℤ :=
  match strip isSpace cs with
  | '+' :: ds => (magnitude ds).map (fun n : ℕ => (n : ℤ))
  | '-' :: ds => (magnitude ds).map (fun n : ℕ => -(n : ℤ))
  | ds => (magnitude ds).map (fun n : ℕ => (n : ℤ))

end Dart

/-- The literal has white space around it, a sign, or the mark of a radix. -/
def Adorned (cs : List Char) : Prop :=
  strip isSpace cs ≠ cs ∨ cs.head? = some '+' ∨ cs.head? = some '-' ∨
    cs.head? = some '0' ∧ ((cs.drop 1).head?.bind radixOf).isSome = true

instance decidableAdorned (cs : List Char) : Decidable (Adorned cs) :=
  inferInstanceAs (Decidable (_ ∨ _))

theorem Js.magnitude_of_plain {cs : List Char} (h : ¬ Adorned cs) :
    Js.magnitude cs = natural 10 cs := by
  unfold Js.magnitude
  split
  · rename_i mark ds
    split
    · rename_i radix hradix
      exact absurd (Or.inr (Or.inr (Or.inr ⟨rfl, by simp [hradix]⟩))) h
    · rfl
  · rfl

theorem Js.bigInt_of_plain {cs : List Char} (hne : cs ≠ []) (h : ¬ Adorned cs) :
    Js.bigInt cs = (natural 10 cs).map (fun n : ℕ => (n : ℤ)) := by
  have hmagnitude := Js.magnitude_of_plain h
  simp only [Adorned, not_or, not_not] at h
  obtain ⟨hstrip, hplus, hminus, -⟩ := h
  unfold Js.bigInt
  rw [hstrip]
  split
  · exact absurd rfl hne
  · exact absurd rfl hplus
  · exact absurd rfl hminus
  · rw [hmagnitude]

theorem Dart.magnitude_of_plain {cs : List Char} (h : ¬ Adorned cs) :
    Dart.magnitude cs = natural 10 cs := by
  unfold Dart.magnitude
  split
  · exact absurd (Or.inr (Or.inr (Or.inr ⟨rfl, rfl⟩))) h
  · exact absurd (Or.inr (Or.inr (Or.inr ⟨rfl, rfl⟩))) h
  · rfl

theorem Dart.bigIntParse_of_plain {cs : List Char} (h : ¬ Adorned cs) :
    Dart.bigIntParse cs = (natural 10 cs).map (fun n : ℕ => (n : ℤ)) := by
  have hmagnitude := Dart.magnitude_of_plain h
  simp only [Adorned, not_or, not_not] at h
  obtain ⟨hstrip, hplus, hminus, -⟩ := h
  unfold Dart.bigIntParse
  rw [hstrip]
  split
  · exact absurd rfl hplus
  · exact absurd rfl hminus
  · rw [hmagnitude]

theorem not_adorned_of_allDigits {cs : List Char} (h : AllDigits cs) : ¬ Adorned cs := by
  rintro (hstrip | hplus | hminus | ⟨-, hmark⟩)
  · exact hstrip (strip_eq_self (fun c hc => isSpace_of_isDigit (h c hc)))
  · cases h '+' (List.mem_of_head? hplus)
  · cases h '-' (List.mem_of_head? hminus)
  · obtain ⟨radix, hradix⟩ := Option.isSome_iff_exists.mp hmark
    obtain ⟨mark, hsecond, hmarked⟩ := Option.bind_eq_some_iff.mp hradix
    have hdigit := h mark (List.mem_of_mem_drop (List.mem_of_head? hsecond))
    unfold radixOf at hmarked
    split at hmarked <;> first | cases hdigit | cases hmarked

/-- Digits are read at their value. -/
theorem Js.bigInt_of_allDigits {cs : List Char} (hne : cs ≠ []) (h : AllDigits cs) :
    Js.bigInt cs = some (value cs : ℤ) := by
  rw [Js.bigInt_of_plain hne (not_adorned_of_allDigits h), natural_ten_iff.mpr ⟨hne, h, rfl⟩]
  rfl

/-- A plain literal consists of digits. -/
theorem Js.allDigits_of_bigInt {cs : List Char} {n : ℤ} (hne : cs ≠ []) (h : ¬ Adorned cs)
    (hread : Js.bigInt cs = some n) : AllDigits cs ∧ n = value cs := by
  rw [Js.bigInt_of_plain hne h] at hread
  obtain ⟨m, hm, rfl⟩ := Option.map_eq_some_iff.mp hread
  obtain ⟨-, hdigits, rfl⟩ := natural_ten_iff.mp hm
  exact ⟨hdigits, rfl⟩

theorem Dart.allDigits_of_bigIntParse {cs : List Char} {n : ℤ} (h : ¬ Adorned cs)
    (hread : Dart.bigIntParse cs = some n) : cs ≠ [] ∧ AllDigits cs ∧ n = value cs := by
  rw [Dart.bigIntParse_of_plain h] at hread
  obtain ⟨m, hm, rfl⟩ := Option.map_eq_some_iff.mp hread
  obtain ⟨hne, hdigits, rfl⟩ := natural_ten_iff.mp hm
  exact ⟨hne, hdigits, rfl⟩

theorem isSpace_of_digitIn {radix d : ℕ} {c : Char} (h : digitIn radix c = some d) :
    isSpace c = false := by
  by_cases hdigit : c.isDigit = true
  · exact isSpace_of_isDigit hdigit
  · simp only [digitIn, hdigit, Bool.false_eq_true, if_false] at h
    have hletter : 65 ≤ c.toNat ∧ c.toNat ≤ 102 := by
      by_contra hout
      have hlower : ¬ ('a'.toNat ≤ c.toNat ∧ c.toNat ≤ 'f'.toNat) := by
        change ¬ (97 ≤ c.toNat ∧ c.toNat ≤ 102)
        omega
      have hupper : ¬ ('A'.toNat ≤ c.toNat ∧ c.toNat ≤ 'F'.toNat) := by
        change ¬ (65 ≤ c.toNat ∧ c.toNat ≤ 70)
        omega
      rw [if_neg hlower, if_neg hupper, if_neg (lt_irrefl radix)] at h
      cases h
    simp only [isSpace, Bool.or_eq_false_iff, Bool.and_eq_false_iff, beq_eq_false_iff_ne,
      decide_eq_false_iff_not]
    omega

theorem solid_of_readDigits {radix acc n : ℕ} {cs : List Char}
    (h : readDigits radix cs acc = some n) :
    ∀ c ∈ cs, isSpace c = false := by
  induction cs generalizing acc with
  | nil => exact fun c hc => absurd hc List.not_mem_nil
  | cons c cs ih =>
    obtain ⟨d, hd, hrest⟩ := Option.bind_eq_some_iff.mp h
    intro c' hc'
    rcases List.mem_cons.mp hc' with rfl | hc'
    · exact isSpace_of_digitIn hd
    · exact ih hrest c' hc'

theorem solid_of_natural {radix n : ℕ} {cs : List Char} (h : natural radix cs = some n) :
    ∀ c ∈ cs, isSpace c = false := by
  unfold natural at h
  split at h
  · cases h
  · exact solid_of_readDigits h

theorem isSpace_of_radixOf {mark : Char} {radix : ℕ} (h : radixOf mark = some radix) :
    isSpace mark = false := by
  unfold radixOf at h
  split at h <;> first | rfl | cases h

theorem Js.solid_of_magnitude {cs : List Char} {n : ℕ} (h : Js.magnitude cs = some n) :
    ∀ c ∈ cs, isSpace c = false := by
  unfold Js.magnitude at h
  split at h
  · rename_i mark ds
    split at h
    · rename_i radix hradix
      intro c hc
      rcases List.mem_cons.mp hc with rfl | hc
      · rfl
      · rcases List.mem_cons.mp hc with rfl | hc
        · exact isSpace_of_radixOf hradix
        · exact solid_of_natural h c hc
    · exact solid_of_natural h
  · exact solid_of_natural h

/-- Between its first and its last character a literal has no white space. -/
theorem Js.solid_of_bigInt {cs : List Char} {n : ℤ} (h : Js.bigInt cs = some n) :
    ∀ c ∈ strip isSpace cs, isSpace c = false := by
  have hsigned : ∀ {sign : Char} {ds : List Char} {f : ℕ → ℤ}, isSpace sign = false →
      (natural 10 ds).map f = some n → ∀ c ∈ sign :: ds, isSpace c = false := by
    intro sign ds f hsign hdigits c hc
    obtain ⟨m, hm, -⟩ := Option.map_eq_some_iff.mp hdigits
    rcases List.mem_cons.mp hc with rfl | hc
    · exact hsign
    · exact solid_of_natural hm c hc
  unfold Js.bigInt at h
  split at h
  · rename_i hcs
    rw [hcs]
    exact fun c hc => absurd hc List.not_mem_nil
  · rename_i hcs
    rw [hcs]
    exact hsigned rfl h
  · rename_i hcs
    rw [hcs]
    exact hsigned rfl h
  · obtain ⟨m, hm, -⟩ := Option.map_eq_some_iff.mp h
    exact Js.solid_of_magnitude hm

end Sprax.Literals
