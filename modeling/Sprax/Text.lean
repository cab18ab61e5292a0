import Mathlib.Tactic.IntervalCases
import Sprax.Types

/-!
# Texts of numbers and bytes

Reading of unsigned decimal numbers, hexadecimal byte strings and surrounding
white space, as the Rust standard library and the `hex` crate do it, with their
error texts. A number is read back from the decimal text that prints it.
-/
namespace Sprax.Text

/-- The `White_Space` property of Unicode. -/
def isWhiteSpace (c : Char) : Bool :=
  let n := c.toNat
  (9 ≤ n && n ≤ 13) || n == 0x20 || n == 0x85 || n == 0xA0 || n == 0x1680 ||
    (0x2000 ≤ n && n ≤ 0x200A) || n == 0x2028 || n == 0x2029 || n == 0x202F || n == 0x205F ||
    n == 0x3000

def trimStart (cs : List Char) : List Char := cs.dropWhile isWhiteSpace

def trimEnd (cs : List Char) : List Char := (cs.reverse.dropWhile isWhiteSpace).reverse

/-- `str::trim`. -/
def trim (s : String) : String := String.ofList (trimEnd (trimStart s.toList))

theorem trimStart_cons {c : Char} (hc : isWhiteSpace c = false) (cs : List Char) :
    trimStart (c :: cs) = c :: cs := by
  simp [trimStart, hc]

/-- Trimming the end keeps everything up to a character that stays. -/
theorem trimEnd_append {c : Char} (hc : isWhiteSpace c = false) (front rest : List Char) :
    trimEnd (front ++ c :: rest) = front ++ c :: trimEnd rest := by
  have hsplit : (front ++ c :: rest).reverse = rest.reverse ++ c :: front.reverse := by simp
  have hkept : (c :: front.reverse).dropWhile isWhiteSpace = c :: front.reverse := by simp [hc]
  unfold trimEnd
  rw [hsplit, List.dropWhile_append]
  split
  · rename_i hempty
    rw [List.isEmpty_iff.mp hempty, hkept]
    simp
  · simp

theorem isWhiteSpace_of_isDigit {c : Char} (h : c.isDigit = true) : isWhiteSpace c = false := by
  simp only [Char.isDigit, Bool.and_eq_true, decide_eq_true_eq] at h
  have hlow : 48 ≤ c.toNat := h.1
  have hhigh : c.toNat ≤ 57 := h.2
  simp only [isWhiteSpace, Bool.or_eq_false_iff, Bool.and_eq_false_iff, beq_eq_false_iff_ne,
    decide_eq_false_iff_not]
  omega

/-- A text without white space has none to trim. -/
theorem trim_eq_self {s : String} (h : ∀ c ∈ s.toList, isWhiteSpace c = false) : trim s = s := by
  have hdrop : ∀ cs : List Char, (∀ c ∈ cs, isWhiteSpace c = false) →
      cs.dropWhile isWhiteSpace = cs := by
    intro cs hcs
    cases cs with
    | nil => rfl
    | cons c cs => simp [hcs c List.mem_cons_self]
  have hreverse : ∀ c ∈ s.toList.reverse, isWhiteSpace c = false :=
    fun c hc => h c (List.mem_reverse.mp hc)
  rw [trim, trimStart, hdrop _ h, trimEnd, hdrop _ hreverse, List.reverse_reverse,
    String.ofList_toList]

/-- White space inside a text stays. -/
theorem trim_of_ends {c d : Char} {cs : List Char} (hc : isWhiteSpace c = false)
    (hd : isWhiteSpace d = false) :
    trim (String.ofList (c :: cs ++ [d])) = String.ofList (c :: cs ++ [d]) := by
  rw [trim, String.toList_ofList, List.cons_append, trimStart_cons hc, ← List.cons_append,
    trimEnd_append hd]
  rfl

theorem trim_append_space {cs : List Char} (hne : cs ≠ []) (h : ∀ c ∈ cs, isWhiteSpace c = false) :
    trim (String.ofList (cs ++ [' '])) = String.ofList cs := by
  obtain ⟨c, rest, hcs⟩ := List.exists_cons_of_ne_nil hne
  have hstart : trimStart (cs ++ [' ']) = cs ++ [' '] := by
    rw [hcs, List.cons_append]
    exact trimStart_cons (h c (hcs ▸ List.mem_cons_self)) _
  have hlast : isWhiteSpace (cs.getLast hne) = false := h _ (List.getLast_mem hne)
  have hend : trimEnd (cs ++ [' ']) = cs := by
    nth_rewrite 1 [← List.dropLast_concat_getLast hne]
    rw [List.append_assoc, List.singleton_append, trimEnd_append hlast]
    exact List.dropLast_concat_getLast hne
  rw [trim, String.toList_ofList, hstart, hend]

inductive ParseIntError
  | empty
  | invalidDigit
  | posOverflow
  deriving DecidableEq

/-- The `Display` text of the error. -/
def ParseIntError.display : ParseIntError → String
  | .empty => "cannot parse integer from empty string"
  | .invalidDigit => "invalid digit found in string"
  | .posOverflow => "number too large to fit in target type"

/-- The digit loop: one checked multiplication and addition for each digit. -/
def parseDigits (bound : ℕ) : List Char → ℕ → Except ParseIntError ℕ
  | [], acc => .ok acc
  | c :: cs, acc =>
    if c.isDigit then
      let next := 10 * acc + (c.toNat - '0'.toNat)
      if next < bound then parseDigits bound cs next else .error .posOverflow
    else .error .invalidDigit

/-- `str::parse` at an unsigned type of `bits` bits. -/
def parseUnsigned (bits : ℕ) (s : String) : Except ParseIntError ℕ :=
  match s.toList with
  | [] => .error .empty
  | ['+'] | ['-'] => .error .invalidDigit
  | '+' :: cs => parseDigits (2 ^ bits) cs 0
  | cs => parseDigits (2 ^ bits) cs 0

theorem parseDigits_of_lt {bound : ℕ} {cs : List Char} (hdigits : ∀ c ∈ cs, c.isDigit = true)
    (acc : ℕ) (hlt : Nat.ofDigitChars 10 cs acc < bound) :
    parseDigits bound cs acc = .ok (Nat.ofDigitChars 10 cs acc) := by
  induction cs generalizing acc with
  | nil => simp [parseDigits]
  | cons c cs ih =>
    rw [Nat.ofDigitChars_cons] at hlt ⊢
    have hgrow := @Nat.ofDigitChars_eq_ofDigitChars_zero cs (10 * acc + (c.toNat - '0'.toNat))
    have hpow : 1 ≤ 10 ^ cs.length := Nat.one_le_pow _ _ (by decide)
    have hnext : 10 * acc + (c.toNat - '0'.toNat) < bound := by nlinarith
    rw [parseDigits, if_pos (hdigits c List.mem_cons_self)]
    dsimp only
    rw [if_pos hnext]
    exact ih (fun c' hc' => hdigits c' (List.mem_cons_of_mem c hc')) _ hlt

theorem isDigit_of_parseDigits {bound n : ℕ} {cs : List Char} {acc : ℕ}
    (h : parseDigits bound cs acc = .ok n) :
    ∀ c ∈ cs, c.isDigit = true := by
  induction cs generalizing acc with
  | nil => exact fun c hc => absurd hc List.not_mem_nil
  | cons c cs ih =>
    rw [parseDigits] at h
    split at h
    · rename_i hdigit
      dsimp only at h
      split at h
      · intro c' hc'
        rcases List.mem_cons.mp hc' with rfl | hc'
        · exact hdigit
        · exact ih h c' hc'
      · cases h
    · cases h

/-- A number is read back from its decimal text. -/
theorem parseUnsigned_toString {bits n : ℕ} (hn : n < 2 ^ bits) :
    parseUnsigned bits (toString n) = .ok n := by
  have hlist : (toString n).toList = Nat.toDigits 10 n := by
    rw [Nat.toString_eq_ofList_toDigits, String.toList_ofList]
  have hdigits : ∀ c ∈ Nat.toDigits 10 n, c.isDigit = true :=
    fun c hc => Nat.isDigit_of_mem_toDigits (by decide) (by decide) hc
  have hread : parseDigits (2 ^ bits) (Nat.toDigits 10 n) 0 = .ok n := by
    rw [parseDigits_of_lt hdigits 0 (by rwa [Nat.ofDigitChars_ten_toDigits]),
      Nat.ofDigitChars_ten_toDigits]
  unfold parseUnsigned
  rw [hlist]
  cases hcs : Nat.toDigits 10 n with
  | nil => exact absurd hcs Nat.toDigits_ne_nil
  | cons c cs =>
    rw [hcs] at hread hdigits
    have hc := hdigits c List.mem_cons_self
    have hplus : c ≠ '+' := by
      rintro rfl
      cases hc
    have hminus : c ≠ '-' := by
      rintro rfl
      cases hc
    split
    · rename_i heq
      cases heq
    · rename_i heq
      cases heq
      exact absurd rfl hplus
    · rename_i heq
      cases heq
      exact absurd rfl hminus
    · rename_i heq
      cases heq
      exact absurd rfl hplus
    · exact hread

/-- The text without a leading `0x`. -/
def stripMark (s : String) : String :=
  match s.toList with
  | '0' :: 'x' :: rest => String.ofList rest
  | _ => s

theorem stripMark_of_ne {s : String} {c : Char} {cs : List Char} (hs : s.toList = c :: cs)
    (hc : c ≠ '0') : stripMark s = s := by
  unfold stripMark
  split
  · rename_i heq
    rw [hs] at heq
    cases heq
    exact absurd rfl hc
  · rfl

theorem stripMark_mark (s : String) : stripMark ("0x" ++ s) = s := by
  have hchars : ("0x" ++ s).toList = '0' :: 'x' :: s.toList := by simp
  unfold stripMark
  rw [hchars]
  exact String.ofList_toList

inductive FromHexError
  | oddLength
  | invalidHexCharacter (c : Char) (index : ℕ)
  deriving DecidableEq

/-- The `Debug` text of a character that stands for one byte. -/
def debugChar (c : Char) : String :=
  let shown := match c.toNat with
    | 0 => "\\0"
    | 9 => "\\t"
    | 10 => "\\n"
    | 13 => "\\r"
    | 39 => "\\'"
    | 92 => "\\\\"
    | n =>
      -- the control characters, the no-break space and the soft hyphen are not printable
      if n < 0x20 ∨ 0x7f ≤ n ∧ n ≤ 0xa0 ∨ n = 0xad then
        "\\u\x7b" ++ String.ofList (Nat.toDigits 16 n) ++ "\x7d"
      else String.singleton c
  "'" ++ shown ++ "'"

/-- The `Display` text of the error. -/
def FromHexError.display : FromHexError → String
  | .oddLength => "Odd number of digits"
  | .invalidHexCharacter c index => s!"Invalid character {debugChar c} at position {index}"

/-- The value of one digit, of either case. -/
def hexVal (b : UInt8) (index : ℕ) : Except FromHexError ℕ :=
  let n := b.toNat
  if 'A'.toNat ≤ n ∧ n ≤ 'F'.toNat then .ok (n - 'A'.toNat + 10)
  else if 'a'.toNat ≤ n ∧ n ≤ 'f'.toNat then .ok (n - 'a'.toNat + 10)
  else if '0'.toNat ≤ n ∧ n ≤ '9'.toNat then .ok (n - '0'.toNat)
  else .error (.invalidHexCharacter (Char.ofNat n) index)

/-- The digits in pairs, from the one at `index` on. -/
def hexPairs : ℕ → Bytes → Except FromHexError Bytes
  | index, hi :: lo :: rest => do
    let h ← hexVal hi index
    let l ← hexVal lo (index + 1)
    let bytes ← hexPairs (index + 2) rest
    return UInt8.ofNat (16 * h + l) :: bytes
  | _, _ => .ok []

/-- `hex::decode`. -/
def hexDecode (s : String) : Except FromHexError Bytes :=
  let digits := s.toUTF8.data.toList
  if digits.length % 2 = 1 then .error .oddLength else hexPairs 0 digits

/-- A text that does not start with a digit is no byte string. -/
theorem hexDecode_error {s : String} {b : UInt8} {rest : Bytes}
    (hs : s.toUTF8.data.toList = b :: rest) {e : FromHexError} (hb : hexVal b 0 = .error e) :
      ∃ e', hexDecode s = .error e' := by
  unfold hexDecode
  rw [hs]
  dsimp only
  split
  · exact ⟨_, rfl⟩
  · rename_i heven
    cases rest with
    | nil => simp at heven
    | cons lo rest => exact ⟨e, by rw [hexPairs, hb]; rfl⟩

/-- The digits of a byte string as they are stored. -/
def hexDigits (bs : Bytes) : Bytes :=
  bs.flatMap (fun b => [b.toNat / 16, b.toNat % 16].map (fun n => UInt8.ofNat (hexDigit n).toNat))

theorem hexVal_hexDigit {n : ℕ} (hn : n < 16) (index : ℕ) :
    hexVal (UInt8.ofNat (hexDigit n).toNat) index = .ok n := by
  interval_cases n <;> rfl

/-- A digit is one byte of text. -/
theorem utf8_hexDigit {n : ℕ} (hn : n < 16) :
    (String.ofList [hexDigit n]).toUTF8.data.toList = [UInt8.ofNat (hexDigit n).toNat] := by
  interval_cases n <;> decide

theorem utf8_append (s t : String) :
    (s ++ t).toUTF8.data.toList = s.toUTF8.data.toList ++ t.toUTF8.data.toList := by
  have happend : (s ++ t).toUTF8 = s.toUTF8 ++ t.toUTF8 := String.toByteArray_append
  rw [happend, ByteArray.data_append, Array.toList_append]

theorem utf8_hexEncode (bs : Bytes) : (hexEncode bs).toUTF8.data.toList = hexDigits bs := by
  induction bs with
  | nil => rfl
  | cons b bs ih =>
    have hsplit : hexEncode (b :: bs) = String.ofList [hexDigit (b.toNat / 16)] ++
        (String.ofList [hexDigit (b.toNat % 16)] ++ hexEncode bs) := by
      apply String.toList_injective
      simp [hexEncode]
    have hhigh : b.toNat / 16 < 16 := by have := b.toNat_lt; omega
    rw [hsplit, utf8_append, utf8_append, utf8_hexDigit hhigh,
      utf8_hexDigit (Nat.mod_lt _ (by decide)), ih]
    rfl

theorem hexPairs_hexDigits (index : ℕ) (bs : Bytes) : hexPairs index (hexDigits bs) = .ok bs := by
  induction bs generalizing index with
  | nil => rfl
  | cons b bs ih =>
    have hhigh : b.toNat / 16 < 16 := by have := b.toNat_lt; omega
    have hbyte : UInt8.ofNat (16 * (b.toNat / 16) + b.toNat % 16) = b := by
      rw [Nat.div_add_mod, UInt8.ofNat_toNat]
    change (do
      let h ← hexVal (UInt8.ofNat (hexDigit (b.toNat / 16)).toNat) index
      let l ← hexVal (UInt8.ofNat (hexDigit (b.toNat % 16)).toNat) (index + 1)
      let bytes ← hexPairs (index + 2) (hexDigits bs)
      return UInt8.ofNat (16 * h + l) :: bytes) = _
    rw [hexVal_hexDigit hhigh, hexVal_hexDigit (Nat.mod_lt _ (by decide)), ih]
    change Except.ok (UInt8.ofNat (16 * (b.toNat / 16) + b.toNat % 16) :: bs) = _
    rw [hbyte]

theorem length_hexDigits (bs : Bytes) : (hexDigits bs).length = 2 * bs.length := by
  induction bs with
  | nil => rfl
  | cons b bs ih =>
    rw [hexDigits, List.flatMap_cons, List.length_append, ← hexDigits, ih]
    simp only [List.length_map, List.length_cons, List.length_nil]
    omega

theorem hexDecode_hexEncode (bs : Bytes) : hexDecode (hexEncode bs) = .ok bs := by
  unfold hexDecode
  rw [utf8_hexEncode]
  dsimp only
  rw [length_hexDigits, if_neg (by omega), hexPairs_hexDigits]

end Sprax.Text
