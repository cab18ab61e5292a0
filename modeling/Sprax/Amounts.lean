import Sprax.Literals
import Sprax.Wallet

/-!
# Amounts as texts

An amount is shown in whole units with a fraction of up to 18 digits by the node,
the TypeScript wallet and the Python backend. The three pad and strip the fraction
in their own way and arrive at the same text, the fixed-point text of the amount.
The wallet reads the amount back from it.
-/
namespace Sprax
open Decimal Literals

namespace WalletCore

/-- The libraries, with the `trim` and the `BigInt` of the language itself. -/
def Libraries.standard (js : Libraries) : Libraries :=
  { js with
    trim := fun s => String.ofList (strip isSpace s.toList)
    bigInt := fun s => match Js.bigInt s.toList with
      | some n => .ok n
      | none => .error s!"Cannot convert {s} to a BigInt" }

/-- `BigInt` division rounds to zero. -/
def attoToSprx (atto : ℤ) : String :=
  let whole := atto.tdiv (10 ^ 18)
  let rem := atto.tmod (10 ^ 18)
  if rem = 0 then toString whole
  else
    let remStr := String.ofList (stripZeros ((toString rem).toList.leftpad 18 '0'))
    s!"{whole}.{remStr}"

end WalletCore

namespace Backend

/-- Integer division of Python rounds down. -/
def attoToSprx (atto : ℤ) : String :=
  let whole := atto.fdiv (10 ^ 18)
  let frac := atto.fmod (10 ^ 18)
  let fracStr := stripZeros ((toString frac).toList.leftpad 18 '0')
  if fracStr ≠ [] then
    let digits := String.ofList fracStr
    s!"{whole}.{digits}"
  else toString whole

end Backend

theorem toList_toString (n : ℕ) : (toString n).toList = Nat.toDigits 10 n := by
  rw [Nat.toString_eq_ofList_toDigits, String.toList_ofList]

theorem toString_natCast (n : ℕ) : toString (n : ℤ) = toString n := rfl

theorem Amount.toSprxString_eq (a : Amount) :
    a.toSprxString = String.ofList (fixedText 18 a.atto) ++ " SPRX" := by
  have hunit : attoSprxPerSprx = 10 ^ 18 := rfl
  apply String.toList_injective
  unfold Amount.toSprxString fixedText
  rw [hunit]
  dsimp only
  split
  · simp [toString]
  · simp [toString, stripZeros, padded]

theorem WalletCore.attoToSprx_natCast (n : ℕ) :
    WalletCore.attoToSprx n = String.ofList (fixedText 18 n) := by
  have hwhole : (n : ℤ).tdiv (10 ^ 18) = (n / 10 ^ 18 : ℕ) := rfl
  have hrem : (n : ℤ).tmod (10 ^ 18) = (n % 10 ^ 18 : ℕ) := rfl
  apply String.toList_injective
  unfold WalletCore.attoToSprx fixedText
  rw [hwhole, hrem]
  dsimp only
  rw [toString_natCast, toString_natCast, toList_toString, ← padded]
  by_cases hzero : n % 10 ^ 18 = 0
  · rw [if_pos (Int.natCast_eq_zero.mpr hzero), if_pos hzero]
    simp
  · rw [if_neg (fun hcast => hzero (Int.natCast_eq_zero.mp hcast)), if_neg hzero]
    simp [toString]

theorem Backend.attoToSprx_natCast (n : ℕ) :
    Backend.attoToSprx n = String.ofList (fixedText 18 n) := by
  have hwhole : (n : ℤ).fdiv (10 ^ 18) = (n / 10 ^ 18 : ℕ) := (Int.ofNat_fdiv n (10 ^ 18)).symm
  have hfrac : (n : ℤ).fmod (10 ^ 18) = (n % 10 ^ 18 : ℕ) := (Int.ofNat_fmod n (10 ^ 18)).symm
  have hzero := stripZeros_padded_eq_nil_iff 18 (n % 10 ^ 18)
  apply String.toList_injective
  unfold Backend.attoToSprx fixedText
  rw [hwhole, hfrac]
  dsimp only
  rw [toString_natCast, toString_natCast, toList_toString, ← padded]
  by_cases hrem : n % 10 ^ 18 = 0
  · rw [if_neg (not_not.mpr (hzero.mpr hrem)), if_pos hrem]
    simp
  · rw [if_pos (fun hnil => hrem (hzero.mp hnil)), if_neg hrem]
    simp [toString]

namespace WalletCore

/-- The text between the white space around it. -/
def trimmed (s : String) : List Char := strip isSpace s.toList

/-- The digits of the whole units, a zero if there are none. -/
def wholePiece (cs : List Char) : List Char := if (whole cs).isEmpty then ['0'] else whole cs

/-- The fraction, filled up or cut to 18 characters. -/
def fractionPiece (fraction : List Char) : List Char := (fraction.rightpad 18 '0').take 18

theorem bigInt_standard_ok_iff (js : Libraries) (cs : List Char) (n : ℤ) :
    js.standard.bigInt (String.ofList cs) = .ok n ↔ Js.bigInt cs = some n := by
  simp only [Libraries.standard, String.toList_ofList]
  cases Js.bigInt cs with
  | none => simp
  | some m => simp

theorem wholeText_eq (cs : List Char) :
    (if (whole cs).isEmpty then "0" else String.ofList (whole cs)) =
      String.ofList (wholePiece cs) := by
  unfold wholePiece
  split <;> rfl

/-- The wallet reads what stands before the dot and what stands behind it as integers. -/
theorem sprxToAtto_ok_iff (js : Libraries) (s : String) (n : ℤ) :
    sprxToAtto js.standard s = .ok n ↔ '.' ∉ fraction (trimmed s) ∧
      ∃ units rest, Js.bigInt (wholePiece (trimmed s)) = some units ∧
        Js.bigInt (fractionPiece (fraction (trimmed s))) = some rest ∧
          n = units * 10 ^ 18 + rest := by
  have htrim : (js.standard.trim s).toList = trimmed s := by simp [Libraries.standard, trimmed]
  unfold sprxToAtto
  rw [htrim, splitOn_dot]
  by_cases hdot : '.' ∈ trimmed s
  · rw [if_pos hdot, splitOn_dot]
    by_cases hsecond : '.' ∈ fraction (trimmed s)
    · -- a second dot
      rw [if_pos hsecond]
      obtain ⟨part, parts, hparts⟩ := List.exists_cons_of_ne_nil
        (List.splitOn_ne_nil (a := '.') (fraction (fraction (trimmed s))))
      simp only [hparts, hsecond, not_true_eq_false, false_and, iff_false]
      exact fun h => by cases h
    · rw [if_neg hsecond]
      simp only [hsecond, not_false_eq_true, true_and, wholeText_eq, bind_eq_ok_iff,
        bigInt_standard_ok_iff]
      rw [← fractionPiece]
      constructor
      · rintro ⟨units, hunits, rest, hrest, h⟩
        cases h
        exact ⟨units, rest, hunits, hrest, rfl⟩
      · rintro ⟨units, rest, hunits, hrest, rfl⟩
        exact ⟨units, hunits, rest, hrest, rfl⟩
  · rw [if_neg hdot]
    have hzero : Js.bigInt (fractionPiece []) = some 0 := by decide
    have htext := wholeText_eq (trimmed s)
    rw [whole_of_not_mem hdot] at htext
    simp only [htext, fraction_of_not_mem hdot, List.not_mem_nil, not_false_eq_true, true_and,
      hzero, Option.some.injEq, bind_eq_ok_iff, bigInt_standard_ok_iff]
    constructor
    · rintro ⟨units, hunits, h⟩
      cases h
      exact ⟨units, 0, hunits, rfl, (add_zero _).symm⟩
    · rintro ⟨units, rest, hunits, rfl, rfl⟩
      exact ⟨units, hunits, congrArg _ (add_zero _).symm⟩

theorem solid_fixedText (k n : ℕ) : ∀ c ∈ fixedText k n, isSpace c = false := by
  intro c hc
  rcases (isNumeral_fixedText k n).isDigit_or_dot hc with hdigit | rfl
  · exact isSpace_of_isDigit hdigit
  · decide

/-- The wallet reads an amount back from the text it shows it with. -/
theorem sprxToAtto_fixedText (js : Libraries) (n : ℕ) :
    sprxToAtto js.standard (String.ofList (fixedText 18 n)) = .ok n := by
  have hdigits := isNumeral_fixedText 18 n
  have htrim : trimmed (String.ofList (fixedText 18 n)) = fixedText 18 n := by
    rw [trimmed, String.toList_ofList, strip_eq_self (solid_fixedText 18 n)]
  have hwhole : wholePiece (fixedText 18 n) = Nat.toDigits 10 (n / 10 ^ 18) := by
    rw [wholePiece, whole_fixedText, if_neg]
    exact fun hnil => Nat.toDigits_ne_nil (List.isEmpty_iff.mp hnil)
  have hlength : (padded 18 (n % 10 ^ 18)).length = 18 :=
    length_padded (by decide) (Nat.mod_lt _ (by decide))
  have hfraction : fractionPiece (fraction (fixedText 18 n)) = padded 18 (n % 10 ^ 18) := by
    rw [fractionPiece, rightpad_fraction_fixedText n (by decide), List.take_of_length_le hlength.le]
  rw [sprxToAtto_ok_iff, htrim, hwhole, hfraction]
  refine ⟨not_mem_of_allDigits hdigits.fraction_digits, (n / 10 ^ 18 : ℕ), (n % 10 ^ 18 : ℕ),
    ?_, ?_, ?_⟩
  · rw [Js.bigInt_of_allDigits Nat.toDigits_ne_nil (allDigits_toDigits _), value_toDigits]
  · rw [Js.bigInt_of_allDigits _ (allDigits_padded _ _), value_padded]
    intro hnil
    rw [hnil] at hlength
    cases hlength
  · exact_mod_cast (Nat.div_add_mod' n (10 ^ 18)).symm

end WalletCore

/-- The three texts of an amount are one, its exact value in whole units, and the wallet reads
it back. -/
theorem amount_texts_agree (js : WalletCore.Libraries) (a : Amount) :
    numeralValue (WalletCore.attoToSprx a.atto).toList = a.atto / 10 ^ 18 ∧
    a.toSprxString = WalletCore.attoToSprx a.atto ++ " SPRX" ∧
    a.toSprxString = Backend.attoToSprx a.atto ++ " SPRX" ∧
    WalletCore.sprxToAtto js.standard (WalletCore.attoToSprx a.atto) = .ok (a.atto : ℤ) := by
  refine ⟨?_, ?_, ?_, ?_⟩
  · rw [WalletCore.attoToSprx_natCast, String.toList_ofList]
    exact numeralValue_fixedText a.atto (by decide)
  · rw [a.toSprxString_eq, WalletCore.attoToSprx_natCast]
  · rw [a.toSprxString_eq, Backend.attoToSprx_natCast]
  · rw [WalletCore.attoToSprx_natCast]
    exact WalletCore.sprxToAtto_fixedText js a.atto

end Sprax
