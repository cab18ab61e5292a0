import Sprax.Amounts

/-!
# Amounts as users enter them

The wallets read an amount in whole units by splitting the text at the dot and
handing both parts to the integer parser of their language. The fraction is cut
after its 18th character. Where both parts are bare digits the result is the value of
the numeral that is left, in both wallets. The integer parsers take more than digits:
a part with a sign, the mark of a radix or white space around it is read as they
read it, the TypeScript wallet takes a missing number for zero, and the mobile wallet
does not look behind a second dot.
-/
namespace Sprax
open Decimal Literals

namespace MobileWallet

/-- The white space of `String.trim` in Dart. -/
def isTrimmed (c : Char) : Bool := Text.isWhiteSpace c || c.toNat == 0xFEFF

/-- The text without white space around it and without thousands separators. -/
def cleaned (text : String) : List Char := (strip isTrimmed text.toList).filter (· ≠ ',')

def parseSprxToAtto (text : String) : Option ℤ :=
  let clean := cleaned text
  if clean.isEmpty then none
  else
    match clean.splitOn '.' with
    | [] => none
    | first :: rest => do
      let units ← Dart.bigIntParse first
      let wholeAtto := units * 10 ^ 18
      match rest with
      | [] => return wholeAtto
      | frac :: _ =>
        let fracStr := if 18 < frac.length then frac.take 18 else frac.rightpad 18 '0'
        let fracAtto ← Dart.bigIntParse fracStr
        return wholeAtto + fracAtto

end MobileWallet

namespace WalletCore

theorem length_fractionPiece (f : List Char) : (fractionPiece f).length = 18 := by
  simp only [fractionPiece, List.rightpad, List.length_take, List.length_append,
    List.length_replicate]
  omega

/-- Only the first 18 characters of the fraction count. -/
theorem fractionPiece_eq (f : List Char) : fractionPiece f = (f.take 18).rightpad 18 '0' := by
  rw [fractionPiece, List.rightpad, List.rightpad, List.take_append, List.take_replicate,
    List.length_take]
  congr 2
  omega

/-- The mobile wallet cuts and fills up in two branches. -/
theorem ite_eq_fractionPiece (f : List Char) :
    (if 18 < f.length then f.take 18 else f.rightpad 18 '0') = fractionPiece f := by
  rw [fractionPiece_eq]
  split
  · rename_i hlong
    rw [List.rightpad, List.length_take, min_eq_left hlong.le]
    simp
  · rename_i hshort
    rw [List.take_of_length_le (Nat.le_of_not_lt hshort)]

theorem fractionPiece_append {g : List Char} (hg : g.length = 18) (rest : List Char) :
    fractionPiece (g ++ rest) = fractionPiece g := by
  rw [fractionPiece_eq, fractionPiece_eq, List.take_append_of_le_length hg.ge]

end WalletCore

open WalletCore (fractionPiece trimmed wholePiece)

/-- The mobile wallet reads what stands before the first dot and what stands between it and
the next. -/
theorem MobileWallet.parseSprxToAtto_iff (text : String) (n : ℤ) :
    MobileWallet.parseSprxToAtto text = some n ↔ ∃ units rest,
      Dart.bigIntParse (whole (MobileWallet.cleaned text)) = some units ∧
      Dart.bigIntParse (fractionPiece (whole (fraction (MobileWallet.cleaned text)))) = some rest ∧
      n = units * 10 ^ 18 + rest := by
  have hzero : Dart.bigIntParse (fractionPiece []) = some 0 := by decide
  unfold MobileWallet.parseSprxToAtto
  generalize MobileWallet.cleaned text = cs
  dsimp only
  by_cases hempty : cs.isEmpty = true
  · rw [if_pos hempty, List.isEmpty_iff.mp hempty]
    constructor
    · intro h
      cases h
    · rintro ⟨units, rest, hunits, -⟩
      cases hunits
  · rw [if_neg hempty, splitOn_dot]
    by_cases hdot : '.' ∈ cs
    · obtain ⟨more, hmore⟩ := exists_splitOn_dot (fraction cs)
      rw [if_pos hdot, hmore]
      simp only [WalletCore.ite_eq_fractionPiece, Option.bind_eq_bind, Option.bind_eq_some_iff,
        Option.pure_def, Option.some.injEq]
      constructor
      · rintro ⟨units, hunits, rest, hrest, rfl⟩
        exact ⟨units, rest, hunits, hrest, rfl⟩
      · rintro ⟨units, rest, hunits, hrest, rfl⟩
        exact ⟨units, hunits, rest, hrest, rfl⟩
    · rw [if_neg hdot, whole_of_not_mem hdot, fraction_of_not_mem hdot]
      simp only [Option.bind_eq_bind, Option.bind_eq_some_iff, Option.pure_def, Option.some.injEq]
      constructor
      · rintro ⟨units, hunits, rfl⟩
        exact ⟨units, 0, hunits, hzero, (add_zero _).symm⟩
      · rintro ⟨units, rest, hunits, hrest, rfl⟩
        cases hzero.symm.trans hrest
        exact ⟨units, hunits, (add_zero _).symm⟩

/-- The text is a numeral with at most 18 digits behind the dot, and `n` is its value in
atomic units. -/
structure Exact (cs : List Char) (n : ℤ) : Prop where
  numeral : IsNumeral cs
  fraction_le : (fraction cs).length ≤ 18
  value_eq : (n : ℚ) = numeralValue cs * 10 ^ 18

/-- The text with the fraction cut after its 18th character. -/
def cut (cs : List Char) : List Char :=
  if '.' ∈ cs then whole cs ++ '.' :: (fraction cs).take 18 else cs

theorem whole_cut (cs : List Char) : whole (cut cs) = whole cs := by
  unfold cut
  split
  · exact whole_append (not_mem_whole cs) _
  · rfl

theorem fraction_cut (cs : List Char) : fraction (cut cs) = (fraction cs).take 18 := by
  unfold cut
  split
  · exact fraction_append (not_mem_whole cs) _
  · rename_i hdot
    rw [fraction_of_not_mem hdot, List.take_nil]

theorem exact_cut {cs : List Char} (hwhole : AllDigits (whole cs))
    (hfraction : AllDigits ((fraction cs).take 18)) (hsome : whole cs ≠ [] ∨ fraction cs ≠ []) :
    Exact (cut cs) (value (whole cs) * 10 ^ 18 + value (fractionPiece (fraction cs))) := by
  have hle : (fraction (cut cs)).length ≤ 18 := by
    rw [fraction_cut]
    exact List.length_take_le 18 _
  refine ⟨⟨?_, ?_, ?_⟩, hle, ?_⟩
  · rwa [whole_cut]
  · rwa [fraction_cut]
  · rw [whole_cut, fraction_cut]
    rcases hsome with h | h
    · exact Or.inl h
    · exact Or.inr (fun hnil => h ((List.take_eq_nil_iff.mp hnil).resolve_left (by decide)))
  · rw [numeralValue_mul hle, whole_cut, fraction_cut, ← WalletCore.fractionPiece_eq]
    push_cast
    rfl

theorem allDigits_take {f : List Char} (h : AllDigits (fractionPiece f)) :
    AllDigits (f.take 18) := by
  rw [WalletCore.fractionPiece_eq] at h
  exact fun c hc => h c (List.mem_append_left _ hc)

theorem fractionPiece_ne_nil (f : List Char) : fractionPiece f ≠ [] := by
  intro hnil
  have hlength := WalletCore.length_fractionPiece f
  rw [hnil] at hlength
  cases hlength

namespace WalletCore

/-- The text has no digit, or one of its parts is more than digits for the integer parser. -/
def Loose (s : String) : Prop :=
  whole (trimmed s) = [] ∧ fraction (trimmed s) = [] ∨ Adorned (wholePiece (trimmed s)) ∨
    Adorned (fractionPiece (fraction (trimmed s)))

instance decidableLoose (s : String) : Decidable (Loose s) := inferInstanceAs (Decidable (_ ∨ _))

theorem wholePiece_ne_nil (cs : List Char) : wholePiece cs ≠ [] := by
  unfold wholePiece
  split
  · exact List.cons_ne_nil _ _
  · rename_i hne
    exact fun hnil => hne (List.isEmpty_iff.mpr hnil)

theorem value_wholePiece (cs : List Char) : value (wholePiece cs) = value (whole cs) := by
  unfold wholePiece
  split
  · rename_i hempty
    rw [List.isEmpty_iff.mp hempty]
    rfl
  · rfl

theorem allDigits_whole {cs : List Char} (h : AllDigits (wholePiece cs)) :
    AllDigits (whole cs) := by
  unfold wholePiece at h
  split at h
  · rename_i hempty
    rw [List.isEmpty_iff.mp hempty]
    exact fun c hc => absurd hc List.not_mem_nil
  · exact h

/-- What the wallet makes of a text of bare digits. -/
theorem digits_of_sprxToAtto {js : Libraries} {s : String} {n : ℤ}
    (h : sprxToAtto js.standard s = .ok n) (htight : ¬ Loose s) :
    '.' ∉ fraction (trimmed s) ∧ AllDigits (whole (trimmed s)) ∧
      AllDigits ((fraction (trimmed s)).take 18) ∧
      n = value (whole (trimmed s)) * 10 ^ 18 + value (fractionPiece (fraction (trimmed s))) := by
  simp only [Loose, not_or] at htight
  obtain ⟨-, hwhole, hfraction⟩ := htight
  obtain ⟨hdot, units, rest, hunits, hrest, rfl⟩ := (sprxToAtto_ok_iff js s n).mp h
  obtain ⟨hdigits, rfl⟩ := Js.allDigits_of_bigInt (wholePiece_ne_nil _) hwhole hunits
  obtain ⟨hdigits', rfl⟩ := Js.allDigits_of_bigInt (fractionPiece_ne_nil _) hfraction hrest
  exact ⟨hdot, allDigits_whole hdigits, allDigits_take hdigits', by rw [value_wholePiece]⟩

end WalletCore

namespace MobileWallet

/-- The text has a second dot, or one of its parts is more than digits for the integer parser. -/
def Loose (text : String) : Prop :=
  '.' ∈ fraction (cleaned text) ∨ Adorned (whole (cleaned text)) ∨
    Adorned (fractionPiece (fraction (cleaned text)))

instance decidableLoose (text : String) : Decidable (Loose text) :=
  inferInstanceAs (Decidable (_ ∨ _))

theorem exact_of_parseSprxToAtto {text : String} {n : ℤ} (h : parseSprxToAtto text = some n)
    (htight : ¬ Loose text) : Exact (cut (cleaned text)) n := by
  simp only [Loose, not_or] at htight
  obtain ⟨hdot, hwhole, hfraction⟩ := htight
  obtain ⟨units, rest, hunits, hrest, rfl⟩ := (parseSprxToAtto_iff text n).mp h
  rw [whole_of_not_mem hdot] at hrest
  obtain ⟨hne, hdigits, rfl⟩ := Dart.allDigits_of_bigIntParse hwhole hunits
  obtain ⟨-, hdigits', rfl⟩ := Dart.allDigits_of_bigIntParse hfraction hrest
  exact exact_cut hdigits (allDigits_take hdigits') (Or.inl hne)

end MobileWallet

theorem isTrimmed_of_isSpace {c : Char} (h : isSpace c = true) :
    MobileWallet.isTrimmed c = true := by
  simp only [isSpace, Bool.or_eq_true, Bool.and_eq_true, decide_eq_true_eq, beq_iff_eq] at h
  simp only [MobileWallet.isTrimmed, Text.isWhiteSpace, Bool.or_eq_true, Bool.and_eq_true,
    decide_eq_true_eq, beq_iff_eq]
  omega

theorem isTrimmed_of_isDigit {c : Char} (h : c.isDigit = true) :
    MobileWallet.isTrimmed c = false := by
  have hwhite := Text.isWhiteSpace_of_isDigit h
  simp only [Char.isDigit, Bool.and_eq_true, decide_eq_true_eq] at h
  have hhigh : c.toNat ≤ 57 := h.2
  simp only [MobileWallet.isTrimmed, hwhite, Bool.false_or, beq_eq_false_iff_ne]
  omega

theorem append_drop_cut (cs : List Char) : cut cs ++ (fraction cs).drop 18 = cs := by
  unfold cut
  split
  · rename_i hdot
    rw [List.append_assoc, List.cons_append, List.take_append_drop, ← eq_append_of_mem hdot]
  · rename_i hdot
    rw [fraction_of_not_mem hdot, List.drop_nil, List.append_nil]

theorem isTrimmed_of_isNumeral {cs : List Char} (h : IsNumeral cs) :
    ∀ c ∈ cs, MobileWallet.isTrimmed c = false := by
  intro c hc
  rcases h.isDigit_or_dot hc with hdigit | rfl
  · exact isTrimmed_of_isDigit hdigit
  · decide

/-- There is no thousands separator in a numeral. -/
theorem filter_of_isNumeral {cs : List Char} (h : IsNumeral cs) : cs.filter (· ≠ ',') = cs := by
  rw [List.filter_eq_self]
  intro c hc
  rcases h.isDigit_or_dot hc with hdigit | rfl
  · rw [decide_eq_true_eq]
    rintro rfl
    cases hdigit
  · decide

/-- A text whose first 18 places are bare digits is cleaned to the same text, up to what stands
behind them. -/
theorem cleaned_of_numeral {s : String} (hnumeral : IsNumeral (cut (trimmed s)))
    (hdot : '.' ∉ fraction (trimmed s)) :
    ∃ rest, MobileWallet.cleaned s = cut (trimmed s) ++ rest ∧ '.' ∉ rest ∧
      ((fraction (trimmed s)).length ≤ 18 → rest = []) := by
  obtain ⟨front, back, hs, hfront, hback⟩ := exists_append_strip isSpace s.toList
  have hstrip : strip MobileWallet.isTrimmed s.toList =
      cut (trimmed s) ++ ((fraction (trimmed s)).drop 18 ++ back).rdropWhile
        MobileWallet.isTrimmed := by
    rw [hs, ← trimmed]
    nth_rewrite 1 [← append_drop_cut (trimmed s)]
    rw [List.append_assoc]
    exact strip_append (fun c hc => isTrimmed_of_isSpace (hfront c hc)) hnumeral.ne_nil
      (isTrimmed_of_isNumeral hnumeral) _
  refine ⟨(((fraction (trimmed s)).drop 18 ++ back).rdropWhile MobileWallet.isTrimmed).filter
    (· ≠ ','), ?_, ?_, ?_⟩
  · rw [MobileWallet.cleaned, hstrip, List.filter_append, filter_of_isNumeral hnumeral]
  · intro hmem
    have hmem' := List.mem_append.mp
      ((List.rdropWhile_prefix _ _).subset (List.mem_filter.mp hmem).1)
    rcases hmem' with hmem' | hmem'
    · exact hdot (List.mem_of_mem_drop hmem')
    · cases hback '.' hmem'
  · intro hshort
    rw [List.drop_of_length_le hshort, List.nil_append,
      List.rdropWhile_eq_nil_iff.mpr (fun c hc => isTrimmed_of_isSpace (hback c hc))]
    rfl

/-- Both wallets hand the same parts to their integer parsers. -/
theorem parts_of_cleaned {s : String} (hnumeral : IsNumeral (cut (trimmed s)))
    (hdot : '.' ∉ fraction (trimmed s)) :
    whole (MobileWallet.cleaned s) = whole (trimmed s) ∧
      fractionPiece (whole (fraction (MobileWallet.cleaned s))) =
        fractionPiece (fraction (trimmed s)) := by
  obtain ⟨rest, hclean, hrest, hshort⟩ := cleaned_of_numeral hnumeral hdot
  by_cases hmem : '.' ∈ trimmed s
  · rw [cut, if_pos hmem, List.append_assoc, List.cons_append] at hclean
    have hdigits : '.' ∉ (fraction (trimmed s)).take 18 ++ rest := by
      rw [List.mem_append]
      rintro (h | h)
      · exact hdot (List.mem_of_mem_take h)
      · exact hrest h
    rw [hclean, whole_append (not_mem_whole _), fraction_append (not_mem_whole _),
      whole_of_not_mem hdigits]
    refine ⟨rfl, ?_⟩
    by_cases hlength : (fraction (trimmed s)).length ≤ 18
    · rw [hshort hlength, List.append_nil, List.take_of_length_le hlength]
    · have hfull : ((fraction (trimmed s)).take 18).length = 18 := by
        rw [List.length_take]
        omega
      rw [WalletCore.fractionPiece_append hfull, WalletCore.fractionPiece_eq,
        WalletCore.fractionPiece_eq, List.take_take, min_self]
  · have hnone := fraction_of_not_mem hmem
    rw [hshort (by simp [hnone]), List.append_nil, cut, if_neg hmem] at hclean
    rw [hclean, hnone]
    exact ⟨rfl, rfl⟩

/-- Where the parts are bare digits the wallets read the numeral, cut after the 18th place of its
fraction, at its value; so they agree. -/
theorem amount_input_exact (js : WalletCore.Libraries) (s : String) :
    (∀ n, WalletCore.sprxToAtto js.standard s = .ok n → ¬ WalletCore.Loose s →
      Exact (cut (trimmed s)) n) ∧
    (∀ n, MobileWallet.parseSprxToAtto s = some n → ¬ MobileWallet.Loose s →
      Exact (cut (MobileWallet.cleaned s)) n) ∧
    (∀ n m, WalletCore.sprxToAtto js.standard s = .ok n → ¬ WalletCore.Loose s →
      MobileWallet.parseSprxToAtto s = some m → n = m) := by
  have hexact : ∀ n, WalletCore.sprxToAtto js.standard s = .ok n → ¬ WalletCore.Loose s →
      Exact (cut (trimmed s)) n := by
    intro n h htight
    obtain ⟨-, hwhole, hfraction, rfl⟩ := WalletCore.digits_of_sprxToAtto h htight
    refine exact_cut hwhole hfraction ?_
    by_contra hnone
    rw [not_or, not_not, not_not] at hnone
    exact htight (Or.inl hnone)
  refine ⟨hexact, fun n h htight => MobileWallet.exact_of_parseSprxToAtto h htight, ?_⟩
  intro n m hn htight hm
  have hnumeral := (hexact n hn htight).numeral
  obtain ⟨hdot, hwhole, hfraction, rfl⟩ := WalletCore.digits_of_sprxToAtto hn htight
  obtain ⟨hfirst, hsecond⟩ := parts_of_cleaned hnumeral hdot
  obtain ⟨units, rest, hunits, hrest, rfl⟩ := (MobileWallet.parseSprxToAtto_iff s m).mp hm
  rw [hfirst] at hunits
  rw [hsecond] at hrest
  obtain ⟨-, -, rfl⟩ := Dart.allDigits_of_bigIntParse (not_adorned_of_allDigits hwhole) hunits
  obtain ⟨-, -, rfl⟩ := Dart.allDigits_of_bigIntParse (fun h => htight (Or.inr (Or.inr h))) hrest
  rfl

theorem amount_input_exact_half :
    Exact (cut (trimmed " 10.5 ")) 10500000000000000000 ∧
    Exact (cut (MobileWallet.cleaned "1,010.5")) 1010500000000000000000 ∧
    ∀ m, MobileWallet.parseSprxToAtto " 10.5 " = some m → 10500000000000000000 = m :=
  ⟨(amount_input_exact walletJs " 10.5 ").1 _ (by decide +kernel) (by decide +kernel),
    (amount_input_exact walletJs "1,010.5").2.1 _ (by decide +kernel) (by decide +kernel),
    fun m => (amount_input_exact walletJs " 10.5 ").2.2 _ m (by decide +kernel) (by decide +kernel)⟩

/-- A nineteenth place is dropped; minus one and a half is read as minus a half; the mobile wallet
drops what follows a second dot; and white space inside a fraction sets the wallets apart. -/
theorem amount_input_inexact :
    let spaced := String.ofList ("1.5".toList ++ List.replicate 17 ' ' ++ [Char.ofNat 0x85])
    WalletCore.sprxToAtto walletJs.standard "1.0000000000000000019" = .ok 1000000000000000001 ∧
    MobileWallet.parseSprxToAtto "1.0000000000000000019" = some 1000000000000000001 ∧
    ¬ Exact (trimmed "1.0000000000000000019") 1000000000000000001 ∧
    WalletCore.sprxToAtto walletJs.standard "-1.5" = .ok (-500000000000000000) ∧
    ¬ Exact (trimmed "-1.5") (-500000000000000000) ∧
    MobileWallet.parseSprxToAtto "1.2.3" = some 1200000000000000000 ∧
    ¬ Exact (MobileWallet.cleaned "1.2.3") 1200000000000000000 ∧
    WalletCore.sprxToAtto walletJs.standard spaced = .ok 1000000000000000005 ∧
    MobileWallet.parseSprxToAtto spaced = some 1500000000000000000 := by
  refine ⟨by decide +kernel, by decide +kernel, ?_, by decide +kernel, ?_, by decide +kernel, ?_,
    by decide +kernel, by decide +kernel⟩
  · exact fun h => absurd h.fraction_le (by decide +kernel)
  · exact fun h => absurd h.numeral (by decide +kernel)
  · exact fun h => absurd h.numeral (by decide +kernel)

end Sprax
