import Mathlib.Data.List.GetD
import Sprax.Amounts

/-!
# The parsers of addresses

The node reads an address in `Address::parse` and, for its RPC, in `parse_address`;
the TypeScript wallet in `parseToBytes`. All three read 40 hexadecimal digits behind
`0x`. The node reads them without the mark too, the wallet behind `0X` too. The wallet
takes bech32 texts of either case, `Address::parse` those that start with `sprax`.
Apart from these forms the two agree on every text, and the RPC agrees with
`Address::parse` on every text that does not start with `sprax`.
-/
namespace Sprax
open Literals

namespace Text

theorem utf8_ofList (cs : List Char) :
    (String.ofList cs).toUTF8.data.toList = cs.flatMap String.utf8EncodeChar := by
  change (String.ofList cs).toByteArray.data.toList = _
  rw [String.toByteArray_ofList]
  simp [List.utf8Encode]

/-- The byte is a digit, of either case. -/
def IsHexByte (b : UInt8) : Prop :=
  48 ≤ b.toNat ∧ b.toNat ≤ 57 ∨ 65 ≤ b.toNat ∧ b.toNat ≤ 70 ∨ 97 ≤ b.toNat ∧ b.toNat ≤ 102

theorem isHexByte_of_hexVal {b : UInt8} {index n : ℕ} (h : hexVal b index = .ok n) :
    IsHexByte b := by
  unfold hexVal at h
  dsimp only at h
  split at h
  · rename_i hupper
    exact Or.inr (Or.inl hupper)
  · split at h
    · rename_i hlower
      exact Or.inr (Or.inr hlower)
    · split at h
      · rename_i hdigit
        exact Or.inl hdigit
      · cases h

theorem hexPairs_ok {index : ℕ} {digits bs : Bytes} (h : hexPairs index digits = .ok bs)
    (heven : digits.length % 2 = 0) : digits.length = 2 * bs.length ∧
      ∀ b ∈ digits, IsHexByte b := by
  induction index, digits using hexPairs.induct generalizing bs with
  | case1 index hi lo rest ih =>
    rw [hexPairs] at h
    obtain ⟨m, hhi, h⟩ := exists_of_bind_ok h
    obtain ⟨n, hlo, h⟩ := exists_of_bind_ok h
    obtain ⟨tail, hrest, h⟩ := exists_of_bind_ok h
    cases h
    simp only [List.length_cons] at heven ⊢
    obtain ⟨hlength, hbytes⟩ := ih hrest (by omega)
    refine ⟨by omega, ?_⟩
    simp only [List.forall_mem_cons]
    exact ⟨isHexByte_of_hexVal hhi, isHexByte_of_hexVal hlo, hbytes⟩
  | case2 digits index hshort =>
    cases digits with
    | nil =>
      cases h
      exact ⟨rfl, fun b hb => absurd hb List.not_mem_nil⟩
    | cons hi rest =>
      cases rest with
      | nil => cases heven
      | cons lo rest => exact absurd rfl (hshort hi lo rest)

/-- A character outside ASCII starts with a byte that is no digit. -/
theorem length_utf8EncodeChar {c : Char} (h : ∀ b ∈ String.utf8EncodeChar c, IsHexByte b) :
    (String.utf8EncodeChar c).length = 1 := by
  have hfirst : ∀ {n : ℕ}, 192 ≤ n → n < 256 → ¬ IsHexByte (UInt8.ofNat n) := by
    intro n hlow hhigh hdigit
    have hn : (UInt8.ofNat n).toNat = n := by
      rw [UInt8.toNat_ofNat']
      exact Nat.mod_eq_of_lt hhigh
    unfold IsHexByte at hdigit
    omega
  unfold String.utf8EncodeChar at h ⊢
  dsimp only at h ⊢
  split
  · rfl
  · rename_i hlarge
    rw [if_neg hlarge] at h
    split
    · rename_i hsize
      rw [if_pos hsize] at h
      exact absurd (h _ List.mem_cons_self) (hfirst (by omega) (by omega))
    · rename_i hsize
      rw [if_neg hsize] at h
      split
      · rename_i hsize'
        rw [if_pos hsize'] at h
        exact absurd (h _ List.mem_cons_self) (hfirst (by omega) (by omega))
      · rename_i hsize'
        rw [if_neg hsize'] at h
        exact absurd (h _ List.mem_cons_self) (hfirst (by omega) (by omega))

theorem hexDecode_ok {cs : List Char} {bs : Bytes} (h : hexDecode (String.ofList cs) = .ok bs) :
    cs.length = 2 * bs.length ∧ ∀ c ∈ cs, ∀ b ∈ String.utf8EncodeChar c, IsHexByte b := by
  unfold hexDecode at h
  rw [utf8_ofList] at h
  dsimp only at h
  split at h
  · cases h
  · rename_i heven
    obtain ⟨hlength, hbytes⟩ := hexPairs_ok h (by omega)
    have hchars : ∀ c ∈ cs, ∀ b ∈ String.utf8EncodeChar c, IsHexByte b :=
      fun c hc b hb => hbytes b (List.mem_flatMap.mpr ⟨c, hc, hb⟩)
    refine ⟨?_, hchars⟩
    have hone : cs.map (fun c => (String.utf8EncodeChar c).length) = cs.map (fun _ => 1) :=
      List.map_congr_left (fun c hc => length_utf8EncodeChar (hchars c hc))
    rw [List.length_flatMap, hone] at hlength
    simpa using hlength

end Text

namespace Address

/-- The address written in hexadecimal, without a mark. -/
def hex20 (digits : List Char) : Option Address :=
  (Text.hexDecode (String.ofList digits)).toOption.bind fromSlice

/-- A character that is no digit spoils the text. -/
theorem hex20_eq_none {digits : List Char} {c : Char} (hc : c ∈ digits)
    (hdigit : ∃ b ∈ String.utf8EncodeChar c, ¬ Text.IsHexByte b) : hex20 digits = none := by
  unfold hex20
  cases hdecode : Text.hexDecode (String.ofList digits) with
  | error e => rfl
  | ok bs =>
    obtain ⟨b, hb, hnot⟩ := hdigit
    exact absurd ((Text.hexDecode_ok hdecode).2 c hc b hb) hnot

theorem fromHex_of_mark {s : String} {digits : List Char} (h : s.toList = '0' :: 'x' :: digits) :
    fromHex s = hex20 digits := by
  rw [fromHex, Text.stripMark, h]
  rfl

theorem fromHex_of_no_mark {s : String} (h : ∀ digits, s.toList ≠ '0' :: 'x' :: digits) :
    fromHex s = hex20 s.toList := by
  have hstrip : Text.stripMark s = s := by
    unfold Text.stripMark
    split
    · rename_i digits hs
      exact absurd hs (h digits)
    · rfl
  rw [fromHex, hstrip, hex20, String.ofList_toList]

end Address

section Parsers
variable {P : Primitives} {B : Bech32 P} {js : WalletCore.Libraries}

/-- The digits behind a mark, as the wallet reads them. -/
theorem WalletCore.hex_toOption (digits : List Char) :
    (match Text.hexDecode (String.ofList digits) with
      | .ok bs => if digits.length = 40 then Except.ok bs
        else .error "Invalid 0x hex address: must be 40 hexadecimal characters"
      | .error _ => .error "Invalid 0x hex address: must be 40 hexadecimal characters").toOption =
      (Address.hex20 digits).map (·.bytes) := by
  unfold Address.hex20
  cases hdecode : Text.hexDecode (String.ofList digits) with
  | error e => rfl
  | ok bs =>
    have hlength := (Text.hexDecode_ok hdecode).1
    dsimp only [Except.toOption, Option.bind_some, Address.fromSlice]
    by_cases h20 : bs.length = 20
    · rw [if_pos (by omega), dif_pos h20]
      rfl
    · rw [if_neg (by omega), dif_neg h20]
      rfl

theorem WalletCore.parseToBytes_of_mark {s : String} {mark : Char} {digits : List Char}
    (hmark : mark = 'x' ∨ mark = 'X') (h : (js.trim s).toList = '0' :: mark :: digits) :
    (WalletCore.parseToBytes B js s).toOption = (Address.hex20 digits).map (·.bytes) := by
  unfold WalletCore.parseToBytes
  dsimp only
  rw [h, ← WalletCore.hex_toOption digits]
  rcases hmark with rfl | rfl
  · rfl
  · rfl

theorem WalletCore.parseToBytes_of_no_mark {s : String}
    (h : ∀ mark digits, mark = 'x' ∨ mark = 'X' → (js.trim s).toList ≠ '0' :: mark :: digits) :
    (WalletCore.parseToBytes B js s).toOption =
    (Address.fromBech32 B (js.trim s)).map (·.bytes) := by
  unfold WalletCore.parseToBytes Address.fromBech32
  dsimp only
  split
  · rename_i digits hs
    exact absurd hs (h 'x' digits (Or.inl rfl))
  · rename_i digits hs
    exact absurd hs (h 'X' digits (Or.inr rfl))
  · cases hdecode : B.decode (js.trim s) with
    | error e => rfl
    | ok result =>
      obtain ⟨hrp, data⟩ := result
      dsimp only
      by_cases hhrp : hrp = "sprax"
      · by_cases h20 : data.length = 20
        · simp [hhrp, h20, Address.fromSlice, Except.toOption]
        · simp [hhrp, h20, Address.fromSlice, Except.toOption]
      · simp [hhrp, Except.toOption]

/-- What BIP-173 says of the texts: they are the human-readable part, a separator and the rest, all
in one case and in printable characters; the part is returned in lower case. -/
structure Bip173 (B : Bech32 P) : Prop where
  decode_starts : ∀ s hrp data, B.decode s = .ok (hrp, data) →
    (hrp ++ "1").toList <+: s.toList ∨ (hrp ++ "1").toList.map Char.toUpper <+: s.toList
  encode_printable : ∀ hrp data s, P.bech32Encode hrp data = .ok s → ∀ c ∈ s.toList,
    33 ≤ c.toNat ∧ c.toNat ≤ 126

/-- The forms that only one of the node and the wallet reads: digits without a mark, digits behind
`0X`, and bech32 in upper case. -/
def Disputed (B : Bech32 P) (t : String) : Prop :=
  Address.hex20 t.toList ≠ none ∨
  (∃ digits, t.toList = '0' :: 'X' :: digits ∧ Address.hex20 digits ≠ none) ∨
  "SPRAX".toList <+: t.toList ∧ Address.fromBech32 B t ≠ none

theorem Bip173.prefix_of_fromBech32 (hB : Bip173 B) {t : String}
    (h : Address.fromBech32 B t ≠ none) :
    "sprax".toList <+: t.toList ∨ "SPRAX".toList <+: t.toList := by
  unfold Address.fromBech32 at h
  split at h
  · exact absurd rfl h
  · rename_i hrp data hdecode
    split at h
    · rename_i hhrp
      subst hhrp
      rcases hB.decode_starts t "sprax" data hdecode with hlower | hupper
      · exact Or.inl ((by decide : "sprax".toList <+: ("sprax" ++ "1").toList).trans hlower)
      · exact Or.inr
          ((by decide : "SPRAX".toList <+: ("sprax" ++ "1").toList.map Char.toUpper).trans hupper)
    · exact absurd rfl h

/-- A text with a letter of the prefix in it is no hexadecimal one. -/
theorem hex20_of_sprax {mark cs : List Char} (h : mark <+: cs) {c : Char} (hc : c ∈ mark)
    (hdigit : ∃ b ∈ String.utf8EncodeChar c, ¬ Text.IsHexByte b) : Address.hex20 cs = none :=
  Address.hex20_eq_none (h.subset hc) hdigit

theorem not_isHexByte_s : ∃ b ∈ String.utf8EncodeChar 's', ¬ Text.IsHexByte b :=
  ⟨115, by decide, by unfold Text.IsHexByte; decide⟩

theorem not_prefix_of_cons {t : String} {c : Char} {cs mark : List Char} {d : Char}
    (h : t.toList = c :: cs) (hne : d ≠ c) : ¬ d :: mark <+: t.toList := by
  rw [h, List.cons_prefix_cons]
  exact fun hprefix => hne hprefix.1

/-- The RPC reads a text as the node does, unless it starts as an address in bech32. -/
theorem parseAddress_eq_parse (hB : Bip173 B) {s : String}
    (h : ¬ "sprax".toList <+: (Text.trim s).toList) :
    Rpc.parseAddress B s = Address.parse B (Text.trim s) := by
  have hsprax : "sprax".toList.isPrefixOf (Text.trim s).toList ≠ true :=
    fun htrue => h (List.isPrefixOf_iff_prefix.mp htrue)
  unfold Rpc.parseAddress Address.parse
  dsimp only
  rw [if_neg hsprax]
  split
  · rename_i hsprx
    obtain ⟨rest, hrest⟩ := List.isPrefixOf_iff_prefix.mp hsprx
    have htext : Text.trim s = "s" ++ String.ofList ("prx".toList ++ rest) := by
      apply String.toList_injective
      rw [← hrest]
      simp
    have hbech : Address.fromBech32 B (Text.trim s) = none := by
      by_contra hsome
      rcases hB.prefix_of_fromBech32 hsome with hlower | hupper
      · exact h hlower
      · exact not_prefix_of_cons hrest.symm (by decide) hupper
    rw [hbech, htext, Rpc.fromHex_of_s]
  · rfl

theorem map_bytes_inj {o o' : Option Address} : o.map (·.bytes) = o'.map (·.bytes) ↔ o = o' := by
  refine (Option.map_injective ?_).eq_iff
  intro a a' h
  cases a
  cases a'
  simp_all

theorem parse_of_not_sprax {t : String} (h : ¬ "sprax".toList <+: t.toList) :
    Address.parse B t = Address.fromHex t := by
  rw [Address.parse, if_neg (fun htrue => h (List.isPrefixOf_iff_prefix.mp htrue))]

/-- Digits behind `0x` are read by both. -/
theorem parse_of_mark {s : String} (htrim : js.trim s = Text.trim s) {digits : List Char}
    (h : (Text.trim s).toList = '0' :: 'x' :: digits) :
    (Address.parse B (Text.trim s)).map (·.bytes) = (WalletCore.parseToBytes B js s).toOption ∧
      ¬ Disputed B (Text.trim s) := by
  constructor
  · rw [WalletCore.parseToBytes_of_mark (Or.inl rfl) (htrim ▸ h),
      parse_of_not_sprax (not_prefix_of_cons h (by decide)), Address.fromHex_of_mark h]
  · rintro (hbare | ⟨digits', hdigits', -⟩ | ⟨hupper, -⟩)
    · refine hbare (Address.hex20_eq_none (c := 'x') ?_ ?_)
      · rw [h]
        exact List.mem_cons_of_mem _ List.mem_cons_self
      · exact ⟨120, by decide, by unfold Text.IsHexByte; decide⟩
    · rw [h] at hdigits'
      cases hdigits'
    · exact not_prefix_of_cons h (by decide) hupper

/-- Digits behind `0X` are read by the wallet. -/
theorem parse_of_upper_mark {s : String} (htrim : js.trim s = Text.trim s) {digits : List Char}
    (h : (Text.trim s).toList = '0' :: 'X' :: digits) :
    (Address.parse B (Text.trim s)).map (·.bytes) = (WalletCore.parseToBytes B js s).toOption ↔
      ¬ Disputed B (Text.trim s) := by
  have hbare : Address.hex20 (Text.trim s).toList = none := by
    refine Address.hex20_eq_none (c := 'X') ?_ ⟨88, by decide, by unfold Text.IsHexByte; decide⟩
    rw [h]
    exact List.mem_cons_of_mem _ List.mem_cons_self
  have hnode : Address.parse B (Text.trim s) = none := by
    rw [parse_of_not_sprax (not_prefix_of_cons h (by decide)), Address.fromHex_of_no_mark, hbare]
    intro digits' hdigits'
    rw [h] at hdigits'
    cases hdigits'
  have hdisputed : Disputed B (Text.trim s) ↔ Address.hex20 digits ≠ none := by
    constructor
    · rintro (hsome | ⟨digits', hdigits', hsome⟩ | ⟨hupper, -⟩)
      · exact absurd hbare hsome
      · rw [h] at hdigits'
        cases hdigits'
        exact hsome
      · exact absurd hupper (not_prefix_of_cons h (by decide))
    · exact fun hsome => Or.inr (Or.inl ⟨digits, h, hsome⟩)
  rw [WalletCore.parseToBytes_of_mark (Or.inr rfl) (htrim ▸ h), hnode, map_bytes_inj, hdisputed,
    not_not]
  exact eq_comm

/-- Without a mark the wallet looks for bech32, and so does the node if the text starts with
`sprax`. -/
theorem parse_of_no_mark (hB : Bip173 B) {s : String} (htrim : js.trim s = Text.trim s)
    (h : ∀ mark digits, mark = 'x' ∨ mark = 'X' → (Text.trim s).toList ≠ '0' :: mark :: digits) :
    (Address.parse B (Text.trim s)).map (·.bytes) = (WalletCore.parseToBytes B js s).toOption ↔
      ¬ Disputed B (Text.trim s) := by
  rw [WalletCore.parseToBytes_of_no_mark (htrim ▸ h), htrim, map_bytes_inj]
  by_cases hsprax : "sprax".toList <+: (Text.trim s).toList
  · have hnode : Address.parse B (Text.trim s) = Address.fromBech32 B (Text.trim s) := by
      rw [Address.parse, if_pos (List.isPrefixOf_iff_prefix.mpr hsprax)]
    refine iff_of_true hnode ?_
    rintro (hbare | ⟨digits, hdigits, -⟩ | ⟨hupper, -⟩)
    · exact hbare (hex20_of_sprax hsprax (c := 's') (by decide) not_isHexByte_s)
    · exact h 'X' digits (Or.inr rfl) hdigits
    · obtain ⟨rest, hrest⟩ := hsprax
      exact not_prefix_of_cons hrest.symm (by decide) hupper
  · rw [parse_of_not_sprax hsprax,
      Address.fromHex_of_no_mark (fun digits => h 'x' digits (Or.inl rfl))]
    -- a text under another prefix that is bech32 is so in upper case, and then not hexadecimal
    have hupper : Address.fromBech32 B (Text.trim s) ≠ none →
        "SPRAX".toList <+: (Text.trim s).toList :=
      fun hsome => (hB.prefix_of_fromBech32 hsome).resolve_left hsprax
    cases hhex : Address.hex20 (Text.trim s).toList with
    | none =>
      constructor
      · rintro hnone (hbare | ⟨digits, hdigits, -⟩ | ⟨-, hsome⟩)
        · exact hbare hhex
        · exact h 'X' digits (Or.inr rfl) hdigits
        · exact hsome hnone.symm
      · intro hclear
        by_contra hsome
        exact hclear (Or.inr (Or.inr ⟨hupper (Ne.symm hsome), Ne.symm hsome⟩))
    | some a =>
      refine iff_of_false (fun hsame => ?_) (fun hclear => hclear (Or.inl (by simp [hhex])))
      have hsome : Address.fromBech32 B (Text.trim s) ≠ none := by simp [← hsame]
      have hnone := hex20_of_sprax (hupper hsome) (c := 'S') (by decide)
        ⟨83, by decide, by unfold Text.IsHexByte; decide⟩
      rw [hhex] at hnone
      cases hnone

/-- The node and the wallet read a text alike unless it is disputed. -/
theorem parse_eq_parseToBytes_iff (hB : Bip173 B) {s : String} (htrim : js.trim s = Text.trim s) :
    (Address.parse B (Text.trim s)).map (·.bytes) = (WalletCore.parseToBytes B js s).toOption ↔
      ¬ Disputed B (Text.trim s) := by
  by_cases hx : ∃ digits, (Text.trim s).toList = '0' :: 'x' :: digits
  · obtain ⟨digits, hdigits⟩ := hx
    obtain ⟨hsame, hclear⟩ := parse_of_mark (B := B) htrim hdigits
    exact iff_of_true hsame hclear
  · by_cases hX : ∃ digits, (Text.trim s).toList = '0' :: 'X' :: digits
    · obtain ⟨digits, hdigits⟩ := hX
      exact parse_of_upper_mark htrim hdigits
    · refine parse_of_no_mark hB htrim ?_
      rintro mark digits (rfl | rfl) hdigits
      · exact hx ⟨digits, hdigits⟩
      · exact hX ⟨digits, hdigits⟩

theorem trim_of_printable (js : WalletCore.Libraries) {s : String}
    (h : ∀ c ∈ s.toList, 33 ≤ c.toNat ∧ c.toNat ≤ 126) :
    Text.trim s = s ∧ js.standard.trim s = s := by
  constructor
  · refine Text.trim_eq_self (fun c hc => ?_)
    obtain ⟨hlow, hhigh⟩ := h c hc
    simp only [Text.isWhiteSpace, Bool.or_eq_false_iff, Bool.and_eq_false_iff, beq_eq_false_iff_ne,
      decide_eq_false_iff_not]
    omega
  · change String.ofList (strip isSpace s.toList) = s
    rw [strip_eq_self, String.ofList_toList]
    intro c hc
    obtain ⟨hlow, hhigh⟩ := h c hc
    simp only [isSpace, Bool.or_eq_false_iff, Bool.and_eq_false_iff, beq_eq_false_iff_ne,
      decide_eq_false_iff_not]
    omega

theorem hexDigit_mem (n : ℕ) : hexDigit n ∈ "0123456789abcdef".toList := by
  unfold hexDigit
  by_cases hn : n < "0123456789abcdef".toList.length
  · rw [List.getD_eq_getElem _ _ hn]
    exact List.getElem_mem hn
  · rw [List.getD_eq_default _ _ (Nat.le_of_not_lt hn)]
    decide

theorem printable_of_all {cs : List Char}
    (h : cs.all (fun c => 33 ≤ c.toNat && c.toNat ≤ 126) = true) :
    ∀ c ∈ cs, 33 ≤ c.toNat ∧ c.toNat ≤ 126 := by
  simpa only [List.all_eq_true, Bool.and_eq_true, decide_eq_true_eq] using h

theorem printable_hexEncode (bs : Bytes) : ∀ c ∈ (hexEncode bs).toList, 33 ≤ c.toNat ∧
    c.toNat ≤ 126 := by
  have hdigits := printable_of_all (show "0123456789abcdef".toList.all _ = true by decide +kernel)
  intro c hc
  rw [hexEncode, String.toList_ofList, List.mem_flatMap] at hc
  obtain ⟨b, -, hb⟩ := hc
  rcases List.mem_pair.mp hb with rfl | rfl
  · exact hdigits _ (hexDigit_mem _)
  · exact hdigits _ (hexDigit_mem _)

theorem printable_toHex (a : Address) : ∀ c ∈ a.toHex.toList, 33 ≤ c.toNat ∧ c.toNat ≤ 126 := by
  intro c hc
  rw [Address.toHex, String.toList_append, List.mem_append] at hc
  rcases hc with hc | hc
  · exact printable_of_all (by decide +kernel) c hc
  · exact printable_hexEncode a.bytes c hc

theorem ok_of_toOption {r : Except String Bytes} {bs : Bytes} (h : r.toOption = some bs) :
    r = .ok bs := by
  cases r with
  | error e => cases h
  | ok bs' =>
    cases h
    rfl

/-- Every parser reads the hexadecimal text of an address. -/
theorem parsers_toHex (hB : Bip173 B) (a : Address) :
    Rpc.parseAddress B a.toHex = some a ∧ Address.parse B (Text.trim a.toHex) = some a ∧
      WalletCore.parseToBytes B js.standard a.toHex = .ok a.bytes := by
  obtain ⟨htrim, hjs⟩ := trim_of_printable js (printable_toHex a)
  have hmark : a.toHex.toList = '0' :: 'x' :: (hexEncode a.bytes).toList := by simp [Address.toHex]
  have hsprax : ¬ "sprax".toList <+: a.toHex.toList := not_prefix_of_cons hmark (by decide)
  have hnode : Address.parse B (Text.trim a.toHex) = some a := by
    rw [htrim, parse_of_not_sprax hsprax, a.fromHex_toHex]
  refine ⟨?_, hnode, ?_⟩
  · rw [parseAddress_eq_parse hB (htrim.symm ▸ hsprax), hnode]
  · have hsame := (parse_of_mark (B := B) (hjs.trans htrim.symm) (htrim.symm ▸ hmark)).1
    rw [hnode] at hsame
    exact ok_of_toOption hsame.symm

/-- The node and the wallet read the bech32 text of an address. -/
theorem parsers_bech32 (hB : Bip173 B) {a : Address} {text : String}
    (h : P.bech32Encode "sprax" a.bytes = .ok text) :
    Address.parse B (Text.trim text) = some a ∧
      WalletCore.parseToBytes B js.standard text = .ok a.bytes := by
  obtain ⟨htrim, hjs⟩ := trim_of_printable js (hB.encode_printable _ _ _ h)
  obtain ⟨rest, hrest⟩ := B.encode_eq _ _ _ h
  have hsprax : "sprax".toList.isPrefixOf text.toList = true := by simp [hrest, List.isPrefixOf]
  have hread : Address.fromBech32 B text = some a := by
    rw [Address.fromBech32, B.decode_encode _ _ _ h]
    exact dif_pos a.length_eq
  refine ⟨by rw [htrim, Address.parse, if_pos hsprax, hread], ok_of_toOption ?_⟩
  rw [WalletCore.parseToBytes_of_no_mark, hjs, hread]
  · rfl
  · rintro mark digits - hdigits
    rw [hjs, hrest] at hdigits
    simp at hdigits

/-- Where the parsers of addresses agree, and that they read what is written. -/
theorem address_parsers_agree (B : Bech32 P) (hB : Bip173 B) (js : WalletCore.Libraries) :
    (∀ s, ¬ "sprax".toList <+: (Text.trim s).toList →
      Rpc.parseAddress B s = Address.parse B (Text.trim s)) ∧
    (∀ s, js.standard.trim s = Text.trim s →
      ((Address.parse B (Text.trim s)).map (·.bytes) =
        (WalletCore.parseToBytes B js.standard s).toOption ↔ ¬ Disputed B (Text.trim s))) ∧
    (∀ a : Address, Rpc.parseAddress B a.toHex = some a ∧
      Address.parse B (Text.trim a.toHex) = some a ∧
      WalletCore.parseToBytes B js.standard a.toHex = .ok a.bytes) ∧
    (∀ (a : Address) text, P.bech32Encode "sprax" a.bytes = .ok text →
      Address.parse B (Text.trim text) = some a ∧
        WalletCore.parseToBytes B js.standard text = .ok a.bytes) :=
  ⟨fun _ h => parseAddress_eq_parse hB h, fun _ h => parse_eq_parseToBytes_iff hB h,
    fun a => parsers_toHex hB a, fun _ _ h => parsers_bech32 hB h⟩

end Parsers

section Development
open Devnet

/-- The development decoder, with a look at the prefix. -/
def strictBech32 : Bech32 walletPrimitives where
  decode s :=
    if "sprax1".toList <+: s.toList then walletBech32.decode s else .error "missing prefix"
  decode_encode hrp data s h := by
    obtain ⟨rfl, rfl⟩ := walletPrimitives_encode h
    rw [if_pos (by simp)]
    exact walletBech32.decode_encode _ _ _ h
  encode_eq := walletBech32.encode_eq

theorem strictBech32_bip173 : Bip173 strictBech32 where
  decode_starts s hrp data h := by
    unfold strictBech32 at h
    dsimp only at h
    split at h
    · rename_i hstarts
      unfold walletBech32 at h
      dsimp only at h
      split at h
      · cases h
        exact Or.inl hstarts
      · cases h
    · cases h
  encode_printable hrp data s h := by
    obtain ⟨rfl, rfl⟩ := walletPrimitives_encode h
    intro c hc
    rw [String.toList_append, List.mem_append] at hc
    rcases hc with hc | hc
    · exact printable_of_all (by decide +kernel) c hc
    · exact printable_hexEncode data c hc

theorem address_parsers_agree_devnet :
    Rpc.parseAddress strictBech32 (addressOf 3).toHex = some (addressOf 3) ∧
    Address.parse strictBech32 (Text.trim ("sprax1" ++ hexEncode (addressOf 3).bytes)) =
      some (addressOf 3) :=
  ⟨((address_parsers_agree strictBech32 strictBech32_bip173 walletJs).2.2.1 (addressOf 3)).1,
    ((address_parsers_agree strictBech32 strictBech32_bip173 walletJs).2.2.2 (addressOf 3) _ rfl).1⟩

/-- Digits without a mark are an address for the node, digits behind `0X` or behind a byte order
mark for the wallet; and the RPC refuses bech32. -/
theorem address_parsers_differ :
    let a := addressOf 3
    let digits := hexEncode a.bytes
    let wallet (s : String) := (WalletCore.parseToBytes strictBech32 walletJs.standard s).toOption
    (Rpc.parseAddress strictBech32 digits = some a ∧
      Address.parse strictBech32 (Text.trim digits) = some a ∧
      wallet digits = none) ∧
    (Rpc.parseAddress strictBech32 ("0X" ++ digits) = none ∧
      Address.parse strictBech32 (Text.trim ("0X" ++ digits)) = none ∧
      wallet ("0X" ++ digits) = some a.bytes) ∧
    (Address.parse strictBech32
      (Text.trim (String.singleton (Char.ofNat 0xFEFF) ++ a.toHex)) = none ∧
      wallet (String.singleton (Char.ofNat 0xFEFF) ++ a.toHex) = some a.bytes) ∧
    Rpc.parseAddress strictBech32 ("sprax1" ++ digits) = none ∧
    wallet ("sprax1" ++ digits) = some a.bytes := by
  decide +kernel

end Development

end Sprax
