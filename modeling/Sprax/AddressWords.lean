import Sprax.Regrouping
import Sprax.Wallet

/-!
# The words of an address in the mobile wallet

`_convertBits` regroups bits with a masked accumulator. The mask keeps every open bit,
so at any point the groups that were emitted and the open bits together spell the data
that was read. From bytes to words the open bits are filled up with zeros, from words to
bytes they have to be zeros and less than a word: the two directions are converse to
each other.
-/
namespace Sprax.MobileWallet
open Regrouping

/-- The inner loop cuts full groups off the open bits. -/
theorem drain_cut {v : ℕ} (hv : 0 < v) (acc fuel bits : ℕ) (hfuel : bits ≤ fuel) :
    Cut v bits (acc % 2 ^ bits) (drain v acc fuel bits).1 (drain v acc fuel bits).2
      (acc % 2 ^ (drain v acc fuel bits).2) := by
  induction fuel generalizing bits with
  | zero =>
    have hzero : bits = 0 := by omega
    subst hzero
    exact Cut.nil hv (Nat.mod_lt _ (by simp))
  | succ fuel ih =>
    rw [drain]
    split
    · rename_i hle
      have hsplit : acc % 2 ^ bits =
          (acc >>> (bits - v)) % 2 ^ v * 2 ^ (bits - v) + acc % 2 ^ (bits - v) := by
        have hpow : 2 ^ bits = 2 ^ (bits - v) * 2 ^ v := by
          rw [← pow_add]
          congr 1
          omega
        rw [hpow, Nat.mod_mul, Nat.shiftRight_eq_div_pow]
        ring
      have hcut := (ih (bits - v) (by omega)).cons
        (Nat.mod_lt (acc >>> (bits - v)) (Nat.two_pow_pos v))
      rw [Nat.sub_add_cancel hle, ← hsplit] at hcut
      exact hcut
    · rename_i hlt
      exact Cut.nil (Nat.lt_of_not_le hlt) (Nat.mod_lt _ (Nat.two_pow_pos bits))

/-- Reading a value: the mask keeps the open bits and the new ones. -/
theorem masked_mod {w v bits acc value : ℕ} (hbits : bits < v) (hvalue : value < 2 ^ w) :
    (((acc <<< w) ||| value) % 2 ^ (w + v - 1)) % 2 ^ (bits + w) =
      acc % 2 ^ bits * 2 ^ w + value := by
  have hmask : 2 ^ (bits + w) ∣ 2 ^ (w + v - 1) := pow_dvd_pow 2 (by omega)
  rw [Nat.mod_mod_of_dvd _ hmask, ← Nat.shiftLeft_add_eq_or_of_lt hvalue, Nat.shiftLeft_eq,
    add_comm bits w, pow_add, Nat.mod_mul, Nat.mul_add_mod_self_right, Nat.mod_eq_of_lt hvalue,
    Nat.mul_comm acc, Nat.mul_add_div (Nat.two_pow_pos w), Nat.div_eq_of_lt hvalue, Nat.add_zero]
  ring

/-- The check of the loop: what is left of a value above its bits. -/
theorem shiftRight_eq_zero_iff {w value : ℕ} : value >>> w = 0 ↔ value < 2 ^ w := by
  simp [Nat.shiftRight_eq_div_pow]

/-- The loop fails exactly at a value that does not fit; otherwise it cuts the data into groups,
behind the bits that were open before. -/
theorem convertLoop_cut {w v : ℕ} (hv : 0 < v) (data : List ℕ) (acc : ℕ) {bits : ℕ}
    (hbits : bits < v) :
    (¬ Fits w data ∧ ∃ e, convertLoop w v data acc bits = .error e) ∨
    (Fits w data ∧ ∃ groups acc' left, convertLoop w v data acc bits = .ok (groups, acc', left) ∧
      Cut v (bits + w * data.length) (acc % 2 ^ bits * 2 ^ (w * data.length) + number w data) groups
        left (acc' % 2 ^ left)) := by
  induction data generalizing acc bits with
  | nil =>
    refine Or.inr ⟨by simp [Fits], [], acc, bits, rfl, ?_⟩
    simpa using Cut.nil hbits (Nat.mod_lt acc (Nat.two_pow_pos bits))
  | cons value rest ih =>
    rw [convertLoop]
    by_cases hvalue : value < 2 ^ w
    · rw [if_neg (not_not.mpr (shiftRight_eq_zero_iff.mpr hvalue))]
      dsimp only
      generalize hnext : ((acc <<< w) ||| value) % 2 ^ (w + v - 1) = next
      have hcut := drain_cut hv next (bits + w) (bits + w) le_rfl
      generalize hdrained : drain v next (bits + w) (bits + w) = drained at hcut
      have hmasked : next % 2 ^ (bits + w) = acc % 2 ^ bits * 2 ^ w + value := by
        rw [← hnext]
        exact masked_mod hbits hvalue
      rw [hmasked] at hcut
      rcases ih next hcut.left_lt with
        ⟨hmisfit, e, he⟩ | ⟨hfits, groups, acc', left, hok, hmore⟩
      · refine Or.inl ⟨fun h => hmisfit (fits_cons.mp h).2, e, ?_⟩
        rw [he]
        rfl
      · refine Or.inr ⟨fits_cons.mpr ⟨hvalue, hfits⟩, drained.1 ++ groups, acc', left, ?_, ?_⟩
        · rw [hok]
          rfl
        · have happend := hcut.append hmore
          rw [number_cons, List.length_cons, Nat.mul_succ, pow_add]
          convert happend using 1 <;> ring
    · rw [if_pos (fun hzero => hvalue (shiftRight_eq_zero_iff.mp hzero))]
      exact Or.inl ⟨fun h => hvalue (fits_cons.mp h).1, _, rfl⟩

/-- The last group is the open bits, filled up with zeros. -/
theorem shiftLeft_mod {v acc left : ℕ} (hleft : left < v) :
    (acc <<< (v - left)) % 2 ^ v = acc % 2 ^ left * 2 ^ (v - left) := by
  have hpow : 2 ^ v = 2 ^ left * 2 ^ (v - left) := by
    rw [← pow_add, Nat.add_sub_cancel' hleft.le]
  rw [Nat.shiftLeft_eq, hpow, Nat.mul_mod_mul_right]

theorem convertBits_pad {w v : ℕ} (hv : 0 < v) {data : List ℕ} (hdata : Fits w data) :
    ∃ groups, convertBits data w v true = .ok groups ∧ Padded w v data groups := by
  rcases convertLoop_cut (w := w) hv data 0 hv with
    ⟨hmisfit, -⟩ | ⟨hfits, groups, acc, left, hok, hcut⟩
  · exact absurd hdata hmisfit
  · simp only [Nat.zero_mod, Nat.zero_mul, Nat.zero_add] at hcut
    refine ⟨_, ?_, hcut.padded hfits⟩
    rw [convertBits, hok]
    simp only [← shiftLeft_mod hcut.left_lt]
    rfl

/-- Without padding exactly the padded bits of some groups are accepted, and give these. -/
theorem convertBits_unpad_iff {w v : ℕ} (hw : 0 < w) (hle : w ≤ v) (data groups : List ℕ) :
    convertBits data w v false = .ok groups ↔ Padded v w groups data := by
  have hv : 0 < v := by omega
  rcases convertLoop_cut (w := w) hv data 0 hv with
    ⟨hmisfit, e, he⟩ | ⟨hfits, cut, acc, left, hok, hcut⟩
  · rw [convertBits, he]
    exact iff_of_false (fun h => by cases h) (fun h => hmisfit h.fits_padded)
  · simp only [Nat.zero_mod, Nat.zero_mul, Nat.zero_add] at hcut
    have hzero : (acc <<< (v - left)) % 2 ^ v = 0 ↔ acc % 2 ^ left = 0 := by
      rw [shiftLeft_mod hcut.left_lt, Nat.mul_eq_zero]
      exact or_iff_left (Nat.two_pow_pos _).ne'
    rw [hcut.padded_iff hle hfits, convertBits, hok]
    change (if w ≤ left ∨ (acc <<< (v - left)) % 2 ^ v ≠ 0 then _ else _) = _ ↔ _
    split
    · rename_i hrefused
      refine iff_of_false (fun h => by cases h) (fun h => ?_)
      rcases hrefused with hlong | hopen
      · omega
      · exact hopen (hzero.mpr h.2.1)
    · rename_i haccepted
      rw [not_or, not_le, not_not, hzero] at haccepted
      constructor
      · intro h
        cases h
        exact ⟨haccepted.1, haccepted.2, rfl⟩
      · rintro ⟨-, -, rfl⟩
        rfl

theorem fits_bytes (bs : Bytes) : Fits 8 (bs.map UInt8.toNat) := by
  intro g hg
  obtain ⟨b, -, rfl⟩ := List.mem_map.mp hg
  exact b.toNat_lt

/-- Bytes come back from their words. -/
theorem exists_words (x : Bytes) :
    ∃ words, convertBits (x.map UInt8.toNat) 8 5 true = .ok words ∧
      convertBits words 5 8 false = .ok (x.map UInt8.toNat) := by
  obtain ⟨words, hok, hpadded⟩ := convertBits_pad (v := 5) (by decide) (fits_bytes x)
  exact ⟨words, hok, (convertBits_unpad_iff (by decide) (by decide) words _).mpr hpadded⟩

/-- Bytes come back from their words, and words that are accepted from their bytes; so no two lists
of words stand for the same bytes. -/
theorem words_bijection :
    (∀ x : Bytes, ∃ words, convertBits (x.map UInt8.toNat) 8 5 true = .ok words ∧
      convertBits words 5 8 false = .ok (x.map UInt8.toNat)) ∧
    (∀ words y, convertBits words 5 8 false = .ok y → convertBits y 8 5 true = .ok words) ∧
    (∀ words words' y, convertBits words 5 8 false = .ok y → convertBits words' 5 8 false = .ok y →
      words = words') := by
  have hunpad : ∀ words y, convertBits words 5 8 false = .ok y ↔ Padded 8 5 y words :=
    fun words y => convertBits_unpad_iff (by decide) (by decide) words y
  refine ⟨exists_words, fun words y h => ?_, fun words words' y h h' => ?_⟩
  · have hpadded := (hunpad words y).mp h
    obtain ⟨words', hok, hpadded'⟩ := convertBits_pad (v := 5) (by decide) hpadded.fits
    rw [hok, hpadded'.unique hpadded]
  · exact ((hunpad words y).mp h).unique ((hunpad words' y).mp h')

theorem words_bijection_two_bytes :
    convertBits [31, 28, 0, 16] 5 8 false = .ok [255, 1] ∧
      convertBits [255, 1] 8 5 true = .ok [31, 28, 0, 16] :=
  ⟨by decide, words_bijection.2.1 [31, 28, 0, 16] [255, 1] (by decide)⟩

section Addresses
variable (dart : Libraries) (codecDecode : String → Except String (String × List ℕ))

/-- Decodes and validates a bech32 address, over the decoder of the codec. -/
def decodeBech32 (address expectedHrp : String) : Option (List ℕ) :=
  match codecDecode (dart.trim address) with
  | .error _ => none
  | .ok (hrp, data) =>
    if hrp ≠ expectedHrp then none
    else match convertBits data 5 8 false with
      | .error _ => none
      | .ok raw => if raw.length ≠ 20 then none else some raw

variable {dart codecDecode}

/-- The wallet reads the addresses it writes, if the codec does. -/
theorem decodeBech32_encodeToBech32 {raw : Bytes} {s : String} (hlength : raw.length = 20)
    (hencode : encodeToBech32 dart raw = .ok s)
    (hcodec : ∀ words, dart.bech32Codec "sprax" words = .ok s →
      codecDecode (dart.trim s) = .ok ("sprax", words)) :
    decodeBech32 dart codecDecode s "sprax" = some (raw.map UInt8.toNat) := by
  obtain ⟨words, hwords, hback⟩ := exists_words raw
  rw [encodeToBech32, hwords] at hencode
  rw [decodeBech32, hcodec words hencode]
  simp [hback, hlength]

end Addresses

end Sprax.MobileWallet
