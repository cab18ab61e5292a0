import Mathlib.Data.Nat.Digits.Defs
import Mathlib.Tactic.Ring

/-!
# Regrouping bits

A list of groups of `w` bits, the first group highest, stands for a number. The same
bits in groups of another size are the number shifted by the zero bits that fill up the
last group. Padding is less than a group, so it is determined by the lengths, and each
of the two lists by the other.
-/
namespace Sprax.Regrouping

/-- Every group has `w` bits. -/
def Fits (w : ℕ) (groups : List ℕ) : Prop := ∀ g ∈ groups, g < 2 ^ w

/-- The number that the groups spell, the first group highest. -/
def number (w : ℕ) (groups : List ℕ) : ℕ := Nat.ofDigits (2 ^ w) groups.reverse

@[simp] theorem number_nil (w : ℕ) : number w [] = 0 := rfl

theorem number_append (w : ℕ) (xs ys : List ℕ) :
    number w (xs ++ ys) = number w xs * 2 ^ (w * ys.length) + number w ys := by
  simp only [number, List.reverse_append, Nat.ofDigits_append, List.length_reverse, pow_mul]
  ring

theorem number_cons (w g : ℕ) (groups : List ℕ) :
    number w (g :: groups) = g * 2 ^ (w * groups.length) + number w groups := by
  simpa [number] using number_append w [g] groups

theorem fits_append {w : ℕ} {xs ys : List ℕ} : Fits w (xs ++ ys) ↔ Fits w xs ∧ Fits w ys := by
  simp [Fits, or_imp, forall_and]

theorem fits_cons {w g : ℕ} {groups : List ℕ} : Fits w (g :: groups) ↔ g < 2 ^ w ∧
    Fits w groups := by
  simp [Fits]

/-- Groups are determined by how many they are and by their number. -/
theorem eq_of_number_eq {w : ℕ} (hw : 0 < w) {xs ys : List ℕ} (hlength : xs.length = ys.length)
    (hxs : Fits w xs) (hys : Fits w ys) (h : number w xs = number w ys) : xs = ys := by
  refine List.reverse_inj.mp (Nat.ofDigits_inj_of_len_eq (Nat.one_lt_two_pow hw.ne') ?_ ?_ ?_ h)
  · simpa using hlength
  · simpa [Fits] using hxs
  · simpa [Fits] using hys

/-- The bits of `xs`, in groups of `w`, with less than a group of zeros behind them are those of
`ys`, in groups of `v`. -/
structure Padded (w v : ℕ) (xs ys : List ℕ) : Prop where
  fits : Fits w xs
  fits_padded : Fits v ys
  bits_eq : ∃ p < v, v * ys.length = w * xs.length + p ∧ number v ys = number w xs * 2 ^ p

variable {w v : ℕ} {xs xs' ys ys' : List ℕ}

/-- Full groups and what is left are determined by their sum. -/
theorem mul_add_inj {m n p q : ℕ} (h : v * m + p = v * n + q) (hp : p < v) (hq : q < v) :
    m = n ∧ p = q := by
  have hmod := congrArg (· % v) h
  simp only [Nat.mul_add_mod, Nat.mod_eq_of_lt hp, Nat.mod_eq_of_lt hq] at hmod
  subst hmod
  have hpos : 0 < v := by omega
  exact ⟨Nat.eq_of_mul_eq_mul_left hpos (Nat.add_right_cancel h), rfl⟩

theorem Padded.unique (h : Padded w v xs ys) (h' : Padded w v xs ys') : ys = ys' := by
  obtain ⟨p, hp, hlength, hnumber⟩ := h.bits_eq
  obtain ⟨q, hq, hlength', hnumber'⟩ := h'.bits_eq
  have hround : v * ys.length + q = v * ys'.length + p := by omega
  obtain ⟨hsame, rfl⟩ := mul_add_inj hround hq hp
  exact eq_of_number_eq (by omega) hsame h.fits_padded h'.fits_padded (hnumber.trans hnumber'.symm)

/-- If the groups do not get larger, the bits can be read back. -/
theorem Padded.injective (hle : v ≤ w) (h : Padded w v xs ys) (h' : Padded w v xs' ys) :
    xs = xs' := by
  obtain ⟨p, hp, hlength, hnumber⟩ := h.bits_eq
  obtain ⟨q, hq, hlength', hnumber'⟩ := h'.bits_eq
  obtain ⟨hlengths, rfl⟩ :=
    mul_add_inj (hlength.symm.trans hlength') (hp.trans_le hle) (hq.trans_le hle)
  refine eq_of_number_eq (by omega) hlengths h.fits h'.fits ?_
  exact Nat.eq_of_mul_eq_mul_right (Nat.two_pow_pos p) (hnumber.symm.trans hnumber')

/-- A number of `bits` bits is cut into groups of `v` and less than a group that is left open. -/
structure Cut (v bits n : ℕ) (groups : List ℕ) (left r : ℕ) : Prop where
  left_lt : left < v
  bits_eq : bits = v * groups.length + left
  fits : Fits v groups
  r_lt : r < 2 ^ left
  number_eq : n = number v groups * 2 ^ left + r

variable {bits n m k left left' r r' : ℕ} {groups more : List ℕ}

theorem Cut.nil (hbits : bits < v) (hn : n < 2 ^ bits) : Cut v bits n [] bits n where
  left_lt := hbits
  bits_eq := by simp
  fits := by simp [Fits]
  r_lt := hn
  number_eq := by simp

/-- One more group at the top. -/
theorem Cut.cons (h : Cut v bits n groups left r) {g : ℕ} (hg : g < 2 ^ v) :
    Cut v (bits + v) (g * 2 ^ bits + n) (g :: groups) left r where
  left_lt := h.left_lt
  bits_eq := by
    rw [h.bits_eq, List.length_cons, Nat.mul_succ]
    omega
  fits := fits_cons.mpr ⟨hg, h.fits⟩
  r_lt := h.r_lt
  number_eq := by
    rw [number_cons, h.number_eq, h.bits_eq, pow_add]
    ring

/-- The bits left open are cut further when `m` more arrive. -/
theorem Cut.append (h : Cut v bits n groups left r)
    (hmore : Cut v (left + m) (r * 2 ^ m + k) more left' r') :
    Cut v (bits + m) (n * 2 ^ m + k) (groups ++ more) left' r' where
  left_lt := hmore.left_lt
  bits_eq := by
    have hlength := hmore.bits_eq
    rw [h.bits_eq, List.length_append, Nat.mul_add]
    omega
  fits := fits_append.mpr ⟨h.fits, hmore.fits⟩
  r_lt := hmore.r_lt
  number_eq := by
    have hpow : 2 ^ left * 2 ^ m = 2 ^ (v * more.length) * 2 ^ left' := by
      rw [← pow_add, ← pow_add, hmore.bits_eq]
    calc n * 2 ^ m + k = number v groups * (2 ^ left * 2 ^ m) + (r * 2 ^ m + k) := by
          rw [h.number_eq]
          ring
      _ = (number v groups * 2 ^ (v * more.length) + number v more) * 2 ^ left' + r' := by
          rw [hpow, hmore.number_eq]
          ring
      _ = number v (groups ++ more) * 2 ^ left' + r' := by rw [number_append]

/-- Filled up with zeros, the open bits are the last group. -/
theorem Cut.padded (h : Cut v (w * xs.length) (number w xs) groups left r) (hxs : Fits w xs) :
    Padded w v xs (if 0 < left then groups ++ [r * 2 ^ (v - left)] else groups) := by
  have hpow : 2 ^ v = 2 ^ left * 2 ^ (v - left) := by
    rw [← pow_add, Nat.add_sub_cancel' h.left_lt.le]
  have hleft := h.left_lt
  have hbits := h.bits_eq
  by_cases hopen : 0 < left
  · rw [if_pos hopen]
    refine ⟨hxs, fits_append.mpr ⟨h.fits, ?_⟩, v - left, by omega, ?_, ?_⟩
    · simpa [Fits, hpow] using h.r_lt
    · simp only [List.length_append, List.length_singleton, Nat.mul_succ]
      omega
    · rw [number_append, h.number_eq, List.length_singleton, Nat.mul_one, hpow]
      simp only [number, List.reverse_singleton, Nat.ofDigits_singleton]
      ring
  · rw [if_neg hopen]
    have hzero : left = 0 := by omega
    subst hzero
    have hr : r = 0 := by simpa using h.r_lt
    refine ⟨hxs, h.fits, 0, hleft, by omega, ?_⟩
    rw [h.number_eq, hr]
    ring

/-- The groups are what was padded exactly if the open bits are zeros and less than a group. -/
theorem Cut.padded_iff (hle : w ≤ v) (h : Cut v (w * xs.length) (number w xs) groups left r)
    (hxs : Fits w xs) (ys : List ℕ) : Padded v w ys xs ↔ left < w ∧ r = 0 ∧ ys = groups := by
  have hleft := h.left_lt
  constructor
  · intro hpadded
    obtain ⟨p, hp, hlength, hnumber⟩ := hpadded.bits_eq
    obtain ⟨-, rfl⟩ := mul_add_inj (h.bits_eq.symm.trans hlength) hleft (hp.trans_le hle)
    have hvalue : number v groups * 2 ^ left + r = number v ys * 2 ^ left :=
      h.number_eq.symm.trans hnumber
    have hr : r = 0 := by
      have hrmod := congrArg (· % 2 ^ left) hvalue
      simpa [Nat.mod_eq_of_lt h.r_lt] using hrmod
    subst hr
    exact ⟨hp, rfl, (hpadded.injective hle ⟨h.fits, hxs, left, hp, h.bits_eq, h.number_eq⟩)⟩
  · rintro ⟨hlt, rfl, rfl⟩
    exact ⟨h.fits, hxs, left, hlt, h.bits_eq, h.number_eq⟩

end Sprax.Regrouping
