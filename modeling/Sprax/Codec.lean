import Mathlib.Data.List.Basic
import Mathlib.Tactic.Linarith

/-!
# Self-delimiting byte codecs

A codec reads back exactly what it wrote and leaves the bytes behind it alone.
Records are built from a few combinators, so that the reading law of a record
is never proved by hand. Numbers are written in base 128, low digit first, with
the high bit set on every byte but the last.
-/
namespace Sprax

/-- Writer and reader of self-delimiting values. -/
structure Codec (α : Type) where
  enc : α → List UInt8
  dec : List UInt8 → Option (α × List UInt8)
  dec_enc : ∀ a rest, dec (enc a ++ rest) = some (a, rest)

namespace Codec
variable {α β : Type}

/-- Two values in sequence. -/
def prod (A : Codec α) (B : Codec β) : Codec (α × β) where
  enc p := A.enc p.1 ++ B.enc p.2
  dec bs :=
    match A.dec bs with
    | none => none
    | some (a, bs) =>
      match B.dec bs with
      | none => none
      | some (b, bs) => some ((a, b), bs)
  dec_enc p rest := by simp only [List.append_assoc, A.dec_enc, B.dec_enc]

/-- A type that embeds into one with a codec. -/
def through (A : Codec α) (f : β → α) (g : α → Option β) (h : ∀ b, g (f b) = some b) : Codec β where
  enc b := A.enc (f b)
  dec bs :=
    match A.dec bs with
    | none => none
    | some (a, bs) =>
      match g a with
      | none => none
      | some b => some (b, bs)
  dec_enc b rest := by simp only [A.dec_enc, h]

/-- Base-128 digits; the fuel only has to reach the number itself. -/
def encNat : ℕ → ℕ → List UInt8
  | 0, n => [UInt8.ofNat n]
  | fuel + 1, n =>
    if n < 128 then [UInt8.ofNat n] else UInt8.ofNat (128 + n % 128) :: encNat fuel (n / 128)

def decNat : List UInt8 → Option (ℕ × List UInt8)
  | [] => none
  | b :: bs =>
    if b.toNat < 128 then some (b.toNat, bs)
    else match decNat bs with
      | none => none
      | some (m, bs) => some (b.toNat - 128 + 128 * m, bs)

theorem toNat_ofNat_of_lt {n : ℕ} (h : n < 256) : (UInt8.ofNat n).toNat = n := by
  simp only [UInt8.toNat_ofNat', Nat.reducePow]
  omega

theorem decNat_encNat (fuel n : ℕ) (h : n ≤ fuel) (rest : List UInt8) :
    decNat (encNat fuel n ++ rest) = some (n, rest) := by
  induction fuel generalizing n with
  | zero =>
    have hn : n = 0 := by omega
    subst n
    rfl
  | succ fuel ih =>
    rw [encNat]
    split
    · rename_i hsmall
      have hb := toNat_ofNat_of_lt (n := n) (by omega)
      simp only [List.cons_append, List.nil_append, decNat, hb, if_pos hsmall]
    · rename_i hlarge
      have hb := toNat_ofNat_of_lt (n := 128 + n % 128) (by omega)
      have hrest := ih (n / 128) (by omega)
      have hbig : ¬ 128 + n % 128 < 128 := by omega
      simp only [List.cons_append, decNat, hb, if_neg hbig, hrest]
      congr 2
      omega

def nat : Codec ℕ := ⟨fun n => encNat n n, decNat, fun n rest => decNat_encNat n n le_rfl rest⟩

/-- Reads a given number of values. -/
def decList (A : Codec α) : ℕ → List UInt8 → Option (List α × List UInt8)
  | 0, bs => some ([], bs)
  | count + 1, bs =>
    match A.dec bs with
    | none => none
    | some (a, bs) =>
      match decList A count bs with
      | none => none
      | some (as, bs) => some (a :: as, bs)

theorem decList_flatMap (A : Codec α) (as : List α) (rest : List UInt8) :
    decList A as.length (as.flatMap A.enc ++ rest) = some (as, rest) := by
  induction as with
  | nil => rfl
  | cons a as ih =>
    simp only [List.length_cons, List.flatMap_cons, List.append_assoc, decList, A.dec_enc, ih]

/-- A list is its length followed by its elements. -/
def list (A : Codec α) : Codec (List α) where
  enc as := nat.enc as.length ++ as.flatMap A.enc
  dec bs :=
    match nat.dec bs with
    | none => none
    | some (count, bs) => decList A count bs
  dec_enc as rest := by
    simp only [List.append_assoc, nat.dec_enc, decList_flatMap]

/-- One of two types, told apart by a leading byte. -/
def sum (A : Codec α) (B : Codec β) : Codec (α ⊕ β) where
  enc
    | .inl a => 0 :: A.enc a
    | .inr b => 1 :: B.enc b
  dec
    | [] => none
    | tag :: bs =>
      if tag = 0 then (A.dec bs).map (fun r => (.inl r.1, r.2))
      else (B.dec bs).map (fun r => (.inr r.1, r.2))
  dec_enc x rest := by
    cases x with
    | inl a => simp [A.dec_enc]
    | inr b => simp [B.dec_enc]

def unit : Codec Unit := ⟨fun _ => [], fun bs => some ((), bs), fun _ _ => rfl⟩

def byte : Codec UInt8 :=
  nat.through UInt8.toNat (fun n => some (UInt8.ofNat n)) (fun b => by simp)

def bytes : Codec (List UInt8) := byte.list

def option (A : Codec α) : Codec (Option α) :=
  (unit.sum A).through (fun o => o.elim (.inl ()) .inr)
    (fun s => some (s.elim (fun _ => none) some)) (fun o => by cases o <;> rfl)

def bool : Codec Bool :=
  nat.through Bool.toNat (fun n => some (n ≠ 0)) (fun b => by cases b <;> rfl)

def string : Codec String :=
  nat.list.through (fun s => s.toList.map Char.toNat)
    (fun cs => some (String.ofList (cs.map Char.ofNat)))
    (fun s => by simp [Function.comp_def, Char.ofNat_toNat])

/-- Reading a whole input: nothing may be left over. -/
def decodeAll (A : Codec α) (bs : List UInt8) : Except String α :=
  match A.dec bs with
  | some (a, []) => .ok a
  | _ => .error "unexpected input"

theorem decodeAll_enc (A : Codec α) (a : α) : A.decodeAll (A.enc a) = .ok a := by
  have h := A.dec_enc a []
  rw [List.append_nil] at h
  simp only [decodeAll, h]

end Codec

end Sprax
