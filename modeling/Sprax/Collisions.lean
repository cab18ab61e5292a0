import Mathlib.Data.List.Infix

/-!
# Collisions among the inputs of a hash function

Any function onto shorter values has collisions, so that a hash binds its input
is said of the inputs that a computation really hashes. `Collides` and `Hits` are
about a list of such inputs. A list without collisions is one on which the
function is injective; equal lists of hashes then come from equal lists.
-/
namespace Sprax.Collisions

variable {α β : Type} (H : α → β)

/-- Two different inputs of the list have one hash. -/
def Collides (xs : List α) : Prop := ∃ x ∈ xs, ∃ y ∈ xs, x ≠ y ∧ H x = H y

/-- An input of the list has the given hash. -/
def Hits (z : β) (xs : List α) : Prop := ∃ x ∈ xs, H x = z

/-- A collision, or an input with the hash that stands for nothing. -/
def Broken (z : β) (xs : List α) : Prop := Collides H xs ∨ Hits H z xs

variable {H}

theorem eq_of_hash_eq {zs : List α} (hz : ¬ Collides H zs) {x y : α} (hx : x ∈ zs) (hy : y ∈ zs)
    (h : H x = H y) : x = y := by
  by_contra hne
  exact hz ⟨x, hx, y, hy, hne, h⟩

/-- Hashes that extend each other come from inputs that do. -/
theorem isPrefix_of_map {zs : List α} (hz : ¬ Collides H zs) {xs ys : List α} (hx : xs ⊆ zs)
    (hy : ys ⊆ zs) (h : xs.map H <+: ys.map H) : xs <+: ys := by
  induction xs generalizing ys with
  | nil => exact List.nil_prefix
  | cons x xs ih =>
    cases ys with
    | nil => simp at h
    | cons y ys =>
      rw [List.map_cons, List.map_cons, List.cons_prefix_cons] at h
      have hhead := eq_of_hash_eq hz (hx List.mem_cons_self) (hy List.mem_cons_self) h.1
      have htail := ih (List.subset_of_cons_subset hx) (List.subset_of_cons_subset hy) h.2
      rw [hhead, List.cons_prefix_cons]
      exact ⟨rfl, htail⟩

theorem eq_of_map_eq {zs : List α} (hz : ¬ Collides H zs) {xs ys : List α} (hx : xs ⊆ zs)
    (hy : ys ⊆ zs) (h : xs.map H = ys.map H) : xs = ys := by
  have hgrows := isPrefix_of_map hz hx hy (h ▸ List.prefix_rfl)
  refine hgrows.eq_of_length ?_
  simpa using congrArg List.length h

end Sprax.Collisions
