import Mathlib.Data.List.Basic

/-!
# Walking a paged list

A query returns a window of a list and says whether there is more behind it. The
walk asks at an offset, and again where the answer ended, as long as there is more.
Windows of positive width make it return the whole rest of the list.
-/
namespace Sprax.Paging

variable {α : Type*}

/-- What a query returns. -/
structure Page (α : Type*) where
  items : List α
  hasMore : Bool

/-- Ask at the offset, and where the answer ends while there is more. No list is
returned when the fuel runs out. -/
def walk (query : ℕ → Page α) : ℕ → ℕ → Option (List α)
  | 0, _ => none
  | fuel + 1, offset =>
    let page := query offset
    if page.hasMore then (walk query fuel (offset + page.items.length)).map (page.items ++ ·)
    else some page.items

/-- The query returns windows of the list. -/
structure Serves (query : ℕ → Page α) (limit : ℕ) (l : List α) : Prop where
  items : ∀ offset, (query offset).items = (l.drop offset).take limit
  hasMore : ∀ offset, (query offset).hasMore =
    decide (offset + (query offset).items.length < l.length)

variable {query : ℕ → Page α} {limit : ℕ} {l : List α}

/-- Enough fuel for one page an item returns the rest of the list. -/
theorem Serves.walk_from (h : Serves query limit l) (hlimit : 0 < limit) {fuel offset : ℕ}
    (hfuel : l.length - offset < fuel) : walk query fuel offset = some (l.drop offset) := by
  induction fuel generalizing offset with
  | zero => omega
  | succ fuel ih =>
    have hitems : (query offset).items = (l.drop offset).take limit := h.items offset
    have hlength : (query offset).items.length = min limit (l.length - offset) := by simp [hitems]
    simp only [walk, h.hasMore, decide_eq_true_eq]
    split
    case isTrue hmore =>
      rw [ih (by omega), Option.map_some, hitems, List.length_take, List.length_drop]
      -- a page with more behind it is full
      have hfull : min limit (l.length - offset) = limit := by omega
      rw [hfull, ← List.drop_drop, List.take_append_drop]
    case isFalse hlast =>
      rw [hitems, List.take_of_length_le]
      rw [List.length_drop]
      omega

theorem Serves.walk_eq (h : Serves query limit l) (hlimit : 0 < limit) {fuel : ℕ}
    (hfuel : l.length < fuel) : walk query fuel 0 = some l := by
  simpa using h.walk_from hlimit (show l.length - 0 < fuel by omega)

end Sprax.Paging
