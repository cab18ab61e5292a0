import Sprax.Runs
import Mathlib.Data.Set.Insert

/-!
# Registrations kept on both sides

Members register for topics. Each member has a record of its own topics, and a list for each topic
says who is registered, so a registration is written down twice. A member that leaves is taken off
the lists that its record names; its record stays with it. A registration entered after the member
has left is then on a list and nobody takes it off but the member itself.
-/
namespace Sprax

/-- The members, and the registrations in the members' records and on the topics' lists. -/
@[ext] structure Registry (ι κ : Type*) where
  members : Set ι
  recorded : Set (ι × κ)
  listed : Set (ι × κ)

namespace Registry

/-- The changes to a registry. -/
inductive Change (ι κ : Type*)
  | join (i : ι)
  | leave (i : ι)
  | enter (i : ι) (k : κ)
  | drop (i : ι) (k : κ)

variable {ι κ : Type*}

/-- A member that leaves is taken off the lists its record names, once. -/
def change (r : Registry ι κ) : Change ι κ → Registry ι κ
  | .join i => { r with members := insert i r.members }
  | .leave i =>
    { r with
      members := r.members \ {i}
      listed := { p ∈ r.listed | ¬ (p.1 = i ∧ i ∈ r.members ∧ p ∈ r.recorded) } }
  | .enter i k => { r with recorded := insert (i, k) r.recorded, listed := insert (i, k) r.listed }
  | .drop i k => { r with recorded := r.recorded \ {(i, k)}, listed := r.listed \ {(i, k)} }

/-- Steps that change nothing are steps as well. -/
def changes (r : Registry ι κ) (c : Option (Change ι κ)) : Registry ι κ := c.elim r r.change

/-- The lists name the registrations of the members, and no others. -/
def Agrees (r : Registry ι κ) : Prop :=
  ∀ p, p ∈ r.listed ↔ p.1 ∈ r.members ∧ p ∈ r.recorded

/-- What holds of the two sides whether or not they agree: a list names recorded registrations only,
and those of the members are on it. -/
structure Sound (r : Registry ι κ) : Prop where
  recorded : ∀ p ∈ r.listed, p ∈ r.recorded
  listed : ∀ p ∈ r.recorded, p.1 ∈ r.members → p ∈ r.listed

/-- The registration is on a list and its owner has left. -/
def Stale (r : Registry ι κ) (p : ι × κ) : Prop := p ∈ r.listed ∧ p.1 ∉ r.members

theorem Sound.agrees_iff {r : Registry ι κ} (h : r.Sound) : r.Agrees ↔ ∀ p, ¬ r.Stale p := by
  constructor
  · rintro ha p ⟨hp, hgone⟩
    exact hgone ((ha p).mp hp).1
  · intro hs p
    constructor
    · intro hp
      exact ⟨not_not.mp (fun hgone => hs p ⟨hp, hgone⟩), h.recorded p hp⟩
    · rintro ⟨hmember, hp⟩
      exact h.listed p hp hmember

/-- Who joins has nothing on record. -/
def Admits (r : Registry ι κ) (c : Option (Change ι κ)) : Prop :=
  ∀ i, c = some (.join i) → ∀ k, (i, k) ∉ r.recorded

theorem Sound.changes {r : Registry ι κ} (h : r.Sound) {c : Option (Change ι κ)} (hc : r.Admits c) :
    (r.changes c).Sound := by
  obtain ⟨hrec, hlist⟩ := h
  rcases c with _ | (i | i | ⟨i, k⟩ | ⟨i, k⟩)
  · exact ⟨hrec, hlist⟩
  · refine ⟨hrec, fun p hp hmember => ?_⟩
    rcases hmember with hi | hmember
    · exact absurd hp (hi ▸ hc i rfl p.2)
    · exact hlist p hp hmember
  · refine ⟨fun p hp => hrec p hp.1, fun p hp hmember => ?_⟩
    exact ⟨hlist p hp hmember.1, fun hi => hmember.2 hi.1⟩
  · refine ⟨fun p hp => hp.imp_right (hrec p), fun p hp hmember => ?_⟩
    exact hp.imp_right (hlist p · hmember)
  · exact ⟨fun p hp => ⟨hrec p hp.1, hp.2⟩, fun p hp hmember => ⟨hlist p hp.1 hmember, hp.2⟩⟩

/-- Only who has left makes a stale registration, and only dropping it takes it away. -/
theorem Sound.stale_changes_iff {r : Registry ι κ} (h : r.Sound) {c : Option (Change ι κ)}
    (hc : r.Admits c) (i : ι) (k : κ) :
    (r.changes c).Stale (i, k) ↔
      (c = some (.enter i k) ∧ i ∉ r.members) ∨ (r.Stale (i, k) ∧ c ≠ some (.drop i k)) := by
  unfold Registry.changes Stale
  rcases c with _ | (j | j | ⟨j, l⟩ | ⟨j, l⟩)
  · simp
  · have hfresh : i = j → (i, k) ∉ r.listed := by
      rintro rfl hp
      exact hc i rfl k (h.recorded _ hp)
    simp [Registry.change]
    tauto
  · have hrec := h.recorded (i, k)
    simp [Registry.change]
    grind
  · simp [Registry.change]
    grind
  · simp [Registry.change]
    grind

end Registry

end Sprax
