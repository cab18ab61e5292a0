import Sprax.Effects

/-!
# Programs built from primitives

A method that touches its state through a few operations only is a sequence of
those operations, of returns and of failures. What holds of the operations and
survives sequencing then holds of the method, whatever it decides on the way.
Two kinds of such facts are worked out: what no run changes, and what two runs
from related states have in common. What a run does to a part of its state, short of
failures that depend on the rest, is put together from its steps in the same way.
-/
namespace Sprax.Effects

variable {ε σ ν α β : Type}

/-- Programs made of primitives and of failures, one after the other. -/
inductive Built (prim : (α : Type) → EStateM ε σ α → Prop) (fails : ε → Prop) :
    ∀ {α : Type}, EStateM ε σ α → Prop
  | pure {α : Type} (a : α) : Built prim fails (pure a : EStateM ε σ α)
  | throw {α : Type} (e : ε) (h : fails e) : Built prim fails (throw e : EStateM ε σ α)
  | prim {α : Type} {p : EStateM ε σ α} (h : prim α p) : Built prim fails p
  | bind {α β : Type} {p : EStateM ε σ α} {f : α → EStateM ε σ β} (hp : Built prim fails p)
      (hf : ∀ a, Built prim fails (f a)) : Built prim fails (p >>= f)

variable {prim : (α : Type) → EStateM ε σ α → Prop} {fails : ε → Prop}

theorem Built.ite {c : Prop} [Decidable c] {p q : EStateM ε σ α} (hp : Built prim fails p)
    (hq : Built prim fails q) : Built prim fails (if c then p else q) := by
  split
  · exact hp
  · exact hq

/-- The run ends, well or not, with the part `f` of the state as it was. -/
def Keeps (f : σ → ν) (p : EStateM ε σ α) : Prop := ∀ s, f (leaves p s) = f s

theorem Keeps.bind {f : σ → ν} {p : EStateM ε σ α} {q : α → EStateM ε σ β} (hp : Keeps f p)
    (hq : ∀ a, Keeps f (q a)) : Keeps f (p >>= q) := by
  intro s
  have hps := hp s
  cases h : p s with
  | ok a t =>
    have hstate : leaves p s = t := by simp only [leaves, h]
    have hrest : leaves (p >>= q) s = leaves (q a) t := by simp only [leaves, bind_of_ok h]
    rw [hrest, hq a t, ← hstate, hps]
  | error e t =>
    have hstate : leaves (p >>= q) s = leaves p s := by simp only [leaves, bind_of_error h, h]
    rw [hstate, hps]

theorem Built.keeps {f : σ → ν} {p : EStateM ε σ α} (hp : Built prim fails p)
    (hprim : ∀ (α : Type) (p : EStateM ε σ α), prim α p → Keeps f p) : Keeps f p := by
  induction hp with
  | pure a => exact fun s => rfl
  | throw e h => exact fun s => rfl
  | prim h => exact hprim _ _ h
  | bind hp hq ihp ihq => exact ihp.bind ihq

/-- Two runs end in the same way, in related states. -/
def Alike (R : σ → σ → Prop) : EStateM.Result ε σ α → EStateM.Result ε σ α → Prop
  | .ok a s, .ok b t => a = b ∧ R s t
  | .error e s, .error f t => e = f ∧ R s t
  | _, _ => False

/-- Runs from related states end alike. -/
def Respects (R : σ → σ → Prop) (p : EStateM ε σ α) : Prop := ∀ s t, R s t → Alike R (p s) (p t)

theorem Respects.bind {R : σ → σ → Prop} {p : EStateM ε σ α} {q : α → EStateM ε σ β}
    (hp : Respects R p) (hq : ∀ a, Respects R (q a)) : Respects R (p >>= q) := by
  intro s t hst
  have halike := hp s t hst
  cases hs : p s with
  | ok a s' =>
    cases ht : p t with
    | ok b t' =>
      rw [hs, ht] at halike
      obtain ⟨rfl, hrel⟩ := halike
      rw [bind_of_ok hs, bind_of_ok ht]
      exact hq a s' t' hrel
    | error f t' => simp [hs, ht, Alike] at halike
  | error e s' =>
    cases ht : p t with
    | ok b t' => simp [hs, ht, Alike] at halike
    | error f t' =>
      rw [hs, ht] at halike
      rw [bind_of_error hs, bind_of_error ht]
      exact halike

theorem Built.respects {R : σ → σ → Prop} {p : EStateM ε σ α} (hp : Built prim fails p)
    (hprim : ∀ (α : Type) (p : EStateM ε σ α), prim α p → Respects R p) : Respects R p := by
  induction hp with
  | pure a => exact fun s t hst => ⟨rfl, hst⟩
  | throw e h => exact fun s t hst => ⟨rfl, hst⟩
  | prim h => exact hprim _ _ h
  | bind hp hq ihp ihq => exact ihp.bind ihq

/-- From a state that looks like `v` the run ends in `Q` or fails in `E`, as far as the
view shows, unless its failure is excused. -/
def Yields (view : σ → ν) (excused : ε → Prop) (p : EStateM ε σ α) (v : ν) (Q : α → ν → Prop)
    (E : ε → ν → Prop) : Prop :=
  ∀ s, view s = v → Returns p s (fun a t => Q a (view t)) ∨
    Raises p s (fun e t => excused e ∨ E e (view t))

namespace Yields
variable {view : σ → ν} {excused : ε → Prop} {v : ν} {Q : α → ν → Prop} {E : ε → ν → Prop}

theorem pure {a : α} (h : Q a v) : Yields view excused (pure a) v Q E := by
  intro s hs
  subst hs
  exact .inl ((returns_pure a s _).mpr h)

theorem throw {e : ε} (h : E e v) : Yields view excused (throw e) v Q E := by
  intro s hs
  subst hs
  exact .inr ((raises_throw e s _).mpr (.inr h))

theorem bind {p : EStateM ε σ α} {f : α → EStateM ε σ β} {Q : β → ν → Prop}
    (h : Yields view excused p v (fun a v' => Yields view excused (f a) v' Q E) E) :
    Yields view excused (p >>= f) v Q E := by
  intro s hs
  rw [returns_bind, raises_bind]
  rcases h s hs with ⟨a, t, hrun, hrest⟩ | hfails
  · exact (hrest t rfl).imp (fun hret => ⟨a, t, hrun, hret⟩)
      (fun hraise => .inr ⟨a, t, hrun, hraise⟩)
  · exact .inr (.inl hfails)

theorem mono {p : EStateM ε σ α} {Q' : α → ν → Prop} {E' : ε → ν → Prop}
    (h : Yields view excused p v Q E) (hQ : ∀ a v, Q a v → Q' a v) (hE : ∀ e v, E e v → E' e v) :
      Yields view excused p v Q' E' := by
  intro s hs
  exact (h s hs).imp (fun hret => hret.mono (fun a t => hQ a _))
    (fun hraise => hraise.mono (fun e t => Or.imp_right (hE e _)))

end Yields

end Sprax.Effects
