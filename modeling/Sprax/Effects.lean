import Mathlib.Logic.Basic

/-!
# Programs whose failures keep their effects

`EStateM` is the shape of a method on `&mut self` that leaves by `?`: a failing
program returns its error together with the state it has reached. `Returns` and
`Raises` say what holds at the end of a run that succeeds and of one that fails.
Both have an exact rule for every construct, so a statement about a program turns
into one about its starting state. `Ends` is for what has to hold either way.
-/
namespace Sprax.Effects

variable {ε σ α β : Type}

/-- The run from `s` succeeds, with a result and a state in `Q`. -/
def Returns (p : EStateM ε σ α) (s : σ) (Q : α → σ → Prop) : Prop := ∃ a t, p s = .ok a t ∧ Q a t

/-- The run from `s` fails, with an error and a state in `Q`. -/
def Raises (p : EStateM ε σ α) (s : σ) (Q : ε → σ → Prop) : Prop := ∃ e t, p s = .error e t ∧ Q e t

theorem returns_of_eq {p : EStateM ε σ α} {s t : σ} {a : α} (h : p s = .ok a t) (Q : α → σ → Prop) :
    Returns p s Q ↔ Q a t := by
  simp [Returns, h, and_assoc]

theorem raises_of_eq {p : EStateM ε σ α} {s t : σ} {e : ε} (h : p s = .error e t)
    (Q : ε → σ → Prop) :
    Raises p s Q ↔ Q e t := by
  simp [Raises, h, and_assoc]

theorem not_returns_of_eq {p : EStateM ε σ α} {s t : σ} {e : ε} (h : p s = .error e t)
    (Q : α → σ → Prop) : ¬ Returns p s Q := by
  simp [Returns, h]

theorem not_raises_of_eq {p : EStateM ε σ α} {s t : σ} {a : α} (h : p s = .ok a t)
    (Q : ε → σ → Prop) : ¬ Raises p s Q := by
  simp [Raises, h]

theorem Returns.mono {p : EStateM ε σ α} {s : σ} {Q Q' : α → σ → Prop} (h : Returns p s Q)
    (hq : ∀ a t, Q a t → Q' a t) : Returns p s Q' := by
  obtain ⟨a, t, hrun, hQ⟩ := h
  exact ⟨a, t, hrun, hq a t hQ⟩

theorem Raises.mono {p : EStateM ε σ α} {s : σ} {Q Q' : ε → σ → Prop} (h : Raises p s Q)
    (hq : ∀ e t, Q e t → Q' e t) : Raises p s Q' := by
  obtain ⟨e, t, hrun, hQ⟩ := h
  exact ⟨e, t, hrun, hq e t hQ⟩

@[simp] theorem not_returns_false (p : EStateM ε σ α) (s : σ) :
    ¬ Returns p s (fun _ _ => False) := by
  rintro ⟨a, t, -, hfalse⟩
  exact hfalse

/-- A run does not both succeed and fail. -/
theorem Returns.not_raises {p : EStateM ε σ α} {s : σ} {Q : α → σ → Prop} {Q' : ε → σ → Prop}
    (h : Returns p s Q) : ¬ Raises p s Q' := by
  obtain ⟨a, t, hrun, -⟩ := h
  exact not_raises_of_eq hrun Q'

@[simp] theorem returns_pure (a : α) (s : σ) (Q : α → σ → Prop) :
    Returns (pure a : EStateM ε σ α) s Q ↔ Q a s := returns_of_eq rfl Q

@[simp] theorem raises_pure (a : α) (s : σ) (Q : ε → σ → Prop) :
    ¬ Raises (pure a : EStateM ε σ α) s Q := not_raises_of_eq rfl Q

@[simp] theorem returns_throw (e : ε) (s : σ) (Q : α → σ → Prop) :
    ¬ Returns (throw e : EStateM ε σ α) s Q := not_returns_of_eq rfl Q

@[simp] theorem raises_throw (e : ε) (s : σ) (Q : ε → σ → Prop) :
    Raises (throw e : EStateM ε σ α) s Q ↔ Q e s := raises_of_eq rfl Q

@[simp] theorem returns_state (s : σ) (Q : σ → σ → Prop) :
    Returns (get : EStateM ε σ σ) s Q ↔ Q s s := returns_of_eq rfl Q

@[simp] theorem returns_modify (f : σ → σ) (s : σ) (Q : Unit → σ → Prop) :
    Returns (modify f : EStateM ε σ Unit) s Q ↔ Q () (f s) := returns_of_eq rfl Q

theorem bind_of_ok {p : EStateM ε σ α} {s t : σ} {a : α} (h : p s = .ok a t)
    (f : α → EStateM ε σ β) : (p >>= f) s = f a t := by
  change EStateM.bind p f s = f a t
  simp only [EStateM.bind, h]

theorem bind_of_error {p : EStateM ε σ α} {s t : σ} {e : ε} (h : p s = .error e t)
    (f : α → EStateM ε σ β) : (p >>= f) s = .error e t := by
  change EStateM.bind p f s = .error e t
  simp only [EStateM.bind, h]

@[simp] theorem returns_bind (p : EStateM ε σ α) (f : α → EStateM ε σ β) (s : σ)
    (Q : β → σ → Prop) :
    Returns (p >>= f) s Q ↔ Returns p s (fun a t => Returns (f a) t Q) := by
  cases h : p s with
  | ok a t => rw [returns_of_eq h, Returns, bind_of_ok h, Returns]
  | error e t =>
    simp only [not_returns_of_eq h, not_returns_of_eq (bind_of_error h f)]

/-- A sequence fails in its first part or after it. -/
@[simp] theorem raises_bind (p : EStateM ε σ α) (f : α → EStateM ε σ β) (s : σ) (Q : ε → σ → Prop) :
    Raises (p >>= f) s Q ↔ Raises p s Q ∨ Returns p s (fun a t => Raises (f a) t Q) := by
  cases h : p s with
  | ok a t =>
    rw [returns_of_eq h, iff_false_intro (not_raises_of_eq h Q), false_or, Raises, bind_of_ok h,
      Raises]
  | error e t =>
    simp only [raises_of_eq h, raises_of_eq (bind_of_error h f), not_returns_of_eq h, or_false]

@[simp] theorem returns_map (p : EStateM ε σ α) (f : α → β) (s : σ) (Q : β → σ → Prop) :
    Returns (f <$> p) s Q ↔ Returns p s (fun a t => Q (f a) t) := by
  rw [map_eq_pure_bind, returns_bind]
  simp only [returns_pure]

@[simp] theorem raises_map (p : EStateM ε σ α) (f : α → β) (s : σ) (Q : ε → σ → Prop) :
    Raises (f <$> p) s Q ↔ Raises p s Q := by
  rw [map_eq_pure_bind, raises_bind]
  simp [Returns]

@[simp] theorem returns_ite (c : Prop) [Decidable c] (p q : EStateM ε σ α) (s : σ)
    (Q : α → σ → Prop) :
    Returns (if c then p else q) s Q ↔ c ∧ Returns p s Q ∨ ¬ c ∧ Returns q s Q := by
  by_cases h : c <;> simp [h]

@[simp] theorem raises_ite (c : Prop) [Decidable c] (p q : EStateM ε σ α) (s : σ)
    (Q : ε → σ → Prop) :
    Raises (if c then p else q) s Q ↔ c ∧ Raises p s Q ∨ ¬ c ∧ Raises q s Q := by
  by_cases h : c <;> simp [h]

/-- The run from `s` ends, well or not, in a state in `Q`. -/
def Ends (p : EStateM ε σ α) (s : σ) (Q : σ → Prop) : Prop :=
  Returns p s (fun _ t => Q t) ∨ Raises p s (fun _ t => Q t)

@[simp] theorem ends_pure (a : α) (s : σ) (Q : σ → Prop) :
    Ends (pure a : EStateM ε σ α) s Q ↔ Q s := by
  simp [Ends]

@[simp] theorem ends_throw (e : ε) (s : σ) (Q : σ → Prop) :
    Ends (throw e : EStateM ε σ α) s Q ↔ Q s := by
  simp [Ends]

/-- A sequence ends with its first part if that fails, and with its second otherwise. -/
@[simp] theorem ends_bind (p : EStateM ε σ α) (f : α → EStateM ε σ β) (s : σ) (Q : σ → Prop) :
    Ends (p >>= f) s Q ↔ Raises p s (fun _ t => Q t) ∨ Returns p s (fun a t => Ends (f a) t Q) := by
  cases h : p s with
  | ok a t =>
    have hbind : Ends (p >>= f) s Q ↔ Ends (f a) t Q := by
      simp only [Ends, Returns, Raises, bind_of_ok h]
    rw [hbind, returns_of_eq h, iff_false_intro (not_raises_of_eq h _), false_or]
  | error e t =>
    simp only [Ends, raises_of_eq h, raises_of_eq (bind_of_error h f), not_returns_of_eq h,
      not_returns_of_eq (bind_of_error h f), or_false, false_or]

@[simp] theorem ends_ite (c : Prop) [Decidable c] (p q : EStateM ε σ α) (s : σ) (Q : σ → Prop) :
    Ends (if c then p else q) s Q ↔ c ∧ Ends p s Q ∨ ¬ c ∧ Ends q s Q := by
  by_cases h : c <;> simp [h]

/-- The state in which the run from `s` ends, well or not. -/
def leaves (p : EStateM ε σ α) (s : σ) : σ :=
  match p s with
  | .ok _ t => t
  | .error _ t => t

theorem ends_iff_leaves (p : EStateM ε σ α) (s : σ) (Q : σ → Prop) :
    Ends p s Q ↔ Q (leaves p s) := by
  cases h : p s with
  | ok a t => simp only [Ends, leaves, h, returns_of_eq h, not_raises_of_eq h, or_false]
  | error e t => simp only [Ends, leaves, h, raises_of_eq h, not_returns_of_eq h, false_or]

end Sprax.Effects
