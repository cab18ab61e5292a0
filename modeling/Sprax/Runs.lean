import Mathlib.Data.List.Basic
import Mathlib.Logic.Function.Basic
import Mathlib.Order.Basic

/-!
# Guarded runs of a deterministic system

A system is a step function on states and events. All nondeterminism is in the
event list: scheduling, timeouts, message contents and enumeration orders are
event data. `Along` says that every step is taken from a state in which its
guard holds, `Throughout` that every state reached satisfies a property. The
invariant rule is stated once here and is used by name everywhere else. Copies of
one system that take turns are again such a system.
-/
namespace Sprax.Runs

variable {σ ε ω : Type*}

/-- The state reached after executing the events in order. -/
def run (step : σ → ε → σ) (s : σ) (es : List ε) : σ := es.foldl step s

@[simp] theorem run_nil (step : σ → ε → σ) (s : σ) : run step s [] = s := rfl

@[simp] theorem run_cons (step : σ → ε → σ) (s : σ) (e : ε) (es : List ε) :
    run step s (e :: es) = run step (step s e) es := rfl

@[simp] theorem run_append (step : σ → ε → σ) (s : σ) (es fs : List ε) :
    run step s (es ++ fs) = run step (run step s es) fs := by simp [run]

/-- Every step of the run starts in a state that satisfies its guard. -/
def Along (ok : σ → ε → Prop) (step : σ → ε → σ) : σ → List ε → Prop
  | _, [] => True
  | s, e :: es => ok s e ∧ Along ok step (step s e) es

/-- Every state of the run, the first and the last included, satisfies `P`. -/
def Throughout (P : σ → Prop) (step : σ → ε → σ) : σ → List ε → Prop
  | s, [] => P s
  | s, e :: es => P s ∧ Throughout P step (step s e) es

instance decidableAlong (ok : σ → ε → Prop) [∀ s e, Decidable (ok s e)] (step : σ → ε → σ) :
    ∀ s es, Decidable (Along ok step s es)
  | _, [] => isTrue trivial
  | s, e :: es =>
    have := decidableAlong ok step (step s e) es
    inferInstanceAs (Decidable (_ ∧ _))

theorem Along.append {ok : σ → ε → Prop} {step : σ → ε → σ} {s : σ} {es fs : List ε} :
    Along ok step s (es ++ fs) ↔ Along ok step s es ∧ Along ok step (run step s es) fs := by
  induction es generalizing s with
  | nil => simp [Along]
  | cons e es ih => simp [Along, ih, and_assoc]

/-- Guards that say the same of the events of the run. -/
theorem along_congr {ok ok' : σ → ε → Prop} {step : σ → ε → σ} {s : σ} {es : List ε}
    (h : ∀ s, ∀ e ∈ es, ok s e ↔ ok' s e) : Along ok step s es ↔ Along ok' step s es := by
  induction es generalizing s with
  | nil => exact Iff.rfl
  | cons e es ih =>
    exact and_congr (h s e List.mem_cons_self)
      (ih (fun t e' he' => h t e' (List.mem_cons_of_mem e he')))

/-- The invariant rule: what the initial state has and every guarded step
preserves holds in the state reached. -/
theorem Along.invariant {ok : σ → ε → Prop} {step : σ → ε → σ} {I : σ → Prop}
    (hstep : ∀ s e, ok s e → I s → I (step s e)) {s : σ} {es : List ε}
    (ha : Along ok step s es) (h0 : I s) : I (run step s es) := by
  induction es generalizing s with
  | nil => exact h0
  | cons e es ih => exact ih ha.2 (hstep s e ha.1 h0)

/-- A property of all events of the run can be used as a guard. -/
theorem Along.and_events {ok : σ → ε → Prop} {step : σ → ε → σ} {Q : ε → Prop} {s : σ}
    {es : List ε} (ha : Along ok step s es) (hq : ∀ e ∈ es, Q e) :
    Along (fun s e => ok s e ∧ Q e) step s es := by
  induction es generalizing s with
  | nil => trivial
  | cons e es ih =>
    exact ⟨⟨ha.1, hq e List.mem_cons_self⟩,
      ih ha.2 (fun e' he' => hq e' (List.mem_cons_of_mem e he'))⟩

/-- The invariant rule for every state on the way. -/
theorem Along.throughout {ok : σ → ε → Prop} {step : σ → ε → σ} {I P : σ → Prop}
    (hstep : ∀ s e, ok s e → I s → I (step s e)) (himp : ∀ s, I s → P s) {s : σ} {es : List ε}
    (ha : Along ok step s es) (h0 : I s) : Throughout P step s es := by
  induction es generalizing s with
  | nil => exact himp s h0
  | cons e es ih => exact ⟨himp s h0, ih ha.2 (hstep s e ha.1 h0)⟩

/-- Where a guard decides, step by step, whether a property survives, the property
holds throughout a run exactly if the guard does. The invariant `I` is what the
steps need besides; `Q` restricts the events. -/
theorem throughout_iff_along {ok : σ → ε → Prop} {step : σ → ε → σ} {I P : σ → Prop} {Q : ε → Prop}
    (hdecide : ∀ s e, Q e → I s → P s → (P (step s e) ↔ ok s e))
    (hkeep : ∀ s e, Q e → I s → P s → ok s e → I (step s e)) {s : σ} {es : List ε}
    (hq : ∀ e ∈ es, Q e) (hI : I s) (hP : P s) : Throughout P step s es ↔ Along ok step s es := by
  induction es generalizing s with
  | nil => exact iff_of_true hP trivial
  | cons e es ih =>
    have he := hq e List.mem_cons_self
    have hes : ∀ e' ∈ es, Q e' := fun e' he' => hq e' (List.mem_cons_of_mem e he')
    have hiff := hdecide s e he hI hP
    constructor
    · rintro ⟨-, hlater⟩
      have hnext : P (step s e) := by
        cases es with
        | nil => exact hlater
        | cons e' es => exact hlater.1
      have hok := hiff.mp hnext
      exact ⟨hok, (ih hes (hkeep s e he hI hP hok) hnext).mp hlater⟩
    · rintro ⟨hok, hlater⟩
      exact ⟨hP, (ih hes (hkeep s e he hI hP hok) (hiff.mpr hok)).mpr hlater⟩

/-- Some step of the run raises what no later step clears. -/
def Raised (raises clears : σ → ε → Prop) (step : σ → ε → σ) : σ → List ε → Prop
  | _, [] => False
  | s, e :: es =>
    Raised raises clears step (step s e) es ∨
      (raises s e ∧ Along (fun s e => ¬ clears s e) step (step s e) es)

/-- A property that some steps raise, some clear and the others leave alone holds at the end of a
run exactly if it was raised on the way, or held at the start, and has not been cleared since. -/
theorem run_iff_raised {raises clears : σ → ε → Prop} {step : σ → ε → σ} {I P : σ → Prop}
    (hstep : ∀ s e, I s → (P (step s e) ↔ raises s e ∨ (P s ∧ ¬ clears s e)))
    (hkeep : ∀ s e, I s → I (step s e)) {s : σ} {es : List ε} (hI : I s) :
    P (run step s es) ↔
      (P s ∧ Along (fun s e => ¬ clears s e) step s es) ∨ Raised raises clears step s es := by
  induction es generalizing s with
  | nil => simp [Along, Raised]
  | cons e es ih =>
    rw [run_cons, ih (hkeep s e hI), hstep s e hI]
    simp only [Along, Raised]
    tauto

/-- The invariant rule for runs whose events are restricted. -/
theorem run_invariant_of_events {step : σ → ε → σ} {I : σ → Prop} {Q : ε → Prop}
    (hstep : ∀ s e, Q e → I s → I (step s e)) (s : σ) (es : List ε) (hq : ∀ e ∈ es, Q e)
    (h0 : I s) :
    I (run step s es) := by
  induction es generalizing s with
  | nil => exact h0
  | cons e es ih =>
    exact ih _ (fun e' he' => hq e' (List.mem_cons_of_mem e he'))
      (hstep s e (hq e List.mem_cons_self) h0)

/-- The invariant rule for systems without a guard. -/
theorem run_invariant {step : σ → ε → σ} {I : σ → Prop}
    (hstep : ∀ s e, I s → I (step s e)) (s : σ) (es : List ε) (h0 : I s) :
    I (run step s es) :=
  run_invariant_of_events (Q := fun _ => True) (fun s e _ => hstep s e) s es (fun _ _ => trivial) h0

/-- Two systems that keep a relation step by step are related after any run. -/
theorem run_related {τ : Type*} {step : σ → ε → σ} {step' : τ → ε → τ} {R : σ → τ → Prop}
    (hstep : ∀ s t e, R s t → R (step s e) (step' t e)) {s : σ} {t : τ} (h0 : R s t) (es : List ε) :
    R (run step s es) (run step' t es) := by
  induction es generalizing s t with
  | nil => exact h0
  | cons e es ih => exact ih (hstep s t e h0)

/-- Steps that commute in the states an invariant admits may come in any order. The relation `R` is
what two events of the run are to each other. -/
theorem run_perm_of_invariant {step : σ → ε → σ} {I : σ → Prop} {Q : ε → Prop} {R : ε → ε → Prop}
    (hsymm : ∀ e f, R e f → R f e) (hkeep : ∀ s e, Q e → I s → I (step s e))
    (hcomm : ∀ s e f, Q e → Q f → R e f → I s → step (step s e) f = step (step s f) e)
    {es fs : List ε} (h : es.Perm fs) {s : σ} (hq : ∀ e ∈ es, Q e) (hR : es.Pairwise R) (hI : I s) :
    run step s es = run step s fs := by
  induction h generalizing s with
  | nil => rfl
  | cons e _ ih =>
    obtain ⟨he, hes⟩ := List.forall_mem_cons.mp hq
    exact ih hes (List.pairwise_cons.mp hR).2 (hkeep s e he hI)
  | swap e f gs =>
    obtain ⟨hf, he, -⟩ : Q f ∧ Q e ∧ ∀ g ∈ gs, Q g := by simpa using hq
    have hfe := (List.pairwise_cons.mp hR).1 e List.mem_cons_self
    simp only [run_cons, hcomm s f e hf he hfe hI]
  | trans hperm _ ih₁ ih₂ =>
    have hq' := fun e he => hq e (hperm.mem_iff.mpr he)
    have hR' := (hperm.pairwise_iff (fun {e f} => hsymm e f)).mp hR
    exact (ih₁ hq hR hI).trans (ih₂ hq' hR' hI)

section Sets
variable {step : σ → ε → σ} (hcomm : ∀ s e f, step (step s e) f = step (step s f) e)

include hcomm in
/-- Steps that commute may come in any order. -/
theorem run_perm {es fs : List ε} (h : es.Perm fs) (s : σ) : run step s es = run step s fs :=
  h.foldl_eq' (fun e _ f _ s => hcomm s e f) s

variable (hidem : ∀ s e, step (step s e) e = step s e)

include hcomm hidem

/-- A step that is still to come may be taken before. -/
theorem run_step_of_mem {e : ε} {es : List ε} (he : e ∈ es) (s : σ) :
    run step (step s e) es = run step s es := by
  obtain ⟨before, after, rfl⟩ := List.append_of_mem he
  rw [run_perm hcomm List.perm_middle, run_perm hcomm List.perm_middle, run_cons, run_cons, hidem]

theorem run_append_of_subset {es fs : List ε} (h : fs ⊆ es) (s : σ) :
    run step s (fs ++ es) = run step s es := by
  induction fs generalizing s with
  | nil => rfl
  | cons f fs ih =>
    obtain ⟨hf, hfs⟩ := List.cons_subset.mp h
    rw [List.cons_append, run_cons, ih hfs, run_step_of_mem hcomm hidem hf]

/-- A run of steps that commute and have no effect twice depends on the set of them only. -/
theorem run_eq_of_mem_iff {es fs : List ε} (h : ∀ e, e ∈ es ↔ e ∈ fs) (s : σ) :
    run step s es = run step s fs :=
  calc run step s es = run step s (fs ++ es) :=
        (run_append_of_subset hcomm hidem (fun e he => (h e).mpr he) s).symm
    _ = run step s (es ++ fs) := run_perm hcomm List.perm_append_comm s
    _ = run step s fs := run_append_of_subset hcomm hidem (fun e he => (h e).mp he) s

end Sets

theorem throughout_iff {P : σ → Prop} {step : σ → ε → σ} {s : σ} {es : List ε} :
    Throughout P step s es ↔ ∀ fs, fs <+: es → P (run step s fs) := by
  induction es generalizing s with
  | nil => simp [Throughout]
  | cons e es ih =>
    simp only [Throughout, ih, List.prefix_cons_iff]
    constructor
    · rintro ⟨hs, ht⟩ fs (rfl | ⟨gs, rfl, hg⟩)
      · exact hs
      · exact ht gs hg
    · intro h
      exact ⟨h [] (Or.inl rfl), fun gs hg => h (e :: gs) (Or.inr ⟨gs, rfl, hg⟩)⟩

/-- A measure that no step lowers is lower nowhere later in the run. -/
theorem along_le_iff {α : Type*} [Preorder α] {m : σ → α} {step : σ → ε → σ} {s : σ} {es : List ε} :
    Along (fun s e => m s ≤ m (step s e)) step s es ↔
      ∀ fs gs, fs ++ gs <+: es → m (run step s fs) ≤ m (run step s (fs ++ gs)) := by
  constructor
  · rintro ha fs gs ⟨rest, rfl⟩
    have hgs := (Along.append.mp (Along.append.mp ha).1).2
    rw [run_append]
    exact hgs.invariant (I := fun t => m (run step s fs) ≤ m t)
      (fun t e hle h => h.trans hle) le_rfl
  · intro h
    induction es generalizing s with
    | nil => trivial
    | cons e es ih =>
      refine ⟨h [] [e] ⟨es, rfl⟩, ih (fun fs gs hpre => ?_)⟩
      exact h (e :: fs) gs (List.cons_prefix_cons.mpr ⟨rfl, hpre⟩)

/-- A system that emits outputs, run together with everything emitted so far. -/
def recorded (step : σ → ε → σ × List ω) (s : σ × List ω) (e : ε) : σ × List ω :=
  ((step s.1 e).1, s.2 ++ (step s.1 e).2)

variable {ι : Type*} [DecidableEq ι]

/-- Several copies of a system side by side; an event names the copy that takes
the step. -/
def interleaved (step : σ → ε → σ) (w : ι → σ) (e : ι × ε) : ι → σ :=
  Function.update w e.1 (step (w e.1) e.2)

/-- What holds of the copy that took the step and of the others as they were
holds of all copies. -/
theorem interleaved_of {step : σ → ε → σ} {w : ι → σ} {e : ι × ε} {Q : ι → σ → Prop}
    (hself : Q e.1 (step (w e.1) e.2)) (hothers : ∀ j, j ≠ e.1 → Q j (w j)) (j : ι) :
    Q j (interleaved step w e j) := by
  unfold interleaved
  by_cases hj : j = e.1
  · subst hj
    rwa [Function.update_self]
  · rw [Function.update_of_ne hj]
    exact hothers j hj

/-- Two steps commute if they do in the one copy that takes both. -/
theorem interleaved_comm {step : σ → ε → σ} {w : ι → σ} {e f : ι × ε}
    (h : e.1 = f.1 → step (step (w e.1) e.2) f.2 = step (step (w e.1) f.2) e.2) :
    interleaved step (interleaved step w e) f = interleaved step (interleaved step w f) e := by
  obtain ⟨i, e⟩ := e
  obtain ⟨j, f⟩ := f
  unfold interleaved
  by_cases hij : i = j
  · subst j
    simp only [Function.update_self, Function.update_idem]
    rw [h rfl]
  · have hji : j ≠ i := Ne.symm hij
    simp only [Function.update_of_ne hij, Function.update_of_ne hji]
    exact Function.update_comm hij _ _ _

/-- A part of the state that some of the steps do not touch, and that the others
take from itself, ends as in the run of those others alone. -/
theorem run_view_eq_filter {ν : Type*} {view : σ → ν} {mine : ε → Prop} [DecidablePred mine]
    {step : σ → ε → σ} (hother : ∀ s e, ¬ mine e → view (step s e) = view s)
    (hmine : ∀ s t e, mine e → view s = view t → view (step s e) = view (step t e))
    (es : List ε) {s t : σ} (hst : view s = view t) :
    view (run step s es) = view (run step t (es.filter mine)) := by
  induction es generalizing s t with
  | nil => exact hst
  | cons e es ih =>
    by_cases he : mine e
    · rw [List.filter_cons_of_pos (by simpa using he), run_cons, run_cons]
      exact ih (hmine s t e he hst)
    · rw [List.filter_cons_of_neg (by simpa using he), run_cons]
      exact ih ((hother s e he).trans hst)

end Sprax.Runs
