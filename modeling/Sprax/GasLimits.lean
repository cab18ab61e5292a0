import Sprax.Isolation

/-!
# Gas limits

A limit decides whether a call of a contract is cut short, and nothing else. What a
call consumes does not depend on the limit as long as it is not cut: it is the least
limit under which the call ends by itself, and every limit from there on gives the
same result, the same storage and the same consumption. The same holds of whole runs
of calls, each of which finds the storage that the calls before it left.
-/
namespace Sprax.Wasm
open Std Effects Runs

section Results
variable {α : Type}

/-- The call was cut by its gas limit. -/
def Starved : EStateM.Result Abort World α → Prop
  | .ok _ _ => False
  | .error e _ => e.isOutOfGas = true

instance decidableStarved (r : EStateM.Result Abort World α) : Decidable (Starved r) :=
  match r with
  | .ok _ _ => isFalse id
  | .error e _ => inferInstanceAs (Decidable (e.isOutOfGas = true))

/-- The gas consumed by the end of the call. -/
def spent : EStateM.Result Abort World α → ℕ
  | .ok _ w => w.gas.consumed
  | .error _ w => w.gas.consumed

/-- The same end of a call on a meter with another limit. -/
def atLimit (limit : ℕ) : EStateM.Result Abort World α → EStateM.Result Abort World α
  | .ok a w => .ok a ⟨w.storage, ⟨limit, w.gas.consumed⟩⟩
  | .error e w => .error e ⟨w.storage, ⟨limit, w.gas.consumed⟩⟩

@[simp] theorem starved_atLimit (limit : ℕ) (r : EStateM.Result Abort World α) :
    Starved (atLimit limit r) ↔ Starved r := by
  cases r <;> exact Iff.rfl

@[simp] theorem spent_atLimit (limit : ℕ) (r : EStateM.Result Abort World α) :
    spent (atLimit limit r) = spent r := by
  cases r <;> rfl

theorem starved_bind {β : Type} {p : Exec α} {w : World} (h : Starved (p w)) (q : α → Exec β) :
    Starved ((p >>= q) w) := by
  cases hr : p w with
  | ok a w' => simp [hr, Starved] at h
  | error e w' =>
    rw [hr] at h
    rwa [bind_of_error hr]

end Results

/-- What a method consumes does not depend on the limit, short of being cut by it. -/
structure Priced {α : Type} (p : Exec α) : Prop where
  keeps_limit : Keeps (fun w => w.gas.limit) p
  le_spent : ∀ s g, g.consumed ≤ u64Max → g.consumed ≤ spent (p ⟨s, g⟩)
  spent_le : ∀ s g, g.consumed ≤ u64Max → spent (p ⟨s, g⟩) ≤ u64Max
  same : ∀ s g limit, g.consumed ≤ u64Max → g.consumed ≤ limit → ¬ Starved (p ⟨s, g⟩) →
    spent (p ⟨s, g⟩) ≤ limit →
    p ⟨s, ⟨limit, g.consumed⟩⟩ = atLimit limit (p ⟨s, g⟩)
  full : ∀ s g, u64Max ≤ g.limit → ¬ Starved (p ⟨s, g⟩)
  cut : ∀ s g limit, g.consumed ≤ u64Max → g.consumed ≤ limit → ¬ Starved (p ⟨s, g⟩) →
    limit < spent (p ⟨s, g⟩) →
    Starved (p ⟨s, ⟨limit, g.consumed⟩⟩)

namespace Priced
variable {α β : Type}

theorem pure (a : α) : Priced (pure a : Exec α) where
  keeps_limit _ := rfl
  le_spent _ _ _ := le_rfl
  spent_le _ _ hg := hg
  same _ _ _ _ _ _ _ := rfl
  full _ _ _ := id
  cut _ _ _ _ hle _ hlt := absurd hlt (Nat.not_lt.mpr hle)

theorem throw {e : Abort} (h : e.isOutOfGas = false) : Priced (throw e : Exec α) where
  keeps_limit _ := rfl
  le_spent _ _ _ := le_rfl
  spent_le _ _ hg := hg
  same _ _ _ _ _ _ _ := rfl
  full _ _ _ hstarved := Bool.false_ne_true (h.symm.trans hstarved)
  cut _ _ _ _ hle _ hlt := absurd hlt (Nat.not_lt.mpr hle)

theorem of_charged {contract : Address} {p : Exec α} (A : Charged contract p) : Priced p := by
  have hpaid : ∀ s g, g.Affords (A.cost (s.table contract)) →
      spent (p ⟨s, g⟩) = min (g.consumed + A.cost (s.table contract)) u64Max := by
    intro s g h
    rw [A.run, if_pos h]
    rfl
  have hcut : ∀ s g, ¬ g.Affords (A.cost (s.table contract)) →
      Starved (p ⟨s, g⟩) ∧ spent (p ⟨s, g⟩) = g.consumed := by
    intro s g h
    rw [A.run, if_neg h]
    exact ⟨rfl, rfl⟩
  refine ⟨fun w => ?_, fun s g hg => ?_, fun s g hg => ?_, fun s g limit hg hle hfine hsp => ?_,
    fun s g hg => ?_, fun s g limit hg hle hfine hlt => ?_⟩
  · obtain ⟨s, g⟩ := w
    simp only [leaves, A.run]
    by_cases h : g.Affords (A.cost (s.table contract))
    · simp only [if_pos h, GasMeter.after]
    · simp only [if_neg h]
  · by_cases h : g.Affords (A.cost (s.table contract))
    · rw [hpaid s g h]
      omega
    · rw [(hcut s g h).2]
  · by_cases h : g.Affords (A.cost (s.table contract))
    · rw [hpaid s g h]
      omega
    · rwa [(hcut s g h).2]
  · have h : g.Affords (A.cost (s.table contract)) := by
      by_contra hnot
      exact hfine (hcut s g hnot).1
    have h' : (⟨limit, g.consumed⟩ : GasMeter).Affords (A.cost (s.table contract)) := by
      rw [hpaid s g h] at hsp
      exact hsp
    rw [A.run, A.run, if_pos h, if_pos h']
    rfl
  · have h : g.Affords (A.cost (s.table contract)) := (Nat.min_le_right _ _).trans hg
    rw [A.run, if_pos h]
    exact id
  · have h : g.Affords (A.cost (s.table contract)) := by
      by_contra hnot
      exact hfine (hcut s g hnot).1
    refine (hcut s ⟨limit, g.consumed⟩ (fun h' => ?_)).1
    rw [hpaid s g h] at hlt
    exact absurd hlt (Nat.not_lt.mpr h')

/-- A part that ends well leaves its consumption to the next. -/
theorem consumed_of_ok {p : Exec α} (hp : Priced p) {s : ContractStorage} {g : GasMeter} {a : α}
    {w : World} (hr : p ⟨s, g⟩ = .ok a w) (hg : g.consumed ≤ u64Max) :
    g.consumed ≤ w.gas.consumed ∧ w.gas.consumed ≤ u64Max := by
  have hlow := hp.le_spent s g hg
  have hhigh := hp.spent_le s g hg
  rw [hr] at hlow hhigh
  exact ⟨hlow, hhigh⟩

/-- A method costs what its parts cost, and is cut where one of them is. -/
theorem bind {p : Exec α} {q : α → Exec β} (hp : Priced p) (hq : ∀ a, Priced (q a)) :
    Priced (p >>= q) := by
  refine ⟨hp.keeps_limit.bind (fun a => (hq a).keeps_limit), fun s g hg => ?_, fun s g hg => ?_,
    fun s g limit hg hle hfine hsp => ?_, fun s g hg => ?_, fun s g limit hg hle hfine hlt => ?_⟩
  · cases hr : p ⟨s, g⟩ with
    | ok a w =>
      obtain ⟨hlow, hhigh⟩ := hp.consumed_of_ok hr hg
      rw [bind_of_ok hr]
      exact hlow.trans ((hq a).le_spent w.storage w.gas hhigh)
    | error e w =>
      have hlow := hp.le_spent s g hg
      rw [bind_of_error hr]
      rwa [hr] at hlow
  · cases hr : p ⟨s, g⟩ with
    | ok a w =>
      obtain ⟨-, hhigh⟩ := hp.consumed_of_ok hr hg
      rw [bind_of_ok hr]
      exact (hq a).spent_le w.storage w.gas hhigh
    | error e w =>
      have hhigh := hp.spent_le s g hg
      rw [bind_of_error hr]
      rwa [hr] at hhigh
  · cases hr : p ⟨s, g⟩ with
    | ok a w =>
      obtain ⟨-, hhigh⟩ := hp.consumed_of_ok hr hg
      rw [bind_of_ok hr] at hfine hsp ⊢
      have hmid : w.gas.consumed ≤ limit := ((hq a).le_spent w.storage w.gas hhigh).trans hsp
      have hfirst := hp.same s g limit hg hle (by rw [hr]; exact id) (by rw [hr]; exact hmid)
      rw [hr] at hfirst
      rw [bind_of_ok hfirst]
      exact (hq a).same w.storage w.gas limit hhigh hmid hfine hsp
    | error e w =>
      rw [bind_of_error hr] at hfine hsp ⊢
      have hfirst := hp.same s g limit hg hle (by rw [hr]; exact hfine) (by rw [hr]; exact hsp)
      rw [hr] at hfirst
      exact bind_of_error hfirst q
  · have hfirst := hp.full s g hg
    have hlimit := hp.keeps_limit ⟨s, g⟩
    cases hr : p ⟨s, g⟩ with
    | ok a w =>
      rw [bind_of_ok hr]
      rw [leaves, hr] at hlimit
      exact (hq a).full w.storage w.gas (hg.trans_eq hlimit.symm)
    | error e w =>
      rw [bind_of_error hr]
      rwa [hr] at hfirst
  · cases hr : p ⟨s, g⟩ with
    | ok a w =>
      obtain ⟨-, hhigh⟩ := hp.consumed_of_ok hr hg
      rw [bind_of_ok hr] at hfine hlt
      -- the new limit cuts the first part, or is reached by it and cuts the second
      by_cases hmid : w.gas.consumed ≤ limit
      · have hfirst := hp.same s g limit hg hle (by rw [hr]; exact id) (by rw [hr]; exact hmid)
        rw [hr] at hfirst
        rw [bind_of_ok hfirst]
        exact (hq a).cut w.storage w.gas limit hhigh hmid hfine hlt
      · have hfirst := hp.cut s g limit hg hle (by rw [hr]; exact id)
          (by rw [hr]; exact Nat.lt_of_not_le hmid)
        exact starved_bind hfirst q
    | error e w =>
      rw [bind_of_error hr] at hfine hlt
      exact starved_bind
        (hp.cut s g limit hg hle (by rw [hr]; exact hfine) (by rw [hr]; exact hlt)) q

end Priced

theorem Metered.priced {contract : Address} {α : Type} {p : Exec α} (hp : Metered contract p) :
    Priced p := by
  induction hp with
  | pure a => exact .pure a
  | throw e h => exact .throw h
  | prim h =>
    obtain ⟨A⟩ := h.charged
    exact .of_charged A
  | bind hp hq ihp ihq => exact ihp.bind ihq

section Calls
variable (P : Primitives) (J : ContractJson)

/-- How a call ends on a fresh meter with the given limit. -/
def outcome (limit : ℕ) (s : ContractStorage) (c : Invocation ContractMsg) :
    EStateM.Result Abort World ContractResponse :=
  c.msg.run P J c.env c.info ⟨s, .new limit⟩

/-- The storage at the end of a call. -/
def leftBy {α : Type} : EStateM.Result Abort World α → ContractStorage
  | .ok _ w => w.storage
  | .error _ w => w.storage

@[simp] theorem leftBy_atLimit {α : Type} (limit : ℕ) (r : EStateM.Result Abort World α) :
    leftBy (atLimit limit r) = leftBy r := by
  cases r <;> rfl

/-- A call under its own limit. -/
def limited (s : ContractStorage) (c : Invocation ContractMsg) : ContractStorage :=
  leftBy (outcome P J c.gas.limit s c)

/-- The call under the largest limit there is. -/
def unlimited (s : ContractStorage) (c : Invocation ContractMsg) : ContractStorage :=
  leftBy (outcome P J u64Max s c)

/-- A limit cuts a call if it is less than what the call consumes without one, and
changes nothing otherwise. -/
theorem outcome_of_limit (limit : ℕ) (s : ContractStorage) (c : Invocation ContractMsg) :
    if spent (outcome P J u64Max s c) ≤ limit
    then outcome P J limit s c = atLimit limit (outcome P J u64Max s c) ∧
      ¬ Starved (outcome P J limit s c)
    else Starved (outcome P J limit s c) := by
  have hpriced := (metered_run P J c.env c.info c.msg).priced
  have hfull : ¬ Starved (outcome P J u64Max s c) := hpriced.full s (.new u64Max) le_rfl
  split
  case isTrue h =>
    have hsame : outcome P J limit s c = atLimit limit (outcome P J u64Max s c) :=
      hpriced.same s (.new u64Max) limit (Nat.zero_le _) (Nat.zero_le _) hfull h
    refine ⟨hsame, ?_⟩
    rwa [hsame, starved_atLimit]
  case isFalse h =>
    exact hpriced.cut s (.new u64Max) limit (Nat.zero_le _) (Nat.zero_le _) hfull
      (Nat.lt_of_not_le h)

theorem starved_iff (limit : ℕ) (s : ContractStorage) (c : Invocation ContractMsg) :
    ¬ Starved (outcome P J limit s c) ↔ spent (outcome P J u64Max s c) ≤ limit := by
  have h := outcome_of_limit P J limit s c
  split at h
  case isTrue hle => exact iff_of_true h.2 hle
  case isFalse hgt => exact iff_of_false (not_not.mpr h) hgt

/-- A limit that does not cut a call leaves the storage it leaves without one. -/
theorem limited_eq {s : ContractStorage} {c : Invocation ContractMsg}
    (h : spent (outcome P J u64Max s c) ≤ c.gas.limit) : limited P J s c = unlimited P J s c := by
  have hend := outcome_of_limit P J c.gas.limit s c
  rw [if_pos h] at hend
  rw [limited, hend.1, leftBy_atLimit, unlimited]

/-- The calls of a run are within their limits whether the run is one with the limits or one
without. -/
theorem along_limited_iff (s : ContractStorage) (cs : List (Invocation ContractMsg)) :
    Along (fun s c => ¬ Starved (outcome P J c.gas.limit s c)) (limited P J) s cs ↔
      Along (fun s c => spent (outcome P J u64Max s c) ≤ c.gas.limit) (unlimited P J) s cs := by
  induction cs generalizing s with
  | nil => exact Iff.rfl
  | cons c cs ih =>
    rw [Along, Along, starved_iff]
    refine and_congr_right (fun hle => ?_)
    rw [limited_eq P J hle]
    exact ih _

/-- A run within its limits goes as it does without limits. -/
theorem outcomes_of_within {s : ContractStorage} {cs : List (Invocation ContractMsg)}
    (h : Along (fun s c => spent (outcome P J u64Max s c) ≤ c.gas.limit) (unlimited P J) s cs) :
    Along (fun s c => outcome P J c.gas.limit s c = atLimit c.gas.limit (outcome P J u64Max s c))
        (unlimited P J) s cs ∧
      run (limited P J) s cs = run (unlimited P J) s cs := by
  induction cs generalizing s with
  | nil => exact ⟨trivial, rfl⟩
  | cons c cs ih =>
    obtain ⟨hle, hrest⟩ := h
    obtain ⟨hends, hrun⟩ := ih hrest
    have hend := outcome_of_limit P J c.gas.limit s c
    rw [if_pos hle] at hend
    rw [run_cons, run_cons, limited_eq P J hle]
    exact ⟨⟨hend.1, hends⟩, hrun⟩

/-- Under any limits, no call of a run is cut exactly if each call of the run without limits
consumes at most its limit. Every call then ends as it does without limits, and the run leaves
the same storage. What a call that is not cut has consumed is the least limit that does not cut
it. -/
theorem never_cut_iff (s : ContractStorage) (cs : List (Invocation ContractMsg)) :
    (Along (fun s c => ¬ Starved (outcome P J c.gas.limit s c)) (limited P J) s cs ↔
      Along (fun s c => spent (outcome P J u64Max s c) ≤ c.gas.limit) (unlimited P J) s cs) ∧
    (Along (fun s c => ¬ Starved (outcome P J c.gas.limit s c)) (limited P J) s cs →
      Along (fun s c => outcome P J c.gas.limit s c = atLimit c.gas.limit (outcome P J u64Max s c))
          (unlimited P J) s cs ∧
        run (limited P J) s cs = run (unlimited P J) s cs) ∧
    ∀ (t : ContractStorage) (c : Invocation ContractMsg) (limit : ℕ),
      ¬ Starved (outcome P J limit t c) →
        ∀ limit', ¬ Starved (outcome P J limit' t c) ↔ spent (outcome P J limit t c) ≤ limit' := by
  refine ⟨along_limited_iff P J s cs, fun h => ?_, fun t c limit hfine limit' => ?_⟩
  · exact outcomes_of_within P J ((along_limited_iff P J s cs).mp h)
  · have hend := outcome_of_limit P J limit t c
    rw [if_pos ((starved_iff P J limit t c).mp hfine)] at hend
    rw [starved_iff, hend.1, spent_atLimit]

end Calls

end Sprax.Wasm
