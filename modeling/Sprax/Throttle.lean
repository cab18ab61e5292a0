import Mathlib.Data.Set.Basic
import Sprax.Runs

/-!
# Windows between visits

A visit comes at a time and under several keys. It is admitted if each of its keys
has been at rest for the length of the window, and is then the last visit of all of
them; a visit that is not admitted leaves no trace. Times need not grow: a clock
that went back counts as no time passed. If the window is not empty, any two
admitted visits that share a key are a window apart.
-/
namespace Sprax.Throttle
open Runs

variable {κ : Type*}

structure Visit (κ : Type*) where
  keys : Set κ
  time : ℕ

/-- All keys of the visit have been at rest for a window. -/
def Admits (window : ℕ) (last : κ → Option ℕ) (v : Visit κ) : Prop :=
  ∀ key ∈ v.keys, ∀ time, last key = some time → window ≤ v.time - time

open Classical in
/-- The last admitted visit under each key. -/
noncomputable def visit (window : ℕ) (last : κ → Option ℕ) (v : Visit κ) : κ → Option ℕ :=
  if Admits window last v then fun key => if key ∈ v.keys then some v.time else last key else last

variable {window : ℕ} {last : κ → Option ℕ} {v : Visit κ}

theorem visit_of_admits (h : Admits window last v) {key : κ} (hkey : key ∈ v.keys) :
    visit window last v key = some v.time := by
  rw [visit, if_pos h, if_pos hkey]

theorem visit_of_not_mem {key : κ} (hkey : key ∉ v.keys) : visit window last v key = last key := by
  unfold visit
  split
  · exact if_neg hkey
  · rfl

theorem visit_of_not_admits (h : ¬ Admits window last v) : visit window last v = last := if_neg h

/-- The last visit of a key only moves forward. -/
theorem visit_grows (hwindow : 0 < window) {key : κ} {time : ℕ} (h : last key = some time)
    (v : Visit κ) :
    ∃ later, visit window last v key = some later ∧ time ≤ later := by
  by_cases hadmits : Admits window last v
  · by_cases hkey : key ∈ v.keys
    · have hrest := hadmits key hkey time h
      exact ⟨v.time, visit_of_admits hadmits hkey, by omega⟩
    · exact ⟨time, (visit_of_not_mem hkey).trans h, le_rfl⟩
  · exact ⟨time, by rw [visit_of_not_admits hadmits, h], le_rfl⟩

/-- The key was last visited at `time` or later. -/
def Held (time : ℕ) (key : κ) (last : κ → Option ℕ) : Prop :=
  ∃ later, last key = some later ∧ time ≤ later

theorem held_visit (h : Admits window last v) {key : κ} (hkey : key ∈ v.keys) :
    Held v.time key (visit window last v) := ⟨v.time, visit_of_admits h hkey, le_rfl⟩

theorem Held.visit {time : ℕ} {key : κ} (hwindow : 0 < window) (h : Held time key last)
    (v : Visit κ) :
    Held time key (visit window last v) := by
  obtain ⟨later, hlater, hle⟩ := h
  obtain ⟨latest, hlatest, hgrows⟩ := visit_grows hwindow hlater v
  exact ⟨latest, hlatest, hle.trans hgrows⟩

theorem Held.apart {time : ℕ} {key : κ} (hwindow : 0 < window) (h : Held time key last)
    (hv : Admits window last v) (hkey : key ∈ v.keys) : time + window ≤ v.time := by
  obtain ⟨later, hlater, hle⟩ := h
  have hrest := hv key hkey later hlater
  omega

/-- Two admitted visits under one key are a window apart, whatever came between. -/
theorem admitted_apart (hwindow : 0 < window) {c d : Visit κ} (between : List (Visit κ))
    (hc : Admits window last c) (hd : Admits window (run (visit window) last (c :: between)) d)
    {key : κ} (hkey : key ∈ c.keys) (hkey' : key ∈ d.keys) : c.time + window ≤ d.time := by
  have hheld : Held c.time key (run (visit window) last (c :: between)) :=
    run_invariant (I := Held c.time key) (fun last v h => h.visit hwindow v) (visit window last c)
      between (held_visit hc hkey)
  exact hheld.apart hwindow hd hkey'

end Sprax.Throttle
