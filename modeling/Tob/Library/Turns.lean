import Mathlib

/-!
# One job a turn

A server that takes at most one of the jobs that are there, turn after turn.
-/

namespace Tob

/-- The jobs served after a number of turns; `available s` have arrived by turn `s`. -/
def served (available : Nat → Nat) : Nat → Nat
  | 0 => 0
  | turn + 1 => min (served available turn + 1) (available (turn + 1))

variable {available other : Nat → Nat}

theorem served_le (available : Nat → Nat) {turns : Nat} (h : 0 < turns) :
    served available turns ≤ available turns := by
  cases turns with
  | zero => omega
  | succ turns => exact Nat.min_le_right _ _

theorem served_congr {turns : Nat} (h : ∀ s, 0 < s → s ≤ turns → available s = other s) :
    served available turns = served other turns := by
  induction turns with
  | zero => rfl
  | succ turns ih =>
      rw [served, served, ih (fun s hpos hle ↦ h s hpos (by omega)), h _ (by omega) (le_refl _)]

/-- Served is what no turn held back: the jobs that were there at some turn, and one for each turn
behind it. -/
theorem le_served_iff {jobs turns : Nat} :
    jobs ≤ served available turns ↔
      jobs ≤ turns ∧ ∀ s, 0 < s → s ≤ turns → jobs ≤ available s + (turns - s) := by
  induction turns generalizing jobs with
  | zero => exact ⟨fun h ↦ ⟨h, fun s hpos hle ↦ by omega⟩, fun h ↦ h.1⟩
  | succ turns ih =>
      rw [served, le_min_iff, show jobs ≤ served available turns + 1 ↔
        jobs - 1 ≤ served available turns by omega, ih]
      apply Iff.intro
      · intro h
        refine ⟨by omega, fun s hpos hle ↦ ?_⟩
        by_cases hlast : s = turns + 1
        · rw [hlast]
          omega
        · have hs := h.1.2 s hpos (by omega)
          omega
      · intro h
        have hlast := h.2 (turns + 1) (by omega) (le_refl _)
        refine ⟨⟨by omega, fun s hpos hle ↦ ?_⟩, by omega⟩
        have hs := h.2 s hpos (by omega)
        omega

end Tob
