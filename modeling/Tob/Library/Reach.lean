import Mathlib.Logic.Relation

/-!
# What can be reached

Sets that no step leaves, and sets that can be reached because something gets smaller.
-/

open Relation

namespace Tob

variable {α : Type} {r : α → α → Prop} {P Q : α → Prop} {a b : α}

/-- What every step keeps is there wherever one gets to. -/
theorem reach_keeps (hstep : ∀ a b, P a → r a b → P b) (ha : P a)
    (h : ReflTransGen r a b) : P b := by
  induction h with
  | refl => exact ha
  | tail _ hbc ih => exact hstep _ _ ih hbc

/-- What can be done, or brought closer, from everywhere inside can be done from everywhere
inside. -/
theorem reach_done (left : α → Nat)
    (hstep : ∀ a, P a → ∃ b, r a b ∧ (Q b ∨ P b ∧ left b < left a))
    (ha : P a) : ∃ b, ReflTransGen r a b ∧ Q b := by
  -- by induction on what is left
  induction hm : left a using Nat.strongRecOn generalizing a with
  | ind m ih =>
      rcases hstep a ha with ⟨b, hab, hdone | ⟨hb, hlt⟩⟩
      · exact ⟨b, .single hab, hdone⟩
      · rw [hm] at hlt
        rcases ih (left b) hlt hb rfl with ⟨c, hbc, hdone⟩
        exact ⟨c, .head hab hbc, hdone⟩

end Tob
