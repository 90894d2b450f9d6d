import Mathlib

/-!
# Disciplined traces

Sequences of events in which every event is allowed by the events before it.
-/

namespace Discipline

variable {α : Type} {allowed : List α → α → Prop}

/-- Every event of the trace is allowed by the events before it. -/
def Disciplined (allowed : List α → α → Prop) (trace : List α) : Prop :=
  ∀ before a after, trace = before ++ a :: after → allowed before a

theorem disciplined_nil : Disciplined allowed [] := by
  intro before a after h
  simp at h

theorem Disciplined.snoc {trace : List α} (h : Disciplined allowed trace) {a : α}
    (ha : allowed trace a) : Disciplined allowed (trace ++ [a]) := by
  intro before b after hsplit
  rcases List.eq_nil_or_concat after with hnil | ⟨after', c, hafter⟩
  · rw [hnil, List.append_singleton_inj] at hsplit
    rw [← hsplit.1, ← hsplit.2]
    exact ha
  · rw [hafter, List.concat_eq_append, ← List.cons_append, ← List.append_assoc,
      List.append_singleton_inj] at hsplit
    exact h before b after' hsplit.1

/-- What is allowed at the last event of a trace. -/
theorem Disciplined.last {trace : List α} {a : α} (h : Disciplined allowed (trace ++ [a])) :
    allowed trace a := h trace a [] rfl

end Discipline
