import Mathlib

/-! How a callback ends. -/

namespace Tob

/-- A callback returns, throws or fails an assertion in the state it has reached, or does something
undefined. -/
inductive Outcome (σ : Type) where
  | returned (state : σ)
  | threw (what : String) (state : σ)
  | aborted (state : σ)
  | undefined

namespace Outcome

variable {σ τ : Type}

/-- Go on from the state of a callback that returned. -/
def andThen (o : Outcome σ) (f : σ → Outcome σ) : Outcome σ :=
  match o with
  | returned state => f state
  | threw what state => threw what state
  | aborted state => aborted state
  | undefined => undefined

/-- See the state as part of a larger one. -/
def map (f : σ → τ) : Outcome σ → Outcome τ
  | returned state => returned (f state)
  | threw what state => threw what (f state)
  | aborted state => aborted (f state)
  | undefined => undefined

/-- Go on with the result of an operation whose failure is undefined behaviour. -/
def attempt {α : Type} (o : Option α) (f : α → Outcome σ) : Outcome σ :=
  match o with
  | some a => f a
  | none => undefined

def isReturned : Outcome σ → Bool
  | returned _ => true
  | _ => false

/-- The state of a callback that returned. -/
def returned? : Outcome σ → Option σ
  | returned state => some state
  | _ => none

/-- The state a callback leaves, however it ends. -/
def state? : Outcome σ → Option σ
  | returned state => some state
  | threw _ state => some state
  | aborted state => some state
  | undefined => none

theorem eq_returned {o : Outcome σ} {state : σ} (h : o.state? = some state)
    (hreturned : o.isReturned = true) : o = returned state := by
  cases o with
  | returned s => exact congrArg returned (Option.some.inj h)
  | _ => cases hreturned

theorem attempt_state? {α : Type} {o : Option α} {f : α → Outcome σ} {state : σ} :
    (attempt o f).state? = some state ↔ ∃ a, o = some a ∧ (f a).state? = some state := by
  cases o with
  | none => simp [attempt, state?]
  | some a => simp [attempt]

theorem map_state? {o : Outcome σ} {f : σ → τ} {state : τ} :
    (o.map f).state? = some state ↔ ∃ s, o.state? = some s ∧ f s = state := by
  cases o <;> simp [map, state?]

theorem map_eq_threw_iff {o : Outcome σ} {f : σ → τ} {what : String} {state : τ} :
    o.map f = threw what state ↔ ∃ s, o = threw what s ∧ f s = state := by
  cases o <;> simp [map]

theorem map_eq_returned_iff {o : Outcome σ} {f : σ → τ} {state : τ} :
    o.map f = returned state ↔ ∃ s, o = returned s ∧ f s = state := by
  cases o <;> simp [map]

theorem map_map {υ : Type} (o : Outcome σ) (f : σ → τ) (g : τ → υ) :
    (o.map f).map g = o.map fun s ↦ g (f s) := by
  cases o <;> rfl

theorem map_id (o : Outcome σ) : (o.map fun s ↦ s) = o := by
  cases o <;> rfl

theorem andThen_state? {o : Outcome σ} {f : σ → Outcome σ} {state : σ}
    (h : (o.andThen f).state? = some state) :
    o.state? = some state ∨ ∃ s, o = returned s ∧ (f s).state? = some state := by
  cases o with
  | returned s => exact .inr ⟨s, rfl, h⟩
  | threw what s => exact .inl h
  | aborted s => exact .inl h
  | undefined => cases h

theorem attempt_eq_returned_iff {α : Type} {o : Option α} {f : α → Outcome σ} {state : σ} :
    attempt o f = returned state ↔ ∃ a, o = some a ∧ f a = returned state := by
  cases o with
  | none => simp [attempt]
  | some a => simp [attempt]

@[simp] theorem attempt_some {α : Type} (a : α) (f : α → Outcome σ) :
    attempt (some a) f = f a := rfl

@[simp] theorem andThen_returned (state : σ) (f : σ → Outcome σ) :
    (returned state).andThen f = f state := rfl

theorem andThen_returned_right (o : Outcome σ) : o.andThen returned = o := by
  cases o <;> rfl

theorem andThen_assoc (o : Outcome σ) (f g : σ → Outcome σ) :
    (o.andThen f).andThen g = o.andThen fun s ↦ (f s).andThen g := by
  cases o <;> rfl

theorem andThen_eq_returned_iff {o : Outcome σ} {f : σ → Outcome σ} {state : σ} :
    o.andThen f = returned state ↔ ∃ s, o = returned s ∧ f s = returned state := by
  cases o with
  | returned s => simp [andThen]
  | threw what s => simp [andThen]
  | aborted s => simp [andThen]
  | undefined => simp [andThen]

/-! ## Postconditions -/

/-- Nothing undefined happens, and `P` holds of what is returned. -/
def Ensures (o : Outcome σ) (P : σ → Prop) : Prop :=
  o ≠ undefined ∧ ∀ state, o = returned state → P state

theorem ensures_returned {P : σ → Prop} {state : σ} (h : P state) :
    (returned state).Ensures P := by
  apply And.intro
  · intro hundefined
    cases hundefined
  · intro state' hreturned
    cases hreturned
    exact h

theorem ensures_threw (what : String) (state : σ) (P : σ → Prop) :
    (threw what state).Ensures P := by
  apply And.intro
  · intro hundefined
    cases hundefined
  · intro state' hreturned
    cases hreturned

theorem ensures_aborted (state : σ) (P : σ → Prop) : (aborted state).Ensures P := by
  apply And.intro
  · intro hundefined
    cases hundefined
  · intro state' hreturned
    cases hreturned

theorem Ensures.imp {o : Outcome σ} {P Q : σ → Prop} (h : o.Ensures P)
    (hpost : ∀ state, P state → Q state) : o.Ensures Q :=
  ⟨h.1, fun state hreturned ↦ hpost state (h.2 state hreturned)⟩

theorem Ensures.andThen {o : Outcome σ} {f : σ → Outcome σ} {P Q : σ → Prop} (h : o.Ensures P)
    (hf : ∀ state, P state → (f state).Ensures Q) : (o.andThen f).Ensures Q := by
  cases o with
  | returned state => exact hf state (h.2 state rfl)
  | threw what state => exact ensures_threw what state Q
  | aborted state => exact ensures_aborted state Q
  | undefined => exact absurd rfl h.1

end Outcome

end Tob
