import Mathlib

/-!
# Last write wins

A sequence of writes to the keys of a total function, and the last value written to a key.
-/

namespace LastWrite

variable {κ ν : Type} [DecidableEq κ]

/-- Apply writes from first to last. -/
def applyWrites (f : κ → ν) : List (κ × ν) → κ → ν
  | [] => f
  | w :: ws => applyWrites (Function.update f w.1 w.2) ws

/-- The value of the last write to `k`. -/
def lastWrite : List (κ × ν) → κ → Option ν
  | [], _ => none
  | w :: ws, k => (lastWrite ws k).or (if w.1 = k then some w.2 else none)

@[simp] theorem lastWrite_nil (k : κ) : lastWrite ([] : List (κ × ν)) k = none := rfl

theorem lastWrite_append (xs ys : List (κ × ν)) (k : κ) :
    lastWrite (xs ++ ys) k = (lastWrite ys k).or (lastWrite xs k) := by
  induction xs with
  | nil => simp [lastWrite]
  | cons w ws ih => simp only [List.cons_append, lastWrite, ih, Option.or_assoc]

theorem lastWrite_concat (xs : List (κ × ν)) (w : κ × ν) (k : κ) :
    lastWrite (xs ++ [w]) k = if w.1 = k then some w.2 else lastWrite xs k := by
  rw [lastWrite_append]
  simp only [lastWrite, Option.none_or]
  split <;> rfl

theorem lastWrite_eq_none_iff {ws : List (κ × ν)} {k : κ} :
    lastWrite ws k = none ↔ k ∉ ws.map Prod.fst := by
  induction ws with
  | nil => simp
  | cons w ws ih =>
      rw [lastWrite, Option.or_eq_none_iff, ih, List.map_cons, List.mem_cons, not_or, and_comm,
        eq_comm (a := k)]
      simp

theorem mem_of_lastWrite_eq_some {ws : List (κ × ν)} {k : κ} {v : ν}
    (h : lastWrite ws k = some v) : (k, v) ∈ ws := by
  induction ws with
  | nil => simp at h
  | cons w ws ih =>
      rw [lastWrite, Option.or_eq_some_iff] at h
      rcases h with h | ⟨-, h⟩
      · exact List.mem_cons_of_mem _ (ih h)
      · by_cases hw : w.1 = k
        · rw [if_pos hw, Option.some_inj] at h
          rw [← hw, ← h]
          exact List.mem_cons_self
        · simp [hw] at h

/-- When every key is written at most once, the last write to a key is the only one. -/
theorem lastWrite_eq_some_of_mem {ws : List (κ × ν)} (hn : (ws.map Prod.fst).Nodup) {k : κ} {v : ν}
    (h : (k, v) ∈ ws) : lastWrite ws k = some v := by
  induction ws with
  | nil => simp at h
  | cons w ws ih =>
      rw [List.map_cons, List.nodup_cons] at hn
      rw [lastWrite]
      rcases List.mem_cons.mp h with h | h
      · have hk : lastWrite ws k = none := lastWrite_eq_none_iff.mpr (by rw [← h] at hn; exact hn.1)
        rw [hk, ← h]
        simp
      · rw [ih hn.2 h]
        rfl

theorem lastWrite_perm {xs ys : List (κ × ν)} (hp : xs.Perm ys)
    (hn : (xs.map Prod.fst).Nodup) (k : κ) : lastWrite xs k = lastWrite ys k := by
  have hn' : (ys.map Prod.fst).Nodup := (hp.map Prod.fst).nodup_iff.mp hn
  cases hx : lastWrite xs k with
  | none =>
      rw [lastWrite_eq_none_iff] at hx
      rw [eq_comm, lastWrite_eq_none_iff, ← (hp.map Prod.fst).mem_iff]
      exact hx
  | some v =>
      exact (lastWrite_eq_some_of_mem hn' (hp.mem_iff.mp (mem_of_lastWrite_eq_some hx))).symm

theorem applyWrites_apply (f : κ → ν) (ws : List (κ × ν)) (k : κ) :
    applyWrites f ws k = (lastWrite ws k).getD (f k) := by
  induction ws generalizing f with
  | nil => rfl
  | cons w ws ih =>
      rw [applyWrites, ih, lastWrite, Option.getD_or]
      by_cases hk : w.1 = k
      · rw [if_pos hk, ← hk, Function.update_self]; rfl
      · rw [if_neg hk, Function.update_of_ne (Ne.symm hk)]; rfl

theorem applyWrites_append (f : κ → ν) (xs ys : List (κ × ν)) :
    applyWrites f (xs ++ ys) = applyWrites (applyWrites f xs) ys := by
  induction xs generalizing f with
  | nil => rfl
  | cons w ws ih => exact ih _

/-- Writing the tail of a sequence once more changes nothing. -/
theorem applyWrites_replay (f : κ → ν) (xs ys : List (κ × ν)) :
    applyWrites (applyWrites f (xs ++ ys)) ys = applyWrites f (xs ++ ys) := by
  funext k
  rw [applyWrites_apply, applyWrites_append, applyWrites_apply]
  cases lastWrite ys k <;> rfl

end LastWrite
