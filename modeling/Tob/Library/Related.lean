import Tob.Library.Bytes
import Tob.Library.Outcome

/-!
# Two runs

What cannot be said about one run alone: buffers that differ behind their first bytes, and callbacks
that end in the same way.
-/

namespace Tob

/-! ## Buffers -/

/-- Buffers of one size with the same first bytes. -/
structure AgreeTo (size : Nat) (mem mem' : List UInt8) : Prop where
  length : mem'.length = mem.length
  get : ∀ i < size, mem'[i]? = mem[i]?

variable {size : Nat} {mem mem' : List UInt8}

theorem AgreeTo.mono {less : Nat} (h : AgreeTo size mem mem') (hle : less ≤ size) :
    AgreeTo less mem mem' :=
  ⟨h.length, fun i hi ↦ h.get i (lt_of_lt_of_le hi hle)⟩

theorem agreeTo_zero (h : mem'.length = mem.length) : AgreeTo 0 mem mem' :=
  ⟨h, fun i hi ↦ absurd hi (Nat.not_lt_zero i)⟩

theorem AgreeTo.take (h : AgreeTo size mem mem') : mem'.take size = mem.take size := by
  apply List.ext_getElem?
  intro i
  rw [List.getElem?_take, List.getElem?_take]
  by_cases hi : i < size
  · rw [if_pos hi, if_pos hi, h.get i hi]
  · rw [if_neg hi, if_neg hi]

theorem AgreeTo.readAt (h : AgreeTo size mem mem') {offset count : Nat}
    (hle : offset + count ≤ size) : readAt mem' offset count = readAt mem offset count := by
  have hbytes : (mem'.drop offset).take count = (mem.drop offset).take count := by
    apply List.ext_getElem?
    intro i
    rw [List.getElem?_take, List.getElem?_take, List.getElem?_drop, List.getElem?_drop]
    by_cases hi : i < count
    · rw [if_pos hi, if_pos hi, h.get _ (by omega)]
    · rw [if_neg hi, if_neg hi]
  rw [Tob.readAt, Tob.readAt, h.length, hbytes]

theorem getElem?_writeAt {bytes : List UInt8} {offset : Nat}
    (h : writeAt mem offset bytes = some mem') (i : Nat) :
    mem'[i]? = if i < offset then mem[i]? else
      if i < offset + bytes.length then bytes[i - offset]? else mem[i]? := by
  rw [writeAt] at h
  by_cases hroom : offset + bytes.length ≤ mem.length
  · rw [if_pos hroom, Option.some_inj] at h
    have hfront : (mem.take offset).length = offset := by
      rw [List.length_take]
      omega
    rw [← h, List.append_assoc, List.getElem?_append, hfront]
    by_cases hbefore : i < offset
    · rw [if_pos hbefore, if_pos hbefore, List.getElem?_take, if_pos hbefore]
    · rw [if_neg hbefore, if_neg hbefore, List.getElem?_append]
      by_cases hin : i < offset + bytes.length
      · rw [if_pos hin, if_pos (by omega)]
      · rw [if_neg hin, if_neg (by omega), List.getElem?_drop]
        congr 1
        omega
  · rw [if_neg hroom] at h
    cases h

/-- One write into both: they agree on what is written, and where they have agreed before. -/
theorem AgreeTo.writeAt (h : AgreeTo size mem mem') {offset size' : Nat} (bytes : List UInt8)
    (hle : size' ≤ max size (offset + bytes.length)) (hoffset : offset ≤ size) :
    Option.Rel (AgreeTo size') (writeAt mem offset bytes) (writeAt mem' offset bytes) := by
  cases hwrite : Tob.writeAt mem offset bytes with
  | none =>
      have hnone : Tob.writeAt mem' offset bytes = none := by
        rw [Tob.writeAt] at hwrite ⊢
        rw [h.length]
        by_cases hroom : offset + bytes.length ≤ mem.length
        · rw [if_pos hroom] at hwrite
          cases hwrite
        · exact if_neg hroom
      rw [hnone]
      exact .none
  | some after =>
      obtain ⟨after', hwrite'⟩ : ∃ after', Tob.writeAt mem' offset bytes = some after' := by
        rw [Tob.writeAt] at hwrite ⊢
        rw [h.length]
        by_cases hroom : offset + bytes.length ≤ mem.length
        · exact ⟨_, if_pos hroom⟩
        · rw [if_neg hroom] at hwrite
          cases hwrite
      rw [hwrite']
      refine .some ⟨?_, ?_⟩
      · rw [length_writeAt hwrite, length_writeAt hwrite', h.length]
      · intro i hi
        rw [getElem?_writeAt hwrite, getElem?_writeAt hwrite']
        by_cases hin : i < offset + bytes.length
        · by_cases hbefore : i < offset
          · rw [if_pos hbefore, if_pos hbefore, h.get i (by omega)]
          · rw [if_neg hbefore, if_neg hbefore, if_pos hin, if_pos hin]
        · have hbehind : ¬ i < offset := by omega
          rw [if_neg hbehind, if_neg hbehind, if_neg hin, if_neg hin, h.get i (by omega)]

theorem rel_bind {α α' β β' : Type} {R : α → α' → Prop} {S : β → β' → Prop} {o : Option α}
    {o' : Option α'} {f : α → Option β} {f' : α' → Option β'} (h : Option.Rel R o o')
    (hf : ∀ a a', o = some a → R a a' → Option.Rel S (f a) (f' a')) :
    Option.Rel S (o.bind f) (o'.bind f') := by
  cases h with
  | some ha => exact hf _ _ rfl ha
  | none => exact .none

theorem rel_map {α α' β β' : Type} {R : α → α' → Prop} {S : β → β' → Prop} {o : Option α}
    {o' : Option α'} {f : α → β} {f' : α' → β'} (h : Option.Rel R o o')
    (hf : ∀ a a', o = some a → R a a' → S (f a) (f' a')) :
    Option.Rel S (o.map f) (o'.map f') := by
  cases h with
  | some ha => exact .some (hf _ _ rfl ha)
  | none => exact .none

/-! ## Callbacks -/

namespace Outcome

variable {σ τ : Type}

/-- Both end in the same way, in states that are related. -/
inductive Related (R : σ → σ → Prop) : Outcome σ → Outcome σ → Prop where
  | returned {s s'} : R s s' → Related R (returned s) (returned s')
  | threw {s s'} (what : String) : R s s' → Related R (threw what s) (threw what s')
  | aborted {s s'} : R s s' → Related R (aborted s) (aborted s')
  | undefined : Related R undefined undefined

variable {R : σ → σ → Prop}

theorem Related.andThen {o o' : Outcome σ} {f f' : σ → Outcome σ} (h : Related R o o')
    (hf : ∀ s s', o = .returned s → R s s' → Related R (f s) (f' s')) :
    Related R (o.andThen f) (o'.andThen f') := by
  cases h with
  | returned hs => exact hf _ _ rfl hs
  | threw what hs => exact .threw what hs
  | aborted hs => exact .aborted hs
  | undefined => exact .undefined

theorem Related.attempt {α : Type} {S : α → α → Prop} {o o' : Option α} {f f' : α → Outcome σ}
    (h : Option.Rel S o o') (hf : ∀ a a', o = some a → S a a' → Related R (f a) (f' a')) :
    Related R (attempt o f) (attempt o' f') := by
  cases h with
  | some ha => exact hf _ _ rfl ha
  | none => exact .undefined

/-- What is seen of the states is the same when it is the same in related ones. -/
theorem Related.map_eq {o o' : Outcome σ} {f : σ → τ} (h : Related R o o')
    (hf : ∀ s s', R s s' → f s' = f s) : o'.map f = o.map f := by
  cases h with
  | returned hs => exact congrArg Outcome.returned (hf _ _ hs)
  | threw what hs => exact congrArg (Outcome.threw what) (hf _ _ hs)
  | aborted hs => exact congrArg Outcome.aborted (hf _ _ hs)
  | undefined => rfl

end Outcome

end Tob
