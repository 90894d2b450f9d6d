import Mathlib

/-!
# Searching a C string

`strstr` on an array: the search goes on to the first NUL byte, and out of the array if there is
none before its end.
-/

namespace Tob

/-- How a search ends: at a match, at a NUL byte, or behind the end of the array. -/
inductive Search where
  | found (index : Nat)
  | ended
  | overrun
  deriving DecidableEq, Repr

def Search.next : Search → Search
  | found index => found (index + 1)
  | ended => ended
  | overrun => overrun

def strstr (pattern : List UInt8) : List UInt8 → Search
  | [] => .overrun
  | b :: rest =>
      if pattern <+: b :: rest then .found 0
      else if b = 0 then .ended
      else (strstr pattern rest).next

variable {pattern : List UInt8}

/-- The pattern is at `index`. -/
def OccursAt (pattern text : List UInt8) (index : Nat) : Prop := pattern <+: text.drop index

theorem OccursAt.length_le {text : List UInt8} {index : Nat} (h : OccursAt pattern text index)
    (hne : pattern ≠ []) : index + pattern.length ≤ text.length := by
  have hle := List.IsPrefix.length_le h
  have hpos := List.length_pos_iff.mpr hne
  rw [List.length_drop] at hle
  omega

-- An occurrence that ends within a part of the text is an occurrence in that part.
theorem OccursAt.of_append {text more : List UInt8} {index : Nat}
    (h : OccursAt pattern (text ++ more) index) (hle : index + pattern.length ≤ text.length) :
    OccursAt pattern text index := by
  unfold OccursAt at h ⊢
  rw [List.drop_append_of_le_length (by omega)] at h
  exact List.prefix_of_prefix_length_le h (List.prefix_append _ _) (by rw [List.length_drop]; omega)

theorem OccursAt.append {text : List UInt8} {index : Nat} (h : OccursAt pattern text index)
    (hle : index ≤ text.length) (more : List UInt8) : OccursAt pattern (text ++ more) index := by
  unfold OccursAt at h ⊢
  rw [List.drop_append_of_le_length hle]
  exact h.trans (List.prefix_append _ _)

/-- The first occurrence, with no NUL byte before it, is found. -/
theorem strstr_eq_found {text : List UInt8} {index : Nat} (hlt : index < text.length)
    (hat : OccursAt pattern text index) (hfirst : ∀ i < index, ¬ OccursAt pattern text i)
    (hzero : ∀ b ∈ text.take index, b ≠ 0) : strstr pattern text = .found index := by
  induction text generalizing index with
  | nil => exact absurd hlt (Nat.not_lt_zero _)
  | cons b rest ih =>
      rw [strstr]
      cases index with
      | zero =>
          have hhere : pattern <+: b :: rest := hat
          rw [if_pos hhere]
      | succ index =>
          have hhere : ¬ pattern <+: b :: rest := hfirst 0 (Nat.succ_pos _)
          have hb : b ≠ 0 := hzero b (by rw [List.take_succ_cons]; exact List.mem_cons_self)
          rw [if_neg hhere, if_neg hb, ih (Nat.lt_of_succ_lt_succ hlt) hat]
          · rfl
          · exact fun i hi ↦ hfirst (i + 1) (Nat.succ_lt_succ hi)
          · exact fun c hc ↦ hzero c (by rw [List.take_succ_cons]; exact List.mem_cons_of_mem _ hc)

/-- A search that finds something has it here, or one byte on behind a byte that is not NUL. -/
theorem strstr_cons_found {b : UInt8} {rest : List UInt8} {index : Nat}
    (h : strstr pattern (b :: rest) = .found index) :
    (pattern <+: b :: rest ∧ index = 0) ∨
      ¬ pattern <+: b :: rest ∧ b ≠ 0 ∧
        ∃ i, strstr pattern rest = .found i ∧ index = i + 1 := by
  rw [strstr] at h
  by_cases hat : pattern <+: b :: rest
  · rw [if_pos hat] at h
    cases h
    exact .inl ⟨hat, rfl⟩
  · right
    rw [if_neg hat] at h
    by_cases hb : b = 0
    · rw [if_pos hb] at h
      cases h
    · rw [if_neg hb] at h
      cases hrest : strstr pattern rest with
      | found i =>
          rw [hrest] at h
          cases h
          exact ⟨hat, hb, i, rfl, rfl⟩
      | ended => rw [hrest] at h; cases h
      | overrun => rw [hrest] at h; cases h

/-- What is found is an occurrence. -/
theorem occursAt_of_strstr {text : List UInt8} {index : Nat}
    (h : strstr pattern text = .found index) : OccursAt pattern text index := by
  induction text generalizing index with
  | nil => cases h
  | cons b rest ih =>
      rcases strstr_cons_found h with ⟨hat, rfl⟩ | ⟨-, -, i, hrest, rfl⟩
      · exact hat
      · exact ih hrest

/-- It is the first one, and no NUL byte is in front of it. -/
theorem first_of_strstr {text : List UInt8} {index : Nat} (h : strstr pattern text = .found index) :
    (∀ i < index, ¬ OccursAt pattern text i) ∧ ∀ b ∈ text.take index, b ≠ 0 := by
  induction text generalizing index with
  | nil => cases h
  | cons b rest ih =>
      rcases strstr_cons_found h with ⟨-, rfl⟩ | ⟨hat, hb, j, hrest, rfl⟩
      · exact ⟨fun i hi ↦ absurd hi (Nat.not_lt_zero i), fun c hc ↦ by cases hc⟩
      · have hfirst := ih hrest
        apply And.intro
        · intro i hi
          cases i with
          | zero => exact hat
          | succ i => exact hfirst.1 i (Nat.lt_of_succ_lt_succ hi)
        · rw [List.take_succ_cons]
          exact List.forall_mem_cons.mpr ⟨hb, hfirst.2⟩

-- What comes behind an occurrence does not matter to the search.
theorem strstr_found_append {text : List UInt8} {index : Nat} (hne : pattern ≠ [])
    (h : strstr pattern text = .found index) (more : List UInt8) :
    strstr pattern (text ++ more) = .found index := by
  have hat := occursAt_of_strstr h
  have hend := hat.length_le hne
  have hpos := List.length_pos_iff.mpr hne
  rcases first_of_strstr h with ⟨hfirst, hzero⟩
  apply strstr_eq_found
  · rw [List.length_append]
    omega
  · exact hat.append (by omega) more
  · exact fun i hi hi' ↦ hfirst i hi (hi'.of_append (by omega))
  · rw [List.take_append_of_le_length (by omega)]
    exact hzero

theorem strstr_found_of_append {text more : List UInt8} {index : Nat} (hne : pattern ≠ [])
    (h : strstr pattern (text ++ more) = .found index)
    (hend : index + pattern.length ≤ text.length) : strstr pattern text = .found index := by
  have hpos := List.length_pos_iff.mpr hne
  rcases first_of_strstr h with ⟨hfirst, hzero⟩
  apply strstr_eq_found
  · omega
  · exact (occursAt_of_strstr h).of_append hend
  · exact fun i hi hi' ↦ hfirst i hi (hi'.append (by omega) more)
  · rw [List.take_append_of_le_length (by omega)] at hzero
    exact hzero

/-- A text without an occurrence and without a NUL byte is searched to its end. -/
theorem strstr_append {text more : List UInt8} (hzero : ∀ b ∈ text, b ≠ 0)
    (hnone : ∀ i < text.length, ¬ OccursAt pattern (text ++ more) i) :
    strstr pattern (text ++ more) = Search.next^[text.length] (strstr pattern more) := by
  induction text with
  | nil => rfl
  | cons b rest ih =>
      have hb : b ≠ 0 := hzero b List.mem_cons_self
      have hstart : ¬ pattern <+: b :: (rest ++ more) := hnone 0 (Nat.succ_pos _)
      rw [List.cons_append, strstr, if_neg hstart, if_neg hb, List.length_cons,
        Function.iterate_succ_apply', ih (fun c hc ↦ hzero c (List.mem_cons_of_mem _ hc))]
      exact fun i hi ↦ hnone (i + 1) (Nat.succ_lt_succ hi)

theorem iterate_next_ended (n : Nat) : Search.next^[n] .ended = .ended := by
  induction n with
  | zero => rfl
  | succ n ih => rw [Function.iterate_succ_apply', ih]; rfl

theorem iterate_next_overrun (n : Nat) : Search.next^[n] .overrun = .overrun := by
  induction n with
  | zero => rfl
  | succ n ih => rw [Function.iterate_succ_apply', ih]; rfl

-- An occurrence does not reach over a NUL byte.
theorem OccursAt.before_zero {text more : List UInt8} (hpattern : ∀ b ∈ pattern, b ≠ 0)
    {index : Nat} (hle : index ≤ text.length) (h : OccursAt pattern (text ++ 0 :: more) index) :
    index + pattern.length ≤ text.length := by
  by_contra hover
  unfold OccursAt at h
  rw [List.drop_append_of_le_length hle] at h
  have hwhole : text.drop index ++ [0] <+: text.drop index ++ 0 :: more := by
    rw [show text.drop index ++ 0 :: more = text.drop index ++ [0] ++ more by simp]
    exact List.prefix_append _ _
  have hzero : text.drop index ++ [0] <+: pattern := by
    apply List.prefix_of_prefix_length_le hwhole h
    rw [List.length_append, List.length_drop, List.length_singleton]
    omega
  exact hpattern 0 (hzero.subset (List.mem_append_right _ List.mem_cons_self)) rfl

/-- A text without an occurrence, with a NUL byte behind it. -/
theorem strstr_eq_ended {text more : List UInt8} (hpattern : ∀ b ∈ pattern, b ≠ 0)
    (hne : pattern ≠ []) (hzero : ∀ b ∈ text, b ≠ 0)
    (hnone : ∀ i, i + pattern.length ≤ text.length → ¬ OccursAt pattern text i) :
    strstr pattern (text ++ 0 :: more) = .ended := by
  have hend : strstr pattern (0 :: more) = .ended := by
    have hstart : ¬ pattern <+: 0 :: more := by
      intro h
      have hle : 0 + pattern.length ≤ ([] : List UInt8).length :=
        OccursAt.before_zero hpattern (Nat.le_refl 0) h
      have hpos := List.length_pos_iff.mpr hne
      rw [List.length_nil] at hle
      omega
    rw [strstr, if_neg hstart, if_pos rfl]
  rw [strstr_append hzero, hend, iterate_next_ended]
  intro i hi hat
  have hle := hat.before_zero hpattern (le_of_lt hi)
  exact hnone i hle (hat.of_append hle)

/-- A text without an occurrence and without a NUL byte, with nothing behind it. -/
theorem strstr_eq_overrun {text : List UInt8} (hne : pattern ≠ []) (hzero : ∀ b ∈ text, b ≠ 0)
    (hnone : ∀ i, i + pattern.length ≤ text.length → ¬ OccursAt pattern text i) :
    strstr pattern text = .overrun := by
  have h : strstr pattern (text ++ []) = Search.next^[text.length] (strstr pattern []) := by
    apply strstr_append hzero
    intro i _ hat
    rw [List.append_nil] at hat
    exact hnone i (hat.length_le hne) hat
  rw [List.append_nil] at h
  rw [h, strstr, iterate_next_overrun]

/-! ## The first occurrence -/

/-- An occurrence with none in front of it. -/
def FirstAt (pattern text : List UInt8) (index : Nat) : Prop :=
  OccursAt pattern text index ∧ ∀ i < index, ¬ OccursAt pattern text i

/-- The text in front of the first occurrence. -/
def textBefore (pattern : List UInt8) : List UInt8 → List UInt8
  | [] => []
  | b :: rest => if pattern <+: b :: rest then [] else b :: textBefore pattern rest

theorem FirstAt.textBefore {text : List UInt8} {index : Nat} (h : FirstAt pattern text index)
    (hle : index ≤ text.length) : textBefore pattern text = text.take index := by
  induction text generalizing index with
  | nil => rw [List.take_nil]; rfl
  | cons b rest ih =>
      rw [Tob.textBefore]
      cases index with
      | zero => exact if_pos h.1
      | succ index =>
          have hstart : ¬ pattern <+: b :: rest := h.2 0 (Nat.succ_pos _)
          have hrest : FirstAt pattern rest index :=
            ⟨h.1, fun i hi ↦ h.2 (i + 1) (Nat.succ_lt_succ hi)⟩
          rw [if_neg hstart, List.take_succ_cons, ih hrest (Nat.le_of_succ_le_succ hle)]

theorem OccursAt.isInfix {text : List UInt8} {index : Nat} (h : OccursAt pattern text index) :
    pattern <:+: text :=
  (List.IsPrefix.isInfix h).trans (List.drop_suffix _ _).isInfix

theorem exists_firstAt {text : List UInt8} (h : pattern <:+: text) :
    ∃ index, FirstAt pattern text index := by
  classical
  rcases h with ⟨before, after, htext⟩
  have hat : ∃ index, OccursAt pattern text index := by
    refine ⟨before.length, ?_⟩
    rw [← htext, OccursAt, List.append_assoc, List.drop_left]
    exact List.prefix_append _ _
  exact ⟨Nat.find hat, Nat.find_spec hat, fun i hi ↦ Nat.find_min hat hi⟩

-- What comes later does not change what is first.
theorem FirstAt.append {text : List UInt8} {index : Nat} (h : FirstAt pattern text index)
    (hend : index + pattern.length ≤ text.length) (more : List UInt8) :
    FirstAt pattern (text ++ more) index := by
  refine ⟨h.1.append (by omega) more, ?_⟩
  intro i hi hat
  exact h.2 i hi (hat.of_append (by omega))

/-! ## The end of a search -/

/-- A search comes to its end in the array: at the pattern, or at a NUL byte. -/
def EndsWithin (pattern text : List UInt8) : Prop :=
  ∃ index < text.length, OccursAt pattern text index ∨ text[index]? = some 0

theorem endsWithin_cons (b : UInt8) (rest : List UInt8) :
    EndsWithin pattern (b :: rest) ↔ pattern <+: b :: rest ∨ b = 0 ∨ EndsWithin pattern rest := by
  apply Iff.intro
  · rintro ⟨index, hlt, h⟩
    cases index with
    | zero =>
        rcases h with hat | hzero
        · exact .inl hat
        · rw [List.getElem?_cons_zero, Option.some_inj] at hzero
          exact .inr (.inl hzero)
    | succ index =>
        rw [List.getElem?_cons_succ] at h
        exact .inr (.inr ⟨index, Nat.lt_of_succ_lt_succ hlt, h⟩)
  · rintro (hat | hzero | ⟨index, hlt, h⟩)
    · exact ⟨0, Nat.succ_pos _, .inl hat⟩
    · exact ⟨0, Nat.succ_pos _, .inr (congrArg some hzero)⟩
    · exact ⟨index + 1, Nat.succ_lt_succ hlt, h⟩

/-- That is where `strstr` does not leave the array. -/
theorem endsWithin_iff (text : List UInt8) :
    EndsWithin pattern text ↔ strstr pattern text ≠ .overrun := by
  induction text with
  | nil => exact iff_of_false (fun ⟨_, hlt, _⟩ ↦ Nat.not_lt_zero _ hlt) (fun h ↦ h rfl)
  | cons b rest ih =>
      rw [endsWithin_cons, ih, strstr]
      by_cases hat : pattern <+: b :: rest
      · rw [if_pos hat]
        exact iff_of_true (.inl hat) (by simp)
      · rw [if_neg hat]
        by_cases hb : b = 0
        · rw [if_pos hb]
          exact iff_of_true (.inr (.inl hb)) (by simp)
        · rw [if_neg hb]
          cases strstr pattern rest with
          | found index => simp [Search.next]
          | ended => simp [Search.next]
          | overrun => simp [Search.next, hat, hb]

theorem endsWithin_iff_isInfix (hne : pattern ≠ []) (text : List UInt8) :
    EndsWithin pattern text ↔ pattern <:+: text ∨ 0 ∈ text := by
  apply Iff.intro
  · rintro ⟨index, -, hat | hzero⟩
    · exact .inl hat.isInfix
    · exact .inr (List.mem_of_getElem? hzero)
  · rintro (hpart | hzero)
    · rcases exists_firstAt hpart with ⟨index, hat, -⟩
      have hend := hat.length_le hne
      have hpos := List.length_pos_iff.mpr hne
      exact ⟨index, by omega, .inl hat⟩
    · rcases List.mem_iff_getElem?.mp hzero with ⟨index, hget⟩
      exact ⟨index, (List.getElem?_eq_some_iff.mp hget).1, .inr hget⟩

end Tob
