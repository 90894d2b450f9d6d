import Tob.Json.Tokens

/-!
# Whole numbers

The loop of `decodeNumber` stays within 64 bits: it gives a text up to `decodeDouble` exactly when
the number would not fit.
-/

namespace Tob.Reader

open JsonText

/-- The number a text of digits stands for, behind digits that stand for `value`. -/
def wholeFrom (value : Nat) (ds : List UInt8) : Nat :=
  ds.foldl (fun value c ↦ value * 10 + (c.toNat - 48)) value

def whole (ds : List UInt8) : Nat := wholeFrom 0 ds

theorem wholeFrom_nil (value : Nat) : wholeFrom value [] = value := rfl

theorem wholeFrom_cons (value : Nat) (c : UInt8) (ds : List UInt8) :
    wholeFrom value (c :: ds) = wholeFrom (value * 10 + (c.toNat - 48)) ds := by
  simp only [wholeFrom, List.foldl_cons]

theorem wholeFrom_append (value : Nat) (ds es : List UInt8) :
    wholeFrom value (ds ++ es) = wholeFrom (wholeFrom value ds) es := List.foldl_append

theorem le_wholeFrom (value : Nat) (ds : List UInt8) : value ≤ wholeFrom value ds := by
  induction ds generalizing value with
  | nil => exact le_refl value
  | cons c ds ih =>
      have hle := ih (value * 10 + (c.toNat - 48))
      rw [wholeFrom_cons]
      omega

theorem mul_ten_le_wholeFrom (value : Nat) {ds : List UInt8} (hne : ds ≠ []) :
    value * 10 ≤ wholeFrom value ds := by
  cases ds with
  | nil => exact absurd rfl hne
  | cons c ds =>
      have hle := le_wholeFrom (value * 10 + (c.toNat - 48)) ds
      rw [wholeFrom_cons]
      omega

theorem isDigit_iff {c : UInt8} : isDigit c = true ↔ ¬ (c < 48 ∨ 57 < c) := by
  rw [isDigit, Bool.and_eq_true, decide_eq_true_iff, decide_eq_true_iff, not_or, UInt8.not_lt,
    UInt8.not_lt]

theorem toNat_digit {c : UInt8} (hc : isDigit c = true) : 48 ≤ c.toNat ∧ c.toNat ≤ 57 := by
  rw [isDigit, Bool.and_eq_true, decide_eq_true_iff, decide_eq_true_iff, UInt8.le_iff_toNat_le,
    UInt8.le_iff_toNat_le] at hc
  exact hc

theorem decodeDigits_digits {maxIntegerValue : Nat} (hmax : 10 ≤ maxIntegerValue)
    {ds : List UInt8} (hd : Digits ds) {value : Nat} (hv : value ≤ maxIntegerValue) :
    decodeDigits maxIntegerValue value ds =
      if wholeFrom value ds ≤ maxIntegerValue then some (wholeFrom value ds) else none := by
  induction ds generalizing value with
  | nil => rw [decodeDigits, wholeFrom_nil, if_pos hv]
  | cons c ds ih =>
      have hc := hd c List.mem_cons_self
      have hdigit := toNat_digit hc
      have hle := le_wholeFrom (value * 10 + (c.toNat - 48)) ds
      rw [decodeDigits, if_neg (isDigit_iff.mp hc), wholeFrom_cons]
      split
      · rename_i hstop
        -- the threshold is passed, or it is reached and more than one digit is left
        have hlarge : maxIntegerValue < wholeFrom (value * 10 + (c.toNat - 48)) ds := by
          rcases hstop with ⟨hthreshold, hover | hmore | hlast⟩
          · omega
          · have hten := mul_ten_le_wholeFrom (value * 10 + (c.toNat - 48)) hmore
            omega
          · omega
        rw [if_neg (Nat.not_le.mpr hlarge)]
      · rename_i hgo
        refine ih (fun c hc ↦ hd c (List.mem_cons_of_mem _ hc)) ?_
        by_contra hlarge
        apply hgo
        refine ⟨by omega, ?_⟩
        by_cases hover : maxIntegerValue / 10 < value
        · exact .inl hover
        · exact .inr (.inr (by omega))

theorem decodeDigits_of_not {maxIntegerValue value : Nat} {t : List UInt8} (h : ¬ Digits t) :
    decodeDigits maxIntegerValue value t = none := by
  induction t generalizing value with
  | nil => exact absurd (fun c hc ↦ absurd hc List.not_mem_nil) h
  | cons c t ih =>
      rw [decodeDigits]
      split
      · rfl
      · rename_i hc
        split
        · rfl
        · refine ih fun ht ↦ h ?_
          exact List.forall_mem_cons.mpr ⟨isDigit_iff.mpr hc, ht⟩

variable (reader : Reader)

theorem decodeNumber_negative {ds : List UInt8} (hd : Digits ds) :
    decodeNumber reader (45 :: ds) =
      if whole ds ≤ 2 ^ 63 then some (.integer (-whole ds))
      else decodeDouble reader (45 :: ds) := by
  have hhead : (45 :: ds).head? = some 45 := rfl
  rw [decodeNumber, if_pos hhead, List.tail_cons,
    decodeDigits_digits (by decide) hd (Nat.zero_le _)]
  by_cases hfits : wholeFrom 0 ds ≤ 2 ^ 63
  · rw [whole, if_pos hfits, if_pos hfits]
  · rw [whole, if_neg hfits, if_neg hfits]

theorem decodeNumber_positive {ds : List UInt8} (hd : Digits ds) :
    decodeNumber reader ds =
      if whole ds < 2 ^ 64 then some (.integer (whole ds)) else decodeDouble reader ds := by
  have hhead : ds.head? ≠ some 45 := by
    intro h
    have hc := hd 45 (List.mem_of_head? h)
    cases hc
  rw [decodeNumber, if_neg hhead, decodeDigits_digits (by decide) hd (Nat.zero_le _)]
  by_cases hfits : wholeFrom 0 ds < 2 ^ 64
  · rw [whole, if_pos hfits, if_pos (Nat.le_sub_one_of_lt hfits)]
  · have hlarge : ¬ wholeFrom 0 ds ≤ 2 ^ 64 - 1 := by omega
    rw [whole, if_neg hfits, if_neg hlarge]

/-- A text has a whole number as its value exactly if it is digits, perhaps behind a sign, for a
number of 64 bits, and then it is that number.  All other texts are left to `decodeDouble`. -/
theorem decodeNumber_exact (t : List UInt8) :
    (∀ value : Int, decodeNumber reader t = some (.integer value) ↔
      (∃ ds, t = 45 :: ds ∧ Digits ds ∧ value = -whole ds ∧ -2 ^ 63 ≤ value) ∨
        Digits t ∧ value = whole t ∧ value < 2 ^ 64) ∧
      ((∀ value, decodeNumber reader t ≠ some (.integer value)) →
        decodeNumber reader t = decodeDouble reader t) := by
  -- a double is no whole number
  have hdouble (value : Int) : decodeDouble reader t ≠ some (.integer value) := by
    intro h
    rcases Option.map_eq_some_iff.mp h with ⟨text, -, hreal⟩
    cases hreal
  by_cases hdigits : Digits t
  · have hsign : ∀ ds, t ≠ 45 :: ds := by
      rintro ds rfl
      cases hdigits 45 List.mem_cons_self
    rw [decodeNumber_positive reader hdigits]
    by_cases hfits : whole t < 2 ^ 64
    · simp only [if_pos hfits, Option.some.injEq, Value.integer.injEq]
      refine ⟨fun value ↦ ⟨?_, ?_⟩, fun hno ↦ absurd rfl (hno _)⟩
      · rintro rfl
        exact .inr ⟨hdigits, rfl, by omega⟩
      · rintro (⟨ds, ht, -⟩ | ⟨-, hvalue, -⟩)
        · exact absurd ht (hsign ds)
        · exact hvalue.symm
    · simp only [if_neg hfits]
      refine ⟨fun value ↦ ⟨fun h ↦ absurd h (hdouble value), ?_⟩, fun _ ↦ trivial⟩
      rintro (⟨ds, ht, -⟩ | ⟨-, hvalue, hlt⟩)
      · exact absurd ht (hsign ds)
      · omega
  · by_cases hnegative : ∃ ds, t = 45 :: ds ∧ Digits ds
    · rcases hnegative with ⟨ds, rfl, hds⟩
      rw [decodeNumber_negative reader hds]
      by_cases hfits : whole ds ≤ 2 ^ 63
      · simp only [if_pos hfits, Option.some.injEq, Value.integer.injEq]
        refine ⟨fun value ↦ ⟨?_, ?_⟩, fun hno ↦ absurd rfl (hno _)⟩
        · rintro rfl
          exact .inl ⟨ds, rfl, hds, rfl, by omega⟩
        · rintro (⟨ds', ht, -, hvalue, -⟩ | ⟨hd, -⟩)
          · cases ht
            exact hvalue.symm
          · exact absurd hd hdigits
      · simp only [if_neg hfits]
        refine ⟨fun value ↦ ⟨fun h ↦ absurd h (hdouble value), ?_⟩, fun _ ↦ trivial⟩
        rintro (⟨ds', ht, -, hvalue, hle⟩ | ⟨hd, -⟩)
        · cases ht
          omega
        · exact absurd hd hdigits
    · have hleft : decodeNumber reader t = decodeDouble reader t := by
        rw [decodeNumber]
        by_cases hhead : t.head? = some 45
        · rcases List.head?_eq_some_iff.mp hhead with ⟨ds, rfl⟩
          have hds : ¬ Digits ds := fun hds ↦ hnegative ⟨ds, rfl, hds⟩
          rw [if_pos hhead, List.tail_cons, decodeDigits_of_not hds]
        · rw [if_neg hhead, decodeDigits_of_not hdigits]
      refine ⟨fun value ↦ ⟨fun h ↦ absurd (hleft ▸ h) (hdouble value), ?_⟩, fun _ ↦ hleft⟩
      rintro (⟨ds, ht, hds, -⟩ | ⟨hd, -⟩)
      · exact absurd ⟨ds, ht, hds⟩ hnegative
      · exact absurd hd hdigits

end Tob.Reader
