import Tob.Json.Limits
import Tob.Json.Numbers

/-!
# Documents

What `Reader::parse` accepts, what it stores, and when it throws.
-/

namespace Tob.Reader

open JsonText

section

variable {reader : Reader} {g t rest doc : List UInt8} {v : Value}

/-- Any text of standard JSON within the stack limit parses to its value, with spaces and comments
wherever they may stand.  What is behind it does not matter, unless it goes on with a number. -/
theorem parse_complete (hg : Gap g) (h : IsText reader.algebra standard stackLimit v t)
    (hrest : Number t → Follows rest) : parse reader (g ++ t ++ rest) = .ok (some v) := by
  rw [parse, readValue_text stackLimit v t g rest h hg hrest]
  rfl

/-- A reader that has no value for a number with a point. -/
def wholeNumbers : Reader := ⟨fun _ ↦ none, 0⟩

/-- The text `[true,-1]`. -/
theorem firstArray_text : IsText wholeNumbers.algebra standard stackLimit
    (.array [.boolean true, .integer (-1)]) [91, 116, 114, 117, 101, 44, 45, 49, 93] := by
  have htrue : IsText wholeNumbers.algebra standard 999 (.boolean true) [116, 114, 117, 101] :=
    .true
  have hshape : Number [45, 49] :=
    Number.mk (.inl rfl) (List.forall_mem_singleton.mpr rfl : Digits [49]) .none .none
  have hminus : IsText wholeNumbers.algebra standard 999 (.integer (-1)) [45, 49] :=
    .number hshape rfl
  have hfirst : Element (IsText wholeNumbers.algebra standard 999) (.boolean true)
      [116, 114, 117, 101] := .mk .nil htrue .nil
  have hlast : Element (IsText wholeNumbers.algebra standard 999) (.integer (-1)) [45, 49] :=
    .mk .nil hminus .nil
  have hcomma : Comma [44] := rfl
  exact .array (.more hfirst hcomma (.last hlast))

theorem parse_complete_example :
    parse wholeNumbers
        ([32, 47, 42, 42, 47] ++ [91, 116, 114, 117, 101, 44, 45, 49, 93] ++ [93]) =
      .ok (some (.array [.boolean true, .integer (-1)])) := by
  have hgap : Gap [32, 47, 42, 42, 47] := .space rfl (.block .close .nil)
  have hbracket : ¬ Number [91, 116, 114, 117, 101, 44, 45, 49, 93] := not_number (by decide) rfl
  exact parse_complete hgap firstArray_text fun hnumber ↦ absurd hnumber hbracket

end

/-! ## Stored values -/

theorem decodeDigits_le {maxIntegerValue : Nat} (hmax : 10 ≤ maxIntegerValue) {t : List UInt8}
    {value : Nat} (h : decodeDigits maxIntegerValue 0 t = some value) :
    value ≤ maxIntegerValue := by
  by_cases hd : Digits t
  · rw [decodeDigits_digits hmax hd (Nat.zero_le _)] at h
    split at h
    · rename_i hle
      cases h
      exact hle
    · cases h
  · rw [decodeDigits_of_not hd] at h
    cases h

/-- What `decodeDouble` may store. -/
def IsDouble (reader : Reader) (text : List UInt8) : Prop := ∃ t, reader.double t = some text

theorem stored_decodeNumber {reader : Reader} {t : List UInt8} {v : Value} (depth : Nat)
    (h : decodeNumber reader t = some v) : Value.Stored (IsDouble reader) (depth + 1) v := by
  have hdouble (h : decodeDouble reader t = some v) :
      Value.Stored (IsDouble reader) (depth + 1) v := by
    rcases Option.map_eq_some_iff.mp h with ⟨text, htext, rfl⟩
    exact .real ⟨t, htext⟩
  unfold decodeNumber at h
  split at h
  · split at h
    · rename_i value hvalue
      cases h
      have hle := decodeDigits_le (by decide) hvalue
      exact .integer (by omega) (by omega)
    · exact hdouble h
  · split at h
    · rename_i value hvalue
      cases h
      have hle := decodeDigits_le (by decide) hvalue
      exact .integer (by omega) (by omega)
    · exact hdouble h

theorem separated_forall {α : Type} {Elem : α → List UInt8 → Prop} {Sep : List UInt8 → Prop}
    {Open : α → Prop} {P : α → Prop} {as : List α} {t : List UInt8}
    (h : Separated Elem Sep Open as t) (helem : ∀ a t, Elem a t → P a) : ∀ a ∈ as, P a := by
  induction h with
  | last he => exact List.forall_mem_singleton.mpr (helem _ _ he)
  | trailing he => exact List.forall_mem_singleton.mpr (helem _ _ he)
  | more he _ _ ih => exact List.forall_mem_cons.mpr ⟨helem _ _ he, ih⟩

theorem stored_setMembers {Real : List UInt8 → Prop} {depth : Nat}
    {members new : List (List UInt8 × Value)} (h : ∀ m ∈ members, Value.Stored Real depth m.2)
    (hnew : ∀ m ∈ new, Value.Stored Real depth m.2) :
    ∀ m ∈ Value.setMembers members new, Value.Stored Real depth m.2 := by
  induction new generalizing members with
  | nil => exact h
  | cons m new ih =>
      rcases List.forall_mem_cons.mp hnew with ⟨hm, hnew⟩
      refine ih ?_ hnew
      rintro ⟨key, old⟩ hmem
      rcases Value.mem_setMember hmem with heq | hmem
      · exact (Prod.mk.inj heq).2 ▸ hm
      · exact h _ hmem

/-- The value of a text is stored as `Json::Value` keeps values. -/
theorem stored_of_text {reader : Reader} {dialect : Dialect} {depth : Nat} {v : Value}
    {t : List UInt8} (h : IsText reader.algebra dialect depth v t) :
    Value.Stored (IsDouble reader) depth v := by
  induction depth generalizing v t with
  | zero => exact h.elim
  | succ depth ih =>
      have hitem (v : Value) (t : List UInt8)
          (h : Element (IsText reader.algebra dialect depth) v t) :
          Value.Stored (IsDouble reader) depth v := by
        cases h with
        | mk _ ht => exact ih ht
      cases h with
      | null => exact .null
      | true => exact .boolean
      | false => exact .boolean
      | number _ hv => exact stored_decodeNumber depth hv
      | string => exact .string
      | emptyArray => exact .array fun v hv ↦ absurd hv List.not_mem_nil
      | array hs => exact .array (separated_forall hs hitem)
      | emptyObject => exact .object .nil fun m hm ↦ absurd hm List.not_mem_nil
      | object hs =>
          refine .object (Value.sorted_setMembers .nil) (stored_setMembers ?_ ?_)
          · exact fun m hm ↦ absurd hm List.not_mem_nil
          · refine separated_forall hs fun m t hm ↦ ?_
            cases hm with
            | mk _ _ _ he => exact hitem _ _ he

/-! ## Results -/

section Results

variable {reader : Reader} {doc : List UInt8} {v : Value}

theorem parse_eq_some : parse reader doc = .ok (some v) ↔
    ∃ rest, readValue reader stackLimit doc = .ok (some v, rest) := by
  unfold parse
  cases readValue reader stackLimit doc with
  | error what => simp [Except.map]
  | ok r =>
      rcases r with ⟨value, rest⟩
      simp [Except.map]

/-- Where the document does not run on behind its end, the value comes from a text at its start. -/
theorem text_of_readValue {rest : List UInt8} (hend : reader.beyond = 93 → ¬ EndsOpen doc)
    (hread : readValue reader stackLimit doc = .ok (some v, rest)) :
    ∃ g t, Gap g ∧ IsText reader.algebra lenient stackLimit v t ∧ doc = g ++ t ++ rest := by
  -- a reader with another byte behind the document reads the same
  have hsame : ∃ other : Reader, other.double = reader.double ∧ other.beyond ≠ 93 ∧
      readValue other stackLimit doc = .ok (some v, rest) := by
    by_cases hbeyond : reader.beyond = 93
    · have hdouble : reader.double = (⟨reader.double, 0⟩ : Reader).double := rfl
      have hagree := readValue_agree hdouble (hend hbeyond) stackLimit
      exact ⟨⟨reader.double, 0⟩, rfl, (by decide : (0 : UInt8) ≠ 93), hagree.symm.trans hread⟩
    · exact ⟨reader, rfl, hbeyond, hread⟩
  rcases hsame with ⟨other, hdouble, hbeyond, hother⟩
  rcases readValue_sound hbeyond stackLimit doc v rest hother with ⟨g, t, hg, ht, hdoc⟩
  refine ⟨g, t, hg, ?_, by rw [List.append_assoc]; exact hdoc⟩
  have halgebra : other.algebra = reader.algebra := by
    unfold algebra
    simp only [Algebra.mk.injEq, true_and, and_true]
    funext text
    simp only [decodeNumber, decodeDouble, hdouble]
  rwa [halgebra] at ht

/-- Every document that is accepted starts with a text of the lenient grammar for its value, behind
a gap, unless an array opened at its end is closed by the byte behind it. -/
theorem parse_sound (hend : reader.beyond = 93 → ¬ EndsOpen doc)
    (h : parse reader doc = .ok (some v)) :
    ∃ g t rest, Gap g ∧ IsText reader.algebra lenient stackLimit v t ∧ doc = g ++ t ++ rest := by
  rcases parse_eq_some.mp h with ⟨rest, hread⟩
  rcases text_of_readValue hend hread with ⟨g, t, hg, ht, hdoc⟩
  exact ⟨g, t, rest, hg, ht, hdoc⟩

theorem firstArray_parse : parse wholeNumbers [91, 116, 114, 117, 101, 44, 45, 49, 93] =
    .ok (some (.array [.boolean true, .integer (-1)])) := by
  have hread := readValue_text stackLimit _ _ [] [] firstArray_text .nil fun hnumber ↦
    absurd hnumber (not_number (by decide) rfl)
  exact parse_eq_some.mpr ⟨[], hread⟩

theorem parse_sound_example : ∃ g t rest, Gap g ∧
    IsText wholeNumbers.algebra lenient stackLimit (.array [.boolean true, .integer (-1)]) t ∧
      [91, 116, 114, 117, 101, 44, 45, 49, 93] = g ++ t ++ rest := by
  have hbeyond : wholeNumbers.beyond ≠ 93 := by decide
  exact parse_sound (fun hclose ↦ absurd hclose hbeyond) firstArray_parse

/-- Whatever document is accepted, its value has at most 1000 levels, integers of 64 bits and every
member once, in key order. -/
theorem parse_stored (hend : reader.beyond = 93 → ¬ EndsOpen doc)
    (h : parse reader doc = .ok (some v)) :
    Value.Stored (IsDouble reader) stackLimit v := by
  rcases parse_eq_some.mp h with ⟨rest, hread⟩
  rcases text_of_readValue hend hread with ⟨g, t, -, ht, -⟩
  exact stored_of_text ht

theorem parse_stored_example : Value.Stored (IsDouble wholeNumbers) stackLimit
    (.array [.boolean true, .integer (-1)]) := by
  have hbeyond : wholeNumbers.beyond ≠ 93 := by decide
  exact parse_stored (fun hclose ↦ absurd hclose hbeyond) firstArray_parse

/-- The only exception is the stack limit's, thrown for a document with as many opening brackets
and braces, and for any with so many brackets in a row. -/
theorem parse_throws (reader : Reader) (doc : List UInt8) :
    (∀ what, parse reader doc = .error what →
      what = stackLimitExceeded ∧ stackLimit ≤ openers doc) ∧
    ∀ rest, (skipSpaces rest).headD reader.beyond ≠ 93 →
      parse reader (List.replicate stackLimit 91 ++ rest) = .error stackLimitExceeded := by
  constructor
  · intro what h
    unfold parse at h
    cases hread : readValue reader stackLimit doc with
    | ok r =>
        rw [hread] at h
        cases h
    | error what' =>
        rw [hread] at h
        cases h
        exact readValue_error hread
  · intro rest hrest
    rw [parse, readValue_nested stackLimit hrest]
    rfl

/-! ## The byte behind the document -/

section Beyond

variable (double : List UInt8 → Option (List UInt8)) {doc : List UInt8}

/-- Bytes that are no closing bracket are all the same. -/
theorem parse_other (doc : List UInt8) {beyond : UInt8} (h : beyond ≠ 93) :
    parse ⟨double, beyond⟩ doc = parse ⟨double, 0⟩ doc := by
  have hdouble : (⟨double, beyond⟩ : Reader).double = (⟨double, 0⟩ : Reader).double := rfl
  have hzero : (0 : UInt8) ≠ 93 := by decide
  rw [parse, parse, readValue_congr hdouble (iff_of_false h hzero)]

theorem parse_onlyOpen (h : OnlyOpen doc) (beyond : UInt8) :
    parse ⟨double, beyond⟩ doc = .ok (if beyond = 93 then some (.array []) else none) := by
  obtain ⟨g, k, hg, hk, heq⟩ := h
  have hnil : skipSpaces k = [] := List.dropWhile_eq_nil_iff.mpr hk
  have harray : readArray ⟨double, beyond⟩ (readValue ⟨double, beyond⟩ 999) k =
      if beyond = 93 then .ok (some (.array []), []) else failed .tokenArrayEnd [] := by
    unfold readArray
    rw [hnil]
    refine ite_congr rfl (fun _ ↦ rfl) fun _ ↦ ?_
    rw [readElements, readValue, skipCommentTokens_nil]
    rfl
  have hread : readValue ⟨double, beyond⟩ stackLimit (g ++ 91 :: k) =
      readArray ⟨double, beyond⟩ (readValue ⟨double, beyond⟩ 999) k := by
    rw [readValue_gap hg, stackLimit, readValue_token (readToken_arrayBegin k) (by decide)]
    rfl
  rw [heq, parse, hread, harray]
  by_cases hclosed : beyond = 93
  · rw [if_pos hclosed, if_pos hclosed]
    rfl
  · rw [if_neg hclosed, if_neg hclosed]
    rfl

/-- With a closing bracket behind it any other document has the same result as with another byte,
unless that is the exception. -/
theorem parse_alike (h : ¬ OnlyOpen doc) :
    parse ⟨double, 93⟩ doc = parse ⟨double, 0⟩ doc ∨
      EndsOpen doc ∧ stackLimit ≤ openers doc ∧
        parse ⟨double, 0⟩ doc = .error stackLimitExceeded ∧ parse ⟨double, 93⟩ doc = .ok none := by
  have hdouble : (⟨double, 93⟩ : Reader).double = (⟨double, 0⟩ : Reader).double := rfl
  have hother : (0 : UInt8) ≠ 93 := by decide
  unfold parse
  rcases readValue_alike hdouble rfl hother stackLimit doc with
    (hsame | ⟨hends, hclosed, what, hthrows⟩) | honly
  · exact .inl (congrArg _ hsame)
  · obtain ⟨hwhat, hopeners⟩ := readValue_error hthrows
    rw [hwhat] at hthrows
    rw [hclosed, hthrows]
    exact .inr ⟨hends, hopeners, rfl, rfl⟩
  · exact absurd honly.1 h

/-- Which results the byte behind the document changes.  It matters only whether it is a closing
bracket: that makes an empty array of a document that is one opening bracket, and keeps `parse`
from throwing at the last of as many brackets as there are levels. -/
theorem parse_beyond (doc : List UInt8) :
    (∀ beyond, beyond ≠ 93 → parse ⟨double, beyond⟩ doc = parse ⟨double, 0⟩ doc) ∧
    (OnlyOpen doc → parse ⟨double, 93⟩ doc = .ok (some (.array [])) ∧
      parse ⟨double, 0⟩ doc = .ok none) ∧
    (¬ OnlyOpen doc → parse ⟨double, 93⟩ doc = parse ⟨double, 0⟩ doc ∨
      EndsOpen doc ∧ stackLimit ≤ openers doc ∧
        parse ⟨double, 0⟩ doc = .error stackLimitExceeded ∧
        parse ⟨double, 93⟩ doc = .ok none) ∧
    ∀ k, Spaces k →
      parse ⟨double, 0⟩ (List.replicate stackLimit 91 ++ k) = .error stackLimitExceeded ∧
        parse ⟨double, 93⟩ (List.replicate stackLimit 91 ++ k) = .ok none := by
  refine ⟨fun beyond ↦ parse_other double doc, ?_, parse_alike double, ?_⟩
  · intro h
    exact ⟨parse_onlyOpen double h 93, parse_onlyOpen double h 0⟩
  · intro k hk
    have hnil : skipSpaces k = [] := List.dropWhile_eq_nil_iff.mpr hk
    constructor
    · have hhead : (skipSpaces k).headD (⟨double, 0⟩ : Reader).beyond ≠ 93 := by
        rw [hnil]
        show (0 : UInt8) ≠ 93
        decide
      rw [parse, readValue_nested stackLimit hhead]
      rfl
    · have hclosed : (⟨double, 93⟩ : Reader).beyond = 93 := rfl
      rw [parse, stackLimit, readValue_spared hclosed hk 999]
      rfl

end Beyond

end Results

end Tob.Reader
