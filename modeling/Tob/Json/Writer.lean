import Tob.Json.Complete
import Tob.Json.Numbers

/-!
# The JSON writer

`Json::FastWriter` with its default settings: no spaces, members in key order.
-/

namespace Tob.Writer

open JsonText

/-- The loop of `uintToString`, which fills its buffer from the end. -/
def uintToString (value : Nat) (buffer : List UInt8) : List UInt8 :=
  let buffer := UInt8.ofNat (value % 10 + 48) :: buffer
  if _h : value / 10 = 0 then buffer else uintToString (value / 10) buffer
termination_by value
decreasing_by omega

/-- `valueToString` of an integer. -/
def valueToString (value : Int) : List UInt8 :=
  if value < 0 then 45 :: uintToString value.natAbs [] else uintToString value.natAbs []

def isControlCharacter (c : UInt8) : Bool := 0 < c ∧ c ≤ 0x1F

/-- An upper case hexadecimal digit. -/
def hexChar (digit : Nat) : UInt8 := UInt8.ofNat (if digit < 10 then 48 + digit else 55 + digit)

/-- The `switch` of `valueToQuotedStringN`. -/
def escapeChar (c : UInt8) : List UInt8 :=
  if c = 34 then [92, 34]
  else if c = 92 then [92, 92]
  else if c = 8 then [92, 98]
  else if c = 12 then [92, 102]
  else if c = 10 then [92, 110]
  else if c = 13 then [92, 114]
  else if c = 9 then [92, 116]
  else if isControlCharacter c ∨ c = 0 then
    [92, 117, 48, 48, hexChar (c.toNat / 16), hexChar (c.toNat % 16)]
  else [c]

/-- Whether `valueToQuotedStringN` has to look at every byte. -/
def needsEscape (value : List UInt8) : Bool :=
  value.any fun c ↦ c ∈ [34, 92, 8, 12, 10, 13, 9] ∨ isControlCharacter c ∨ c = 0

def valueToQuotedStringN (value : List UInt8) : List UInt8 :=
  if needsEscape value then 34 :: (value.flatMap escapeChar ++ [34]) else 34 :: (value ++ [34])

mutual

def writeValue : Value → List UInt8
  | .null => [110, 117, 108, 108]
  | .boolean value => if value then [116, 114, 117, 101] else [102, 97, 108, 115, 101]
  | .integer value => valueToString value
  | .real text => text
  | .string value => valueToQuotedStringN value
  | .array items => 91 :: (writeItems items ++ [93])
  | .object members => 123 :: (writeMembers members ++ [125])

def writeItems : List Value → List UInt8
  | [] => []
  | [value] => writeValue value
  | value :: rest => writeValue value ++ 44 :: writeItems rest

def writeMembers : List (List UInt8 × Value) → List UInt8
  | [] => []
  | [(name, value)] => valueToQuotedStringN name ++ 58 :: writeValue value
  | (name, value) :: rest =>
      valueToQuotedStringN name ++ 58 :: (writeValue value ++ 44 :: writeMembers rest)

end

/-- `FastWriter::write`. -/
def write (root : Value) : List UInt8 := writeValue root ++ [10]

/-! ## Integers -/

theorem uintToString_append (value : Nat) (buffer : List UInt8) :
    uintToString value buffer = uintToString value [] ++ buffer := by
  induction value using Nat.strong_induction_on generalizing buffer with
  | _ value ih =>
      rw [uintToString, uintToString.eq_def value []]
      split
      · rfl
      · rename_i hmore
        have hlt : value / 10 < value := by omega
        rw [ih (value / 10) hlt, ih (value / 10) hlt [_], List.append_assoc]
        rfl

theorem toNat_decimal (value : Nat) :
    (UInt8.ofNat (value % 10 + 48)).toNat = value % 10 + 48 := by
  rw [UInt8.toNat_ofNat', Nat.mod_eq_of_lt (by omega)]

theorem isDigit_decimal (value : Nat) : isDigit (UInt8.ofNat (value % 10 + 48)) = true := by
  rw [isDigit, Bool.and_eq_true, decide_eq_true_iff, decide_eq_true_iff, UInt8.le_iff_toNat_le,
    UInt8.le_iff_toNat_le, toNat_decimal]
  exact ⟨Nat.le_add_left _ _, by change _ ≤ 57; omega⟩

/-- The digits of a number, last digit last. -/
theorem uintToString_eq (value : Nat) :
    uintToString value [] =
      (if value / 10 = 0 then [] else uintToString (value / 10) []) ++
        [UInt8.ofNat (value % 10 + 48)] := by
  rw [uintToString]
  split
  · rfl
  · rw [uintToString_append]

theorem digits_uintToString (value : Nat) : Digits (uintToString value []) := by
  induction value using Nat.strong_induction_on with
  | _ value ih =>
      rw [uintToString_eq]
      intro c hc
      rcases List.mem_append.mp hc with hc | hc
      · split at hc
        · cases hc
        · exact ih (value / 10) (by omega) c hc
      · rw [List.mem_singleton.mp hc]
        exact isDigit_decimal value

theorem whole_uintToString (value : Nat) : Reader.whole (uintToString value []) = value := by
  induction value using Nat.strong_induction_on with
  | _ value ih =>
      have hdigit : (UInt8.ofNat (value % 10 + 48)).toNat - 48 = value % 10 := by
        rw [toNat_decimal, Nat.add_sub_cancel]
      rw [uintToString_eq, Reader.whole, Reader.wholeFrom_append, Reader.wholeFrom_cons, hdigit,
        Reader.wholeFrom_nil]
      split
      · rw [Reader.wholeFrom_nil]
        omega
      · have hrest := ih (value / 10) (by omega)
        rw [Reader.whole] at hrest
        rw [hrest]
        omega

theorem uintToString_ne_nil (value : Nat) : uintToString value [] ≠ [] := by
  rw [uintToString_eq]
  exact List.concat_ne_nil _ _

theorem number_digits {c : UInt8} {ds : List UInt8} (hc : c = 45 ∨ isDigit c = true)
    (hd : Digits ds) : Number (c :: ds) := by
  have h := Number.mk hc hd .none .none
  rwa [List.append_nil, List.append_nil] at h

theorem number_valueToString (value : Int) : Number (valueToString value) := by
  have hdigits := digits_uintToString value.natAbs
  unfold valueToString
  split
  · exact number_digits (.inl rfl) hdigits
  · cases hds : uintToString value.natAbs [] with
    | nil => exact absurd hds (uintToString_ne_nil _)
    | cons c ds =>
        rw [hds] at hdigits
        rcases List.forall_mem_cons.mp hdigits with ⟨hc, hd⟩
        exact number_digits (.inr hc) hd

/-- An integer of 64 bits comes back from its text. -/
theorem decodeNumber_valueToString (reader : Reader) {value : Int} (hlow : -2 ^ 63 ≤ value)
    (hhigh : value < 2 ^ 64) :
    Reader.decodeNumber reader (valueToString value) = some (.integer value) := by
  have hdigits := digits_uintToString value.natAbs
  unfold valueToString
  split
  · rw [Reader.decodeNumber_negative reader hdigits, whole_uintToString, if_pos (by omega)]
    congr 2
    omega
  · rw [Reader.decodeNumber_positive reader hdigits, whole_uintToString, if_pos (by omega)]
    congr 2
    omega

/-! ## Strings -/

theorem codePointToUTF8_of_lt {c : UInt8} (hc : c.toNat ≤ 0x7f) :
    Reader.codePointToUTF8 c.toNat = [c] := by
  rw [Reader.codePointToUTF8, if_pos hc, UInt8.ofNat_toNat]

theorem hexDigit_hexChar {digit : Nat} (h : digit < 16) :
    hexDigit (hexChar digit) = some digit := by
  interval_cases digit <;> rfl

/-- The code unit of a control character. -/
theorem codeUnit_control {c : UInt8} (hc : c.toNat ≤ 0x1F) :
    CodeUnit [48, 48, hexChar (c.toNat / 16), hexChar (c.toNat % 16)] c.toNat := by
  refine ⟨rfl, ?_⟩
  have hhigh : hexDigit (hexChar (c.toNat / 16)) = some (c.toNat / 16) :=
    hexDigit_hexChar (by omega)
  have hlow : hexDigit (hexChar (c.toNat % 16)) = some (c.toNat % 16) :=
    hexDigit_hexChar (by omega)
  have hzero : hexDigit 48 = some 0 := rfl
  simp only [List.foldlM_cons, List.foldlM_nil, hhigh, hlow, hzero, Option.map_some,
    Option.bind_eq_bind, Option.bind_some, Option.pure_def, Option.some.injEq]
  omega

theorem isControlCharacter_iff {c : UInt8} :
    isControlCharacter c = true ∨ c = 0 ↔ c.toNat ≤ 0x1F := by
  rw [isControlCharacter, decide_eq_true_iff, UInt8.lt_iff_toNat_lt, UInt8.le_iff_toNat_le,
    ← UInt8.toNat_inj]
  change 0 < c.toNat ∧ c.toNat ≤ 31 ∨ c.toNat = 0 ↔ c.toNat ≤ 31
  omega

/-- Each byte is read back from its escape. -/
theorem chars_escapeChar (c : UInt8) {t s : List UInt8}
    (h : Chars Reader.codePointToUTF8 t s) :
    Chars Reader.codePointToUTF8 (escapeChar c ++ t) (c :: s) := by
  have hescape {b e : UInt8} (he : escaped e = some b) (hc : c = b) :
      Chars Reader.codePointToUTF8 ([92, e] ++ t) (c :: s) := .escape (hc ▸ he) h
  unfold escapeChar
  split_ifs with h34 h92 h8 h12 h10 h13 h9 hcontrol
  · exact hescape rfl h34
  · exact hescape rfl h92
  · exact hescape rfl h8
  · exact hescape rfl h12
  · exact hescape rfl h10
  · exact hescape rfl h13
  · exact hescape rfl h9
  · have hle := isControlCharacter_iff.mp hcontrol
    have hhigh : isHigh c.toNat = false := by
      rw [← Bool.not_eq_true, JsonText.isHigh_iff]
      omega
    have hunit := Chars.unit (codeUnit_control hle) hhigh h
    rwa [codePointToUTF8_of_lt (by omega)] at hunit
  · exact .plain h34 h92 h

theorem chars_flatMap (value : List UInt8) :
    Chars Reader.codePointToUTF8 (value.flatMap escapeChar) value := by
  induction value with
  | nil => exact .nil
  | cons c value ih =>
      rw [List.flatMap_cons]
      exact chars_escapeChar c ih

theorem chars_of_plain {value : List UInt8} (h : needsEscape value = false) :
    Chars Reader.codePointToUTF8 value value := by
  induction value with
  | nil => exact .nil
  | cons c value ih =>
      rw [needsEscape, List.any_cons, Bool.or_eq_false_iff] at h
      have hc : c ≠ 34 ∧ c ≠ 92 := by
        constructor <;> rintro rfl <;> exact absurd h.1 (by decide)
      exact .plain hc.1 hc.2 (ih h.2)

/-- Both paths of the writer quote any bytes so that the reader finds them. -/
theorem quoted_chars (value : List UInt8) :
    ∃ t, valueToQuotedStringN value = 34 :: (t ++ [34]) ∧
      Chars Reader.codePointToUTF8 t value := by
  unfold valueToQuotedStringN
  split
  · exact ⟨_, rfl, chars_flatMap value⟩
  · rename_i h
    exact ⟨_, rfl, chars_of_plain (Bool.not_eq_true _ ▸ h)⟩

/-! ## Values -/

section Values

variable {reader : Reader} {Text : Value → List UInt8 → Prop}

theorem element_of_text {v : Value} {t : List UInt8} (h : Text v t) : Element Text v t := by
  have helem := Element.mk .nil h .nil
  rwa [List.nil_append, List.append_nil] at helem

theorem separated_writeItems {items : List Value} (hne : items ≠ [])
    (h : ∀ v ∈ items, Text v (writeValue v)) :
    Separated (Element Text) Comma (fun _ ↦ False) items (writeItems items) := by
  induction items with
  | nil => exact absurd rfl hne
  | cons v rest ih =>
      have hv := element_of_text (h v List.mem_cons_self)
      cases rest with
      | nil =>
          rw [writeItems]
          exact .last hv
      | cons w rest =>
          have hrest := ih (List.cons_ne_nil _ _) fun v hv ↦ h v (List.mem_cons_of_mem _ hv)
          have hmore := Separated.more hv (show Comma [44] from rfl) hrest
          rwa [List.append_assoc, List.singleton_append] at hmore

theorem separated_writeMembers {members : List (List UInt8 × Value)} (hne : members ≠ [])
    (h : ∀ m ∈ members, Text m.2 (writeValue m.2)) :
    Separated (Member Reader.codePointToUTF8 Text) Comma (fun _ ↦ False) members
      (writeMembers members) := by
  induction members with
  | nil => exact absurd rfl hne
  | cons m rest ih =>
      rcases m with ⟨name, value⟩
      rcases quoted_chars name with ⟨t, ht, hchars⟩
      have hm : Member Reader.codePointToUTF8 Text (name, value)
          (valueToQuotedStringN name ++ 58 :: writeValue value) := by
        have hmember := Member.mk .nil hchars (k := []) (fun c hc ↦ absurd hc List.not_mem_nil)
          (element_of_text (h _ List.mem_cons_self))
        rw [ht]
        simpa using hmember
      cases rest with
      | nil => exact .last hm
      | cons m' rest =>
          have hrest := ih (List.cons_ne_nil _ _) fun m hm ↦ h m (List.mem_cons_of_mem _ hm)
          have hmore := Separated.more hm (show Comma [44] from rfl) hrest
          simp only [List.append_assoc, List.cons_append, List.nil_append] at hmore
          exact hmore

/-- The text of a double is a number that is read as this double. -/
def ReadsBack (reader : Reader) (text : List UInt8) : Prop :=
  Number text ∧ Reader.decodeNumber reader text = some (.real text)

/-- A double that is written without a point comes back as an integer. -/
theorem not_readsBack_valueToString {value : Int} (hlow : -2 ^ 63 ≤ value)
    (hhigh : value < 2 ^ 64) : ¬ ReadsBack reader (valueToString value) := by
  intro h
  have hread := decodeNumber_valueToString reader hlow hhigh
  rw [h.2] at hread
  cases hread

/-- What the writer writes is a text of standard JSON. -/
theorem isText_writeValue {depth : Nat} {v : Value} (h : Value.Stored (ReadsBack reader) depth v) :
    IsText reader.algebra standard depth v (writeValue v) := by
  induction h with
  | null => exact .null
  | @boolean _ value =>
      cases value with
      | true => exact .true
      | false => exact .false
  | @integer _ value hlow hhigh =>
      exact .number (number_valueToString value) (decodeNumber_valueToString reader hlow hhigh)
  | real ht => exact .number ht.1 ht.2
  | @string _ value =>
      rcases quoted_chars value with ⟨t, ht, hchars⟩
      rw [writeValue, ht]
      exact .string hchars
  | @array _ items _ ih =>
      cases items with
      | nil => exact .emptyArray (g := []) fun c hc ↦ absurd hc List.not_mem_nil
      | cons v rest => exact .array (separated_writeItems (List.cons_ne_nil _ _) ih)
  | @object _ members hsorted _ ih =>
      cases members with
      | nil => exact .emptyObject .nil
      | cons m rest =>
          have hobject : reader.algebra.object (m :: rest) = .object (m :: rest) :=
            congrArg Value.object (Value.setMembers_of_sorted hsorted)
          have htext : TextOf reader.algebra standard _ (reader.algebra.object (m :: rest)) _ :=
            .object (separated_writeMembers (List.cons_ne_nil m rest) ih)
          rwa [hobject] at htext

/-- What the writer writes is read back, where every double is. -/
theorem parse_write {v : Value} (h : Value.Stored (ReadsBack reader) Reader.stackLimit v) :
    Reader.parse reader (write v) = .ok (some v) := by
  have hfollows : Follows [10] := by
    intro c hc
    cases hc
    rfl
  have hread := Reader.readValue_text Reader.stackLimit v _ [] [10] (isText_writeValue h) .nil
    fun _ ↦ hfollows
  rw [Reader.parse, write]
  rw [List.nil_append] at hread
  rw [hread]
  rfl

end Values

/-- A reader for the double `1.5`. -/
def oneAndHalf : Reader := ⟨fun t ↦ if t = [49, 46, 53] then some t else none, 0⟩

-- The whole numbers at both ends, a double, and a string with a quotation mark and a byte to
-- escape.
theorem parse_write_example :
    Reader.parse oneAndHalf (write (.object [([97], .array [.integer (-2 ^ 63),
        .integer (2 ^ 64 - 1), .real [49, 46, 53]]), ([98], .string [34, 1])])) =
      .ok (some (.object [([97], .array [.integer (-2 ^ 63), .integer (2 ^ 64 - 1),
        .real [49, 46, 53]]), ([98], .string [34, 1])])) := by
  have hdouble : ReadsBack oneAndHalf [49, 46, 53] := by
    refine ⟨?_, rfl⟩
    exact .mk (.inr rfl) (fun c hc ↦ absurd hc List.not_mem_nil)
      (.point (List.forall_mem_singleton.mpr rfl)) .none
  have harray : Value.Stored (ReadsBack oneAndHalf) 999
      (.array [.integer (-2 ^ 63), .integer (2 ^ 64 - 1), .real [49, 46, 53]]) := by
    refine .array (List.forall_mem_cons.mpr ⟨?_, List.forall_mem_cons.mpr ⟨?_,
      List.forall_mem_singleton.mpr ?_⟩⟩)
    · exact .integer (by decide) (by decide)
    · exact .integer (by decide) (by decide)
    · exact .real hdouble
  have hsorted : Value.Sorted [([97], .array [.integer (-2 ^ 63), .integer (2 ^ 64 - 1),
      .real [49, 46, 53]]), ([98], .string [34, 1])] := by
    refine List.pairwise_pair.mpr ?_
    decide
  have hstored : Value.Stored (ReadsBack oneAndHalf) 1000
      (.object [([97], .array [.integer (-2 ^ 63), .integer (2 ^ 64 - 1), .real [49, 46, 53]]),
        ([98], .string [34, 1])]) :=
    .object hsorted (List.forall_mem_cons.mpr ⟨harray, List.forall_mem_singleton.mpr .string⟩)
  exact parse_write hstored

end Tob.Writer
