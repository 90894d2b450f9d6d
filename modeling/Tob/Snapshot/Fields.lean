import Tob.Snapshot.Header

/-!
# The fields of the header

`get_body_size` searches the header as one text.  Which field it reads, when the header is a status
line and a list of fields.
-/

namespace Tob

/-! ## Lines -/

def CRLF : List UInt8 := [13, 10]

/-- A byte that can stand in a line. -/
def LineByte (b : UInt8) : Prop := b ≠ 0 ∧ b ≠ 13 ∧ b ≠ 10

instance : DecidablePred LineByte := fun b ↦ inferInstanceAs (Decidable (b ≠ 0 ∧ b ≠ 13 ∧ b ≠ 10))

/-- Lines with CRLF between them. -/
def joinLines : List (List UInt8) → List UInt8
  | [] => []
  | [line] => line
  | line :: next :: lines => line ++ CRLF ++ joinLines (next :: lines)

/-- Lines with CRLF behind each of them. -/
def endLines (lines : List (List UInt8)) : List UInt8 := (lines.map (· ++ CRLF)).flatten

/-- A name and a value; neither breaks the line, and the name ends at the colon. -/
structure Field where
  name : List UInt8
  value : List UInt8
  nameBytes : ∀ b ∈ name, LineByte b ∧ b ≠ 58
  valueBytes : ∀ b ∈ value, LineByte b

namespace Field

def line (f : Field) : List UInt8 := f.name ++ [58, 32] ++ f.value

/-- The name is `Content-Length`, letters of either case. -/
def IsContentLength (f : Field) : Prop := f.name.map toLower = ascii "content-length"

/-- The value is a decimal number. -/
structure Decimal (f : Field) (n : Nat) : Prop where
  nonempty : f.value ≠ []
  digits : ∀ b ∈ f.value, isDigit b = true
  value : digitsValue f.value = n

theorem line_bytes (f : Field) : ∀ b ∈ f.line, LineByte b := by
  intro b hb
  rcases List.mem_append.mp hb with hb | hb
  · rcases List.mem_append.mp hb with hb | hb
    · exact (f.nameBytes b hb).1
    · rcases List.mem_pair.mp hb with rfl | rfl
      · exact ⟨by decide, by decide, by decide⟩
      · exact ⟨by decide, by decide, by decide⟩
  · exact f.valueBytes b hb

theorem line_ne_nil (f : Field) : f.line ≠ [] :=
  List.append_ne_nil_of_left_ne_nil (List.append_ne_nil_of_right_ne_nil _ (List.cons_ne_nil _ _)) _

end Field

theorem joinLines_append (lines : List (List UInt8)) (line : List UInt8)
    (more : List (List UInt8)) :
    joinLines (lines ++ line :: more) = endLines lines ++ joinLines (line :: more) := by
  induction lines with
  | nil => rfl
  | cons first lines ih =>
      have hne : ∃ next rest, lines ++ line :: more = next :: rest := by
        cases lines with
        | nil => exact ⟨_, _, rfl⟩
        | cons next lines => exact ⟨_, _, rfl⟩
      rcases hne with ⟨next, rest, he⟩
      rw [List.cons_append, he, joinLines, ← he, ih, endLines, endLines, List.map_cons,
        List.flatten_cons, List.append_assoc, List.append_assoc, List.append_assoc]

-- What is behind a line does not go on with a digit.
theorem joinLines_cons (line : List UInt8) (lines : List (List UInt8)) :
    ∃ rest, joinLines (line :: lines) = line ++ rest ∧ ∀ b ∈ rest.head?, b = 13 := by
  cases lines with
  | nil => exact ⟨[], (List.append_nil _).symm, nofun⟩
  | cons next lines =>
      refine ⟨CRLF ++ joinLines (next :: lines), List.append_assoc _ _ _, ?_⟩
      intro b hb
      cases hb
      rfl

theorem joinLines_ne_zero {lines : List (List UInt8)} (h : ∀ line ∈ lines, ∀ b ∈ line, LineByte b) :
    ∀ b ∈ joinLines lines, b ≠ 0 := by
  induction lines with
  | nil => exact nofun
  | cons line lines ih =>
      have hline := h line List.mem_cons_self
      have hlines := ih fun l hl ↦ h l (List.mem_cons_of_mem _ hl)
      cases lines with
      | nil => exact fun b hb ↦ (hline b hb).1
      | cons next lines =>
          intro b hb
          rcases List.mem_append.mp hb with hb | hb
          · rcases List.mem_append.mp hb with hb | hb
            · exact (hline b hb).1
            · rcases List.mem_pair.mp hb with rfl | rfl
              · decide
              · decide
          · exact hlines b hb

-- A delimiter does not begin in a line.
theorem OccursAt.behind_line {text rest : List UInt8} (htext : ∀ b ∈ text, LineByte b) {i : Nat}
    (h : OccursAt HTTP_DELIMITER (text ++ rest) i) :
    text.length ≤ i ∧ OccursAt HTTP_DELIMITER rest (i - text.length) := by
  have hle : text.length ≤ i := by
    by_contra hlt
    have hin : i < text.length := by omega
    unfold OccursAt at h
    rw [List.drop_append_of_le_length (by omega), List.drop_eq_getElem_cons hin,
      List.cons_append] at h
    have hfirst : (13 : UInt8) = text[i] := (List.cons_prefix_cons.mp h).1
    exact (htext _ (List.getElem_mem hin)).2.1 hfirst.symm
  refine ⟨hle, ?_⟩
  unfold OccursAt at h ⊢
  rw [List.drop_append, List.drop_eq_nil_of_le hle, List.nil_append] at h
  exact h

-- Nor with the end of a line, when the next one is not empty.
theorem OccursAt.behind_crlf {b : UInt8} (hb : b ≠ 13) {rest : List UInt8} {i : Nat}
    (h : OccursAt HTTP_DELIMITER (CRLF ++ b :: rest) i) :
    2 ≤ i ∧ OccursAt HTTP_DELIMITER (b :: rest) (i - 2) := by
  rcases i with _ | _ | i
  · have hthird : [13, 10] <+: b :: rest := (List.prefix_append_right_inj CRLF).mp h
    exact absurd (List.cons_prefix_cons.mp hthird).1.symm hb
  · have hsecond : HTTP_DELIMITER <+: 10 :: b :: rest := h
    exact absurd (List.cons_prefix_cons.mp hsecond).1 (by decide)
  · exact ⟨Nat.le_add_left _ _, h⟩

/-- The lines of a header, the first of which may be empty, are a head. -/
theorem joinLines_head {first : List UInt8} {lines : List (List UInt8)}
    (hbytes : ∀ line ∈ first :: lines, ∀ b ∈ line, LineByte b) (hne : ∀ line ∈ lines, line ≠ []) :
    Head (joinLines (first :: lines)) := by
  refine ⟨joinLines_ne_zero hbytes, ?_⟩
  induction lines generalizing first with
  | nil =>
      intro i hi hat
      have hle := (hat.behind_line (hbytes first List.mem_cons_self)).1
      exact absurd hi (not_lt.mpr hle)
  | cons next lines ih =>
      intro i hi hat
      rw [joinLines, List.length_append, List.length_append] at hi
      rw [joinLines, List.append_assoc, List.append_assoc] at hat
      rcases hat.behind_line (hbytes first List.mem_cons_self) with ⟨hle, hat⟩
      -- the next line starts with a byte that is no CR
      rcases List.exists_cons_of_ne_nil (hne next List.mem_cons_self) with ⟨b, text, hnext⟩
      have hb : b ≠ 13 := by
        have hmem : next ∈ first :: next :: lines := List.mem_cons_of_mem _ List.mem_cons_self
        exact (hbytes next hmem b (by rw [hnext]; exact List.mem_cons_self)).2.1
      rcases joinLines_cons next lines with ⟨rest, hrest, -⟩
      have hstart : joinLines (next :: lines) ++ HTTP_DELIMITER =
          b :: (text ++ rest ++ HTTP_DELIMITER) := by
        rw [hrest, hnext]
        rfl
      rw [hstart] at hat
      rcases hat.behind_crlf hb with ⟨htwo, hat⟩
      rw [← hstart] at hat
      apply ih _ _ _ _ hat
      · exact fun line hline ↦ hbytes line (List.mem_cons_of_mem _ hline)
      · exact fun line hline ↦ hne line (List.mem_cons_of_mem _ hline)
      · have hcrlf : CRLF.length = 2 := rfl
        omega

/-! ## The search for the field -/

-- The text ends with the end of a line.
def EndsLine (text : List UInt8) : Prop := ∀ b ∈ text.getLast?, b = 10

/-- `content-length: ` is there, letters of either case. -/
def Mentions (text : List UInt8) : Prop := CONTENT_LENGTH.map toLower <:+: text.map toLower

theorem prefix_of_endsLine {pattern text rest : List UInt8} (hpattern : 10 ∉ pattern)
    (hne : text ≠ []) (hends : EndsLine text)
    (h : pattern <+: (text ++ rest).map toLower) : pattern <+: text.map toLower := by
  rw [List.map_append] at h
  by_cases hle : pattern.length ≤ text.length
  · apply List.prefix_of_prefix_length_le h (List.prefix_append _ _)
    rw [List.length_map]
    exact hle
  · -- a longer pattern would go over the end of the line
    have hwhole : text.map toLower <+: pattern := by
      apply List.prefix_of_prefix_length_le (List.prefix_append _ _) h
      rw [List.length_map]
      omega
    have hlast : 10 ∈ text := by
      have hten : text.getLast hne = 10 := hends _ (List.getLast?_eq_some_getLast hne)
      rw [← hten]
      exact List.getLast_mem hne
    have hlower : (10 : UInt8) ∈ text.map toLower := List.mem_map_of_mem (f := toLower) hlast
    exact absurd (hwhole.subset hlower) hpattern

theorem EndsLine.tail {b : UInt8} {text : List UInt8} (h : EndsLine (b :: text)) :
    EndsLine text := by
  cases text with
  | nil => exact nofun
  | cons c text => exact fun a ha ↦ h a (by rw [List.getLast?_cons_cons]; exact ha)

/-- The search in a text whose first part ends with the end of a line. -/
theorem strcasestr_append {pattern : List UInt8} (hpattern : 10 ∉ pattern.map toLower)
    (hne : pattern ≠ []) {text : List UInt8} (hends : EndsLine text) (rest : List UInt8) :
    strcasestr pattern (text ++ rest) =
      match strcasestr pattern text with
      | some found => some (found ++ rest)
      | none => strcasestr pattern rest := by
  induction text with
  | nil => rw [strcasestr, if_neg hne, List.nil_append]
  | cons b text ih =>
      rw [List.cons_append, strcasestr, strcasestr]
      by_cases hhere : pattern.map toLower <+: (b :: text).map toLower
      · have hwhole : pattern.map toLower <+: (b :: (text ++ rest)).map toLower := by
          rw [← List.cons_append, List.map_append]
          exact hhere.trans (List.prefix_append _ _)
        rw [if_pos hhere, if_pos hwhole]
        rfl
      · have hnot : ¬ pattern.map toLower <+: (b :: (text ++ rest)).map toLower :=
          fun h ↦ hhere (prefix_of_endsLine hpattern (List.cons_ne_nil _ _) hends h)
        rw [if_neg hhere, if_neg hnot]
        exact ih hends.tail

theorem strcasestr_here {pattern text : List UInt8}
    (h : pattern.map toLower <+: text.map toLower) : strcasestr pattern text = some text := by
  cases text with
  | nil => exact if_pos (List.map_eq_nil_iff.mp (List.prefix_nil.mp h))
  | cons b text => exact if_pos h

theorem strcasestr_eq_none_iff {pattern : List UInt8} (hne : pattern ≠ []) (text : List UInt8) :
    strcasestr pattern text = none ↔ ¬ pattern.map toLower <:+: text.map toLower := by
  have hmap : pattern.map toLower ≠ [] := fun h ↦ hne (List.map_eq_nil_iff.mp h)
  induction text with
  | nil =>
      rw [strcasestr, if_neg hne]
      exact iff_of_true rfl fun h ↦ hmap (List.infix_nil.mp h)
  | cons b text ih =>
      rw [strcasestr, List.map_cons, List.infix_cons_iff, ← List.map_cons, not_or]
      by_cases hhere : pattern.map toLower <+: (b :: text).map toLower
      · rw [if_pos hhere]
        exact iff_of_false nofun fun h ↦ h.1 hhere
      · rw [if_neg hhere, and_iff_right hhere]
        exact ih

theorem infix_concat_of_not_mem {pattern text : List UInt8} {b : UInt8} (hne : pattern ≠ [])
    (hb : b ∉ pattern) : pattern <:+: text ++ [b] ↔ pattern <:+: text := by
  rw [List.infix_concat_iff]
  apply or_iff_right
  rintro ⟨front, hfront⟩
  have hlast : (front ++ pattern).getLast? = some b := by rw [hfront, List.getLast?_concat]
  rw [List.getLast?_append_of_ne_nil _ hne] at hlast
  exact hb (List.mem_of_getLast? hlast)

theorem contentLength_no_lf : 10 ∉ CONTENT_LENGTH.map toLower := by decide

theorem contentLength_ne_nil : CONTENT_LENGTH ≠ [] := by decide

theorem mentions_crlf (text : List UInt8) : Mentions (text ++ CRLF) ↔ Mentions text := by
  have hne : CONTENT_LENGTH.map toLower ≠ [] := by decide
  have hsplit : (text ++ CRLF).map toLower = text.map toLower ++ [13] ++ [10] := by
    rw [List.map_append, List.append_assoc]
    rfl
  rw [Mentions, hsplit, infix_concat_of_not_mem hne (by decide),
    infix_concat_of_not_mem hne (by decide)]
  rfl

theorem endsLine_crlf (text : List UInt8) : EndsLine (text ++ CRLF) := by
  intro b hb
  have hne : CRLF ≠ [] := List.cons_ne_nil _ _
  rw [List.getLast?_append_of_ne_nil _ hne] at hb
  cases hb
  rfl

theorem endsLine_endLines (lines : List (List UInt8)) : EndsLine (endLines lines) := by
  rcases List.eq_nil_or_concat lines with rfl | ⟨front, last, rfl⟩
  · exact nofun
  · rw [endLines, List.concat_eq_append, List.map_append, List.flatten_append, List.map_singleton,
      List.flatten_singleton, ← List.append_assoc]
    exact endsLine_crlf _

/-- The lines mention the field exactly if one of them does. -/
theorem mentions_endLines (lines : List (List UInt8)) :
    Mentions (endLines lines) ↔ ∃ line ∈ lines, Mentions line := by
  induction lines with
  | nil =>
      have hne : CONTENT_LENGTH.map toLower ≠ [] := by decide
      refine iff_of_false (fun h ↦ hne (List.infix_nil.mp h)) ?_
      rintro ⟨line, hline, -⟩
      cases hline
  | cons line lines ih =>
      have hnone (text : List UInt8) := strcasestr_eq_none_iff contentLength_ne_nil text
      have happend := strcasestr_append contentLength_no_lf contentLength_ne_nil
        (endsLine_crlf line) (endLines lines)
      have hsplit : endLines (line :: lines) = line ++ CRLF ++ endLines lines := List.flatten_cons
      rw [List.exists_mem_cons_iff, ← ih, ← mentions_crlf line, hsplit]
      rw [← not_iff_not, not_or, Mentions, Mentions, Mentions, ← hnone, ← hnone, ← hnone, happend]
      cases strcasestr CONTENT_LENGTH (line ++ CRLF) with
      | none => exact (and_iff_right rfl).symm
      | some found => exact iff_of_false nofun fun h ↦ nomatch h.1

/-- A field with the name is where the search stops. -/
theorem Field.IsContentLength.strcasestr {f : Field} (h : f.IsContentLength) (rest : List UInt8) :
    Tob.strcasestr CONTENT_LENGTH (f.line ++ rest) = some (f.line ++ rest) ∧
      (f.line ++ rest).drop CONTENT_LENGTH.length = f.value ++ rest := by
  have hlength : (f.name ++ [58, 32]).length = CONTENT_LENGTH.length := by
    have hname := congrArg List.length h
    rw [List.length_map] at hname
    rw [List.length_append, hname]
    rfl
  apply And.intro
  · apply strcasestr_here
    have hstart : CONTENT_LENGTH.map toLower = (f.name ++ [58, 32]).map toLower := by
      rw [List.map_append, h]
      decide
    have hsplit : (f.line ++ rest).map toLower =
        (f.name ++ [58, 32]).map toLower ++ (f.value ++ rest).map toLower := by
      rw [Field.line, List.append_assoc, List.map_append]
    rw [hstart, hsplit]
    exact List.prefix_append _ _
  · rw [Field.line, List.append_assoc, ← hlength, List.drop_left]

theorem digit_not_space {b : UInt8} (h : isDigit b = true) :
    isSpace b = false ∧ b ≠ 45 ∧ b ≠ 43 := by
  have hdigit : 48 ≤ b ∧ b ≤ 57 := of_decide_eq_true h
  have hlow : 48 ≤ b.toNat := hdigit.1
  have hne (c : UInt8) (hc : c.toNat < 48) : b ≠ c := by
    rintro rfl
    omega
  refine ⟨?_, hne 45 (by decide), hne 43 (by decide)⟩
  apply decide_eq_false
  rintro (hspace | ⟨-, hle⟩)
  · exact hne 32 (by decide) hspace
  · have hless : b.toNat ≤ 13 := hle
    omega

/-- A number with the end of the line behind it. -/
theorem stoi_digits {digits rest : List UInt8} (hne : digits ≠ [])
    (hdigits : ∀ b ∈ digits, isDigit b = true) (hrest : ∀ b ∈ rest.head?, b = 13)
    (hbound : digitsValue digits < 2 ^ 31) : stoi (digits ++ rest) = .ok (digitsValue digits) := by
  rcases List.exists_cons_of_ne_nil hne with ⟨d, more, rfl⟩
  rcases digit_not_space (hdigits d List.mem_cons_self) with ⟨hspace, hminus, hplus⟩
  have htake : (d :: more ++ rest).takeWhile isDigit = d :: more := by
    rw [List.takeWhile_append_of_pos hdigits]
    have hstop : rest.takeWhile isDigit = [] := by
      cases rest with
      | nil => rfl
      | cons b rest =>
          rw [hrest b rfl]
          rfl
    rw [hstop, List.append_nil]
  have hdrop : (d :: more ++ rest).dropWhile isSpace = d :: more ++ rest := by
    rw [List.cons_append, List.dropWhile_cons_of_neg (by rw [hspace]; decide)]
  have hsign : splitSign (d :: more ++ rest) = (false, d :: more ++ rest) := by
    rw [List.cons_append, splitSign, if_neg hminus, if_neg hplus]
  unfold stoi
  rw [hdrop, hsign]
  simp only
  rw [htake, if_neg hne, if_neg Bool.false_ne_true, if_neg (by omega)]

theorem stoi_range {text : List UInt8} {value : Int} (h : stoi text = .ok value) :
    -2 ^ 31 ≤ value ∧ value < 2 ^ 31 := by
  unfold stoi at h
  simp only at h
  split at h
  · cases h
  · generalize (if (splitSign (text.dropWhile isSpace)).1 = true then _ else _ : Int) = number at h
    by_cases hout : number < -2 ^ 31 ∨ 2 ^ 31 ≤ number
    · rw [if_pos hout] at h
      cases h
    · rw [if_neg hout] at h
      cases h
      omega

-- A negative number becomes a large one.
theorem stoi_map_iff {text : List UInt8} {n : Nat} (hbound : n < 2 ^ 31) :
    ((stoi text).map fun value ↦ (value % 2 ^ 64).toNat) = .ok n ↔ stoi text = .ok n := by
  cases h : stoi text with
  | error what => exact iff_of_false nofun nofun
  | ok value =>
      have hrange := stoi_range h
      rw [Except.map, Except.ok.injEq, Except.ok.injEq]
      omega

/-! ## The header -/

/-- A status line and fields. -/
def header (statusLine : List UInt8) (fields : List Field) : List UInt8 :=
  joinLines (statusLine :: fields.map Field.line)

/-- No line in front of the field mentions it, or what is behind the first mention is the number as
well. -/
def ReadsField (statusLine : List UInt8) (before : List Field) (f : Field) (after : List Field)
    (n : Nat) : Prop :=
  (¬ Mentions statusLine ∧ ∀ g ∈ before, ¬ Mentions g.line) ∨
    ∃ text, strcasestr CONTENT_LENGTH (endLines (statusLine :: before.map Field.line)) = some text ∧
      stoi ((text ++ joinLines (f.line :: after.map Field.line)).drop CONTENT_LENGTH.length) = .ok n

variable {statusLine : List UInt8} {before after : List Field} {f : Field} {n : Nat}

theorem header_head (hstatus : ∀ b ∈ statusLine, LineByte b) (fields : List Field) :
    Head (header statusLine fields) := by
  apply joinLines_head
  · intro line hline
    rcases List.mem_cons.mp hline with rfl | hline
    · exact hstatus
    · rcases List.mem_map.mp hline with ⟨f, -, rfl⟩
      exact f.line_bytes
  · intro line hline
    rcases List.mem_map.mp hline with ⟨f, -, rfl⟩
    exact f.line_ne_nil

theorem header_split (statusLine : List UInt8) (before : List Field) (f : Field)
    (after : List Field) :
    header statusLine (before ++ f :: after) =
      endLines (statusLine :: before.map Field.line) ++
        joinLines (f.line :: after.map Field.line) := by
  rw [header, List.map_append, List.map_cons, ← List.cons_append, joinLines_append]

theorem getBodySize_header_iff (hname : f.IsContentLength) (hvalue : f.Decimal n)
    (hbound : n < 2 ^ 31) :
    getBodySize (header statusLine (before ++ f :: after)) = .ok n ↔
      ReadsField statusLine before f after n := by
  have hfront := mentions_endLines (statusLine :: before.map Field.line)
  have hnone := strcasestr_eq_none_iff contentLength_ne_nil
    (endLines (statusLine :: before.map Field.line))
  have hlines : (¬ Mentions statusLine ∧ ∀ g ∈ before, ¬ Mentions g.line) ↔
      strcasestr CONTENT_LENGTH (endLines (statusLine :: before.map Field.line)) = none := by
    rw [hnone, ← Mentions, hfront, List.exists_mem_cons_iff, not_or]
    apply and_congr_right
    intro _
    simp
  rw [getBodySize, header_split, strcasestr_append contentLength_no_lf contentLength_ne_nil
    (endsLine_endLines _), ReadsField, hlines]
  cases strcasestr CONTENT_LENGTH (endLines (statusLine :: before.map Field.line)) with
  | some text =>
      -- the first mention is in front of the field
      simp only
      rw [stoi_map_iff hbound]
      apply Iff.intro
      · exact fun h ↦ .inr ⟨text, rfl, h⟩
      · rintro (h | ⟨found, hfound, h⟩)
        · cases h
        · cases hfound
          exact h
  | none =>
      rcases joinLines_cons f.line (after.map Field.line) with ⟨rest, hrest, hend⟩
      rcases hname.strcasestr rest with ⟨hsearch, hdrop⟩
      have hdigits := hvalue.value
      have hread : stoi (f.value ++ rest) = .ok (digitsValue f.value) :=
        stoi_digits hvalue.nonempty hvalue.digits hend (by omega)
      rw [hrest, hsearch]
      simp only
      rw [hdrop, stoi_map_iff hbound, hread, hdigits]
      exact iff_of_true rfl (.inl trivial)

/-! ## process_header -/

namespace Receiver

/-- Where `process_header` returns behind the delimiter it has set the length the header gives. -/
theorem processHeader_bodySize {search : List UInt8 → Search} {r r' : Receiver} {delim : Nat}
    {ready : Bool} (hfound : search r.mBuffer = .found delim)
    (h : r.processHeader search = .returned (r', ready)) :
    getBodySize (cString (r.mBuffer.set delim 0)) = .ok r'.mJsonFullSize := by
  rw [processHeader, hfound] at h
  simp only at h
  cases hsize : getBodySize (cString (r.mBuffer.set delim 0)) with
  | error what =>
      rw [hsize] at h
      cases h
  | ok size =>
      rw [hsize] at h
      simp only at h
      split at h
      · cases h
      · split at h
        · split at h
          · cases h
          · rcases Outcome.attempt_eq_returned_iff.mp h with ⟨mBuffer, -, he⟩
            cases he
            rfl
        · rcases Outcome.attempt_eq_returned_iff.mp h with ⟨mBuffer, -, he⟩
          cases he
          rfl

/-- `process_header` sets `m_json_full_size` to the number in the field exactly if the field is the
first mention of it in the header, or what is behind the first mention is that number as well. -/
theorem processHeader_field_iff (hstatus : ∀ b ∈ statusLine, LineByte b)
    (hname : f.IsContentLength) (hvalue : f.Decimal n) (hpos : 0 < n) (hbound : n < 2 ^ 31)
    {r : Receiver} (hreading : r.Reading) {rest : List UInt8}
    (hbuffer : r.mBuffer = header statusLine (before ++ f :: after) ++ HTTP_DELIMITER ++ rest)
    (hoffset : (header statusLine (before ++ f :: after)).length + 4 ≤ r.mReadOffset)
    (hfits : r.mReadOffset ≤ r.mBuffer.length) (hsize : r.mBuffer.length < 2 ^ 63) :
    (∃ r', r.processHeader (strstr HTTP_DELIMITER) = .returned (r', true) ∧
      r'.mJsonFullSize = n) ↔ ReadsField statusLine before f after n := by
  have hhead := header_head hstatus (before ++ f :: after)
  rw [← getBodySize_header_iff hname hvalue hbound]
  generalize header statusLine (before ++ f :: after) = head at hhead hbuffer hoffset ⊢
  have hlength : head.length + 4 ≤ (head ++ HTTP_DELIMITER).length := by
    rw [List.length_append]
    exact le_refl _
  have hfound : strstr HTTP_DELIMITER r.mBuffer = .found head.length := by
    rw [hbuffer]
    exact hhead.strstr (List.prefix_append _ []) hlength
  have htext : cString (r.mBuffer.set head.length 0) = head := by
    rw [hbuffer, List.append_assoc]
    exact cString_set hhead (List.append_ne_nil_of_left_ne_nil delimiter_ne_nil _)
  apply Iff.intro
  · rintro ⟨r', hreturned, hn⟩
    rw [← hn, ← processHeader_bodySize hfound hreturned, htext]
  · intro hbody
    rw [← htext] at hbody
    rcases processHeader_found hreading hfound hoffset hfits hsize hbody hpos (by omega) with
      ⟨r', hreturned, hinBody⟩
    exact ⟨r', hreturned, hinBody.mJsonFullSize⟩

def okLine : List UInt8 := ascii "HTTP/1.1 200 OK"

theorem okLine_bytes : ∀ b ∈ okLine, LineByte b := by decide +kernel

def lengthField : Field :=
  ⟨ascii "Content-Length", ascii "6000", by decide +kernel, by decide +kernel⟩

theorem lengthField_name : lengthField.IsContentLength := by
  show (ascii "Content-Length").map toLower = ascii "content-length"
  decide +kernel

theorem lengthField_decimal : lengthField.Decimal 6000 := by
  refine ⟨?_, ?_, ?_⟩
  · show ascii "6000" ≠ []
    decide +kernel
  · show ∀ b ∈ ascii "6000", isDigit b = true
    decide +kernel
  · show digitsValue (ascii "6000") = 6000
    decide +kernel

/-- A field whose name ends in the one that is looked for. -/
def prefixedField : Field :=
  ⟨ascii "X-Content-Length", ascii "5", by decide +kernel, by decide +kernel⟩

/-- The receiver when a header has come in, and nothing else. -/
def gotHeader (fields : List Field) : Receiver :=
  { requested with
    mBuffer := header okLine fields ++ HTTP_DELIMITER ++ []
    mReadOffset := (header okLine fields ++ HTTP_DELIMITER ++ []).length }

/-- The field comes first, and behind it one whose name ends in its name. -/
theorem processHeader_field_iff_example :
    ∃ r', (gotHeader ([] ++ lengthField :: [prefixedField])).processHeader
      (strstr HTTP_DELIMITER) = .returned (r', true) ∧ r'.mJsonFullSize = 6000 := by
  have hmentions : ¬ Mentions okLine := by
    show ¬ CONTENT_LENGTH.map toLower <:+: okLine.map toLower
    decide +kernel
  have hbound : (gotHeader ([] ++ lengthField :: [prefixedField])).mBuffer.length < 2 ^ 63 := by
    decide +kernel
  have hiff := processHeader_field_iff okLine_bytes lengthField_name lengthField_decimal
    (by decide) (by decide) (r := gotHeader ([] ++ lengthField :: [prefixedField])) ⟨rfl, rfl⟩ rfl
    (by rw [gotHeader]; exact le_refl _) (le_refl _) hbound
  exact hiff.mpr (.inl ⟨hmentions, nofun⟩)

/-- With the two fields the other way round the longer name is found. -/
theorem processHeader_reads_prefixed :
    lengthField.IsContentLength ∧ ¬ prefixedField.IsContentLength ∧ lengthField.Decimal 6000 ∧
      ¬ ∃ r', (gotHeader ([prefixedField] ++ lengthField :: [])).processHeader
        (strstr HTTP_DELIMITER) = .returned (r', true) ∧ r'.mJsonFullSize = 6000 := by
  have hother : ¬ prefixedField.IsContentLength := by
    show (ascii "X-Content-Length").map toLower ≠ ascii "content-length"
    decide +kernel
  refine ⟨lengthField_name, hother, lengthField_decimal, ?_⟩
  rintro ⟨r', hreturned, hn⟩
  have hfound : strstr HTTP_DELIMITER (gotHeader ([prefixedField] ++ lengthField :: [])).mBuffer =
      .found 58 := by decide +kernel
  have hsize := processHeader_bodySize hfound hreturned
  have hfive : getBodySize (cString
      ((gotHeader ([prefixedField] ++ lengthField :: [])).mBuffer.set 58 0)) = .ok 5 := by rfl
  rw [hfive, hn] at hsize
  cases hsize

end Receiver

end Tob
