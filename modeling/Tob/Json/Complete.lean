import Tob.Json.Tokens

/-!
# What the grammar derives is read

Every text of the standard grammar within the stack limit is read to its value.
-/

namespace Tob.Reader

open JsonText

/-- How the reader builds values. -/
def algebra (reader : Reader) : Algebra Value where
  null := .null
  boolean := .boolean
  number := decodeNumber reader
  string := .string
  array := .array
  object members := .object (Value.setMembers [] members)
  utf8 := codePointToUTF8

/-! ## Single bytes -/

theorem readToken_objectEnd (rest : List UInt8) :
    readToken (125 :: rest) = (⟨.tokenObjectEnd, [125]⟩, rest) := readToken_of (t := []) rfl rfl

theorem readToken_objectBegin (rest : List UInt8) :
    readToken (123 :: rest) = (⟨.tokenObjectBegin, [123]⟩, rest) := readToken_of (t := []) rfl rfl

theorem readToken_arrayEnd (rest : List UInt8) :
    readToken (93 :: rest) = (⟨.tokenArrayEnd, [93]⟩, rest) := readToken_of (t := []) rfl rfl

theorem readToken_arrayBegin (rest : List UInt8) :
    readToken (91 :: rest) = (⟨.tokenArrayBegin, [91]⟩, rest) := readToken_of (t := []) rfl rfl

theorem readToken_comma (rest : List UInt8) :
    readToken (44 :: rest) = (⟨.tokenArraySeparator, [44]⟩, rest) :=
  readToken_of (t := []) rfl rfl

theorem readToken_colon (rest : List UInt8) :
    readToken (58 :: rest) = (⟨.tokenMemberSeparator, [58]⟩, rest) :=
  readToken_of (t := []) rfl rfl

theorem matchPattern_append (pattern rest : List UInt8) :
    matchPattern pattern (pattern ++ rest) = some rest := by
  rw [matchPattern, if_pos (List.prefix_append _ _), List.drop_left]

theorem readToken_literal {c : UInt8} {pattern rest : List UInt8} {type : TokenType}
    (hc : isSpace c = false)
    (h : tokenAfter c (pattern ++ rest) = literal type pattern (pattern ++ rest)) :
    readToken (c :: (pattern ++ rest)) = (⟨type, c :: pattern⟩, rest) := by
  refine readToken_of hc (h.trans ?_)
  rw [literal, matchPattern_append]

/-! ## Values by their first token -/

section Value

variable {reader : Reader} {depth : Nat} {g doc rest text : List UInt8}

/-- Behind a gap the first token decides. -/
theorem skipCommentTokens_gap_token {type : TokenType} (hg : Gap g)
    (h : readToken doc = (⟨type, text⟩, rest)) (hne : type ≠ .tokenComment) :
    skipCommentTokens (g ++ doc) = (⟨type, text⟩, rest) := by
  rw [skipCommentTokens_token hg (by rw [h]; exact hne), h]

theorem readValue_of_token {token : Token} (h : skipCommentTokens doc = (token, rest)) :
    readValue reader (depth + 1) doc =
      valueAfter reader (readValue reader depth) token rest := by
  rw [readValue, h]

theorem readValue_token {type : TokenType} (h : readToken doc = (⟨type, text⟩, rest))
    (hne : type ≠ .tokenComment) :
    readValue reader (depth + 1) doc =
      valueAfter reader (readValue reader depth) ⟨type, text⟩ rest := by
  have hskip := skipCommentTokens_gap_token .nil h hne
  exact readValue_of_token hskip

theorem readValue_gap (hg : Gap g) :
    readValue reader depth (g ++ doc) = readValue reader depth doc := by
  cases depth with
  | zero => rfl
  | succ depth => rw [readValue, readValue, skipCommentTokens_gap hg]

theorem readValue_skipSpaces :
    readValue reader depth (skipSpaces doc) = readValue reader depth doc := by
  have hspaces : Spaces (doc.takeWhile isSpace) := fun c hc ↦ List.mem_takeWhile_imp hc
  rw [← readValue_gap hspaces.gap, skipSpaces, List.takeWhile_append_dropWhile]

/-- A value does not start where an array ends, nor at the end of the document. -/
theorem readValue_close (h : doc.headD 93 = 93) {v : Value} :
    readValue reader depth doc ≠ .ok (some v, rest) := by
  cases depth with
  | zero => simp [readValue]
  | succ depth =>
      cases doc with
      | nil =>
          have heq : skipCommentTokens [] = (⟨.tokenEndOfStream, []⟩, []) :=
            skipCommentTokens_of_ne (by decide)
          rw [readValue_of_token heq, valueAfter]
          simp
      | cons c doc =>
          obtain rfl : c = 93 := h
          have heq : skipCommentTokens (93 :: doc) = (⟨.tokenArrayEnd, [93]⟩, doc) :=
            skipCommentTokens_gap_token .nil (readToken_arrayEnd doc) (by decide)
          rw [readValue_of_token heq, valueAfter]
          simp

end Value

/-! ## Arrays -/

/-- Behind a gap and one of these bytes no number goes on. -/
theorem follows_gap {g : List UInt8} (hg : Gap g) {c : UInt8} (hc : continues c = false)
    (rest : List UInt8) : Follows (g ++ c :: rest) := by
  intro b hb
  cases hg with
  | nil =>
      cases hb
      exact hc
  | @space d g hd =>
      cases hb
      simp only [isSpace, Bool.or_eq_true, decide_eq_true_iff] at hd
      rcases hd with ((rfl | rfl) | rfl) | rfl <;> rfl
  | block =>
      cases hb
      rfl
  | line =>
      cases hb
      rfl

/-- The reader reads these texts, whatever comes behind them that is not part of a number. -/
def Reads (read : List UInt8 → Result) (Text : Value → List UInt8 → Prop) : Prop :=
  ∀ v t g rest, Text v t → Gap g → (Number t → Follows rest) →
    read (g ++ t ++ rest) = .ok (some v, rest)

section Loops

variable {read : List UInt8 → Result} {Text : Value → List UInt8 → Prop}

theorem Reads.element (hread : Reads read Text) {v : Value} {t : List UInt8}
    (h : Element Text v t) {c : UInt8} (hc : continues c = false) (rest : List UInt8) :
    ∃ k, Gap k ∧ read (t ++ c :: rest) = .ok (some v, k ++ c :: rest) := by
  cases h with
  | @mk g t k hg ht hk =>
      refine ⟨k, hk, ?_⟩
      have heq := hread v t g (k ++ c :: rest) ht hg fun _ ↦ follows_gap hk hc rest
      simpa only [List.append_assoc] using heq

theorem separated_length {α : Type} {Elem : α → List UInt8 → Prop} {Open : α → Prop}
    {as : List α} {t : List UInt8} (h : Separated Elem Comma Open as t) :
    as.length ≤ t.length + 1 := by
  induction h with
  | last => simp
  | trailing => simp
  | more _ hs _ ih =>
      cases hs
      simp only [List.length_cons, List.length_append, List.length_nil]
      omega

theorem readElements_complete (hread : Reads read Text) {vs : List Value} {t : List UInt8}
    (h : Separated (Element Text) Comma (fun _ ↦ False) vs t) {turns : Nat}
    (hturns : vs.length ≤ turns) (items : List Value) (rest : List UInt8) :
    readElements read turns items (t ++ 93 :: rest) =
      .ok (some (.array (items ++ vs)), rest) := by
  induction h generalizing turns items with
  | @last v t ht =>
      rcases hread.element ht (c := 93) rfl rest with ⟨k, hk, heq⟩
      have htoken := skipCommentTokens_gap_token hk (readToken_arrayEnd rest) (by decide)
      cases turns with
      | zero => simp at hturns
      | succ turns => simp only [readElements, heq, htoken, if_true]
  | trailing _ _ hopen => exact hopen.elim
  | @more v vs t s ts ht hs _ ih =>
      cases hs
      rcases hread.element ht (c := 44) rfl (ts ++ 93 :: rest) with ⟨k, hk, heq⟩
      have htoken := skipCommentTokens_gap_token hk (readToken_comma (ts ++ 93 :: rest)) (by decide)
      cases turns with
      | zero => simp at hturns
      | succ turns =>
          rw [List.length_cons, Nat.succ_le_succ_iff] at hturns
          have hrest := ih hturns (items ++ [v])
          rw [List.append_assoc, List.singleton_append] at hrest
          simpa [readElements, heq, htoken] using hrest

theorem readElements_congr {doc doc' : List UInt8} (h : read doc = read doc') (turns : Nat)
    (items : List Value) :
    readElements read turns items doc = readElements read turns items doc' := by
  cases turns with
  | zero => rfl
  | succ turns => rw [readElements, readElements, h]

/-! ## Objects -/

/-- What ends a member, with or without comments in front of it. -/
theorem readComma_gap {k : List UInt8} (hk : Gap k) {doc rest text : List UInt8}
    {type : TokenType} (h : readToken doc = (⟨type, text⟩, rest))
    (htype : type = .tokenObjectEnd ∨ type = .tokenArraySeparator) :
    readComma (k ++ doc) = (some (decide (type = .tokenObjectEnd)), rest) := by
  have hne : type ≠ .tokenComment := by rcases htype with rfl | rfl <;> decide
  rcases readToken_gap hk doc with hs | ⟨hcomment, k', hk', -, heq⟩
  · rw [readComma, readToken_spaces hs, h]
    rcases htype with rfl | rfl <;> rfl
  · rw [skipCommentTokens_gap_token hk' h hne] at heq
    simp [readComma, hcomment, heq]

/-- One turn of the loop. -/
theorem readMembers_member (hread : Reads read Text) {m : List UInt8 × Value} {t : List UInt8}
    (hm : Member codePointToUTF8 Text m t) {c : UInt8} (hc : continues c = false)
    {rest : List UInt8} {ends : Bool}
    (hcomma : ∀ k, Gap k → readComma (k ++ c :: rest) = (some ends, rest)) (turns : Nat)
    (name : List UInt8) (members : List (List UInt8 × Value)) :
    readMembers read (turns + 1) name members (t ++ c :: rest) =
      if ends then .ok (some (.object (Value.setMember m.1 m.2 members)), rest)
      else readMembers read turns m.1 (Value.setMember m.1 m.2 members) rest := by
  cases hm with
  | @mk name' v g n k te hg hn hk he =>
      rcases hread.element he hc rest with ⟨k', hk', hvalue⟩
      have hname := skipCommentTokens_gap_token hg
        (readToken_string hn.quoted (k ++ 58 :: (te ++ c :: rest))) (by decide)
      have hcolon : readToken (k ++ 58 :: (te ++ c :: rest)) =
          (⟨.tokenMemberSeparator, [58]⟩, te ++ c :: rest) := by
        rw [readToken_spaces hk, readToken_colon]
      have htext : g ++ 34 :: (n ++ 34 :: (k ++ 58 :: te)) ++ c :: rest =
          g ++ 34 :: (n ++ 34 :: (k ++ 58 :: (te ++ c :: rest))) := by
        simp only [List.append_assoc, List.cons_append]
      rw [htext, readMembers, hname]
      simp only [reduceCtorEq, false_and, if_false, if_true, decodeString_of_chars hn, hcolon,
        hvalue, hcomma k' hk']
      cases ends <;> rfl

theorem readMembers_complete (hread : Reads read Text) {ms : List (List UInt8 × Value)}
    {t : List UInt8}
    (h : Separated (Member codePointToUTF8 Text) Comma (fun _ ↦ False) ms t) {turns : Nat}
    (hturns : ms.length ≤ turns) (name : List UInt8) (members : List (List UInt8 × Value))
    (rest : List UInt8) :
    readMembers read turns name members (t ++ 125 :: rest) =
      .ok (some (.object (Value.setMembers members ms)), rest) := by
  induction h generalizing turns name members with
  | @last m t hm =>
      cases turns with
      | zero => simp at hturns
      | succ turns =>
          exact readMembers_member hread hm (c := 125) rfl
            (fun k hk ↦ readComma_gap hk (readToken_objectEnd rest) (.inl rfl)) turns name members
  | trailing _ _ hopen => exact hopen.elim
  | @more m ms t s ts hm hs _ ih =>
      cases hs
      cases turns with
      | zero => simp at hturns
      | succ turns =>
          rw [List.length_cons, Nat.succ_le_succ_iff] at hturns
          have hstep := readMembers_member hread hm (c := 44) rfl
            (fun k hk ↦ readComma_gap hk (readToken_comma (ts ++ 125 :: rest)) (.inr rfl))
            turns name members
          have hrest := ih hturns m.1 (Value.setMember m.1 m.2 members)
          rw [List.append_assoc, List.append_assoc, List.singleton_append]
          exact hstep.trans hrest

end Loops

/-! ## Values -/

section Values

variable {reader : Reader} {depth : Nat} {g t rest : List UInt8} {v : Value}

theorem readArray_complete {Text : Value → List UInt8 → Prop}
    (hread : Reads (readValue reader depth) Text) {vs : List Value}
    (h : Separated (Element Text) Comma (fun _ ↦ False) vs t) (rest : List UInt8) :
    readArray reader (readValue reader depth) (t ++ 93 :: rest) =
      .ok (some (.array vs), rest) := by
  have hlen : vs.length ≤ (t ++ 93 :: rest).length + 1 := by
    have hle := separated_length h
    rw [List.length_append]
    omega
  have hloop := readElements_complete hread h hlen [] rest
  -- the first element is read from here, so the array is not taken for an empty one
  have hfirst : ∃ v rest', readValue reader depth (t ++ 93 :: rest) = .ok (some v, rest') := by
    cases h with
    | last he =>
        rcases hread.element he (c := 93) rfl rest with ⟨k, -, heq⟩
        exact ⟨_, _, heq⟩
    | trailing _ _ hopen => exact hopen.elim
    | @more _ _ t s ts he hs _ =>
        cases hs
        rcases hread.element he (c := 44) rfl (ts ++ 93 :: rest) with ⟨k, -, heq⟩
        rw [List.append_assoc, List.append_assoc, List.singleton_append]
        exact ⟨_, _, heq⟩
  rcases hfirst with ⟨v, rest', hfirst⟩
  have hopen : (skipSpaces (t ++ 93 :: rest)).headD reader.beyond ≠ 93 := by
    intro hclose
    rw [← readValue_skipSpaces] at hfirst
    refine readValue_close ?_ hfirst
    cases hs : skipSpaces (t ++ 93 :: rest) with
    | nil => rfl
    | cons c doc => rwa [hs] at hclose
  rw [readArray, if_neg hopen, readElements_congr readValue_skipSpaces]
  exact hloop

theorem readObject_complete {Text : Value → List UInt8 → Prop} {read : List UInt8 → Result}
    (hread : Reads read Text) {ms : List (List UInt8 × Value)}
    (h : Separated (Member codePointToUTF8 Text) Comma (fun _ ↦ False) ms t)
    (rest : List UInt8) :
    readObject read (t ++ 125 :: rest) =
      .ok (some (.object (Value.setMembers [] ms)), rest) := by
  refine readMembers_complete hread h ?_ [] [] rest
  have hle := separated_length h
  rw [List.length_append]
  omega

theorem readObject_empty {read : List UInt8 → Result} (hg : Gap g) (rest : List UInt8) :
    readObject read (g ++ 125 :: rest) = .ok (some (.object []), rest) := by
  have htoken := skipCommentTokens_gap_token hg (readToken_objectEnd rest) (by decide)
  simp only [readObject, readMembers, htoken, and_self, if_true]

theorem readArray_empty {read : List UInt8 → Result} (hg : Spaces g) (rest : List UInt8) :
    readArray reader read (g ++ 93 :: rest) = .ok (some (.array []), rest) := by
  have hhead : (93 :: rest).headD reader.beyond = 93 := rfl
  rw [readArray, skipSpaces_append hg, skipSpaces_of_not rfl, if_pos hhead, readToken_arrayEnd]

/-- A text of the standard grammar is read to its value, and reading goes on behind it. -/
theorem readValue_text (depth : Nat) :
    Reads (readValue reader depth) (IsText reader.algebra standard depth) := by
  induction depth with
  | zero => exact fun _ _ _ _ h ↦ h.elim
  | succ depth ih =>
      intro v t g rest h hg hrest
      rw [List.append_assoc, readValue_gap hg]
      cases h with
      | null =>
          have htoken : readToken (110 :: ([117, 108, 108] ++ rest)) =
              (⟨.tokenNull, 110 :: [117, 108, 108]⟩, rest) :=
            readToken_literal rfl rfl
          exact readValue_token htoken (by decide)
      | true =>
          have htoken : readToken (116 :: ([114, 117, 101] ++ rest)) =
              (⟨.tokenTrue, 116 :: [114, 117, 101]⟩, rest) :=
            readToken_literal rfl rfl
          exact readValue_token htoken (by decide)
      | false =>
          have htoken : readToken (102 :: ([97, 108, 115, 101] ++ rest)) =
              (⟨.tokenFalse, 102 :: [97, 108, 115, 101]⟩, rest) :=
            readToken_literal rfl rfl
          exact readValue_token htoken (by decide)
      | number ht hv =>
          rw [readValue_token (readToken_number ht (hrest ht)) (by decide)]
          exact congrArg (fun v ↦ Except.ok (v, rest)) hv
      | string hs =>
          rw [List.cons_append, List.append_assoc, List.singleton_append,
            readValue_token (readToken_string hs.quoted rest) (by decide)]
          simp only [valueAfter, decodeString_of_chars hs]
          rfl
      | emptyArray hs =>
          rw [List.cons_append, List.append_assoc, List.singleton_append,
            readValue_token (readToken_arrayBegin _) (by decide)]
          exact readArray_empty hs rest
      | array hs =>
          rw [List.cons_append, List.append_assoc, List.singleton_append,
            readValue_token (readToken_arrayBegin _) (by decide)]
          exact readArray_complete ih hs rest
      | emptyObject hs =>
          rw [List.cons_append, List.append_assoc, List.singleton_append,
            readValue_token (readToken_objectBegin _) (by decide)]
          exact readObject_empty hs rest
      | object hs =>
          rw [List.cons_append, List.append_assoc, List.singleton_append,
            readValue_token (readToken_objectBegin _) (by decide)]
          exact readObject_complete ih hs rest

end Values

end Tob.Reader
