import Tob.Json.Complete

/-!
# What is read is derived by the grammar

The reader takes more than standard JSON only between the members of an object: behind a comment
any token goes for a comma, and behind a member with an empty name the object may end with one.
-/

namespace Tob.Reader

open JsonText

/-- The text of one token, the end of the object apart.  A slash that starts no comment is taken
with the byte behind it. -/
inductive OneToken : List UInt8 → Prop
  | byte {c : UInt8} : c ≠ 125 → OneToken [c]
  | slash {c : UInt8} : c ≠ 42 → c ≠ 47 → OneToken [47, c]
  | true : OneToken [116, 114, 117, 101]
  | false : OneToken [102, 97, 108, 115, 101]
  | null : OneToken [110, 117, 108, 108]
  | string {s : List UInt8} : Quoted s → OneToken (34 :: (s ++ [34]))
  | number {t : List UInt8} : Number t → OneToken t

/-- What the reader takes for a comma between two members, and after which names the object may
end behind it. -/
def lenient : Dialect where
  Sep s := Comma s ∨ ∃ k t, Commented k ∧ OneToken t ∧ s = k ++ t
  Open name := name = []

/-! ## Scanners -/

theorem readCStyleComment_shape {doc : List UInt8} (h : (readCStyleComment doc).1 = true) :
    ∃ t, BlockEnd t ∧ doc = t ++ (readCStyleComment doc).2 := by
  induction doc with
  | nil => cases h
  | cons c rest ih =>
      rw [readCStyleComment] at h ⊢
      split at h
      · rename_i hend
        rw [if_pos hend]
        rcases hend with ⟨rfl, hslash⟩
        cases rest with
        | nil => cases hslash
        | cons d rest =>
            cases hslash
            exact ⟨_, .close, rfl⟩
      · rename_i hend
        rw [if_neg hend]
        rcases ih h with ⟨t, ht, heq⟩
        refine ⟨c :: t, .skip (fun hc hslash ↦ hend ⟨hc, ?_⟩) ht, ?_⟩
        · rw [heq, List.head?_append, hslash]
          rfl
        · rw [List.cons_append, ← heq]

theorem readCppStyleComment_shape (doc : List UInt8) :
    ∃ t, (LineEnd t ∨ readCppStyleComment doc = []) ∧ doc = t ++ readCppStyleComment doc := by
  induction doc with
  | nil => exact ⟨[], .inr rfl, rfl⟩
  | cons c rest ih =>
      rw [readCppStyleComment]
      split
      · rename_i hc
        subst hc
        exact ⟨[10], .inl .newline, rfl⟩
      · rename_i h10
        split
        · rename_i hc
          subst hc
          split
          · rename_i hline
            cases rest with
            | nil => cases hline
            | cons d rest =>
                cases hline
                exact ⟨[13, 10], .inl .dos, rfl⟩
          · exact ⟨[13], .inl .mac, rfl⟩
        · rename_i h13
          rcases ih with ⟨t, ht, heq⟩
          refine ⟨c :: t, ht.imp_left (.skip h10 h13), ?_⟩
          rw [List.cons_append, ← heq]

/-- A comment is a gap, unless the document ends in it. -/
theorem readComment_shape {doc : List UInt8} (h : (readComment doc).1 = true) :
    ∃ t, (Gap (47 :: t) ∨ (readComment doc).2 = []) ∧ doc = t ++ (readComment doc).2 := by
  cases doc with
  | nil => cases h
  | cons c rest =>
      by_cases hstar : c = 42
      · subst hstar
        have hread : (readCStyleComment rest).1 = true := h
        rcases readCStyleComment_shape hread with ⟨t, ht, heq⟩
        have hgap := Gap.block ht .nil
        rw [List.append_nil] at hgap
        exact ⟨42 :: t, .inl hgap, congrArg (42 :: ·) heq⟩
      · by_cases hslash : c = 47
        · subst hslash
          rcases readCppStyleComment_shape rest with ⟨t, ht, heq⟩
          refine ⟨47 :: t, ht.imp_left fun ht ↦ ?_, congrArg (47 :: ·) heq⟩
          have hgap := Gap.line ht .nil
          rwa [List.append_nil] at hgap
        · simp [readComment, getNextChar, hstar, hslash] at h

/-- What is left of a slash that starts no comment. -/
theorem readComment_error {doc : List UInt8} (h : (readComment doc).1 = false) :
    (readComment doc).2 = [] ∨ ∃ c, c ≠ 42 ∧ c ≠ 47 ∧ doc = c :: (readComment doc).2 := by
  have hblock (rest : List UInt8) (h : (readCStyleComment rest).1 = false) :
      (readCStyleComment rest).2 = [] := by
    induction rest with
    | nil => rfl
    | cons c rest ih =>
        rw [readCStyleComment] at h ⊢
        by_cases hend : c = 42 ∧ rest.head? = some 47
        · rw [if_pos hend] at h
          cases h
        · rw [if_neg hend] at h ⊢
          exact ih h
  cases doc with
  | nil => exact .inl rfl
  | cons c rest =>
      by_cases hstar : c = 42
      · subst hstar
        exact .inl (hblock rest h)
      · by_cases hslash : c = 47
        · subst hslash
          cases h
        · right
          refine ⟨c, hstar, hslash, ?_⟩
          simp [readComment, getNextChar, hstar, hslash]

/-- A string that does not end takes the rest of the document. -/
theorem readString_error {doc : List UInt8} (h : (readString doc).1 = false) :
    (readString doc).2 = [] := by
  fun_induction readString doc with
  | case1 => rfl
  | case2 => rfl
  | case3 d rest ih => exact ih h
  | case4 => cases h
  | case5 c rest _ _ ih => exact ih h

theorem readString_shape {doc : List UInt8} (h : (readString doc).1 = true) :
    ∃ s, Quoted s ∧ doc = s ++ 34 :: (readString doc).2 := by
  fun_induction readString doc with
  | case1 => cases h
  | case2 => cases h
  | case3 d rest ih =>
      rcases ih h with ⟨s, hs, heq⟩
      refine ⟨92 :: d :: s, .escape hs, ?_⟩
      rw [List.cons_append, List.cons_append, ← heq]
  | case4 rest => exact ⟨[], .nil, rfl⟩
  | case5 c rest h92 h34 ih =>
      rcases ih h with ⟨s, hs, heq⟩
      refine ⟨c :: s, .plain h34 h92 hs, ?_⟩
      rw [List.cons_append, ← heq]

theorem skipDigits_shape (doc : List UInt8) :
    ∃ ds, Digits ds ∧ doc = ds ++ skipDigits doc :=
  ⟨doc.takeWhile isDigit, fun _ hc ↦ List.mem_takeWhile_imp hc,
    List.takeWhile_append_dropWhile.symm⟩

theorem skipFraction_shape (doc : List UInt8) :
    ∃ f, Fraction f ∧ doc = f ++ skipFraction doc := by
  cases doc with
  | nil => exact ⟨[], .none, rfl⟩
  | cons c rest =>
      rw [skipFraction]
      split
      · rename_i hc
        subst hc
        rcases skipDigits_shape rest with ⟨ds, hd, heq⟩
        exact ⟨46 :: ds, .point hd, congrArg (46 :: ·) heq⟩
      · exact ⟨[], .none, rfl⟩

theorem skipExponent_shape (doc : List UInt8) :
    ∃ e, Exponent e ∧ doc = e ++ skipExponent doc := by
  cases doc with
  | nil => exact ⟨[], .none, rfl⟩
  | cons c rest =>
      rw [skipExponent]
      split
      · rename_i hc
        cases rest with
        | nil => exact ⟨[c], .unsigned hc fun c hc ↦ absurd hc List.not_mem_nil, rfl⟩
        | cons s rest =>
            rw [skipSign]
            split
            · rename_i hs
              rcases skipDigits_shape rest with ⟨ds, hd, heq⟩
              refine ⟨c :: s :: ds, .signed hc hs hd, ?_⟩
              rw [List.cons_append, List.cons_append, ← heq]
            · rcases skipDigits_shape (s :: rest) with ⟨ds, hd, heq⟩
              refine ⟨c :: ds, .unsigned hc hd, ?_⟩
              rw [List.cons_append, ← heq]
      · exact ⟨[], .none, rfl⟩

theorem readNumber_shape {c : UInt8} (hc : c = 45 ∨ isDigit c = true) (doc : List UInt8) :
    ∃ t, Number (c :: t) ∧ doc = t ++ readNumber doc := by
  rcases skipDigits_shape doc with ⟨ds, hd, hds⟩
  rcases skipFraction_shape (skipDigits doc) with ⟨f, hf, hfs⟩
  rcases skipExponent_shape (skipFraction (skipDigits doc)) with ⟨e, he, hes⟩
  refine ⟨ds ++ f ++ e, .mk hc hd hf he, ?_⟩
  rw [readNumber, List.append_assoc, ← hes, List.append_assoc, ← hfs, ← hds]

/-! ## Tokens -/

/-- What the text of a token is, or that it takes the rest of the document. -/
def Shape : TokenType → List UInt8 → List UInt8 → Prop
  | .tokenEndOfStream, t, rest => t = [0] ∨ rest = []
  | .tokenObjectBegin, t, _ => t = [123]
  | .tokenObjectEnd, t, _ => t = [125]
  | .tokenArrayBegin, t, _ => t = [91]
  | .tokenArrayEnd, t, _ => t = [93]
  | .tokenString, t, _ => ∃ s, Quoted s ∧ t = 34 :: (s ++ [34])
  | .tokenNumber, t, _ => Number t
  | .tokenTrue, t, _ => t = [116, 114, 117, 101]
  | .tokenFalse, t, _ => t = [102, 97, 108, 115, 101]
  | .tokenNull, t, _ => t = [110, 117, 108, 108]
  | .tokenArraySeparator, t, _ => t = [44]
  | .tokenMemberSeparator, t, _ => t = [58]
  | .tokenComment, t, rest => (Gap t ∨ rest = []) ∧ 47 ∈ t
  | .tokenError, t, rest => OneToken t ∨ rest = []

/-- Any token but a comment and the end of the object. -/
theorem Shape.oneToken {type : TokenType} {t rest : List UInt8} (h : Shape type t rest)
    (hend : type ≠ .tokenObjectEnd) (hcomment : type ≠ .tokenComment) :
    OneToken t ∨ rest = [] := by
  have hbyte {c : UInt8} (hc : c ≠ 125) (h : t = [c]) : OneToken t ∨ rest = [] :=
    .inl (h ▸ .byte hc)
  cases type with
  | tokenEndOfStream =>
      rcases h with h | h
      · exact hbyte (by decide) h
      · exact .inr h
  | tokenObjectBegin => exact hbyte (by decide) h
  | tokenObjectEnd => exact absurd rfl hend
  | tokenArrayBegin => exact hbyte (by decide) h
  | tokenArrayEnd => exact hbyte (by decide) h
  | tokenString =>
      obtain ⟨s, hs, ht⟩ := h
      exact .inl (ht ▸ .string hs)
  | tokenNumber => exact .inl (.number h)
  | tokenTrue => exact .inl ((show t = _ from h) ▸ .true)
  | tokenFalse => exact .inl ((show t = _ from h) ▸ .false)
  | tokenNull => exact .inl ((show t = _ from h) ▸ .null)
  | tokenArraySeparator => exact hbyte (by decide) h
  | tokenMemberSeparator => exact hbyte (by decide) h
  | tokenComment => exact absurd rfl hcomment
  | tokenError => exact h

/-- The token takes `t` off the document, and `t` has the shape of its type. -/
def Takes (c : UInt8) (doc : List UInt8) (r : TokenType × List UInt8) : Prop :=
  ∃ t, doc = t ++ r.2 ∧ Shape r.1 (c :: t) r.2

theorem ite_takes {c : UInt8} {doc : List UInt8} {p : Prop} [Decidable p]
    {a b : TokenType × List UInt8} (ha : p → Takes c doc a) (hb : ¬p → Takes c doc b) :
    Takes c doc (if p then a else b) := by
  by_cases h : p
  · rw [if_pos h]
    exact ha h
  · rw [if_neg h]
    exact hb h

theorem literal_takes {c : UInt8} {pattern doc : List UInt8} {type : TokenType} (hc : c ≠ 125)
    (h : ∀ rest, Shape type (c :: pattern) rest) : Takes c doc (literal type pattern doc) := by
  unfold literal matchPattern
  by_cases hp : pattern <+: doc
  · rw [if_pos hp]
    exact ⟨pattern, (List.prefix_iff_eq_append.mp hp).symm, h _⟩
  · rw [if_neg hp]
    exact ⟨[], rfl, .inl (.byte hc)⟩

theorem unlessError_takes {c : UInt8} {doc : List UInt8} {type : TokenType}
    {r : Bool × List UInt8} (h : r.1 = true → Takes c doc (type, r.2))
    (herror : r.1 = false → Takes c doc (.tokenError, r.2)) : Takes c doc (unlessError type r) := by
  unfold unlessError
  cases hr : r.1 with
  | true => exact h hr
  | false => exact herror hr

theorem tokenAfter_takes (c : UInt8) (doc : List UInt8) : Takes c doc (tokenAfter c doc) := by
  have hsingle {type : TokenType} (h : Shape type [c] doc) : Takes c doc (type, doc) := ⟨[], rfl, h⟩
  unfold tokenAfter
  refine ite_takes (fun h ↦ hsingle (congrArg (fun b ↦ [b]) h)) fun _ ↦ ?_
  refine ite_takes (fun h ↦ hsingle (congrArg (fun b ↦ [b]) h)) fun hbrace ↦ ?_
  refine ite_takes (fun h ↦ hsingle (congrArg (fun b ↦ [b]) h)) fun _ ↦ ?_
  refine ite_takes (fun h ↦ hsingle (congrArg (fun b ↦ [b]) h)) fun _ ↦ ?_
  refine ite_takes (fun h ↦ unlessError_takes (fun hr ↦ ?_) fun hr ↦ ?_) fun _ ↦ ?_
  · rcases readString_shape hr with ⟨s, hs, heq⟩
    refine ⟨s ++ [34], by rwa [List.append_assoc], s, hs, by rw [h]⟩
  · have hnil := readString_error hr
    exact ⟨doc, by rw [hnil, List.append_nil], .inr hnil⟩
  refine ite_takes (fun h ↦ unlessError_takes (fun hr ↦ ?_) fun hr ↦ ?_) fun _ ↦ ?_
  · rcases readComment_shape hr with ⟨t, ht, heq⟩
    exact ⟨t, heq, h ▸ ht, h ▸ List.mem_cons_self⟩
  · -- the slash is an error by itself, or the comment does not end
    rcases readComment_error hr with hnil | ⟨d, hstar, hslash, heq⟩
    · exact ⟨doc, by rw [hnil, List.append_nil], .inr hnil⟩
    · exact ⟨[d], heq, .inl (h ▸ .slash hstar hslash)⟩
  refine ite_takes (fun h ↦ ?_) fun _ ↦ ?_
  · rcases readNumber_shape h.symm doc with ⟨t, ht, heq⟩
    exact ⟨t, heq, ht⟩
  refine ite_takes (fun h ↦ literal_takes hbrace fun _ ↦ congrArg (· :: _) h) fun _ ↦ ?_
  refine ite_takes (fun h ↦ literal_takes hbrace fun _ ↦ congrArg (· :: _) h) fun _ ↦ ?_
  refine ite_takes (fun h ↦ literal_takes hbrace fun _ ↦ congrArg (· :: _) h) fun _ ↦ ?_
  refine ite_takes (fun h ↦ hsingle (congrArg (fun b ↦ [b]) h)) fun _ ↦ ?_
  refine ite_takes (fun h ↦ hsingle (congrArg (fun b ↦ [b]) h)) fun _ ↦ ?_
  exact ite_takes (fun h ↦ hsingle (.inl (congrArg (fun b ↦ [b]) h)))
    fun _ ↦ hsingle (.inl (.byte hbrace))

theorem readToken_shape (doc : List UInt8) :
    ∃ g, Spaces g ∧ doc = g ++ ((readToken doc).1.text ++ (readToken doc).2) ∧
      Shape (readToken doc).1.type (readToken doc).1.text (readToken doc).2 := by
  have hsplit : doc = doc.takeWhile isSpace ++ skipSpaces doc :=
    List.takeWhile_append_dropWhile.symm
  refine ⟨doc.takeWhile isSpace, fun _ hc ↦ List.mem_takeWhile_imp hc, ?_⟩
  unfold readToken
  cases hstart : skipSpaces doc with
  | nil =>
      rw [hstart] at hsplit
      exact ⟨hsplit, .inr rfl⟩
  | cons c rest =>
      rw [hstart] at hsplit
      rcases tokenAfter_takes c rest with ⟨t, ht, hshape⟩
      have htext : between (c :: rest) (tokenAfter c rest).2 = c :: t := by
        have hbetween := between_cons_append c t (tokenAfter c rest).2
        rwa [← ht] at hbetween
      simp only [getNextChar, htext]
      refine ⟨?_, hshape⟩
      rw [List.cons_append, ← ht]
      exact hsplit

/-- The loops over comments take a gap and a token, or come to the end of the document. -/
theorem skipCommentTokens_shape (doc : List UInt8) :
    (skipCommentTokens doc).1.type = .tokenEndOfStream ∧ (skipCommentTokens doc).2 = [] ∨
      ∃ g, Gap g ∧ doc = g ++ ((skipCommentTokens doc).1.text ++ (skipCommentTokens doc).2) ∧
        Shape (skipCommentTokens doc).1.type (skipCommentTokens doc).1.text
          (skipCommentTokens doc).2 ∧
        (skipCommentTokens doc).1.type ≠ .tokenComment := by
  fun_induction skipCommentTokens doc with
  | case1 doc hcomment ih =>
      rcases readToken_shape doc with ⟨g, hg, heq, hshape⟩
      rw [hcomment] at hshape
      rcases hshape with ⟨hgap | hend, -⟩
      · refine ih.imp_right ?_
        rintro ⟨k, hk, hrest, htail⟩
        refine ⟨g ++ ((readToken doc).1.text ++ k), hg.gap.append (hgap.append hk), ?_, htail⟩
        rw [List.append_assoc, List.append_assoc, ← hrest]
        exact heq
      · left
        rw [hend, skipCommentTokens_of_ne (by decide)]
        exact ⟨rfl, rfl⟩
  | case2 doc hcomment =>
      rcases readToken_shape doc with ⟨g, hg, heq, hshape⟩
      exact .inr ⟨g, hg.gap, heq, hshape, hcomment⟩

theorem skipCommentTokens_of_type {doc : List UInt8} {type : TokenType}
    (h : (skipCommentTokens doc).1.type = type) (hne : type ≠ .tokenEndOfStream) :
    ∃ g, Gap g ∧ doc = g ++ ((skipCommentTokens doc).1.text ++ (skipCommentTokens doc).2) ∧
      Shape type (skipCommentTokens doc).1.text (skipCommentTokens doc).2 := by
  rcases skipCommentTokens_shape doc with ⟨hend, -⟩ | ⟨g, hg, heq, hshape, -⟩
  · exact absurd (h.symm.trans hend) hne
  · exact ⟨g, hg, heq, h ▸ hshape⟩

/-! ## Strings -/

theorem decodeUnicodeEscapeSequence_shape {doc rest : List UInt8} {u : Nat}
    (h : decodeUnicodeEscapeSequence doc = some (u, rest)) :
    ∃ ds, CodeUnit ds u ∧ doc = ds ++ rest := by
  unfold decodeUnicodeEscapeSequence at h
  split at h
  · cases h
  · rename_i hlen
    rcases Option.map_eq_some_iff.mp h with ⟨v, hv, heq⟩
    cases heq
    refine ⟨doc.take 4, ⟨?_, hv⟩, (List.take_append_drop 4 doc).symm⟩
    rw [List.length_take]
    omega

theorem decodeUnicodeCodePoint_shape {doc rest : List UInt8} {u : Nat}
    (h : decodeUnicodeCodePoint doc = some (u, rest)) :
    (∃ ds, CodeUnit ds u ∧ isHigh u = false ∧ doc = ds ++ rest) ∨
      ∃ ds es high low, CodeUnit ds high ∧ isHigh high = true ∧ CodeUnit es low ∧
        u = pair high low ∧ doc = ds ++ 92 :: 117 :: (es ++ rest) := by
  unfold decodeUnicodeCodePoint at h
  split at h
  · cases h
  · rename_i high doc' hfirst
    rcases decodeUnicodeEscapeSequence_shape hfirst with ⟨ds, hds, rfl⟩
    split at h
    · rename_i hhigh
      split at h
      · cases h
      · split at h
        · rename_i hprefix
          split at h
          · cases h
          · rename_i low after hsecond
            cases h
            rcases decodeUnicodeEscapeSequence_shape hsecond with ⟨es, hes, heq⟩
            refine .inr ⟨ds, es, high, low, hds, isHigh_iff.mpr hhigh, hes, pair_eq high low, ?_⟩
            rw [← heq]
            exact congrArg (ds ++ ·) (List.prefix_iff_eq_append.mp hprefix).symm
        · cases h
    · rename_i hhigh
      cases h
      refine .inl ⟨ds, hds, ?_, rfl⟩
      rw [← Bool.not_eq_true, isHigh_iff]
      exact hhigh

/-- What the reader decodes is derived by the grammar. -/
theorem chars_of_decodeChars {t s : List UInt8} (ht : Quoted t) (h : decodeChars t = some s) :
    Chars codePointToUTF8 t s := by
  induction hn : t.length using Nat.strong_induction_on generalizing t s with
  | _ n ih =>
      cases ht with
      | nil =>
          rw [decodeChars] at h
          cases h
          exact .nil
      | @plain c t h34 h92 ht =>
          rw [decodeChars_plain h34 h92] at h
          rcases Option.map_eq_some_iff.mp h with ⟨u, hu, rfl⟩
          exact .plain h34 h92 (ih t.length (by simp [← hn]) ht hu rfl)
      | @escape c t ht =>
          rw [decodeChars.eq_3, if_neg (by decide), if_pos rfl] at h
          cases he : escaped c with
          | some b =>
              rw [he] at h
              rcases Option.map_eq_some_iff.mp h with ⟨u, hu, rfl⟩
              exact .escape he (ih t.length (by simp [← hn]) ht hu rfl)
          | none =>
              rw [he] at h
              simp only [] at h
              split at h
              · rename_i hc
                subst hc
                split at h
                · cases h
                · rename_i u after hcode
                  rcases Option.map_eq_some_iff.mp h with ⟨w, hw, rfl⟩
                  rcases decodeUnicodeCodePoint_shape hcode with
                    ⟨ds, hds, hhigh, rfl⟩ | ⟨ds, es, high, low, hds, hhigh, hes, rfl, rfl⟩
                  · have hafter := Quoted.of_append hds.ne ht
                    exact .unit hds hhigh (ih after.length (by simp [← hn]; omega) hafter hw rfl)
                  · have hsecond := Quoted.of_append hds.ne ht
                    cases hsecond with
                    | plain _ h92 => exact absurd rfl h92
                    | escape hsecond =>
                        have hafter := Quoted.of_append hes.ne hsecond
                        refine .pair hds hhigh hes
                          (ih after.length ?_ hafter hw rfl)
                        simp [← hn]
                        omega
              · cases h

theorem chars_of_token {rest text s : List UInt8}
    (hshape : Shape .tokenString text rest) (h : decodeString text = some s) :
    ∃ t, text = 34 :: (t ++ [34]) ∧ Chars codePointToUTF8 t s := by
  rcases hshape with ⟨t, ht, rfl⟩
  rw [decodeString, List.tail_cons, List.dropLast_concat] at h
  exact ⟨t, rfl, chars_of_decodeChars ht h⟩

/-! ## Loops -/

/-- Whatever is read is a text of the grammar behind a gap. -/
def Derives (read : List UInt8 → Result) (Text : Value → List UInt8 → Prop) : Prop :=
  ∀ doc v rest, read doc = .ok (some v, rest) →
    ∃ g t, Gap g ∧ Text v t ∧ doc = g ++ (t ++ rest)

section Loops

variable {read : List UInt8 → Result} {Text : Value → List UInt8 → Prop}

theorem failed_ne (type : TokenType) (doc : List UInt8) {v : Value} {rest : List UInt8} :
    failed type doc ≠ .ok (some v, rest) := by
  simp [failed]

theorem readElements_sound (hread : Derives read Text) {turns : Nat} {items : List Value}
    {doc rest : List UInt8} {v : Value}
    (h : readElements read turns items doc = .ok (some v, rest)) :
    ∃ vs t, Separated (Element Text) Comma (fun _ ↦ False) vs t ∧ doc = t ++ 93 :: rest ∧
      v = .array (items ++ vs) := by
  induction turns generalizing items doc with
  | zero => cases h
  | succ turns ih =>
      rw [readElements] at h
      split at h
      · cases h
      · exact absurd h (failed_ne _ _)
      · rename_i w mid hw
        rcases hread doc w mid hw with ⟨g, t, hg, ht, rfl⟩
        simp only [] at h
        split at h
        · rename_i hend
          rcases skipCommentTokens_of_type hend (by decide) with ⟨k, hk, heq, htext⟩
          cases h
          refine ⟨[w], g ++ t ++ k, .last (.mk hg ht hk), ?_, rfl⟩
          conv_lhs => rw [heq, htext]
          simp only [List.append_assoc, List.singleton_append]
        · split at h
          · rename_i hcomma
            rcases skipCommentTokens_of_type hcomma (by decide) with ⟨k, hk, heq, htext⟩
            rcases ih h with ⟨vs, ts, hvs, hdoc, rfl⟩
            refine ⟨w :: vs, g ++ t ++ k ++ [44] ++ ts, .more (.mk hg ht hk) rfl hvs, ?_, ?_⟩
            · conv_lhs => rw [heq, htext, hdoc]
              simp only [List.append_assoc, List.cons_append, List.nil_append]
            · rw [List.append_assoc, List.singleton_append]
          · exact absurd h (failed_ne _ _)

/-- How a member may end. -/
theorem readComma_sound {doc rest : List UInt8} {ends : Bool}
    (h : readComma doc = (some ends, rest)) :
    (ends = true ∧ ∃ k, Gap k ∧ doc = k ++ 125 :: rest) ∨
      ends = false ∧ ((∃ k s, Gap k ∧ lenient.Sep s ∧ doc = k ++ (s ++ rest)) ∨ rest = []) := by
  rcases readToken_shape doc with ⟨g, hg, heq, hshape⟩
  simp only [readComma] at h
  split at h
  · rename_i hend
    cases h
    rw [hend] at hshape
    rw [hshape] at heq
    exact .inl ⟨rfl, g, hg.gap, heq⟩
  · split at h
    · rename_i hcomma
      cases h
      rw [hcomma] at hshape
      exact .inr ⟨rfl, .inl ⟨g, _, hg.gap, .inl hshape, heq⟩⟩
    · split at h
      · rename_i hcomment
        rw [hcomment] at hshape
        rcases hshape with ⟨hgap | hend, hslash⟩
        · -- behind the comment comes another token
          have hnot (k : List UInt8) : ¬ Spaces (g ++ (readToken doc).1.text ++ k) := fun hs ↦
            absurd (hs 47 (List.mem_append_left _ (List.mem_append_right _ hslash))) (by decide)
          generalize (readToken doc).1.text = text at heq hgap hnot
          generalize (readToken doc).2 = mid at heq h
          cases h
          rcases skipCommentTokens_shape mid with ⟨hend, hrest⟩ | ⟨k, hk, hmid, htext, hno⟩
          · exact .inr ⟨by rw [hend]; rfl, .inr hrest⟩
          · have hall : Gap (g ++ text ++ k) := (hg.gap.append hgap).append hk
            by_cases hend : (skipCommentTokens mid).1.type = .tokenObjectEnd
            · rw [hend] at htext
              refine .inl ⟨decide_eq_true hend, g ++ text ++ k, hall, ?_⟩
              rw [htext] at hmid
              rw [heq, List.append_assoc, List.append_assoc]
              exact congrArg (fun rest ↦ g ++ (text ++ rest)) hmid
            · refine .inr ⟨decide_eq_false hend, (htext.oneToken hend hno).imp_left ?_⟩
              intro htoken
              refine ⟨[], g ++ text ++ k ++ (skipCommentTokens mid).1.text, .nil,
                .inr ⟨_, _, ⟨hall, hnot k⟩, htoken, rfl⟩, ?_⟩
              rw [heq]
              conv_lhs => rw [hmid]
              simp only [List.append_assoc, List.nil_append]
        · cases h
          rw [hend, skipCommentTokens_of_ne (by decide)]
          exact .inr ⟨rfl, .inr rfl⟩
      · cases h

theorem readMembers_nil (turns : Nat) (name : List UInt8) (members : List (List UInt8 × Value))
    {v : Value} {rest : List UInt8} :
    readMembers read turns name members [] ≠ .ok (some v, rest) := by
  cases turns with
  | zero => simp [readMembers]
  | succ turns =>
      have htoken : skipCommentTokens [] = (⟨.tokenEndOfStream, []⟩, []) :=
        skipCommentTokens_of_ne (by decide)
      simp [readMembers, htoken, failed]

theorem readMembers_sound (hread : Derives read Text) {turns : Nat} {name : List UInt8}
    {members : List (List UInt8 × Value)} {doc rest : List UInt8} {v : Value}
    (h : readMembers read turns name members doc = .ok (some v, rest)) :
    (name = [] ∧ ∃ g, Gap g ∧ doc = g ++ 125 :: rest ∧ v = .object members) ∨
      ∃ ms t, Separated (Member codePointToUTF8 Text) lenient.Sep (fun m ↦ lenient.Open m.1) ms t ∧
        doc = t ++ 125 :: rest ∧ v = .object (Value.setMembers members ms) := by
  induction turns generalizing name members doc with
  | zero => cases h
  | succ turns ih =>
      simp only [readMembers] at h
      split at h
      · rename_i hend
        rcases skipCommentTokens_of_type hend.1 (by decide) with ⟨g, hg, heq, htext⟩
        cases h
        rw [htext] at heq
        exact .inl ⟨hend.2, g, hg, heq, rfl⟩
      · split at h
        · rename_i hstring
          rcases skipCommentTokens_of_type hstring (by decide) with ⟨g, hg, heq, htext⟩
          split at h
          · exact absurd h (failed_ne _ _)
          · rename_i name' hname
            rcases chars_of_token htext hname with ⟨n, hn, hchars⟩
            rw [hn] at heq
            generalize (skipCommentTokens doc).2 = afterName at h heq
            rcases readToken_shape afterName with ⟨k, hk, hcolon, hcolonText⟩
            split at h
            · rename_i hcolonType
              rw [hcolonType] at hcolonText
              rw [hcolonText] at hcolon
              generalize (readToken afterName).2 = beforeValue at h hcolon
              split at h
              · cases h
              · exact absurd h (failed_ne _ _)
              · rename_i w mid hw
                rcases hread beforeValue w mid hw with ⟨g', t, hg', ht, hvalue⟩
                -- the member, up to the gap in front of what ends it
                have hmember (k' : List UInt8) (hk' : Gap k') :
                    Member codePointToUTF8 Text (name', w)
                      (g ++ 34 :: (n ++ 34 :: (k ++ 58 :: (g' ++ t ++ k')))) :=
                  .mk hg hchars hk (.mk hg' ht hk')
                have hdoc (k' tail : List UInt8) (hmid : mid = k' ++ tail) :
                    doc = g ++ 34 :: (n ++ 34 :: (k ++ 58 :: (g' ++ t ++ k'))) ++ tail := by
                  rw [heq, hcolon, hvalue, hmid]
                  simp only [List.append_assoc, List.cons_append, List.nil_append]
                split at h
                · exact absurd h (failed_ne _ _)
                · rename_i after hcomma
                  cases h
                  rcases readComma_sound hcomma with ⟨-, k', hk', hmid⟩ | ⟨hfalse, -⟩
                  · exact .inr ⟨[(name', w)], _, .last (hmember k' hk'), hdoc k' _ hmid, rfl⟩
                  · cases hfalse
                · rename_i after hcomma
                  rcases readComma_sound hcomma with
                    ⟨htrue, -⟩ | ⟨-, ⟨k', s, hk', hs, hmid⟩ | hnil⟩
                  · cases htrue
                  · rcases ih h with ⟨hopen, e, he, hafter, rfl⟩ | ⟨ms, ts, hms, hafter, rfl⟩
                    · refine .inr ⟨[(name', w)], _,
                        .trailing (hmember k' hk') hs hopen he, ?_, rfl⟩
                      rw [hdoc k' _ hmid, hafter]
                      simp only [List.append_assoc]
                    · refine .inr ⟨(name', w) :: ms, _, .more (hmember k' hk') hs hms, ?_, rfl⟩
                      rw [hdoc k' _ hmid, hafter]
                      simp only [List.append_assoc]
                  · rw [hnil] at h
                    exact absurd h (readMembers_nil _ _ _)
            · exact absurd h (failed_ne _ _)
        · exact absurd h (failed_ne _ _)

end Loops

/-! ## Values -/

section Values

variable {reader : Reader} {doc rest : List UInt8} {v : Value}

theorem readArray_sound {Text : Value → List UInt8 → Prop} {read : List UInt8 → Result}
    (hread : Derives read Text) (hspaces : read (skipSpaces doc) = read doc)
    (hbeyond : reader.beyond ≠ 93) (h : readArray reader read doc = .ok (some v, rest)) :
    (∃ g, Spaces g ∧ doc = g ++ 93 :: rest ∧ v = .array []) ∨
      ∃ vs t, Separated (Element Text) Comma (fun _ ↦ False) vs t ∧ doc = t ++ 93 :: rest ∧
        v = .array vs := by
  unfold readArray at h
  split at h
  · rename_i hend
    have hsplit : doc = doc.takeWhile isSpace ++ skipSpaces doc :=
      List.takeWhile_append_dropWhile.symm
    have hg : Spaces (doc.takeWhile isSpace) := fun _ hc ↦ List.mem_takeWhile_imp hc
    cases hstart : skipSpaces doc with
    | nil =>
        rw [hstart] at hend
        exact absurd hend hbeyond
    | cons c tail =>
        rw [hstart] at hend h hsplit
        obtain rfl : c = 93 := hend
        rw [readToken_arrayEnd] at h
        cases h
        exact .inl ⟨_, hg, hsplit, rfl⟩
  · rw [readElements_congr hspaces] at h
    exact .inr (readElements_sound hread h)

theorem valueAfter_sound {depth : Nat} {token : Token}
    (hread : Derives (readValue reader depth) (IsText reader.algebra lenient depth))
    (hbeyond : reader.beyond ≠ 93) (hshape : Shape token.type token.text doc)
    (h : valueAfter reader (readValue reader depth) token doc = .ok (some v, rest)) :
    ∃ t, IsText reader.algebra lenient (depth + 1) v t ∧ token.text ++ doc = t ++ rest := by
  rcases token with ⟨type, text⟩
  unfold valueAfter at h
  split at h
  · rename_i htype
    obtain rfl : type = .tokenObjectBegin := htype
    obtain rfl : text = [123] := hshape
    rcases readMembers_sound hread h with ⟨-, g, hg, rfl, rfl⟩ | ⟨ms, t, hms, rfl, rfl⟩
    · exact ⟨_, .emptyObject hg, by simp⟩
    · exact ⟨_, .object hms, by simp⟩
  · rename_i htype
    obtain rfl : type = .tokenArrayBegin := htype
    obtain rfl : text = [91] := hshape
    rcases readArray_sound hread readValue_skipSpaces hbeyond h with
      ⟨g, hg, rfl, rfl⟩ | ⟨vs, t, hvs, rfl, rfl⟩
    · exact ⟨_, .emptyArray hg, by simp⟩
    · exact ⟨_, .array hvs, by simp⟩
  · rename_i htype
    obtain rfl : type = .tokenNumber := htype
    rcases Prod.mk.inj (Except.ok.inj h) with ⟨hv, rfl⟩
    exact ⟨text, .number hshape hv, rfl⟩
  · rename_i htype
    obtain rfl : type = .tokenString := htype
    rcases Prod.mk.inj (Except.ok.inj h) with ⟨hv, rfl⟩
    rcases Option.map_eq_some_iff.mp hv with ⟨s, hs, rfl⟩
    rcases chars_of_token hshape hs with ⟨t, rfl, hchars⟩
    exact ⟨_, .string hchars, rfl⟩
  · rename_i htype
    obtain rfl : type = .tokenTrue := htype
    obtain rfl : text = [116, 114, 117, 101] := hshape
    cases h
    exact ⟨_, .true, rfl⟩
  · rename_i htype
    obtain rfl : type = .tokenFalse := htype
    obtain rfl : text = [102, 97, 108, 115, 101] := hshape
    cases h
    exact ⟨_, .false, rfl⟩
  · rename_i htype
    obtain rfl : type = .tokenNull := htype
    obtain rfl : text = [110, 117, 108, 108] := hshape
    cases h
    exact ⟨_, .null, rfl⟩
  · cases h

theorem readValue_sound (hbeyond : reader.beyond ≠ 93) (depth : Nat) :
    Derives (readValue reader depth) (IsText reader.algebra lenient depth) := by
  induction depth with
  | zero =>
      intro doc v rest h
      cases h
  | succ depth ih =>
      intro doc v rest h
      simp only [readValue] at h
      rcases skipCommentTokens_shape doc with ⟨hend, -⟩ | ⟨g, hg, heq, hshape, -⟩
      · rw [valueAfter, hend] at h
        cases h
      · rcases valueAfter_sound ih hbeyond hshape h with ⟨t, ht, htext⟩
        exact ⟨g, t, hg, ht, by rw [← htext]; exact heq⟩

end Values

end Tob.Reader
