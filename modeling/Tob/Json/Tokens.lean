import Tob.Json.Reader

/-!
# Tokens of a JSON text

What the reader's scanners do on the texts of the grammar: gaps are passed over, a number and a
string end where they should.
-/

namespace Tob.Reader

open JsonText

/-! ## Gaps -/

theorem skipSpaces_cons {c : UInt8} (hc : isSpace c = true) (doc : List UInt8) :
    skipSpaces (c :: doc) = skipSpaces doc := List.dropWhile_cons_of_pos hc

theorem skipSpaces_of_not {c : UInt8} (hc : isSpace c = false) (doc : List UInt8) :
    skipSpaces (c :: doc) = c :: doc :=
  List.dropWhile_cons_of_neg (by rw [hc]; exact Bool.noConfusion)

theorem skipSpaces_append {g : List UInt8} (hg : Spaces g) (doc : List UInt8) :
    skipSpaces (g ++ doc) = skipSpaces doc := by
  induction g with
  | nil => rfl
  | cons c g ih =>
      rw [List.cons_append, skipSpaces_cons (hg c List.mem_cons_self)]
      exact ih fun c hc ↦ hg c (List.mem_cons_of_mem _ hc)

theorem readToken_spaces {g : List UInt8} (hg : Spaces g) (doc : List UInt8) :
    readToken (g ++ doc) = readToken doc := by
  unfold readToken
  rw [skipSpaces_append hg]

theorem readToken_cons {c : UInt8} (hc : isSpace c = true) (doc : List UInt8) :
    readToken (c :: doc) = readToken doc := by
  unfold readToken
  rw [skipSpaces_cons hc]

/-- A token is what the switch on its first byte takes. -/
theorem readToken_of {c : UInt8} {t rest : List UInt8} {type : TokenType}
    (hc : isSpace c = false) (h : tokenAfter c (t ++ rest) = (type, rest)) :
    readToken (c :: (t ++ rest)) = (⟨type, c :: t⟩, rest) := by
  unfold readToken
  rw [skipSpaces_of_not hc]
  simp only [getNextChar, h, between_cons_append]

theorem skipCommentTokens_of_ne {doc : List UInt8}
    (h : (readToken doc).1.type ≠ .tokenComment) : skipCommentTokens doc = readToken doc := by
  rw [skipCommentTokens, dif_neg h]

theorem skipCommentTokens_of_eq {doc : List UInt8}
    (h : (readToken doc).1.type = .tokenComment) :
    skipCommentTokens doc = skipCommentTokens (readToken doc).2 := by
  rw [skipCommentTokens, dif_pos h]

theorem skipCommentTokens_cons {c : UInt8} (hc : isSpace c = true) (doc : List UInt8) :
    skipCommentTokens (c :: doc) = skipCommentTokens doc := by
  rw [skipCommentTokens, skipCommentTokens.eq_def doc, readToken_cons hc]

theorem readCStyleComment_append {t : List UInt8} (ht : BlockEnd t) (doc : List UInt8) :
    readCStyleComment (t ++ doc) = (true, doc) := by
  induction ht with
  | close => rfl
  | @skip c t hc ht ih =>
      have hne : t ≠ [] := by cases ht <;> exact List.cons_ne_nil _ _
      rw [List.cons_append, readCStyleComment, List.head?_append_of_ne_nil t hne,
        if_neg fun h ↦ hc h.1 h.2, ih]

/-- A comment to the end of the line leaves the line feed behind a carriage return out. -/
theorem readCppStyleComment_append {t : List UInt8} (ht : LineEnd t) (doc : List UInt8) :
    readCppStyleComment (t ++ doc) = doc ∨ 10 :: readCppStyleComment (t ++ doc) = doc := by
  induction ht with
  | newline => exact .inl rfl
  | dos => exact .inl rfl
  | mac =>
      cases doc with
      | nil => exact .inl rfl
      | cons c doc =>
          by_cases hc : c = 10
          · subst hc
            exact .inr rfl
          · left
            have hhead : (c :: doc).head? ≠ some 10 := fun h ↦ hc (Option.some.inj h)
            rw [List.singleton_append, readCppStyleComment, if_neg (by decide), if_pos rfl,
              if_neg hhead]
  | skip h10 h13 _ ih =>
      rw [List.cons_append, readCppStyleComment, if_neg h10, if_neg h13]
      exact ih

theorem readToken_block {t : List UInt8} (ht : BlockEnd t) (doc : List UInt8) :
    readToken (47 :: 42 :: (t ++ doc)) = (⟨.tokenComment, 47 :: 42 :: t⟩, doc) := by
  refine readToken_of (t := 42 :: t) rfl ?_
  change unlessError .tokenComment (readCStyleComment (t ++ doc)) = (.tokenComment, doc)
  rw [readCStyleComment_append ht]
  rfl

theorem readToken_line (doc : List UInt8) :
    (readToken (47 :: 47 :: doc)).1.type = .tokenComment ∧
      (readToken (47 :: 47 :: doc)).2 = readCppStyleComment doc := ⟨rfl, rfl⟩

/-- A gap with a comment in it starts with a comment token, behind which the rest of the gap is
passed over. -/
theorem readToken_gap {g : List UInt8} (hg : Gap g) (doc : List UInt8) :
    Spaces g ∨ (readToken (g ++ doc)).1.type = .tokenComment ∧
      ∃ k, Gap k ∧ k.length < g.length ∧
        skipCommentTokens (readToken (g ++ doc)).2 = skipCommentTokens (k ++ doc) := by
  induction hg with
  | nil => exact .inl fun c hc ↦ absurd hc List.not_mem_nil
  | @space c g hc hg ih =>
      refine ih.imp (fun hs ↦ List.forall_mem_cons.mpr ⟨hc, hs⟩) ?_
      rintro ⟨htype, k, hk, hlt, heq⟩
      rw [List.cons_append, readToken_cons hc]
      exact ⟨htype, k, hk, Nat.lt_succ_of_lt hlt, heq⟩
  | @block t g ht hg ih =>
      right
      rw [List.cons_append, List.cons_append, List.append_assoc, readToken_block ht]
      refine ⟨rfl, g, hg, ?_, rfl⟩
      simp only [List.length_cons, List.length_append]
      omega
  | @line t g ht hg ih =>
      right
      rw [List.cons_append, List.cons_append, List.append_assoc]
      refine ⟨(readToken_line _).1, g, hg, ?_, ?_⟩
      · simp only [List.length_cons, List.length_append]
        omega
      · rw [(readToken_line _).2]
        rcases readCppStyleComment_append ht (g ++ doc) with heq | heq
        · rw [heq]
        · rw [← heq, skipCommentTokens_cons (c := 10) rfl, heq]

theorem skipCommentTokens_gap {g : List UInt8} (hg : Gap g) (doc : List UInt8) :
    skipCommentTokens (g ++ doc) = skipCommentTokens doc := by
  induction hn : g.length using Nat.strong_induction_on generalizing g with
  | _ n ih =>
      rcases readToken_gap hg doc with hs | ⟨htype, k, hk, hlt, heq⟩
      · rw [skipCommentTokens, skipCommentTokens.eq_def doc, readToken_spaces hs]
      · rw [skipCommentTokens_of_eq htype, heq]
        exact ih k.length (hn ▸ hlt) hk rfl

/-- Behind a gap the loops find the token behind it. -/
theorem skipCommentTokens_token {g doc : List UInt8} (hg : Gap g)
    (h : (readToken doc).1.type ≠ .tokenComment) :
    skipCommentTokens (g ++ doc) = readToken doc := by
  rw [skipCommentTokens_gap hg, skipCommentTokens_of_ne h]

/-! ## Numbers -/

theorem skipDigits_append {ds rest : List UInt8} (hd : Digits ds)
    (hrest : ∀ c ∈ rest.head?, isDigit c = false) : skipDigits (ds ++ rest) = rest := by
  rw [skipDigits, List.dropWhile_append_of_pos hd]
  cases rest with
  | nil => rfl
  | cons c rest =>
      exact List.dropWhile_cons_of_neg (by rw [hrest c rfl]; exact Bool.noConfusion)

theorem skipExponent_append {e rest : List UInt8} (he : Exponent e) (hrest : Follows rest) :
    skipExponent (e ++ rest) = rest := by
  have hdigit : ∀ c ∈ rest.head?, isDigit c = false := fun c hc ↦ (hrest.of_head hc).1
  cases he with
  | none =>
      cases rest with
      | nil => rfl
      | cons c rest =>
          have hc := hrest.of_head (c := c) rfl
          rw [List.nil_append, skipExponent, if_neg (not_or.mpr ⟨hc.2.2.1, hc.2.2.2.1⟩)]
  | @unsigned c ds hc hd =>
      rw [List.cons_append, skipExponent, if_pos hc]
      -- without digits the next byte must not be taken for a sign
      have hsign : skipSign (ds ++ rest) = ds ++ rest := by
        cases ds with
        | cons d ds =>
            have hdd := hd d List.mem_cons_self
            have hne : ¬ (d = 43 ∨ d = 45) := by
              rintro (rfl | rfl) <;> exact absurd hdd (by decide)
            rw [List.cons_append, skipSign, if_neg hne]
        | nil =>
            cases rest with
            | nil => rfl
            | cons c rest =>
                have hc := hrest.of_head (c := c) rfl
                rw [List.nil_append, skipSign, if_neg (not_or.mpr hc.2.2.2.2)]
      rw [hsign, skipDigits_append hd hdigit]
  | signed hc hs hd =>
      rw [List.cons_append, List.cons_append, skipExponent, if_pos hc, skipSign, if_pos hs,
        skipDigits_append hd hdigit]

theorem skipFraction_append {f rest : List UInt8} (hf : Fraction f)
    (hrest : ∀ c ∈ rest.head?, isDigit c = false ∧ c ≠ 46) :
    skipFraction (f ++ rest) = rest := by
  cases hf with
  | none =>
      cases rest with
      | nil => rfl
      | cons c rest => rw [List.nil_append, skipFraction, if_neg (hrest c rfl).2]
  | point hd =>
      rw [List.cons_append, skipFraction, if_pos rfl,
        skipDigits_append hd fun c hc ↦ (hrest c hc).1]

theorem readNumber_append {ds f e rest : List UInt8} (hd : Digits ds) (hf : Fraction f)
    (he : Exponent e) (hrest : Follows rest) :
    readNumber (ds ++ f ++ e ++ rest) = rest := by
  have hexp : ∀ c ∈ (e ++ rest).head?, isDigit c = false ∧ c ≠ 46 := fun c hc ↦
    Exponent.head he hrest hc
  rw [readNumber, List.append_assoc, List.append_assoc,
    skipDigits_append hd fun c hc ↦ Fraction.head hf (fun c hc ↦ (hexp c hc).1) hc,
    skipFraction_append hf hexp, skipExponent_append he hrest]

theorem tokenAfter_number {c : UInt8} (hc : c = 45 ∨ isDigit c = true) (rest : List UInt8) :
    isSpace c = false ∧ tokenAfter c rest = (.tokenNumber, readNumber rest) := by
  have hdigit : isDigit c = true ∨ c = 45 := hc.symm
  have hne (b : UInt8) (hb : ¬ (isDigit b = true ∨ b = 45)) : c ≠ b := fun heq ↦ hb (heq ▸ hdigit)
  constructor
  · simp only [isSpace, Bool.or_eq_false_iff, decide_eq_false_iff_not]
    exact ⟨⟨⟨hne 32 (by decide), hne 9 (by decide)⟩, hne 13 (by decide)⟩, hne 10 (by decide)⟩
  · rw [tokenAfter, if_neg (hne 123 (by decide)), if_neg (hne 125 (by decide)),
      if_neg (hne 91 (by decide)), if_neg (hne 93 (by decide)), if_neg (hne 34 (by decide)),
      if_neg (hne 47 (by decide)), if_pos hdigit]

theorem readToken_number {t rest : List UInt8} (ht : Number t) (hrest : Follows rest) :
    readToken (t ++ rest) = (⟨.tokenNumber, t⟩, rest) := by
  cases ht with
  | @mk c ds f e hc hd hf he =>
      rcases tokenAfter_number hc (ds ++ f ++ e ++ rest) with ⟨hspace, htoken⟩
      rw [readNumber_append hd hf he hrest] at htoken
      exact readToken_of hspace htoken

/-! ## Strings -/

theorem readString_plain {c : UInt8} (h34 : c ≠ 34) (h92 : c ≠ 92) (rest : List UInt8) :
    readString (c :: rest) = readString rest := by
  rw [readString.eq_def]
  simp only [h34, h92, if_false]

theorem readString_escape (c : UInt8) (rest : List UInt8) :
    readString (92 :: c :: rest) = readString rest := by
  rw [readString.eq_3, if_pos rfl]

theorem readString_quote (rest : List UInt8) : readString (34 :: rest) = (true, rest) := by
  rw [readString.eq_def]
  rfl

theorem readString_append {t : List UInt8} (ht : Quoted t) (rest : List UInt8) :
    readString (t ++ 34 :: rest) = (true, rest) := by
  induction ht with
  | nil => exact readString_quote rest
  | plain h34 h92 _ ih => rw [List.cons_append, readString_plain h34 h92, ih]
  | escape _ ih => rw [List.cons_append, List.cons_append, readString_escape, ih]

theorem readToken_string {t : List UInt8} (ht : Quoted t) (rest : List UInt8) :
    readToken (34 :: (t ++ 34 :: rest)) = (⟨.tokenString, 34 :: (t ++ [34])⟩, rest) := by
  have htoken : tokenAfter 34 ((t ++ [34]) ++ rest) = (.tokenString, rest) := by
    change unlessError .tokenString (readString _) = _
    rw [List.append_assoc, List.singleton_append, readString_append ht]
    rfl
  have h := readToken_of rfl htoken
  rwa [List.append_assoc, List.singleton_append] at h

theorem decodeUnicodeEscapeSequence_append {ds : List UInt8} {u : Nat} (h : CodeUnit ds u)
    (rest : List UInt8) : decodeUnicodeEscapeSequence (ds ++ rest) = some (u, rest) := by
  rw [decodeUnicodeEscapeSequence, if_neg (by rw [List.length_append, h.1]; omega), ← h.1,
    List.take_left, List.drop_left, h.2]
  rfl

theorem pair_eq (high low : Nat) :
    0x10000 + ((high &&& 0x3FF) <<< 10) + (low &&& 0x3FF) = pair high low := by
  rw [pair, Nat.shiftLeft_eq, show 0x3FF = 2 ^ 10 - 1 from rfl, Nat.and_two_pow_sub_one_eq_mod,
    Nat.and_two_pow_sub_one_eq_mod]

theorem decodeUnicodeCodePoint_unit {ds : List UInt8} {u : Nat} (h : CodeUnit ds u)
    (hu : isHigh u = false) (rest : List UInt8) :
    decodeUnicodeCodePoint (ds ++ rest) = some (u, rest) := by
  simp only [decodeUnicodeCodePoint, decodeUnicodeEscapeSequence_append h]
  exact if_neg fun hh ↦ by rw [isHigh_iff.mpr hh] at hu; cases hu

theorem decodeUnicodeCodePoint_pair {ds es : List UInt8} {u v : Nat} (h : CodeUnit ds u)
    (hu : isHigh u = true) (h' : CodeUnit es v) (rest : List UInt8) :
    decodeUnicodeCodePoint (ds ++ 92 :: 117 :: (es ++ rest)) = some (pair u v, rest) := by
  have hlen : ¬ (92 :: 117 :: (es ++ rest)).length < 6 := by
    rw [List.length_cons, List.length_cons, List.length_append, h'.1]
    omega
  have hprefix : [92, 117] <+: 92 :: 117 :: (es ++ rest) := ⟨es ++ rest, rfl⟩
  simp only [decodeUnicodeCodePoint, decodeUnicodeEscapeSequence_append h, isHigh_iff.mp hu,
    and_self, if_true, if_neg hlen, if_pos hprefix, List.drop_succ_cons, List.drop_zero,
    decodeUnicodeEscapeSequence_append h', pair_eq]

theorem decodeChars_plain {c : UInt8} (h34 : c ≠ 34) (h92 : c ≠ 92) (rest : List UInt8) :
    decodeChars (c :: rest) = (decodeChars rest).map (c :: ·) := by
  rw [decodeChars.eq_def]
  simp only [h34, h92, if_false]

theorem decodeChars_escape {c b : UInt8} (hc : escaped c = some b) (rest : List UInt8) :
    decodeChars (92 :: c :: rest) = (decodeChars rest).map (b :: ·) := by
  rw [decodeChars.eq_3, if_neg (by decide), if_pos rfl, hc]

theorem decodeChars_unicode {rest after : List UInt8} {unicode : Nat}
    (h : decodeUnicodeCodePoint rest = some (unicode, after)) :
    decodeChars (92 :: 117 :: rest) = (decodeChars after).map (codePointToUTF8 unicode ++ ·) := by
  rw [decodeChars.eq_3, if_neg (by decide), if_pos rfl, show escaped 117 = none from rfl]
  simp only [if_true]
  split
  · rename_i hnone
    rw [h] at hnone
    cases hnone
  · rename_i hsome
    rw [h] at hsome
    cases hsome
    rfl

/-- The reader's strings are those of the grammar. -/
theorem decodeChars_of_chars {t s : List UInt8} (h : Chars codePointToUTF8 t s) :
    decodeChars t = some s := by
  induction h with
  | nil => rw [decodeChars]
  | plain h34 h92 _ ih => rw [decodeChars_plain h34 h92, ih, Option.map_some]
  | escape hc _ ih => rw [decodeChars_escape hc, ih, Option.map_some]
  | unit hu hhigh _ ih =>
      rw [decodeChars_unicode (decodeUnicodeCodePoint_unit hu hhigh _), ih, Option.map_some]
  | pair hu hhigh hv _ ih =>
      rw [decodeChars_unicode (decodeUnicodeCodePoint_pair hu hhigh hv _), ih, Option.map_some]

theorem decodeString_of_chars {t s : List UInt8} (h : Chars codePointToUTF8 t s) :
    decodeString (34 :: (t ++ [34])) = some s := by
  rw [decodeString, List.tail_cons, List.dropLast_concat, decodeChars_of_chars h]

end Tob.Reader
