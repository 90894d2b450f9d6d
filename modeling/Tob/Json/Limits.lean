import Tob.Json.Sound

/-!
# The limits of the reader

Reading always ends.  The only exception is the one of the stack limit, and the byte behind the
document is looked at only where an array is opened at its end.
-/

namespace Tob.Reader

open JsonText

/-! ## Reading goes forward -/

theorem skipCommentTokens_suffix (doc : List UInt8) : (skipCommentTokens doc).2 <:+ doc := by
  fun_induction skipCommentTokens doc with
  | case1 doc _ ih => exact ih.trans (readToken_suffix doc)
  | case2 doc => exact readToken_suffix doc

theorem skipCommentTokens_length_lt {doc : List UInt8}
    (h : (skipCommentTokens doc).1.type ≠ .tokenEndOfStream) :
    (skipCommentTokens doc).2.length < doc.length := by
  fun_induction skipCommentTokens doc with
  | case1 doc _ ih => exact (ih h).trans_le (readToken_suffix doc).length_le
  | case2 doc => exact readToken_length_lt h

theorem recoverFromError_suffix (type : TokenType) (doc : List UInt8) :
    recoverFromError type doc <:+ doc := by
  fun_induction recoverFromError type doc with
  | case1 doc => exact readToken_suffix doc
  | case2 doc _ ih => exact ih.trans (readToken_suffix doc)

/-- A reader goes forward, and a value takes at least one byte. -/
def Forward (read : List UInt8 → Result) : Prop :=
  ∀ doc value rest, read doc = .ok (value, rest) →
    rest <:+ doc ∧ (value.isSome → rest.length < doc.length)

/-- The same of where reading ends in a given document. -/
def Ends (doc : List UInt8) (r : Result) : Prop :=
  ∀ value rest, r = .ok (value, rest) → rest <:+ doc

theorem ends_failed {type : TokenType} {doc rest : List UInt8} (h : rest <:+ doc) :
    Ends doc (failed type rest) := by
  intro value rest' heq
  rcases Prod.mk.inj (Except.ok.inj heq) with ⟨-, rfl⟩
  exact (recoverFromError_suffix type rest).trans h

theorem ends_ok {value : Option Value} {doc rest : List UInt8} (h : rest <:+ doc) :
    Ends doc (.ok (value, rest)) := by
  intro value' rest' heq
  rcases Prod.mk.inj (Except.ok.inj heq) with ⟨-, rfl⟩
  exact h

theorem ends_error {what : String} {doc : List UInt8} : Ends doc (.error what) := by
  intro value rest heq
  cases heq

theorem Ends.mono {doc mid : List UInt8} {r : Result} (h : Ends mid r) (hmid : mid <:+ doc) :
    Ends doc r := fun value rest heq ↦ (h value rest heq).trans hmid

section Loops

variable {read : List UInt8 → Result}

theorem readElements_ends (hread : Forward read) (turns : Nat) (items : List Value)
    (doc : List UInt8) : Ends doc (readElements read turns items doc) := by
  induction turns generalizing items doc with
  | zero => exact ends_error
  | succ turns ih =>
      rw [readElements]
      split
      · exact ends_error
      · rename_i rest heq
        exact ends_failed (hread _ _ _ heq).1
      · rename_i value rest heq
        have hrest : (skipCommentTokens rest).2 <:+ doc :=
          (skipCommentTokens_suffix rest).trans (hread _ _ _ heq).1
        simp only []
        split
        · exact ends_ok hrest
        · split
          · exact (ih _ _).mono hrest
          · exact ends_failed hrest

theorem readComma_suffix (doc : List UInt8) : (readComma doc).2 <:+ doc := by
  have htoken := readToken_suffix doc
  simp only [readComma]
  refine ite_suffix htoken (ite_suffix htoken (ite_suffix ?_ htoken))
  exact (skipCommentTokens_suffix _).trans htoken

theorem readMembers_ends (hread : Forward read) (turns : Nat) (name : List UInt8)
    (members : List (List UInt8 × Value)) (doc : List UInt8) :
    Ends doc (readMembers read turns name members doc) := by
  induction turns generalizing name members doc with
  | zero => exact ends_error
  | succ turns ih =>
      have hname := skipCommentTokens_suffix doc
      have hcolon := (readToken_suffix (skipCommentTokens doc).2).trans hname
      simp only [readMembers]
      split
      · exact ends_ok hname
      · split
        · split
          · exact ends_failed hname
          · split
            · split
              · exact ends_error
              · rename_i rest heq
                exact ends_failed ((hread _ _ _ heq).1.trans hcolon)
              · rename_i value rest heq
                have hcomma := (readComma_suffix rest).trans ((hread _ _ _ heq).1.trans hcolon)
                split
                · rename_i after hr
                  rw [hr] at hcomma
                  exact ends_failed hcomma
                · rename_i after hr
                  rw [hr] at hcomma
                  exact ends_ok hcomma
                · rename_i after hr
                  rw [hr] at hcomma
                  exact (ih _ _ _).mono hcomma
            · exact ends_failed hcolon
        · exact ends_failed hname

end Loops

section Values

variable {reader : Reader}

theorem readArray_ends {read : List UInt8 → Result} (hread : Forward read) (doc : List UInt8) :
    Ends doc (readArray reader read doc) := by
  unfold readArray
  split
  · exact ends_ok ((readToken_suffix _).trans (skipSpaces_suffix doc))
  · exact (readElements_ends hread _ _ _).mono (skipSpaces_suffix doc)

theorem valueAfter_ends {read : List UInt8 → Result} (hread : Forward read) (token : Token)
    (doc : List UInt8) : Ends doc (valueAfter reader read token doc) := by
  unfold valueAfter
  split
  · exact readMembers_ends hread _ _ _ doc
  · exact readArray_ends hread doc
  all_goals exact ends_ok List.suffix_rfl

theorem readValue_forward (depth : Nat) : Forward (readValue reader depth) := by
  induction depth with
  | zero =>
      intro doc value rest h
      cases h
  | succ depth ih =>
      intro doc value rest h
      simp only [readValue] at h
      have hrest := valueAfter_ends ih _ _ value rest h
      refine ⟨hrest.trans (skipCommentTokens_suffix doc), fun hsome ↦ ?_⟩
      refine hrest.length_le.trans_lt (skipCommentTokens_length_lt fun hend ↦ ?_)
      rw [valueAfter, hend] at h
      rcases Prod.mk.inj (Except.ok.inj h) with ⟨rfl, -⟩
      cases hsome

end Values

/-! ## Exceptions -/

section Exceptions

variable {read : List UInt8 → Result} {what : String}

/-- The loop of `readArray` throws only what reading an element throws: every turn takes a byte, so
it ends with the document. -/
theorem readElements_error (hread : Forward read) {turns : Nat} {items : List Value}
    {doc : List UInt8} (hturns : doc.length < turns)
    (h : readElements read turns items doc = .error what) :
    ∃ mid, mid <:+ doc ∧ read mid = .error what := by
  induction turns generalizing items doc with
  | zero => exact absurd hturns (Nat.not_lt_zero _)
  | succ turns ih =>
      rw [readElements] at h
      split at h
      · rename_i heq
        cases h
        exact ⟨doc, List.suffix_rfl, heq⟩
      · cases h
      · rename_i value rest heq
        have hlt := (hread _ _ _ heq).2 rfl
        simp only [] at h
        split at h
        · cases h
        · split at h
          · have htoken := skipCommentTokens_suffix rest
            have hle := htoken.length_le
            rcases ih (by omega) h with ⟨mid, hmid, herror⟩
            exact ⟨mid, hmid.trans (htoken.trans (hread _ _ _ heq).1), herror⟩
          · cases h

theorem readMembers_error (hread : Forward read) {turns : Nat} {name : List UInt8}
    {members : List (List UInt8 × Value)} {doc : List UInt8} (hturns : doc.length < turns)
    (h : readMembers read turns name members doc = .error what) :
    ∃ mid, mid <:+ doc ∧ read mid = .error what := by
  induction turns generalizing name members doc with
  | zero => exact absurd hturns (Nat.not_lt_zero _)
  | succ turns ih =>
      have hcolon := (readToken_suffix (skipCommentTokens doc).2).trans
        (skipCommentTokens_suffix doc)
      simp only [readMembers] at h
      split at h
      · cases h
      · split at h
        · split at h
          · cases h
          · split at h
            · split at h
              · rename_i heq
                cases h
                exact ⟨_, hcolon, heq⟩
              · cases h
              · rename_i value rest heq
                have hlt := (hread _ _ _ heq).2 rfl
                have hle := hcolon.length_le
                have hcomma := readComma_suffix rest
                split at h
                · cases h
                · cases h
                · rename_i after hr
                  rw [hr] at hcomma
                  have hafter := hcomma.length_le
                  rcases ih (by simp only [] at hafter; omega) h with ⟨mid, hmid, herror⟩
                  exact ⟨mid, hmid.trans (hcomma.trans ((hread _ _ _ heq).1.trans hcolon)), herror⟩
            · cases h
        · cases h

/-- The brackets and braces that open a value. -/
def openers (doc : List UInt8) : Nat := doc.countP fun c ↦ c = 91 || c = 123

theorem openers_suffix {mid doc : List UInt8} (h : mid <:+ doc) : openers mid ≤ openers doc :=
  h.sublist.countP_le

def stackLimitExceeded : String := "Exceeded stackLimit in readValue()."

variable {reader : Reader}

theorem readValue_error {depth : Nat} {doc : List UInt8}
    (h : readValue reader depth doc = .error what) :
    what = stackLimitExceeded ∧ depth ≤ openers doc := by
  induction depth generalizing doc with
  | zero =>
      cases h
      exact ⟨rfl, Nat.zero_le _⟩
  | succ depth ih =>
      simp only [readValue] at h
      -- the exception comes from a position behind an opening bracket
      have hopen (c : UInt8) (hc : c = 91 ∨ c = 123) (g : List UInt8)
          (heq : doc = g ++ ([c] ++ (skipCommentTokens doc).2)) (mid : List UInt8)
          (hmid : mid <:+ (skipCommentTokens doc).2)
          (herror : readValue reader depth mid = .error what) :
          what = stackLimitExceeded ∧ depth + 1 ≤ openers doc := by
        rcases ih herror with ⟨hwhat, hle⟩
        have hmono := openers_suffix hmid
        have hcount : openers doc = openers g + (1 + openers (skipCommentTokens doc).2) := by
          conv_lhs => rw [heq]
          rw [openers, List.countP_append, List.countP_append]
          rcases hc with rfl | rfl <;> rfl
        exact ⟨hwhat, by omega⟩
      unfold valueAfter at h
      split at h
      · rename_i htype
        rcases skipCommentTokens_of_type htype (by decide) with ⟨g, -, heq, htext⟩
        rw [htext] at heq
        rcases readMembers_error (readValue_forward depth) (Nat.lt_succ_self _) h with
          ⟨mid, hmid, herror⟩
        exact hopen 123 (.inr rfl) g heq mid hmid herror
      · rename_i htype
        rcases skipCommentTokens_of_type htype (by decide) with ⟨g, -, heq, htext⟩
        rw [htext] at heq
        unfold readArray at h
        split at h
        · cases h
        · have hle := (skipSpaces_suffix (skipCommentTokens doc).2).length_le
          rcases readElements_error (readValue_forward depth) (by omega) h with
            ⟨mid, hmid, herror⟩
          exact hopen 91 (.inl rfl) g heq mid (hmid.trans (skipSpaces_suffix _)) herror
      all_goals cases h

/-- With as many opening brackets in a row as there are levels the reader throws, unless the last
one is closed at once. -/
theorem readValue_nested (depth : Nat) {rest : List UInt8}
    (hrest : (skipSpaces rest).headD reader.beyond ≠ 93) :
    readValue reader depth (List.replicate depth 91 ++ rest) = .error stackLimitExceeded := by
  induction depth with
  | zero => rfl
  | succ depth ih =>
      rw [List.replicate_succ, List.cons_append,
        readValue_token (readToken_arrayBegin _) (by decide)]
      change readArray reader (readValue reader depth) (List.replicate depth 91 ++ rest) = _
      have hopen : (skipSpaces (List.replicate depth 91 ++ rest)).headD reader.beyond ≠ 93 := by
        cases depth with
        | zero => exact hrest
        | succ depth =>
            rw [List.replicate_succ, List.cons_append, skipSpaces_of_not rfl]
            change (91 : UInt8) ≠ 93
            decide
      rw [readArray, if_neg hopen, readElements, readValue_skipSpaces, ih]

end Exceptions

/-! ## The byte behind the document -/

/-- The document ends with an opening bracket and spaces. -/
def EndsOpen (doc : List UInt8) : Prop := ∃ front g, doc = front ++ 91 :: g ∧ Spaces g

/-- The document is one opening bracket, with a gap in front of it and spaces behind it. -/
def OnlyOpen (doc : List UInt8) : Prop := ∃ g k, Gap g ∧ Spaces k ∧ doc = g ++ 91 :: k

theorem EndsOpen.of_suffix {mid doc : List UInt8} (h : EndsOpen mid) (hmid : mid <:+ doc) :
    EndsOpen doc := by
  rcases h with ⟨front, g, rfl, hg⟩
  rcases hmid with ⟨t, rfl⟩
  exact ⟨t ++ front, g, (List.append_assoc _ _ _).symm, hg⟩

theorem OnlyOpen.endsOpen {doc : List UInt8} (h : OnlyOpen doc) : EndsOpen doc := by
  obtain ⟨g, k, -, hk, heq⟩ := h
  exact ⟨g, k, heq, hk⟩

/-- The results with a closing bracket behind the document and with another byte there, where what
is read is part of an array or an object: reading fails either way, if it does not throw. -/
def AlikeInside (doc : List UInt8) (closed other : Result) : Prop :=
  closed = other ∨ EndsOpen doc ∧ closed = .ok (none, []) ∧ ∃ what, other = .error what

/-- The same for a value that may itself be the array at the end of the document. -/
def AlikeAt (doc : List UInt8) (closed other : Result) : Prop :=
  AlikeInside doc closed other ∨ OnlyOpen doc ∧ closed = .ok (some (.array []), []) ∧
    (other = .ok (none, []) ∨ ∃ what, other = .error what)

theorem AlikeInside.of_suffix {mid doc : List UInt8} {closed other : Result}
    (h : AlikeInside mid closed other) (hmid : mid <:+ doc) : AlikeInside doc closed other :=
  h.imp_right fun hthrows ↦ ⟨hthrows.1.of_suffix hmid, hthrows.2⟩

theorem skipCommentTokens_nil : skipCommentTokens [] = (⟨.tokenEndOfStream, []⟩, []) :=
  skipCommentTokens_of_ne (by decide)

theorem recoverFromError_nil (type : TokenType) : recoverFromError type [] = [] :=
  List.suffix_nil.mp (recoverFromError_suffix type [])

theorem failed_nil (type : TokenType) : failed type [] = .ok (none, []) := by
  rw [failed, recoverFromError_nil]

section Beyond

variable {read read' : List UInt8 → Result}

/-- An element that the byte behind the document closes is not followed by anything. -/
theorem readElements_alike (hread : Forward read) {doc : List UInt8}
    (h : ∀ mid, mid <:+ doc → AlikeAt mid (read mid) (read' mid)) (turns : Nat)
    (items : List Value) :
    AlikeInside doc (readElements read turns items doc) (readElements read' turns items doc) := by
  induction turns generalizing items doc with
  | zero => exact .inl rfl
  | succ turns ih =>
      rcases h doc List.suffix_rfl with (hsame | ⟨hopen, hnone, what, hthrows⟩) |
        ⟨hopen, hclosed, hother⟩
      · rw [readElements, readElements, ← hsame]
        split
        · exact .inl rfl
        · exact .inl rfl
        · rename_i value rest heq
          have hrest : (skipCommentTokens rest).2 <:+ doc :=
            (skipCommentTokens_suffix rest).trans (hread _ _ _ heq).1
          have hmore := (ih (fun mid hmid ↦ h mid (hmid.trans hrest)) (items ++ [value])).of_suffix
            hrest
          by_cases hend : (skipCommentTokens rest).1.type = .tokenArrayEnd
          · simp only [hend, if_true]
            exact .inl rfl
          · by_cases hcomma : (skipCommentTokens rest).1.type = .tokenArraySeparator
            · simp only [hcomma, if_true]
              exact hmore
            · simp only [hend, hcomma, if_false]
              exact .inl rfl
      · refine .inr ⟨hopen, ?_, what, by rw [readElements, hthrows]⟩
        rw [readElements, hnone]
        exact failed_nil _
      · have hread : readElements read (turns + 1) items doc = .ok (none, []) := by
          rw [readElements, hclosed]
          simp only [skipCommentTokens_nil]
          exact failed_nil _
        rcases hother with hnone | ⟨what, hthrows⟩
        · left
          rw [hread, readElements, hnone]
          exact (failed_nil _).symm
        · exact .inr ⟨hopen.endsOpen, hread, what, by rw [readElements, hthrows]⟩

theorem readComma_nil : readComma [] = (none, []) := rfl

theorem readMembers_alike (hread : Forward read) {doc : List UInt8}
    (h : ∀ mid, mid <:+ doc → AlikeAt mid (read mid) (read' mid)) (turns : Nat)
    (name : List UInt8) (members : List (List UInt8 × Value)) :
    AlikeInside doc (readMembers read turns name members doc)
      (readMembers read' turns name members doc) := by
  induction turns generalizing name members doc with
  | zero => exact .inl rfl
  | succ turns ih =>
      have hcolon := (readToken_suffix (skipCommentTokens doc).2).trans
        (skipCommentTokens_suffix doc)
      have hvalue := h _ hcolon
      simp only [readMembers]
      by_cases hend : (skipCommentTokens doc).1.type = .tokenObjectEnd ∧ name = []
      · rw [if_pos hend, if_pos hend]
        exact .inl rfl
      rw [if_neg hend, if_neg hend]
      by_cases hstring : (skipCommentTokens doc).1.type = .tokenString
      swap
      · rw [if_neg hstring, if_neg hstring]
        exact .inl rfl
      rw [if_pos hstring, if_pos hstring]
      cases decodeString (skipCommentTokens doc).1.text with
      | none => exact .inl rfl
      | some name' =>
          by_cases hsep : (readToken (skipCommentTokens doc).2).1.type = .tokenMemberSeparator
          swap
          · simp only [hsep, if_false]
            exact .inl rfl
          simp only [hsep, if_true]
          rcases hvalue with (hsame | ⟨hopen, hnone, what, hthrows⟩) | ⟨hopen, hclosed, hother⟩
          · rw [← hsame]
            split
            · exact .inl rfl
            · exact .inl rfl
            · rename_i value rest heq
              have hafter : (readComma rest).2 <:+ doc :=
                (readComma_suffix rest).trans ((hread _ _ _ heq).1.trans hcolon)
              split
              · exact .inl rfl
              · exact .inl rfl
              · rename_i after hcomma
                rw [hcomma] at hafter
                exact (ih (fun mid hmid ↦ h mid (hmid.trans hafter)) _ _).of_suffix hafter
          · rw [hnone, hthrows]
            exact .inr ⟨hopen.of_suffix hcolon, failed_nil _, what, rfl⟩
          · rw [hclosed]
            simp only [readComma_nil, failed_nil]
            rcases hother with hnone | ⟨what, hthrows⟩
            · rw [hnone]
              exact .inl (failed_nil _).symm
            · rw [hthrows]
              exact .inr ⟨hopen.endsOpen.of_suffix hcolon, rfl, what, rfl⟩

/-- Only whether the byte behind the document is a closing bracket matters. -/
theorem readValue_congr {reader reader' : Reader} (hdouble : reader.double = reader'.double)
    (hbeyond : reader.beyond = 93 ↔ reader'.beyond = 93) (depth : Nat) :
    readValue reader depth = readValue reader' depth := by
  induction depth with
  | zero => rfl
  | succ depth ih =>
      funext doc
      have hhead (doc : List UInt8) : doc.headD reader.beyond = 93 ↔
          doc.headD reader'.beyond = 93 := by
        cases doc with
        | nil => exact hbeyond
        | cons c rest => rfl
      simp only [readValue, ih]
      unfold valueAfter
      split
      · rfl
      · simp only [readArray, hhead]
      · simp only [decodeNumber, decodeDouble, hdouble]
      all_goals rfl

/-- What a closing bracket behind the document changes. -/
theorem readValue_alike {reader reader' : Reader} (hdouble : reader.double = reader'.double)
    (hclosed : reader.beyond = 93) (hother : reader'.beyond ≠ 93) (depth : Nat)
    (doc : List UInt8) :
    AlikeAt doc (readValue reader depth doc) (readValue reader' depth doc) := by
  induction depth generalizing doc with
  | zero => exact .inl (.inl rfl)
  | succ depth ih =>
      have hsuffix := skipCommentTokens_suffix doc
      have hforward : Forward (readValue reader depth) := readValue_forward depth
      simp only [readValue]
      unfold valueAfter
      split
      · exact .inl ((readMembers_alike hforward (fun mid _ ↦ ih mid) _ _ _).of_suffix hsuffix)
      · rename_i htype
        obtain ⟨g, hg, heq, htext⟩ := skipCommentTokens_of_type htype (by decide)
        rw [htext] at heq
        unfold readArray
        cases hs : skipSpaces (skipCommentTokens doc).2 with
        | cons c rest =>
            -- the byte behind the spaces is one of the document
            have helements := readElements_alike hforward (fun mid (_ : mid <:+ c :: rest) ↦ ih mid)
              ((skipCommentTokens doc).2.length + 1) []
            have hsmaller := skipSpaces_suffix (skipCommentTokens doc).2
            rw [hs] at hsmaller
            left
            show AlikeInside doc (if c = 93 then _ else _) (if c = 93 then _ else _)
            by_cases hc : c = 93
            · rw [if_pos hc, if_pos hc]
              exact .inl rfl
            · rw [if_neg hc, if_neg hc]
              exact helements.of_suffix (hsmaller.trans hsuffix)
        | nil =>
            have hspaces : Spaces (skipCommentTokens doc).2 :=
              fun c hc ↦ List.dropWhile_eq_nil_iff.mp hs c hc
            refine .inr ⟨⟨g, (skipCommentTokens doc).2, hg, hspaces, heq⟩, ?_, ?_⟩
            · show (if reader.beyond = 93 then _ else _) = _
              rw [if_pos hclosed]
              rfl
            · show (if reader'.beyond = 93 then _ else _) = _ ∨ ∃ what,
                (if reader'.beyond = 93 then _ else _) = _
              rw [if_neg hother, readElements]
              cases depth with
              | zero => exact .inr ⟨_, rfl⟩
              | succ depth =>
                  left
                  rw [readValue, skipCommentTokens_nil]
                  exact failed_nil _
      · rename_i htype
        simp only [decodeNumber, decodeDouble, hdouble]
        exact .inl (.inl rfl)
      all_goals exact .inl (.inl rfl)

/-- Readers that differ in the byte behind the document only read it alike, unless it ends with an
opening bracket. -/
theorem readValue_agree {reader reader' : Reader} (hdouble : reader.double = reader'.double)
    {doc : List UInt8} (hopen : ¬ EndsOpen doc) (depth : Nat) :
    readValue reader depth doc = readValue reader' depth doc := by
  have halike {r r' : Result} (h : AlikeAt doc r r') : r = r' := by
    rcases h with (hsame | hthrows) | honly
    · exact hsame
    · exact absurd hthrows.1 hopen
    · exact absurd honly.1.endsOpen hopen
  by_cases hclosed : reader.beyond = 93
  · by_cases hclosed' : reader'.beyond = 93
    · rw [readValue_congr hdouble (iff_of_true hclosed hclosed')]
    · exact halike (readValue_alike hdouble hclosed hclosed' depth doc)
  · by_cases hclosed' : reader'.beyond = 93
    · exact (halike (readValue_alike hdouble.symm hclosed' hclosed depth doc)).symm
    · rw [readValue_congr hdouble (iff_of_false hclosed hclosed')]

/-- The last of as many brackets as there are levels is closed by the byte behind the document. -/
theorem readValue_spared {reader : Reader} (hclosed : reader.beyond = 93) {k : List UInt8}
    (hk : Spaces k) (depth : Nat) :
    readValue reader (depth + 1) (List.replicate (depth + 1) 91 ++ k) =
      .ok (if depth = 0 then some (.array []) else none, []) := by
  have hnil : skipSpaces k = [] := List.dropWhile_eq_nil_iff.mpr hk
  induction depth with
  | zero =>
      show readValue reader 1 (91 :: k) = _
      rw [readValue_token (readToken_arrayBegin _) (by decide)]
      show readArray reader _ k = _
      rw [readArray, hnil]
      show (if reader.beyond = 93 then _ else _) = _
      rw [if_pos hclosed]
      rfl
  | succ depth ih =>
      rw [List.replicate_succ, List.cons_append,
        readValue_token (readToken_arrayBegin _) (by decide)]
      have hopen : (skipSpaces (List.replicate (depth + 1) 91 ++ k)).headD reader.beyond ≠ 93 := by
        rw [List.replicate_succ, List.cons_append, skipSpaces_of_not rfl]
        show (91 : UInt8) ≠ 93
        decide
      show readArray reader (readValue reader (depth + 1)) (List.replicate (depth + 1) 91 ++ k) = _
      rw [readArray, if_neg hopen, readElements, readValue_skipSpaces, ih]
      -- whether the element is the empty array or has failed, nothing follows it
      by_cases hlast : depth = 0
      · simp only [hlast, if_true, skipCommentTokens_nil]
        exact failed_nil _
      · simp only [hlast, if_false]
        exact failed_nil _

end Beyond

end Tob.Reader
