import Tob.Json.Value

/-!
# The JSON reader

`Json::Reader` with its default features: comments may stand between tokens, the root may be any
value.  A position in the document is what is left of it.  The reader keeps messages for its
errors, which nobody asks for; they are left out.
-/

namespace Tob

open JsonText (isSpace isDigit escaped hexDigit)

/-- What the reader takes from outside. -/
structure Reader where
  /-- `is >> value` on the text of a number, and what `asString` then gives for the double. -/
  double : List UInt8 → Option (List UInt8)
  /-- The byte behind the document. -/
  beyond : UInt8

inductive TokenType where
  | tokenEndOfStream
  | tokenObjectBegin
  | tokenObjectEnd
  | tokenArrayBegin
  | tokenArrayEnd
  | tokenString
  | tokenNumber
  | tokenTrue
  | tokenFalse
  | tokenNull
  | tokenArraySeparator
  | tokenMemberSeparator
  | tokenComment
  | tokenError
  deriving DecidableEq

/-- A token with its text from `start_` to `end_`. -/
structure Token where
  type : TokenType
  text : List UInt8

namespace Reader

/-! ## Characters -/

def getNextChar : List UInt8 → UInt8 × List UInt8
  | [] => (0, [])
  | c :: rest => (c, rest)

def skipSpaces (doc : List UInt8) : List UInt8 := doc.dropWhile isSpace

/-- `match`: behind the pattern, if it is there. -/
def matchPattern (pattern doc : List UInt8) : Option (List UInt8) :=
  if pattern <+: doc then some (doc.drop pattern.length) else none

def readCStyleComment : List UInt8 → Bool × List UInt8
  | [] => (false, [])
  | c :: rest =>
      if c = 42 ∧ rest.head? = some 47 then (true, rest.tail) else readCStyleComment rest

/-- `readCStyleComment` with the byte behind the document, which it compares with a slash where a
star is the last byte: the slash is then taken with `getNextChar`. -/
def readCStyleCommentBehind (beyond : UInt8) : List UInt8 → Bool × List UInt8
  | [] => (false, [])
  | c :: rest =>
      if c = 42 ∧ rest.headD beyond = 47 then ((getNextChar rest).1 = 47, (getNextChar rest).2)
      else readCStyleCommentBehind beyond rest

/-- That byte changes nothing, since `getNextChar` finds none at the end. -/
theorem readCStyleCommentBehind_eq (beyond : UInt8) (doc : List UInt8) :
    readCStyleCommentBehind beyond doc = readCStyleComment doc := by
  induction doc with
  | nil => rfl
  | cons c rest ih =>
      rw [readCStyleCommentBehind, readCStyleComment]
      cases rest with
      | nil =>
          have hend : ¬ (c = 42 ∧ ([] : List UInt8).head? = some 47) := fun h ↦ by cases h.2
          rw [if_neg hend]
          by_cases hstar : c = 42 ∧ ([] : List UInt8).headD beyond = 47
          · rw [if_pos hstar]
            rfl
          · rw [if_neg hstar]
            rfl
      | cons d rest =>
          -- the byte behind the star is one of the document
          rw [ih]
          refine ite_congr (by simp) (fun hstar ↦ ?_) fun _ ↦ rfl
          have hd : d = 47 := by simpa using hstar.2
          rw [hd]
          rfl

def readCppStyleComment : List UInt8 → List UInt8
  | [] => []
  | c :: rest =>
      if c = 10 then rest
      else if c = 13 then if rest.head? = some 10 then rest.tail else rest
      else readCppStyleComment rest

def readComment (doc : List UInt8) : Bool × List UInt8 :=
  let (c, rest) := getNextChar doc
  if c = 42 then readCStyleComment rest
  else if c = 47 then (true, readCppStyleComment rest)
  else (false, rest)

def skipDigits (doc : List UInt8) : List UInt8 := doc.dropWhile isDigit

/-- Behind the fractional part. -/
def skipFraction : List UInt8 → List UInt8
  | [] => []
  | c :: rest => if c = 46 then skipDigits rest else c :: rest

def skipSign : List UInt8 → List UInt8
  | [] => []
  | c :: rest => if c = 43 ∨ c = 45 then rest else c :: rest

/-- Behind the exponential part. -/
def skipExponent : List UInt8 → List UInt8
  | [] => []
  | c :: rest => if c = 101 ∨ c = 69 then skipDigits (skipSign rest) else c :: rest

def readNumber (doc : List UInt8) : List UInt8 := skipExponent (skipFraction (skipDigits doc))

def readString : List UInt8 → Bool × List UInt8
  | [] => (false, [])
  | c :: rest =>
      if c = 92 then
        match rest with
        | [] => (false, [])
        | _ :: rest => readString rest
      else if c = 34 then (true, rest)
      else readString rest

/-! ## Tokens -/

/-- A literal is an error unless the rest of it follows. -/
def literal (type : TokenType) (pattern rest : List UInt8) : TokenType × List UInt8 :=
  match matchPattern pattern rest with
  | some rest => (type, rest)
  | none => (.tokenError, rest)

/-- A string or a comment is an error if it does not end. -/
def unlessError (type : TokenType) (read : Bool × List UInt8) : TokenType × List UInt8 :=
  (if read.1 then type else .tokenError, read.2)

/-- The `switch` of `readToken` on the first byte of a token. -/
def tokenAfter (c : UInt8) (rest : List UInt8) : TokenType × List UInt8 :=
  if c = 123 then (.tokenObjectBegin, rest)
  else if c = 125 then (.tokenObjectEnd, rest)
  else if c = 91 then (.tokenArrayBegin, rest)
  else if c = 93 then (.tokenArrayEnd, rest)
  else if c = 34 then unlessError .tokenString (readString rest)
  else if c = 47 then unlessError .tokenComment (readComment rest)
  else if isDigit c ∨ c = 45 then (.tokenNumber, readNumber rest)
  else if c = 116 then literal .tokenTrue [114, 117, 101] rest
  else if c = 102 then literal .tokenFalse [97, 108, 115, 101] rest
  else if c = 110 then literal .tokenNull [117, 108, 108] rest
  else if c = 44 then (.tokenArraySeparator, rest)
  else if c = 58 then (.tokenMemberSeparator, rest)
  else if c = 0 then (.tokenEndOfStream, rest)
  else (.tokenError, rest)

/-- The bytes from one position to a later one. -/
def between (start stop : List UInt8) : List UInt8 := start.take (start.length - stop.length)

def readToken (doc : List UInt8) : Token × List UInt8 :=
  let start := skipSpaces doc
  let (c, rest) := getNextChar start
  let (type, rest) := tokenAfter c rest
  (⟨type, between start rest⟩, rest)

@[simp] theorem between_append (t rest : List UInt8) : between (t ++ rest) rest = t := by
  rw [between, List.length_append, Nat.add_sub_cancel, List.take_left]

theorem between_cons_append (c : UInt8) (t rest : List UInt8) :
    between (c :: (t ++ rest)) rest = c :: t := by
  rw [← List.cons_append, between_append]

/-! ### Reading goes forward -/

theorem ite_suffix {α : Type} {p : Prop} [Decidable p] {a b : α × List UInt8} {doc : List UInt8}
    (ha : a.2 <:+ doc) (hb : b.2 <:+ doc) : (if p then a else b).2 <:+ doc := by
  by_cases h : p
  · rwa [if_pos h]
  · rwa [if_neg h]

theorem skipDigits_suffix (doc : List UInt8) : skipDigits doc <:+ doc := List.dropWhile_suffix _

theorem skipFraction_suffix (doc : List UInt8) : skipFraction doc <:+ doc := by
  cases doc with
  | nil => exact List.suffix_rfl
  | cons c rest =>
      rw [skipFraction]
      split
      · exact (skipDigits_suffix rest).trans (List.suffix_cons c rest)
      · exact List.suffix_rfl

theorem skipSign_suffix (doc : List UInt8) : skipSign doc <:+ doc := by
  cases doc with
  | nil => exact List.suffix_rfl
  | cons c rest =>
      rw [skipSign]
      split
      · exact List.suffix_cons c rest
      · exact List.suffix_rfl

theorem skipExponent_suffix (doc : List UInt8) : skipExponent doc <:+ doc := by
  cases doc with
  | nil => exact List.suffix_rfl
  | cons c rest =>
      rw [skipExponent]
      split
      · exact ((skipDigits_suffix _).trans (skipSign_suffix rest)).trans (List.suffix_cons c rest)
      · exact List.suffix_rfl

theorem readNumber_suffix (doc : List UInt8) : readNumber doc <:+ doc :=
  ((skipExponent_suffix _).trans (skipFraction_suffix _)).trans (skipDigits_suffix doc)

theorem readCStyleComment_suffix (doc : List UInt8) : (readCStyleComment doc).2 <:+ doc := by
  induction doc with
  | nil => exact List.suffix_rfl
  | cons c rest ih =>
      rw [readCStyleComment]
      split
      · exact (List.tail_suffix rest).trans (List.suffix_cons c rest)
      · exact ih.trans (List.suffix_cons c rest)

theorem readCppStyleComment_suffix (doc : List UInt8) : readCppStyleComment doc <:+ doc := by
  induction doc with
  | nil => exact List.suffix_rfl
  | cons c rest ih =>
      rw [readCppStyleComment]
      split
      · exact List.suffix_cons c rest
      · split
        · split
          · exact (List.tail_suffix rest).trans (List.suffix_cons c rest)
          · exact List.suffix_cons c rest
        · exact ih.trans (List.suffix_cons c rest)

theorem readComment_suffix (doc : List UInt8) : (readComment doc).2 <:+ doc := by
  cases doc with
  | nil => exact List.suffix_rfl
  | cons c rest =>
      have hcons : rest <:+ c :: rest := List.suffix_cons c rest
      exact ite_suffix ((readCStyleComment_suffix rest).trans hcons)
        (ite_suffix ((readCppStyleComment_suffix rest).trans hcons) hcons)

theorem readString_suffix (doc : List UInt8) : (readString doc).2 <:+ doc := by
  fun_induction readString doc with
  | case1 => exact List.suffix_rfl
  | case2 => exact List.nil_suffix
  | case3 d rest ih =>
      exact (ih.trans (List.suffix_cons d rest)).trans (List.suffix_cons _ _)
  | case4 => exact List.suffix_cons _ _
  | case5 c rest _ _ ih => exact ih.trans (List.suffix_cons c rest)

theorem literal_suffix (type : TokenType) (pattern rest : List UInt8) :
    (literal type pattern rest).2 <:+ rest := by
  unfold literal matchPattern
  split
  · rename_i h
    split at h
    · exact (Option.some.inj h) ▸ List.drop_suffix _ _
    · cases h
  · exact List.suffix_rfl

theorem tokenAfter_suffix (c : UInt8) (rest : List UInt8) : (tokenAfter c rest).2 <:+ rest := by
  unfold tokenAfter
  repeat' apply ite_suffix
  all_goals first
    | exact List.suffix_rfl
    | exact readString_suffix rest
    | exact readComment_suffix rest
    | exact readNumber_suffix rest
    | exact literal_suffix _ _ _

theorem skipSpaces_suffix (doc : List UInt8) : skipSpaces doc <:+ doc := List.dropWhile_suffix _

theorem readToken_suffix (doc : List UInt8) : (readToken doc).2 <:+ doc := by
  unfold readToken
  cases hs : skipSpaces doc with
  | nil => exact List.nil_suffix
  | cons c rest =>
      have hstart := skipSpaces_suffix doc
      rw [hs] at hstart
      exact (tokenAfter_suffix c rest).trans ((List.suffix_cons c rest).trans hstart)

/-- A token takes at least one byte. -/
theorem readToken_length_lt {doc : List UInt8}
    (h : (readToken doc).1.type ≠ .tokenEndOfStream) :
    (readToken doc).2.length < doc.length := by
  unfold readToken at h ⊢
  cases hs : skipSpaces doc with
  | nil =>
      rw [hs] at h
      exact absurd rfl h
  | cons c rest =>
      have hstart := (skipSpaces_suffix doc).length_le
      have htoken := (tokenAfter_suffix c rest).length_le
      rw [hs, List.length_cons] at hstart
      exact Nat.lt_of_le_of_lt htoken hstart

/-- `skipCommentTokens`, and the loops that read past comments. -/
def skipCommentTokens (doc : List UInt8) : Token × List UInt8 :=
  if _h : (readToken doc).1.type = .tokenComment then skipCommentTokens (readToken doc).2
  else readToken doc
termination_by doc.length
decreasing_by exact readToken_length_lt (by rw [_h]; decide)

def recoverFromError (skipUntilToken : TokenType) (doc : List UInt8) : List UInt8 :=
  if _h : (readToken doc).1.type = skipUntilToken ∨ (readToken doc).1.type = .tokenEndOfStream then
    (readToken doc).2
  else recoverFromError skipUntilToken (readToken doc).2
termination_by doc.length
decreasing_by exact readToken_length_lt fun heq ↦ _h (.inr heq)

/-! ## Scalars -/

/-- The loop of `decodeNumber`, or `none` where it leaves the text to `decodeDouble`. -/
def decodeDigits (maxIntegerValue : Nat) : Nat → List UInt8 → Option Nat
  | value, [] => some value
  | value, c :: rest =>
      if c < 48 ∨ 57 < c then none
      else if maxIntegerValue / 10 ≤ value ∧ (maxIntegerValue / 10 < value ∨ rest ≠ [] ∨
          maxIntegerValue % 10 < c.toNat - 48) then none
      else decodeDigits maxIntegerValue (value * 10 + (c.toNat - 48)) rest

def decodeDouble (reader : Reader) (text : List UInt8) : Option Value :=
  (reader.double text).map .real

def decodeNumber (reader : Reader) (text : List UInt8) : Option Value :=
  if text.head? = some 45 then
    match decodeDigits (2 ^ 63) 0 text.tail with
    | some value => some (.integer (-value))
    | none => decodeDouble reader text
  else
    match decodeDigits (2 ^ 64 - 1) 0 text with
    | some value => some (.integer value)
    | none => decodeDouble reader text

def codePointToUTF8 (cp : Nat) : List UInt8 :=
  if cp ≤ 0x7f then [UInt8.ofNat cp]
  else if cp ≤ 0x7FF then
    [UInt8.ofNat (0xC0 ||| (0x1f &&& (cp >>> 6))), UInt8.ofNat (0x80 ||| (0x3f &&& cp))]
  else if cp ≤ 0xFFFF then
    [UInt8.ofNat (0xE0 ||| (0xf &&& (cp >>> 12))), UInt8.ofNat (0x80 ||| (0x3f &&& (cp >>> 6))),
      UInt8.ofNat (0x80 ||| (0x3f &&& cp))]
  else if cp ≤ 0x10FFFF then
    [UInt8.ofNat (0xF0 ||| (0x7 &&& (cp >>> 18))), UInt8.ofNat (0x80 ||| (0x3f &&& (cp >>> 12))),
      UInt8.ofNat (0x80 ||| (0x3f &&& (cp >>> 6))), UInt8.ofNat (0x80 ||| (0x3f &&& cp))]
  else []

def decodeUnicodeEscapeSequence (doc : List UInt8) : Option (Nat × List UInt8) :=
  if doc.length < 4 then none
  else
    ((doc.take 4).foldlM (fun unicode c ↦ (hexDigit c).map fun d ↦ unicode * 16 + d) 0).map
      fun unicode ↦ (unicode, doc.drop 4)

def decodeUnicodeCodePoint (doc : List UInt8) : Option (Nat × List UInt8) :=
  match decodeUnicodeEscapeSequence doc with
  | none => none
  | some (unicode, rest) =>
      if 0xD800 ≤ unicode ∧ unicode ≤ 0xDBFF then
        if rest.length < 6 then none
        else if [92, 117] <+: rest then
          match decodeUnicodeEscapeSequence (rest.drop 2) with
          | none => none
          | some (surrogatePair, rest) =>
              some (0x10000 + ((unicode &&& 0x3FF) <<< 10) + (surrogatePair &&& 0x3FF), rest)
        else none
      else some (unicode, rest)

theorem decodeUnicodeEscapeSequence_length {doc rest : List UInt8} {unicode : Nat}
    (h : decodeUnicodeEscapeSequence doc = some (unicode, rest)) :
    rest.length ≤ doc.length := by
  unfold decodeUnicodeEscapeSequence at h
  split at h
  · cases h
  · rcases Option.map_eq_some_iff.mp h with ⟨u, -, heq⟩
    cases heq
    exact (List.drop_suffix 4 doc).length_le

theorem decodeUnicodeCodePoint_length {doc rest : List UInt8} {unicode : Nat}
    (h : decodeUnicodeCodePoint doc = some (unicode, rest)) : rest.length ≤ doc.length := by
  unfold decodeUnicodeCodePoint at h
  split at h
  · cases h
  · rename_i u doc' hfirst
    have hle := decodeUnicodeEscapeSequence_length hfirst
    split at h
    · split at h
      · cases h
      · split at h
        · split at h
          · cases h
          · rename_i hsecond
            cases h
            have hle' := decodeUnicodeEscapeSequence_length hsecond
            rw [List.length_drop] at hle'
            omega
        · cases h
    · cases h
      exact hle

/-- The loop of `decodeString` from `current` to `end`. -/
def decodeChars (doc : List UInt8) : Option (List UInt8) :=
  match doc with
  | [] => some []
  | c :: rest =>
      if c = 34 then some []
      else if c = 92 then
        match rest with
        | [] => none
        | e :: rest =>
            match escaped e with
            | some b => (decodeChars rest).map (b :: ·)
            | none =>
                if e = 117 then
                  match _h : decodeUnicodeCodePoint rest with
                  | none => none
                  | some (unicode, after) =>
                      (decodeChars after).map (codePointToUTF8 unicode ++ ·)
                else none
      else (decodeChars rest).map (c :: ·)
termination_by doc.length
decreasing_by
  · simp only [List.length_cons]
    omega
  · have hle := decodeUnicodeCodePoint_length _h
    simp only [List.length_cons]
    omega
  · simp only [List.length_cons]
    omega

/-- The string between the quotation marks of a token. -/
def decodeString (text : List UInt8) : Option (List UInt8) := decodeChars text.tail.dropLast

/-! ## Values -/

/-- How reading ends: with an exception, or with the value, if there was no error, and where
reading goes on. -/
abbrev Result := Except String (Option Value × List UInt8)

/-- Where `recoverFromError` leaves the document. -/
def failed (skipUntilToken : TokenType) (doc : List UInt8) : Result :=
  .ok (none, recoverFromError skipUntilToken doc)

/-- The `for` loop of `readArray`, each turn with what is left of the document. -/
def readElements (read : List UInt8 → Result) : Nat → List Value → List UInt8 → Result
  | 0, _, _ => .error "readArray goes on behind the document"
  | turns + 1, items, doc =>
      match read doc with
      | .error what => .error what
      | .ok (none, rest) => failed .tokenArrayEnd rest
      | .ok (some value, rest) =>
          let (token, rest) := skipCommentTokens rest
          if token.type = .tokenArrayEnd then .ok (some (.array (items ++ [value])), rest)
          else if token.type = .tokenArraySeparator then
            readElements read turns (items ++ [value]) rest
          else failed .tokenArrayEnd rest

/-- `readArray`: an empty array is told by the byte behind the spaces, wherever that is. -/
def readArray (reader : Reader) (read : List UInt8 → Result) (doc : List UInt8) : Result :=
  if (skipSpaces doc).headD reader.beyond = 93 then
    .ok (some (.array []), (readToken (skipSpaces doc)).2)
  else readElements read (doc.length + 1) [] (skipSpaces doc)

/-- What `readObject` does behind a member: whether the object ends there, or `none` for an
error. -/
def readComma (doc : List UInt8) : Option Bool × List UInt8 :=
  let (comma, rest) := readToken doc
  if comma.type = .tokenObjectEnd then (some true, rest)
  else if comma.type = .tokenArraySeparator then (some false, rest)
  else if comma.type = .tokenComment then
    -- behind a comment any token but the end of the object goes for a comma
    let (comma, rest) := skipCommentTokens rest
    (some (decide (comma.type = .tokenObjectEnd)), rest)
  else (none, rest)

/-- The `while` loop of `readObject`, each turn with the name of the member before. -/
def readMembers (read : List UInt8 → Result) :
    Nat → List UInt8 → List (List UInt8 × Value) → List UInt8 → Result
  | 0, _, _, _ => .error "readObject goes on behind the document"
  | turns + 1, name, members, doc =>
      let (tokenName, rest) := skipCommentTokens doc
      if tokenName.type = .tokenObjectEnd ∧ name = [] then .ok (some (.object members), rest)
      else if tokenName.type = .tokenString then
        match decodeString tokenName.text with
        | none => failed .tokenObjectEnd rest
        | some name =>
            let (colon, rest) := readToken rest
            if colon.type = .tokenMemberSeparator then
              match read rest with
              | .error what => .error what
              | .ok (none, rest) => failed .tokenObjectEnd rest
              | .ok (some value, rest) =>
                  let members := Value.setMember name value members
                  match readComma rest with
                  | (none, rest) => failed .tokenObjectEnd rest
                  | (some true, rest) => .ok (some (.object members), rest)
                  | (some false, rest) => readMembers read turns name members rest
            else failed .tokenObjectEnd rest
      else failed .tokenObjectEnd rest

def readObject (read : List UInt8 → Result) (doc : List UInt8) : Result :=
  readMembers read (doc.length + 1) [] [] doc

def stackLimit : Nat := 1000

/-- The `switch` of `readValue`. -/
def valueAfter (reader : Reader) (read : List UInt8 → Result) (token : Token)
    (rest : List UInt8) : Result :=
  match token.type with
  | .tokenObjectBegin => readObject read rest
  | .tokenArrayBegin => readArray reader read rest
  | .tokenNumber => .ok (decodeNumber reader token.text, rest)
  | .tokenString => .ok ((decodeString token.text).map .string, rest)
  | .tokenTrue => .ok (some (.boolean true), rest)
  | .tokenFalse => .ok (some (.boolean false), rest)
  | .tokenNull => .ok (some .null, rest)
  | _ => .ok (none, rest)

/-- `readValue` with so many levels left until `stackLimit_g`. -/
def readValue (reader : Reader) : Nat → List UInt8 → Result
  | 0, _ => .error "Exceeded stackLimit in readValue()."
  | depth + 1, doc =>
      let (token, rest) := skipCommentTokens doc
      valueAfter reader (readValue reader depth) token rest

/-- `parse`: the root, or `none` for `false`.  What is behind the root does not matter. -/
def parse (reader : Reader) (doc : List UInt8) : Except String (Option Value) :=
  (readValue reader stackLimit doc).map Prod.fst

end Reader

end Tob
