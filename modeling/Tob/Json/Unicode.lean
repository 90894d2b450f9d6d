import Tob.Json.Tokens

/-!
# Unicode in strings

However the characters of a string are spelled, as they are, by a letter behind a backslash or by
their code units, the reader stores them in UTF-8.
-/

namespace Tob.Reader

open JsonText

/-! ## UTF-8 -/

-- A prefix and the low bits below it.
theorem or_and_eq (i a n : Nat) : 2 ^ i * a ||| ((2 ^ i - 1) &&& n) = n % 2 ^ i + 2 ^ i * a := by
  rw [Nat.and_comm, Nat.and_two_pow_sub_one_eq_mod,
    ← Nat.two_pow_add_eq_or_of_lt (Nat.mod_lt n (Nat.two_pow_pos i)), Nat.add_comm]

theorem codePointToUTF8_eq (c : Char) : codePointToUTF8 c.toNat = String.utf8EncodeChar c := by
  have hlast (n : Nat) : 0x80 ||| (0x3f &&& n) = n % 0x40 + 0x80 := or_and_eq 6 2 n
  have htwo (n : Nat) : 0xC0 ||| (0x1f &&& n) = n % 0x20 + 0xc0 := or_and_eq 5 6 n
  have hthree (n : Nat) : 0xE0 ||| (0xf &&& n) = n % 0x10 + 0xe0 := or_and_eq 4 14 n
  have hfour (n : Nat) : 0xF0 ||| (0x7 &&& n) = n % 0x08 + 0xf0 := or_and_eq 3 30 n
  have hmax : c.val.toNat ≤ 0x10FFFF := by
    rcases c.valid with h | ⟨-, h⟩ <;> omega
  unfold codePointToUTF8 String.utf8EncodeChar
  simp only [Char.toNat, hlast, htwo, hthree, hfour, Nat.shiftRight_eq_div_pow, if_pos hmax]

theorem toList_byteArray (bytes : ByteArray) : bytes.toList = bytes.data.toList := by
  have hloop (i : Nat) (r : List UInt8) :
      ByteArray.toList.loop bytes i r = r.reverse ++ bytes.data.toList.drop i := by
    fun_induction ByteArray.toList.loop bytes i r with
    | case1 i r hlt ih =>
        have hi : i < bytes.data.toList.length := by simpa using hlt
        have hget : bytes.get! i = bytes.data.toList[i] := getElem!_pos bytes.data i hlt
        rw [ih, List.reverse_cons, List.append_assoc, List.singleton_append, hget,
          ← List.drop_eq_getElem_cons hi]
    | case2 i r hge =>
        have hi : bytes.data.toList.length ≤ i := by simpa using hge
        rw [List.drop_eq_nil_of_le hi, List.append_nil]
  exact hloop 0 []

/-- The bytes of a string are those of its characters. -/
theorem toUTF8_toList (s : String) : s.toUTF8.toList = s.toList.flatMap String.utf8EncodeChar := by
  rw [toList_byteArray]
  have h : s.toUTF8 = s.toList.utf8Encode := by
    rw [← String.toByteArray_ofList, String.ofList_toList]
    rfl
  rw [h, List.utf8Encode, List.toList_data_toByteArray]

/-! ## Spellings -/

/-- Characters as the text of a string may spell them. -/
inductive Spelled : List Char → List UInt8 → Prop
  | nil : Spelled [] []
  | plain {c : Char} {cs : List Char} {t : List UInt8} :
      c.toNat ≠ 34 → c.toNat ≠ 92 → Spelled cs t → Spelled (c :: cs) (String.utf8EncodeChar c ++ t)
  | letter {c : Char} {e b : UInt8} {cs : List Char} {t : List UInt8} :
      escaped e = some b → c.toNat = b.toNat → Spelled cs t → Spelled (c :: cs) (92 :: e :: t)
  | unit {c : Char} {cs : List Char} {ds t : List UInt8} :
      CodeUnit ds c.toNat → Spelled cs t → Spelled (c :: cs) (92 :: 117 :: (ds ++ t))
  | surrogates {c : Char} {cs : List Char} {ds es t : List UInt8} {high low : Nat} :
      CodeUnit ds high → CodeUnit es low → 0xD800 ≤ high → high < 0xDC00 → 0xDC00 ≤ low →
        low < 0xE000 → c.toNat = 0x10000 + (high - 0xD800) * 0x400 + (low - 0xDC00) →
        Spelled cs t → Spelled (c :: cs) (92 :: 117 :: (ds ++ 92 :: 117 :: (es ++ t)))

theorem isHigh_char (c : Char) : isHigh c.toNat = false := by
  have hvalid : c.toNat < 0xD800 ∨ 0xDFFF < c.toNat ∧ c.toNat < 0x110000 := c.valid
  rw [← Bool.not_eq_true, isHigh_iff]
  omega

theorem pair_of_surrogates {high low : Nat} (h : 0xD800 ≤ high) (h' : high < 0xDC00)
    (hl : 0xDC00 ≤ low) (hl' : low < 0xE000) :
    pair high low = 0x10000 + (high - 0xD800) * 0x400 + (low - 0xDC00) := by
  rw [pair]
  omega

theorem ofNat_ne {n : Nat} (hlt : n < 256) (h34 : n ≠ 34) (h92 : n ≠ 92) :
    UInt8.ofNat n ≠ 34 ∧ UInt8.ofNat n ≠ 92 := by
  simp only [ne_eq, ← UInt8.toNat_inj, UInt8.toNat_ofNat', Nat.mod_eq_of_lt hlt]
  exact ⟨h34, h92⟩

/-- Neither a quotation mark nor a backslash is a byte of another character. -/
theorem utf8EncodeChar_ne {c : Char} (h34 : c.toNat ≠ 34) (h92 : c.toNat ≠ 92) {b : UInt8}
    (hb : b ∈ String.utf8EncodeChar c) : b ≠ 34 ∧ b ≠ 92 := by
  have h34 : c.val.toNat ≠ 34 := h34
  have h92 : c.val.toNat ≠ 92 := h92
  rw [String.utf8EncodeChar] at hb
  split at hb
  · rw [List.mem_singleton.mp hb]
    exact ofNat_ne (by omega) h34 h92
  -- every byte of a longer encoding has its top bit set
  · have htop : ∃ n, 128 ≤ n ∧ n < 256 ∧ b = UInt8.ofNat n := by
      split at hb
      · simp only [List.mem_cons, List.not_mem_nil, or_false] at hb
        rcases hb with rfl | rfl <;> exact ⟨_, by omega, by omega, rfl⟩
      · split at hb
        · simp only [List.mem_cons, List.not_mem_nil, or_false] at hb
          rcases hb with rfl | rfl | rfl <;> exact ⟨_, by omega, by omega, rfl⟩
        · simp only [List.mem_cons, List.not_mem_nil, or_false] at hb
          rcases hb with rfl | rfl | rfl | rfl <;> exact ⟨_, by omega, by omega, rfl⟩
    rcases htop with ⟨n, hle, hlt, rfl⟩
    exact ofNat_ne hlt (by omega) (by omega)

theorem escaped_lt {e b : UInt8} (h : escaped e = some b) : b.toNat ≤ 0x7f := by
  unfold escaped at h
  split_ifs at h <;> cases h <;> decide

theorem utf8EncodeChar_of_escaped {c : Char} {e b : UInt8} (he : escaped e = some b)
    (hc : c.toNat = b.toNat) : String.utf8EncodeChar c = [b] := by
  have hv : c.val.toNat = b.toNat := hc
  rw [String.utf8EncodeChar, hv, if_pos (escaped_lt he), UInt8.ofNat_toNat]

theorem chars_plain {c : Char} (h34 : c.toNat ≠ 34) (h92 : c.toNat ≠ 92) {utf8 : Nat → List UInt8}
    {t s : List UInt8} (h : Chars utf8 t s) :
    Chars utf8 (String.utf8EncodeChar c ++ t) (String.utf8EncodeChar c ++ s) := by
  have hbytes : ∀ b ∈ String.utf8EncodeChar c, b ≠ 34 ∧ b ≠ 92 := fun b hb ↦
    utf8EncodeChar_ne h34 h92 hb
  generalize String.utf8EncodeChar c = bytes at hbytes
  induction bytes with
  | nil => exact h
  | cons b bytes ih =>
      have hb := hbytes b List.mem_cons_self
      exact .plain hb.1 hb.2 (ih fun b hb ↦ hbytes b (List.mem_cons_of_mem _ hb))

theorem chars_of_spelled {cs : List Char} {t : List UInt8} (h : Spelled cs t) :
    Chars codePointToUTF8 t (cs.flatMap String.utf8EncodeChar) := by
  induction h with
  | nil => exact .nil
  | plain h34 h92 _ ih => exact chars_plain h34 h92 ih
  | letter he hc _ ih =>
      rw [List.flatMap_cons, utf8EncodeChar_of_escaped he hc]
      exact .escape he ih
  | @unit c cs ds t hu _ ih =>
      have hchars := Chars.unit hu (isHigh_char c) ih
      rwa [codePointToUTF8_eq] at hchars
  | @surrogates c cs ds es t high low hh hl h1 h2 h3 h4 hc _ ih =>
      have hchars := Chars.pair hh (isHigh_iff.mpr ⟨h1, by omega⟩) hl ih
      rwa [pair_of_surrogates h1 h2 h3 h4, ← hc, codePointToUTF8_eq] at hchars

/-- However its characters are spelled, a string is read to its UTF-8 and up to its end. -/
theorem readValue_spelled (reader : Reader) (depth : Nat) (s : String) {t : List UInt8}
    (h : Spelled s.toList t) (rest : List UInt8) :
    readValue reader (depth + 1) (34 :: (t ++ 34 :: rest)) =
      .ok (some (.string s.toUTF8.toList), rest) := by
  have hchars := chars_of_spelled h
  have htoken := readToken_string hchars.quoted rest
  rw [readValue, skipCommentTokens_of_ne (by simp [htoken]), htoken]
  simp only [valueAfter, decodeString_of_chars hchars, toUTF8_toList, Option.map_some]

-- A clef spelled by its two surrogates, `\ud834\udd1e`.
theorem readValue_spelled_example :
    readValue ⟨fun _ ↦ none, 0⟩ 1
        (34 :: ([92, 117, 100, 56, 51, 52, 92, 117, 100, 100, 49, 101] ++ 34 :: [44])) =
      .ok (some (.string (String.ofList [Char.ofNat 0x1D11E]).toUTF8.toList), [44]) := by
  have hhigh : CodeUnit [100, 56, 51, 52] 0xD834 := ⟨rfl, rfl⟩
  have hlow : CodeUnit [100, 100, 49, 101] 0xDD1E := ⟨rfl, rfl⟩
  have hclef : (Char.ofNat 0x1D11E).toNat =
      0x10000 + (0xD834 - 0xD800) * 0x400 + (0xDD1E - 0xDC00) := by decide
  have hspelled := Spelled.surrogates hhigh hlow (by decide) (by decide) (by decide) (by decide)
    hclef .nil
  apply readValue_spelled
  rw [String.toList_ofList]
  exact hspelled

end Tob.Reader
