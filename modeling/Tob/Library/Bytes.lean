import Mathlib

/-!
# Bytes

Numbers as bytes in network order, 32-bit words in the order of a little-endian host, and writes
into a buffer.
-/

namespace Tob

/-- The bytes of an ASCII text. -/
def ascii (text : String) : List UInt8 := text.toList.map fun c ↦ c.toNat.toUInt8

/-! ## Network order -/

-- The low `k` bytes of `n`, most significant first.
def beBytes : Nat → Nat → List UInt8
  | 0, _ => []
  | k + 1, n => UInt8.ofNat (n / 256 ^ k) :: beBytes k n

def beNat : List UInt8 → Nat
  | [] => 0
  | b :: rest => b.toNat * 256 ^ rest.length + beNat rest

@[simp] theorem length_beBytes (k n : Nat) : (beBytes k n).length = k := by
  induction k with
  | zero => rfl
  | succ k ih => rw [beBytes, List.length_cons, ih]

theorem beNat_beBytes_mod (k n : Nat) : beNat (beBytes k n) = n % 256 ^ k := by
  induction k with
  | zero => rw [beBytes, beNat, pow_zero, Nat.mod_one]
  | succ k ih =>
      rw [beBytes, beNat, length_beBytes, ih, Nat.mod_pow_succ, UInt8.toNat_ofNat']
      ring

theorem beNat_beBytes {k n : Nat} (h : n < 256 ^ k) : beNat (beBytes k n) = n := by
  rw [beNat_beBytes_mod, Nat.mod_eq_of_lt h]

/-- A 32-bit number comes back from its four bytes. -/
theorem ofNat_beNat_beBytes (w : UInt32) : UInt32.ofNat (beNat (beBytes 4 w.toNat)) = w := by
  rw [beNat_beBytes w.toNat_lt, UInt32.ofNat_toNat]

-- Only the low `k` bytes matter.
theorem beBytes_congr {k m n : Nat} (h : m % 256 ^ k = n % 256 ^ k) :
    beBytes k m = beBytes k n := by
  induction k with
  | zero => rfl
  | succ k ih =>
      have hlow : m % 256 ^ k = n % 256 ^ k := by
        have hdvd : 256 ^ k ∣ 256 ^ (k + 1) := Nat.pow_dvd_pow 256 (Nat.le_succ k)
        rw [← Nat.mod_mod_of_dvd m hdvd, h, Nat.mod_mod_of_dvd n hdvd]
      have hdigit : m / 256 ^ k % 256 = n / 256 ^ k % 256 := by
        rw [← Nat.mod_mul_right_div_self, ← Nat.mod_mul_right_div_self, ← pow_succ, h]
      have hbyte : UInt8.ofNat (m / 256 ^ k) = UInt8.ofNat (n / 256 ^ k) := by
        apply UInt8.toNat_inj.mp
        rw [UInt8.toNat_ofNat', UInt8.toNat_ofNat']
        exact hdigit
      rw [beBytes, beBytes, hbyte, ih hlow]

/-! ## Words of the host -/

def leWord (b₀ b₁ b₂ b₃ : UInt8) : UInt32 :=
  ⟨(b₃.toBitVec ++ b₂.toBitVec ++ b₁.toBitVec ++ b₀.toBitVec : BitVec (8 + 8 + 8 + 8))⟩

/-- Byte `i` of a word in memory. -/
def leByte (w : UInt32) (i : Nat) : UInt8 := ⟨w.toBitVec.extractLsb' (8 * i) 8⟩

def leBytes (w : UInt32) : List UInt8 := [leByte w 0, leByte w 1, leByte w 2, leByte w 3]

theorem leBytes_leWord (b₀ b₁ b₂ b₃ : UInt8) : leBytes (leWord b₀ b₁ b₂ b₃) = [b₀, b₁, b₂, b₃] := by
  have h₀ : leByte (leWord b₀ b₁ b₂ b₃) 0 = b₀ :=
    UInt8.eq_of_toBitVec_eq BitVec.extractLsb'_append_eq_right
  have h₁ : leByte (leWord b₀ b₁ b₂ b₃) 1 = b₁ := by
    apply UInt8.eq_of_toBitVec_eq
    show BitVec.extractLsb' 8 8 (b₃.toBitVec ++ b₂.toBitVec ++ b₁.toBitVec ++ b₀.toBitVec) = _
    rw [BitVec.extractLsb'_append_eq_of_le (by decide), BitVec.extractLsb'_append_eq_right]
  have h₂ : leByte (leWord b₀ b₁ b₂ b₃) 2 = b₂ := by
    apply UInt8.eq_of_toBitVec_eq
    show BitVec.extractLsb' 16 8 (b₃.toBitVec ++ b₂.toBitVec ++ b₁.toBitVec ++ b₀.toBitVec) = _
    rw [BitVec.extractLsb'_append_eq_of_le (by decide),
      BitVec.extractLsb'_append_eq_of_le (by decide), BitVec.extractLsb'_append_eq_right]
  have h₃ : leByte (leWord b₀ b₁ b₂ b₃) 3 = b₃ := by
    apply UInt8.eq_of_toBitVec_eq
    show BitVec.extractLsb' 24 8 (b₃.toBitVec ++ b₂.toBitVec ++ b₁.toBitVec ++ b₀.toBitVec) = _
    rw [BitVec.extractLsb'_append_eq_of_le (by decide),
      BitVec.extractLsb'_append_eq_of_le (by decide), BitVec.extractLsb'_append_eq_left]
  rw [leBytes, h₀, h₁, h₂, h₃]

theorem leByte_xor (v w : UInt32) (i : Nat) : leByte (v ^^^ w) i = leByte v i ^^^ leByte w i :=
  UInt8.eq_of_toBitVec_eq BitVec.extractLsb'_xor

/-! ## Buffers -/

-- Both are `none` where they leave the buffer.
def readAt (mem : List UInt8) (offset count : Nat) : Option (List UInt8) :=
  if offset + count ≤ mem.length then some ((mem.drop offset).take count) else none

def writeAt (mem : List UInt8) (offset : Nat) (bytes : List UInt8) : Option (List UInt8) :=
  if offset + bytes.length ≤ mem.length then
    some (mem.take offset ++ bytes ++ mem.drop (offset + bytes.length))
  else none

theorem readAt_append (before bytes after : List UInt8) :
    readAt (before ++ bytes ++ after) before.length bytes.length = some bytes := by
  rw [readAt, if_pos (by simp only [List.length_append]; omega), List.append_assoc,
    List.drop_left, List.take_left]

theorem writeAt_append (before after : List UInt8) {old bytes : List UInt8}
    (h : bytes.length = old.length) :
    writeAt (before ++ old ++ after) before.length bytes = some (before ++ bytes ++ after) := by
  have htake : (before ++ old ++ after).take before.length = before := by
    rw [List.append_assoc, List.take_left]
  have hdrop : (before ++ old ++ after).drop (before.length + old.length) = after := by
    rw [← List.length_append, List.drop_left]
  rw [writeAt, if_pos (by simp only [List.length_append]; omega), h, htake, hdrop]

theorem readAt_eq_some {mem bytes : List UInt8} {offset count : Nat}
    (h : readAt mem offset count = some bytes) :
    offset + count ≤ mem.length ∧ bytes.length = count ∧ bytes = (mem.drop offset).take count := by
  rw [readAt] at h
  by_cases hroom : offset + count ≤ mem.length
  · rw [if_pos hroom, Option.some_inj] at h
    refine ⟨hroom, ?_, h.symm⟩
    rw [← h, List.length_take, List.length_drop]
    omega
  · rw [if_neg hroom] at h
    cases h

-- A write leaves the size and what is behind it alone.
theorem length_writeAt {mem mem' bytes : List UInt8} {offset : Nat}
    (h : writeAt mem offset bytes = some mem') : mem'.length = mem.length := by
  rw [writeAt] at h
  by_cases hroom : offset + bytes.length ≤ mem.length
  · rw [if_pos hroom, Option.some_inj] at h
    rw [← h]
    simp only [List.length_append, List.length_take, List.length_drop]
    omega
  · rw [if_neg hroom] at h
    cases h

theorem drop_writeAt {mem mem' bytes : List UInt8} {offset count : Nat}
    (h : writeAt mem offset bytes = some mem') (hle : offset + bytes.length ≤ count) :
    mem'.drop count = mem.drop count := by
  rw [writeAt] at h
  by_cases hroom : offset + bytes.length ≤ mem.length
  · have hfront : (mem.take offset ++ bytes).length = offset + bytes.length := by
      rw [List.length_append, List.length_take]
      omega
    rw [if_pos hroom, Option.some_inj] at h
    rw [← h, List.drop_append, List.drop_eq_nil_of_le (by omega), List.nil_append, List.drop_drop,
      hfront, Nat.add_sub_cancel' hle]
  · rw [if_neg hroom] at h
    cases h

-- Fill a zeroed buffer from the front.
theorem writeAt_zeros {before bytes : List UInt8} {offset room : Nat}
    (hoffset : before.length = offset) (h : bytes.length ≤ room) :
    writeAt (before ++ List.replicate room 0) offset bytes =
      some (before ++ bytes ++ List.replicate (room - bytes.length) 0) := by
  have hsplit : List.replicate room (0 : UInt8) =
      List.replicate bytes.length 0 ++ List.replicate (room - bytes.length) 0 := by
    rw [List.replicate_append_replicate, Nat.add_sub_cancel' h]
  rw [hsplit, ← List.append_assoc, ← hoffset, writeAt_append _ _ (List.length_replicate ..).symm]

end Tob
