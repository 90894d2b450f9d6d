import Tob.Library.Bytes

/-!
# Masking

The two loops that mask and unmask a payload: whole words first, the last bytes one by one.  On a
little-endian host they are one byte-wise loop, and they undo themselves.
-/

namespace Tob

-- `for (; i < payload_length; ++i) payload[i] ^= ((uint8_t *)&mask_key)[i % 4];`
def maskTail (maskKey : UInt32) (i : Nat) : List UInt8 → List UInt8
  | [] => []
  | b :: rest => (b ^^^ leByte maskKey (i % 4)) :: maskTail maskKey (i + 1) rest

-- `for (; i + 4 < payload_length; i += 4) *(uint32_t *)(payload + i) ^= mask_key;`, then the tail.
-- There are more than four bytes left as long as the pattern matches.
def maskWords (maskKey : UInt32) (i : Nat) : List UInt8 → List UInt8
  | b₀ :: b₁ :: b₂ :: b₃ :: b₄ :: rest =>
      leBytes (leWord b₀ b₁ b₂ b₃ ^^^ maskKey) ++ maskWords maskKey (i + 4) (b₄ :: rest)
  | rest => maskTail maskKey i rest

def maskPayload (maskKey : UInt32) (payload : List UInt8) : List UInt8 :=
  maskWords maskKey 0 payload

@[simp] theorem length_maskTail (maskKey : UInt32) (i : Nat) (bytes : List UInt8) :
    (maskTail maskKey i bytes).length = bytes.length := by
  induction bytes generalizing i with
  | nil => rfl
  | cons b rest ih => rw [maskTail, List.length_cons, ih, List.length_cons]

theorem maskTail_maskTail (maskKey : UInt32) (i : Nat) (bytes : List UInt8) :
    maskTail maskKey i (maskTail maskKey i bytes) = bytes := by
  induction bytes generalizing i with
  | nil => rfl
  | cons b rest ih =>
      rw [maskTail, maskTail, ih, UInt8.xor_assoc, UInt8.xor_self, UInt8.xor_zero]

theorem leBytes_xor_leWord (b₀ b₁ b₂ b₃ : UInt8) (maskKey : UInt32) :
    leBytes (leWord b₀ b₁ b₂ b₃ ^^^ maskKey) =
      [b₀ ^^^ leByte maskKey 0, b₁ ^^^ leByte maskKey 1, b₂ ^^^ leByte maskKey 2,
        b₃ ^^^ leByte maskKey 3] := by
  have h := leBytes_leWord b₀ b₁ b₂ b₃
  simp only [leBytes, List.cons.injEq, and_true] at h
  simp only [leBytes, leByte_xor, h]

-- A word at a multiple of four takes the key's bytes in order.
theorem maskWords_eq_maskTail (maskKey : UInt32) (i : Nat) (bytes : List UInt8) (hi : i % 4 = 0) :
    maskWords maskKey i bytes = maskTail maskKey i bytes := by
  induction i, bytes using maskWords.induct with
  | case1 i b₀ b₁ b₂ b₃ b₄ rest ih =>
      rw [maskWords, ih (by omega), leBytes_xor_leWord]
      simp only [maskTail, List.cons_append, List.nil_append, hi, show (i + 1) % 4 = 1 by omega,
        show (i + 1 + 1) % 4 = 2 by omega, show (i + 1 + 1 + 1) % 4 = 3 by omega,
        show i + 1 + 1 + 1 + 1 = i + 4 by omega]
  | case2 i rest hshort => rw [maskWords]; exact hshort

theorem maskPayload_eq_maskTail (maskKey : UInt32) (payload : List UInt8) :
    maskPayload maskKey payload = maskTail maskKey 0 payload :=
  maskWords_eq_maskTail maskKey 0 payload rfl

@[simp] theorem length_maskPayload (maskKey : UInt32) (payload : List UInt8) :
    (maskPayload maskKey payload).length = payload.length := by
  rw [maskPayload_eq_maskTail, length_maskTail]

/-- Masking twice with one key gives the payload back. -/
theorem maskPayload_maskPayload (maskKey : UInt32) (payload : List UInt8) :
    maskPayload maskKey (maskPayload maskKey payload) = payload := by
  rw [maskPayload_eq_maskTail, maskPayload_eq_maskTail, maskTail_maskTail]

end Tob
